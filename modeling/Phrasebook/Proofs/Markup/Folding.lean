import Phrasebook.Markup.Render

/-!
# Rendering as a fold

`render` works on a stack of frames.  What it computes is a recursion over the forest, with the
effects of the transforms in the same order (`fold`, `render_eq_fold`): a frame stands for the
joined content of what it has rendered and of what is pending, and the frames around it wait for
that content (`unwind`, `renderFrames_eq_unwind`).  The transforms run once for each element that
has one, the elements below it first (`postorder`, `Node.run_fold_traced`).
-/

namespace Phrasebook.Markup

section
variable {m : Type → Type} [Monad m] {γ : Type} [Content γ]
  (tag? : String → Option (γ → m γ))

/-! ### The recursion -/

mutual

/-- The content of a node: a text is lifted, and the joined contents of its children go through the
transform for the name of an element, or stay as they are if there is none. -/
def Node.fold : Node → m γ
  | .text s => pure (Content.ofText s)
  | .element name children => do
      let parts ← foldParts children
      match tag? name with
      | some f => f (Content.concat parts)
      | none => pure (Content.concat parts)

/-- The contents of the nodes of a forest, from left to right. -/
def foldParts : List Node → m (List γ)
  | [] => pure []
  | n :: ns => do
      let part ← n.fold
      let parts ← foldParts ns
      return part :: parts

end

/-- The content of a forest. -/
def fold (nodes : List Node) : m γ :=
  Content.concat <$> foldParts tag? nodes

/-! ### Frames -/

/-- The joined content of a frame: what is rendered, and then what is pending. -/
def RenderFrame.joined (frame : RenderFrame γ) : m γ :=
  (fun parts => Content.concat (frame.parts.reverse ++ parts)) <$> foldParts tag? frame.pending

/-- A frame and the frames around it: each one takes the content of the one inside. -/
def unwind : RenderFrame γ → List (RenderFrame γ) → m γ
  | frame, [] => frame.joined tag?
  | frame, parent :: stack => do
      let inner ← frame.joined tag?
      let content ← transform tag? frame.name? inner
      unwind { parent with parts := content :: parent.parts } stack

variable [LawfulMonad m]

theorem joined_nil (name? : Option String) (parts : List γ) :
    RenderFrame.joined tag? ⟨name?, [], parts⟩ = pure (Content.concat parts.reverse) := by
  simp only [RenderFrame.joined, foldParts, map_pure, List.append_nil]

theorem joined_cons (name? : Option String) (n : Node) (pending : List Node) (parts : List γ) :
    RenderFrame.joined tag? ⟨name?, n :: pending, parts⟩ =
      n.fold tag? >>= fun part => RenderFrame.joined tag? ⟨name?, pending, part :: parts⟩ := by
  simp only [RenderFrame.joined, foldParts, map_bind, Functor.map_map, List.reverse_cons,
    List.append_assoc, List.singleton_append, bind_pure_comp]

theorem fold_element (name : String) (children : List Node) :
    Node.fold tag? (.element name children) =
      RenderFrame.joined tag? ⟨some name, children, []⟩ >>= transform tag? (some name) := by
  rw [Node.fold, RenderFrame.joined, bind_map_left]
  rfl

/-- The first pending node of a frame is rendered before everything else. -/
theorem unwind_cons (name? : Option String) (n : Node) (pending : List Node) (parts : List γ)
    (stack : List (RenderFrame γ)) :
    unwind tag? ⟨name?, n :: pending, parts⟩ stack =
      n.fold tag? >>= fun part => unwind tag? ⟨name?, pending, part :: parts⟩ stack := by
  cases stack with
  | nil => exact joined_cons tag? name? n pending parts
  | cons parent stack => simp only [unwind, joined_cons, bind_assoc]

/-- Rendering a frame gives what the frame stands for. -/
theorem renderFrames_eq_unwind (frame : RenderFrame γ) (stack : List (RenderFrame γ)) :
    renderFrames tag? frame stack = unwind tag? frame stack := by
  fun_induction renderFrames tag? frame stack with
  | case1 name? s pending parts stack ih =>
    rw [ih, unwind_cons, Node.fold.eq_1, pure_bind]
  | case2 name? name children pending parts stack ih =>
    rw [ih, unwind_cons, fold_element, bind_assoc]
    rfl
  | case3 name? parts => rw [unwind, joined_nil]
  | case4 name? parts parent stack ih =>
    rw [unwind, joined_nil, pure_bind]
    exact bind_congr ih

theorem render_eq_fold (nodes : List Node) : render tag? nodes = fold tag? nodes := by
  rw [render, renderFrames_eq_unwind]
  rfl

end

/-! ### Calls of transforms -/

mutual

/-- The names of the elements, those below an element before its own. -/
def Node.postorder : Node → List String
  | .text _ => []
  | .element name children => Markup.postorder children ++ [name]

def postorder : List Node → List String
  | [] => []
  | n :: ns => n.postorder ++ postorder ns

end

section
variable {m : Type → Type} [Monad m] {γ : Type} [Content γ]
  (tag? : String → Option (γ → m γ))

/-- The transforms, each of which writes its name down when it is called. -/
def traced (name : String) : Option (γ → StateT (List String) m γ) :=
  (tag? name).map fun f inner => do
    modify (· ++ [name])
    f inner

/-- The names for which there is a transform. -/
def registered (names : List String) : List String :=
  names.filter fun name => (tag? name).isSome

omit [Monad m] [Content γ] in
theorem registered_append (xs ys : List String) :
    registered tag? (xs ++ ys) = registered tag? xs ++ registered tag? ys :=
  List.filter_append xs ys

variable [LawfulMonad m]

mutual

theorem Node.run_fold_traced (n : Node) (calls : List String) :
    (n.fold (traced tag?)).run calls =
      (fun part => (part, calls ++ registered tag? n.postorder)) <$> n.fold tag? := by
  cases n with
  | text s =>
    simp only [Node.fold, Node.postorder, registered, List.filter_nil, List.append_nil,
      StateT.run_pure, map_pure]
  | element name children =>
    rw [Node.fold, Node.fold, StateT.run_bind, run_foldParts_traced children calls, map_bind,
      bind_map_left]
    refine bind_congr fun parts => ?_
    rw [Node.postorder, registered_append]
    cases h : tag? name with
    | none => simp [traced, registered, h]
    | some f => simp [traced, registered, h]

theorem run_foldParts_traced (nodes : List Node) (calls : List String) :
    (foldParts (traced tag?) nodes).run calls =
      (fun parts => (parts, calls ++ registered tag? (postorder nodes))) <$>
        foldParts tag? nodes := by
  cases nodes with
  | nil =>
    simp only [foldParts, postorder, registered, List.filter_nil, List.append_nil,
      StateT.run_pure, map_pure]
  | cons n ns =>
    have hns := run_foldParts_traced ns (calls ++ registered tag? n.postorder)
    simp only [foldParts, postorder, registered_append, StateT.run_bind, StateT.run_map,
      n.run_fold_traced calls, hns, bind_map_left, map_bind, bind_pure_comp, Functor.map_map,
      List.append_assoc]

end

/-- Whatever the transforms do, `render` does what the recursion over the forest does, and it calls
the transform of every element that has one exactly once, in postorder. -/
theorem render_postorder (nodes : List Node) (calls : List String) :
    render tag? nodes = fold tag? nodes ∧
      (render (traced tag?) nodes).run calls =
        (fun content => (content, calls ++ registered tag? (postorder nodes))) <$>
          render tag? nodes := by
  refine ⟨render_eq_fold tag? nodes, ?_⟩
  rw [render_eq_fold, render_eq_fold, fold, fold, StateT.run_map, run_foldParts_traced,
    Functor.map_map, Functor.map_map]

end

/-- Brackets around what is bold, and a line break for `br`. -/
def plainTags : String → Option (String → Id String)
  | "b" => some fun inner => pure ("[" ++ inner ++ "]")
  | "br" => some fun _ => pure "\n"
  | _ => none

/-- Bold elements inside one another, the inner one empty, with a break and an unknown element. -/
def boldAndBreaks : List Node :=
  [.text "a", .element "b" [.element "br" [], .element "u" [.text "x"], .element "b" []],
    .element "br" []]

/-- The inner elements are rendered before the outer ones, and the unknown one shows its text. -/
theorem render_postorder_of_boldAndBreaks :
    LawfulMonad Id ∧ Id.run (render plainTags boldAndBreaks) = "a[\nx[]]\n" ∧
      Id.run ((render (traced plainTags) boldAndBreaks).run ["u"]) =
        ("a[\nx[]]\n", ["u", "br", "b", "b", "br"]) := by
  obtain ⟨hfold, htrace⟩ := render_postorder plainTags boldAndBreaks ["u"]
  have hcontent : Id.run (render plainTags boldAndBreaks) = "a[\nx[]]\n" := by
    rw [hfold]
    decide
  refine ⟨inferInstance, hcontent, ?_⟩
  rw [htrace, Id.run_map, hcontent]
  rfl

end Phrasebook.Markup

import Phrasebook.Format.Message
import Phrasebook.Proofs.Format.Records
import Phrasebook.Proofs.Markup.Folding

/-!
# Messages in two types of content

A map between two types of content that keeps texts and joins (`IsContentMap`) takes what a message
gives in the one to what it gives in the other, if it takes the transforms of the one record to
those of the other (`Values.Maps`).  So a message may be rendered into structured content that is
flattened afterwards, or formatted to a text at once.  For forests this is `map_render`.
-/

namespace Phrasebook.Markup

/-! ### Forests -/

section
variable {m : Type → Type} [Monad m] {γ δ : Type} [Content γ] [Content δ] {h : γ → δ}
  {tag? : String → Option (γ → m γ)} {tag'? : String → Option (δ → m δ)}

/-- The map takes lifted texts to lifted texts and joins to joins. -/
structure IsContentMap (h : γ → δ) : Prop where
  ofText : ∀ s, h (Content.ofText s) = Content.ofText s
  concat : ∀ parts, h (Content.concat parts) = Content.concat (parts.map h)

/-- The map may be applied after the one transform or before the other. -/
def Commutes (h : γ → δ) (f : γ → m γ) (g : δ → m δ) : Prop :=
  ∀ inner, h <$> f inner = g (h inner)

variable [LawfulMonad m]

mutual

theorem Node.map_fold (hh : IsContentMap h)
    (htag : ∀ name, Option.Rel (Commutes h) (tag? name) (tag'? name)) (n : Node) :
    h <$> n.fold tag? = n.fold tag'? := by
  cases n with
  | text s => rw [Node.fold, Node.fold, map_pure, hh.ofText]
  | element name children =>
    have hname := htag name
    rw [Node.fold, Node.fold, ← map_foldParts hh htag children, map_bind, bind_map_left]
    generalize tag? name = f?, tag'? name = g? at hname ⊢
    refine bind_congr fun parts => ?_
    cases hname with
    | none => rw [map_pure, hh.concat]
    | some hf => rw [hf, hh.concat]

theorem map_foldParts (hh : IsContentMap h)
    (htag : ∀ name, Option.Rel (Commutes h) (tag? name) (tag'? name)) (nodes : List Node) :
    List.map h <$> foldParts tag? nodes = foldParts tag'? nodes := by
  cases nodes with
  | nil => rw [foldParts, foldParts, map_pure, List.map_nil]
  | cons n ns =>
    rw [foldParts, foldParts, ← n.map_fold hh htag, ← map_foldParts hh htag ns]
    simp only [map_bind, bind_map_left, map_pure, List.map_cons]

end

theorem map_render (hh : IsContentMap h)
    (htag : ∀ name, Option.Rel (Commutes h) (tag? name) (tag'? name)) (nodes : List Node) :
    h <$> render tag? nodes = render tag'? nodes := by
  rw [render_eq_fold, render_eq_fold, fold, fold, ← map_foldParts hh htag, Functor.map_map,
    Functor.map_map]
  simp only [hh.concat]

end

end Phrasebook.Markup

namespace Phrasebook

open Markup (Content Commutes IsContentMap Node)

/-! ### Records -/

section
variable {m : Type → Type} [Monad m] {γ δ : Type} {h : γ → δ} {vs : Values (γ → m γ)}
  {ws : Values (δ → m δ)}

/-- The same scalar, or transforms that commute with the map. -/
inductive Binding.Maps (h : γ → δ) : Binding (γ → m γ) → Binding (δ → m δ) → Prop
  | scalar (s : Scalar) : Maps h (.scalar s) (.scalar s)
  | transform {f : γ → m γ} {g : δ → m δ} :
      Commutes h f g → Maps h (.transform f) (.transform g)

/-- The records bind the same keys, and to what the map makes the same.  Their orders may differ. -/
def Values.Maps (h : γ → δ) (vs : Values (γ → m γ)) (ws : Values (δ → m δ)) : Prop :=
  ∀ key, Option.Rel (Binding.Maps h) (vs.get? key) (ws.get? key)

namespace Values

theorem Maps.get?_scalars (hvs : vs.Maps h ws) (key : String) :
    vs.scalars.get? key = ws.scalars.get? key := by
  have hkey := hvs key
  rw [Values.get?_scalars, Values.get?_scalars]
  generalize vs.get? key = b?, ws.get? key = c? at hkey ⊢
  cases hkey with
  | none => rfl
  | some hb => cases hb <;> rfl

theorem Maps.get?_transforms (hvs : vs.Maps h ws) (key : String) :
    Option.Rel (Commutes h) (vs.transforms.get? key) (ws.transforms.get? key) := by
  have hkey := hvs key
  rw [Values.get?_transforms, Values.get?_transforms]
  generalize vs.get? key = b?, ws.get? key = c? at hkey ⊢
  cases hkey with
  | none => exact .none
  | some hb =>
    cases hb with
    | scalar s => exact .none
    | transform hf => exact .some hf

theorem Maps.isEmpty_transforms (hvs : vs.Maps h ws) :
    vs.transforms.isEmpty = ws.transforms.isEmpty := by
  refine Table.isEmpty_congr fun key => ?_
  have hkey := hvs.get?_transforms key
  generalize vs.transforms.get? key = f?, ws.transforms.get? key = g? at hkey ⊢
  cases hkey <;> rfl

end Values

/-! ### Messages -/

/-- What a message gives in the one content is mapped to what it gives in the other, with the same
effects. -/
theorem Message.map_rich [LawfulMonad m] [Content γ] [Content δ] (hh : IsContentMap h)
    (hvs : vs.Maps h ws) (message : Message) : h <$> message.rich vs = message.rich ws := by
  have htext : Template.substitute message.text vs.scalars =
      Template.substitute message.text ws.scalars :=
    Template.substitute_congr hvs.get?_scalars message.text
  rw [rich, rich, htext, hvs.isEmpty_transforms]
  split
  · rw [map_pure, hh.ofText]
  · exact Markup.map_render hh hvs.get?_transforms _

end

/-- A forest is content itself. -/
instance : Content (List Node) where
  ofText s := [.text s]
  concat := List.flatten

namespace Markup

mutual

/-- The text that a node is written as. -/
def Node.html : Node → String
  | .text s => s
  | .element name children => "<" ++ name ++ ">" ++ Markup.html children ++ "</" ++ name ++ ">"

def html : List Node → String
  | [] => ""
  | n :: ns => n.html ++ html ns

end

theorem html_append (ns ms : List Node) : html (ns ++ ms) = html ns ++ html ms := by
  induction ns with
  | nil => rw [List.nil_append, html, String.empty_append]
  | cons n ns ih => rw [List.cons_append, html, html, ih, String.append_assoc]

theorem isContentMap_html : IsContentMap html where
  ofText s := by
    show html [.text s] = s
    rw [html, html, Node.html, String.append_empty]
  concat parts := by
    show html parts.flatten = String.join (parts.map html)
    induction parts with
    | nil => rw [List.flatten_nil, html, List.map_nil, String.join_nil]
    | cons ns parts ih => rw [List.flatten_cons, html_append, ih, List.map_cons, String.join_cons]

end Markup

/-- A name with markup in it, and what is bold as a `strong` element. -/
def strongNodes : Values (List Node → Id (List Node)) :=
  (Values.ofScalars [("name", .text "<b>Ada</b>")]).withTransform "b" fun inner =>
    pure [.element "strong" inner]

/-- The same for texts, in another order. -/
def strongTexts : Values (String → Id String) :=
  Values.withScalar
    (Values.withTransform Table.empty "b" fun inner => pure ("<strong>" ++ inner ++ "</strong>"))
    "name" (.text "<b>Ada</b>")

theorem commutes_strong :
    Commutes (m := Id) Markup.html (fun inner => pure [.element "strong" inner])
      (fun inner => pure ("<strong>" ++ inner ++ "</strong>")) := by
  intro inner
  show Markup.html [.element "strong" inner] = "<strong>" ++ Markup.html inner ++ "</strong>"
  rw [Markup.html, Markup.html, Node.html, String.append_empty, String.append_assoc,
    String.append_assoc]
  rfl

theorem strongNodes_maps : strongNodes.Maps Markup.html strongTexts := by
  intro key
  simp only [strongNodes, strongTexts, Values.ofScalars, Values.withTransform, Values.withScalar,
    List.foldl_cons, List.foldl_nil, Table.get?_insert, Table.get?_empty]
  by_cases hb : key = "b"
  · rw [if_pos hb, if_neg (by simp [hb]), if_pos hb]
    exact .some (.transform commutes_strong)
  · rw [if_neg hb, if_neg hb]
    split
    · exact .some (.scalar _)
    · exact .none

/-- A name that is shown as bold, and a tag that no record binds. -/
def boldGreeting : Message :=
  ⟨"hello {{name}}<br/>"⟩

/-- The greeting is written after it was rendered, or formatted at once. -/
theorem Message.map_rich_of_boldGreeting :
    LawfulMonad Id ∧ IsContentMap Markup.html ∧ strongNodes.Maps Markup.html strongTexts ∧
      Markup.html (Id.run (boldGreeting.rich strongNodes)) =
        Id.run (boldGreeting.format strongTexts) ∧
      Id.run (boldGreeting.format strongTexts) = "hello <strong>Ada</strong>" := by
  have htext : Template.substitute boldGreeting.text strongTexts.scalars =
      "hello <b>Ada</b><br/>" := by decide +kernel
  have htokens : Markup.scan "hello <b>Ada</b><br/>" =
      [⟨0, "hello ", .text⟩, ⟨6, "<b>", .opening "b"⟩, ⟨9, "Ada", .text⟩,
        ⟨12, "</b>", .closing "b"⟩, ⟨16, "<br/>", .selfClosing "br"⟩] := by decide +kernel
  have hnodes : Markup.parse "hello <b>Ada</b><br/>" =
      [.text "hello ", .element "b" [.text "Ada"], .element "br" []] := by
    rw [Markup.parse, Markup.Tree.parse, htokens]
    rfl
  refine ⟨inferInstance, Markup.isContentMap_html, strongNodes_maps,
    map_rich Markup.isContentMap_html strongNodes_maps boldGreeting, ?_⟩
  rw [format, rich, htext, hnodes, Markup.render_eq_fold]
  decide +kernel

end Phrasebook

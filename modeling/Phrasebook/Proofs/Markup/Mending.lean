import Phrasebook.Proofs.Markup.Nesting

/-!
# Mending tags

What tags do to one another is said here without a tree (`Effect`): which elements are open, which
of them a closing tag closes and which it only ends, and what is reported.  Mending leaves out the
closing tags that close nothing and adds one for each element that is ended (`mended`, `reports`).
Mended tokens are well nested, whatever the tokens were, and denote the forest that the builder
makes of these (`denotes_mended`); its warnings are the reports (`Tree.warnings_ofTokens`).
-/

namespace Phrasebook.Markup

/-! ### Open elements -/

/-- An element whose opening tag was read, known by the name and the place of that tag. -/
structure OpenTag where
  name : String
  span : Span
deriving DecidableEq, Repr

def OpenTag.unclosed (e : OpenTag) : Warning :=
  ⟨.unclosedElement, e.name, e.span⟩

/-- The closing tag that is missing where the warning is given.  It has no place of its own. -/
def Warning.closingTag (w : Warning) : Token :=
  ⟨w.span.stop, "</" ++ w.name ++ ">", .closing w.name⟩

/-- The open elements after one more token, innermost first.  A closing tag closes the innermost
element of its name and ends all elements inside it. -/
def openAfter (opened : List OpenTag) (t : Token) : List OpenTag :=
  match t.shape with
  | .opening name => ⟨name, t.span⟩ :: opened
  | .closing name =>
      match opened.dropWhile (·.name ≠ name) with
      | _ :: outer => outer
      | [] => opened
  | .text | .selfClosing _ => opened

/-- The element that a token closes, if it closes one. -/
def closedAt (opened : List OpenTag) (t : Token) : List OpenTag :=
  match t.shape with
  | .closing name => (opened.dropWhile (·.name ≠ name)).take 1
  | .text | .opening _ | .selfClosing _ => []

/-- What is reported at a token. -/
def reportsAt (opened : List OpenTag) (t : Token) : List Warning :=
  match t.shape with
  | .closing name =>
      match opened.dropWhile (·.name ≠ name) with
      | _ :: _ => (opened.takeWhile (·.name ≠ name)).map OpenTag.unclosed
      | [] => [⟨.unexpectedClosingTag, name, t.span⟩]
  | .text | .opening _ | .selfClosing _ => []

/-- What mending makes of a token. -/
def mendedAt (opened : List OpenTag) (t : Token) : List Token :=
  match t.shape with
  | .closing name =>
      match opened.dropWhile (·.name ≠ name) with
      | _ :: _ => (opened.takeWhile (·.name ≠ name)).map (·.unclosed.closingTag) ++ [t]
      | [] => []
  | .text | .opening _ | .selfClosing _ => [t]

/-- What a token does to the open elements, with all that is said of it. -/
inductive Effect (opened : List OpenTag) (t : Token) : Prop
  | plain : (t.shape = .text ∨ ∃ name, t.shape = .selfClosing name) →
      openAfter opened t = opened → closedAt opened t = [] → reportsAt opened t = [] →
      mendedAt opened t = [t] → Effect opened t
  | opening {name : String} : t.shape = .opening name →
      openAfter opened t = ⟨name, t.span⟩ :: opened → closedAt opened t = [] →
      reportsAt opened t = [] → mendedAt opened t = [t] → Effect opened t
  | stray {name : String} : t.shape = .closing name → (∀ e ∈ opened, e.name ≠ name) →
      openAfter opened t = opened → closedAt opened t = [] →
      reportsAt opened t = [⟨.unexpectedClosingTag, name, t.span⟩] → mendedAt opened t = [] →
      Effect opened t
  | closing {inner outer : List OpenTag} {e : OpenTag} : t.shape = .closing e.name →
      opened = inner ++ e :: outer → (∀ d ∈ inner, d.name ≠ e.name) →
      openAfter opened t = outer → closedAt opened t = [e] →
      reportsAt opened t = inner.map OpenTag.unclosed →
      mendedAt opened t = inner.map (·.unclosed.closingTag) ++ [t] → Effect opened t

theorem effect (opened : List OpenTag) (t : Token) : Effect opened t := by
  cases ht : t.shape with
  | text =>
    refine .plain (.inl ht) ?_ ?_ ?_ ?_ <;>
      simp only [openAfter, closedAt, reportsAt, mendedAt, ht]
  | selfClosing name =>
    refine .plain (.inr ⟨name, ht⟩) ?_ ?_ ?_ ?_ <;>
      simp only [openAfter, closedAt, reportsAt, mendedAt, ht]
  | opening name =>
    refine .opening ht ?_ ?_ ?_ ?_ <;>
      simp only [openAfter, closedAt, reportsAt, mendedAt, ht]
  | closing name =>
    have hsplit : opened.takeWhile (·.name ≠ name) ++ opened.dropWhile (·.name ≠ name) = opened :=
      List.takeWhile_append_dropWhile
    have hinner : ∀ d ∈ opened.takeWhile (·.name ≠ name), d.name ≠ name :=
      fun d hd => of_decide_eq_true (List.all_eq_true.1 List.all_takeWhile d hd)
    cases hdrop : opened.dropWhile (·.name ≠ name) with
    | nil =>
      rw [hdrop, List.append_nil] at hsplit
      refine .stray ht (hsplit ▸ hinner) ?_ ?_ ?_ ?_ <;>
        simp only [openAfter, closedAt, reportsAt, mendedAt, ht, hdrop, List.take_nil]
    | cons e outer =>
      have he : e.name = name := by
        have hhead := List.head?_dropWhile_not (·.name ≠ name) opened
        rw [hdrop] at hhead
        simpa using hhead
      subst he
      rw [hdrop] at hsplit
      refine .closing ht hsplit.symm hinner ?_ ?_ ?_ ?_ <;>
        simp only [openAfter, closedAt, reportsAt, mendedAt, ht, hdrop, List.take_succ_cons,
          List.take_zero]

/-! ### Runs -/

/-- All that is reported from some open elements on.  What is open at the end was not closed. -/
def reports : List OpenTag → List Token → List Warning
  | opened, [] => opened.map OpenTag.unclosed
  | opened, t :: ts => reportsAt opened t ++ reports (openAfter opened t) ts

def mended : List OpenTag → List Token → List Token
  | opened, [] => opened.map (·.unclosed.closingTag)
  | opened, t :: ts => mendedAt opened t ++ mended (openAfter opened t) ts

/-! ### The builder reports -/

namespace Builder

def openTags (b : Builder) : List OpenTag :=
  b.stack.map fun e => ⟨e.name, e.span⟩

section
variable {b : Builder} {t : Token} {ts : List Token} {inner outer : List OpenTag} {e : OpenTag}

@[simp] theorem openTags_add (b : Builder) (n : Node) : (b.add n).openTags = b.openTags := by
  obtain ⟨stack, roots, warnings⟩ := b
  cases stack <;> rfl

@[simp] theorem warnings_add (b : Builder) (n : Node) : (b.add n).warnings = b.warnings := by
  obtain ⟨stack, roots, warnings⟩ := b
  cases stack <;> rfl

@[simp] theorem openTags_pop (b : Builder) : b.pop.openTags = b.openTags.tail := by
  obtain ⟨stack, roots, warnings⟩ := b
  cases stack with
  | nil => rfl
  | cons e stack => exact openTags_add _ _

@[simp] theorem warnings_pop (b : Builder) : b.pop.warnings = b.warnings := by
  obtain ⟨stack, roots, warnings⟩ := b
  cases stack with
  | nil => rfl
  | cons e stack => exact warnings_add _ _

theorem popUnclosed_eq (h : b.openTags = e :: outer) : b.popUnclosed = (b.warn e.unclosed).pop := by
  obtain ⟨stack, roots, warnings⟩ := b
  cases stack with
  | nil => cases h
  | cons o stack =>
    cases h
    rfl

theorem openTags_popUnclosed (h : b.openTags = e :: outer) : b.popUnclosed.openTags = outer := by
  rw [popUnclosed_eq h, openTags_pop]
  show b.openTags.tail = outer
  rw [h]
  rfl

theorem openTags_closeInner (h : b.openTags = inner ++ outer) :
    (b.closeInner inner.length).openTags = outer := by
  induction inner generalizing b with
  | nil => exact h
  | cons e inner ih => exact ih (openTags_popUnclosed h)

theorem warnings_closeInner (h : b.openTags = inner ++ outer) :
    (b.closeInner inner.length).warnings =
      (inner.map OpenTag.unclosed).reverse ++ b.warnings := by
  induction inner generalizing b with
  | nil => rfl
  | cons e inner ih =>
    rw [List.length_cons, closeInner, ih (openTags_popUnclosed h), popUnclosed_eq h, warnings_pop]
    simp [warn]

theorem findIdx?_stack (b : Builder) (name : String) :
    b.stack.findIdx? (·.name = name) = b.openTags.findIdx? (·.name = name) := by
  rw [openTags, List.findIdx?_map]
  rfl

theorem step_of_stray {name : String} (ht : t.shape = .closing name)
    (h : ∀ e ∈ b.openTags, e.name ≠ name) :
    b.step t = b.warn ⟨.unexpectedClosingTag, name, t.span⟩ := by
  refine step_stray ht ?_
  rw [findIdx?_stack, List.findIdx?_eq_none_iff]
  intro e he
  exact decide_eq_false (h e he)

theorem step_of_closing (ht : t.shape = .closing e.name) (h : b.openTags = inner ++ e :: outer)
    (hinner : ∀ d ∈ inner, d.name ≠ e.name) : b.step t = (b.closeInner inner.length).pop := by
  refine step_closing ht ?_
  have hnone : inner.findIdx? (·.name = e.name) = none := by
    rw [List.findIdx?_eq_none_iff]
    intro d hd
    exact decide_eq_false (hinner d hd)
  rw [findIdx?_stack, h, List.findIdx?_append, hnone]
  simp [List.findIdx?_cons]

theorem openTags_step (b : Builder) (t : Token) :
    (b.step t).openTags = openAfter b.openTags t := by
  cases effect b.openTags t with
  | plain ht hopen =>
    rw [hopen]
    rcases ht with ht | ⟨name, ht⟩
    · rw [step_text ht, openTags_add]
    · rw [step_selfClosing ht, openTags_add]
  | opening ht hopen =>
    rw [hopen, step_opening ht]
    rfl
  | stray ht hnone hopen =>
    rw [hopen, step_of_stray ht hnone]
    rfl
  | closing ht hsplit hinner hopen =>
    rw [hopen, step_of_closing ht hsplit hinner, openTags_pop, openTags_closeInner hsplit]
    rfl

theorem openTags_run (b : Builder) (ts : List Token) :
    (ts.foldl step b).openTags = ts.foldl openAfter b.openTags := by
  induction ts generalizing b with
  | nil => rfl
  | cons t ts ih => rw [List.foldl_cons, ih, openTags_step, List.foldl_cons]

theorem warnings_step (b : Builder) (t : Token) :
    (b.step t).warnings = (reportsAt b.openTags t).reverse ++ b.warnings := by
  cases effect b.openTags t with
  | plain ht _ _ hreports =>
    rw [hreports]
    rcases ht with ht | ⟨name, ht⟩
    · rw [step_text ht, warnings_add]
      rfl
    · rw [step_selfClosing ht, warnings_add]
      rfl
  | opening ht _ _ hreports =>
    rw [hreports, step_opening ht]
    rfl
  | stray ht hnone _ _ hreports =>
    rw [hreports, step_of_stray ht hnone]
    rfl
  | closing ht hsplit hinner _ _ hreports =>
    rw [hreports, step_of_closing ht hsplit hinner, warnings_pop, warnings_closeInner hsplit]

theorem finish_eq (b : Builder) : b.finish = b.closeInner b.openTags.length := by
  rw [finish, openTags, List.length_map]

theorem warnings_run (b : Builder) (ts : List Token) :
    (ts.foldl step b).finish.warnings.reverse =
      b.warnings.reverse ++ reports b.openTags ts := by
  induction ts generalizing b with
  | nil =>
    have hopen : b.openTags = b.openTags ++ [] := (List.append_nil _).symm
    rw [List.foldl_nil, finish_eq, warnings_closeInner hopen, reports, List.reverse_append,
      List.reverse_reverse]
  | cons t ts ih =>
    rw [List.foldl_cons, ih, warnings_step, openTags_step, reports, List.reverse_append,
      List.reverse_reverse, List.append_assoc]

end

end Builder

theorem Tree.warnings_ofTokens (ts : List Token) : (Tree.ofTokens ts).warnings = reports [] ts :=
  Builder.warnings_run .empty ts

/-! ### The builder mends -/

/-- The tokens are what a builder holds: the complete nodes outside of all elements, and then the
tag and the children of each open element, outermost first. -/
inductive Holds : List OpenElement → List Node → List Token → Prop
  | outside {roots : List Node} {ts : List Token} : Denotes ts roots.reverse → Holds [] roots ts
  | inside {e : OpenElement} {stack : List OpenElement} {roots : List Node} {ts us : List Token}
      {o : Token} : Holds stack roots ts → o.shape = .opening e.name → o.span = e.span →
      Denotes us e.children.reverse → Holds (e :: stack) roots (ts ++ o :: us)

namespace Builder

def Holding (b : Builder) (ts : List Token) : Prop :=
  Holds b.stack b.roots ts

section
variable {b : Builder} {t : Token} {ts us : List Token} {inner outer : List OpenTag}
  {e : OpenTag} {node : Node}

theorem Holding.add (h : b.Holding ts) (hus : Denotes us [node]) :
    (b.add node).Holding (ts ++ us) := by
  obtain ⟨stack, roots, warnings⟩ := b
  cases h with
  | outside hts =>
    refine .outside ?_
    show Denotes (ts ++ us) (node :: roots).reverse
    rw [List.reverse_cons]
    exact hts.append hus
  | inside hstack ho hspan hchildren =>
    rw [List.append_assoc, List.cons_append]
    refine .inside hstack ho hspan ?_
    show Denotes _ (node :: _).reverse
    rw [List.reverse_cons]
    exact hchildren.append hus

theorem Holding.opening {name : String} (h : b.Holding ts) (ht : t.shape = .opening name) :
    Holding { b with stack := ⟨name, t.span, []⟩ :: b.stack } (ts ++ [t]) :=
  .inside h ht rfl .nil

theorem Holding.pop (h : b.Holding ts) (hopen : b.openTags = e :: outer)
    (ht : t.shape = .closing e.name) : b.pop.Holding (ts ++ [t]) := by
  obtain ⟨stack, roots, warnings⟩ := b
  cases h with
  | outside => cases hopen
  | @inside o stack roots ts us u hstack ho hspan hchildren =>
    cases hopen
    have hnode : Denotes (u :: (us ++ [t])) [o.complete] := hchildren.element_of ho ht
    rw [List.append_assoc, List.cons_append]
    exact Holding.add (b := ⟨stack, roots, warnings⟩) hstack hnode

theorem Holding.popUnclosed (h : b.Holding ts) (hopen : b.openTags = e :: outer) :
    b.popUnclosed.Holding (ts ++ [e.unclosed.closingTag]) := by
  rw [popUnclosed_eq hopen]
  exact Holding.pop (b := b.warn e.unclosed) h hopen rfl

theorem Holding.closeInner (h : b.Holding ts) (hopen : b.openTags = inner ++ outer) :
    (b.closeInner inner.length).Holding (ts ++ inner.map (·.unclosed.closingTag)) := by
  induction inner generalizing b ts with
  | nil => rwa [List.map_nil, List.append_nil]
  | cons e inner ih =>
    have hinner := ih (h.popUnclosed hopen) (openTags_popUnclosed hopen)
    rwa [List.append_assoc, List.singleton_append] at hinner

theorem Holding.step (h : b.Holding ts) (t : Token) :
    (b.step t).Holding (ts ++ mendedAt b.openTags t) := by
  cases effect b.openTags t with
  | plain ht _ _ _ hmended =>
    rw [hmended]
    rcases ht with ht | ⟨name, ht⟩
    · rw [step_text ht]
      exact h.add (denotes_text ht)
    · rw [step_selfClosing ht]
      exact h.add (denotes_selfClosing ht)
  | opening ht _ _ _ hmended =>
    rw [hmended, step_opening ht]
    exact h.opening ht
  | stray ht hnone _ _ _ hmended =>
    rw [hmended, step_of_stray ht hnone, List.append_nil]
    exact h
  | closing ht hsplit hinner _ _ _ hmended =>
    rw [hmended, step_of_closing ht hsplit hinner, ← List.append_assoc]
    exact (h.closeInner hsplit).pop (openTags_closeInner hsplit) ht

theorem Holding.run (h : b.Holding us) (ts : List Token) :
    (ts.foldl Builder.step b).finish.Holding (us ++ mended b.openTags ts) := by
  induction ts generalizing b us with
  | nil =>
    rw [List.foldl_nil, finish_eq, mended]
    exact h.closeInner (List.append_nil _).symm
  | cons t ts ih =>
    have hrest := ih (h.step t)
    rwa [openTags_step, List.append_assoc] at hrest

theorem stack_finish (b : Builder) : b.finish.stack = [] := by
  have hopen : b.finish.openTags = [] := by
    rw [finish_eq]
    exact openTags_closeInner (List.append_nil _).symm
  exact List.map_eq_nil_iff.1 hopen

end

end Builder

/-- Mending makes any tokens well nested, and the forest is the one that is built of them as they
are. -/
theorem denotes_mended (ts : List Token) : Denotes (mended [] ts) (Tree.ofTokens ts).nodes := by
  have hempty : Builder.empty.Holding [] := .outside .nil
  have hrun : (ts.foldl Builder.step .empty).finish.Holding (mended [] ts) := hempty.run ts
  rw [Builder.Holding, Builder.stack_finish] at hrun
  cases hrun with
  | outside h => exact h

end Phrasebook.Markup

import Phrasebook.Markup.Tree

/-!
# Well-nested tags

Tokens are well nested if every opening tag has a closing tag of its own, of the same name, and no
other closing tag occurs (`WellNested`).  Such tokens denote a forest (`Denotes`).  The builder adds
just this forest to what it holds, and has nothing to repair (`foldl_step_of_denotes`,
`Denotes.ofTokens`).
-/

namespace Phrasebook.Markup

/-! ### The forest of well-nested tokens -/

inductive Denotes : List Token → List Node → Prop
  | nil : Denotes [] []
  | text {t : Token} {ts : List Token} {ns : List Node} : t.shape = .text →
      Denotes ts ns → Denotes (t :: ts) (.text t.written :: ns)
  | selfClosing {t : Token} {name : String} {ts : List Token} {ns : List Node} :
      t.shape = .selfClosing name → Denotes ts ns → Denotes (t :: ts) (.element name [] :: ns)
  | element {o c : Token} {name : String} {ts us : List Token} {children ns : List Node} :
      o.shape = .opening name → c.shape = .closing name →
      Denotes ts children → Denotes us ns →
      Denotes (o :: (ts ++ c :: us)) (.element name children :: ns)

def WellNested (ts : List Token) : Prop :=
  ∃ nodes, Denotes ts nodes

section
variable {ts us : List Token} {t o c : Token} {ns ms : List Node} {name : String}

theorem Denotes.append (hts : Denotes ts ns) (hus : Denotes us ms) :
    Denotes (ts ++ us) (ns ++ ms) := by
  induction hts with
  | nil => exact hus
  | text ht _ ih => exact .text ht ih
  | selfClosing ht _ ih => exact .selfClosing ht ih
  | element ho hc hinner _ _ ih =>
    rw [List.cons_append, List.append_assoc, List.cons_append, List.cons_append]
    exact .element ho hc hinner ih

theorem denotes_text (ht : t.shape = .text) : Denotes [t] [.text t.written] :=
  .text ht .nil

theorem denotes_selfClosing (ht : t.shape = .selfClosing name) :
    Denotes [t] [.element name []] :=
  .selfClosing ht .nil

theorem Denotes.element_of (h : Denotes ts ns) (ho : o.shape = .opening name)
    (hc : c.shape = .closing name) : Denotes (o :: (ts ++ [c])) [.element name ns] :=
  .element ho hc h .nil

end

/-! ### Steps of the builder -/

namespace Builder

/-- Adds complete nodes from left to right. -/
def addAll (b : Builder) (nodes : List Node) : Builder :=
  nodes.foldl add b

section
variable {b : Builder} {t : Token} {ts : List Token} {name : String} {e : OpenElement}
  {stack : List OpenElement} {roots nodes : List Node} {warnings : List Warning}

theorem addAll_outside :
    addAll ⟨[], roots, warnings⟩ nodes = ⟨[], nodes.reverse ++ roots, warnings⟩ := by
  induction nodes generalizing roots with
  | nil => rfl
  | cons n ns ih =>
    show addAll ⟨[], n :: roots, warnings⟩ ns = _
    rw [ih]
    simp

theorem addAll_inside : addAll ⟨e :: stack, roots, warnings⟩ nodes =
    ⟨{ e with children := nodes.reverse ++ e.children } :: stack, roots, warnings⟩ := by
  induction nodes generalizing e with
  | nil => rfl
  | cons n ns ih =>
    show addAll ⟨{ e with children := n :: e.children } :: stack, roots, warnings⟩ ns = _
    rw [ih]
    simp

theorem step_text (ht : t.shape = .text) : b.step t = b.add (.text t.written) := by
  rw [step, ht]

theorem step_selfClosing (ht : t.shape = .selfClosing name) :
    b.step t = b.add (.element name []) := by
  rw [step, ht]

theorem step_opening (ht : t.shape = .opening name) :
    b.step t = { b with stack := ⟨name, t.span, []⟩ :: b.stack } := by
  rw [step, ht]

theorem step_closing {k : Nat} (ht : t.shape = .closing name)
    (hk : b.stack.findIdx? (·.name = name) = some k) : b.step t = (b.closeInner k).pop := by
  rw [step, ht]
  simp only [hk]

theorem step_stray (ht : t.shape = .closing name)
    (hk : b.stack.findIdx? (·.name = name) = none) :
    b.step t = b.warn ⟨.unexpectedClosingTag, name, t.span⟩ := by
  rw [step, ht]
  simp only [hk]

theorem step_closing_innermost (ht : t.shape = .closing e.name) :
    step ⟨e :: stack, roots, warnings⟩ t = add ⟨stack, roots, warnings⟩ e.complete := by
  have hk : (e :: stack).findIdx? (·.name = e.name) = some 0 := by
    simp [List.findIdx?_cons]
  rw [step_closing ht hk]
  rfl

theorem foldl_step_of_denotes (h : Denotes ts nodes) (b : Builder) :
    ts.foldl step b = b.addAll nodes := by
  induction h generalizing b with
  | nil => rfl
  | text ht _ ih => rw [List.foldl_cons, step_text ht, ih]; rfl
  | selfClosing ht _ ih => rw [List.foldl_cons, step_selfClosing ht, ih]; rfl
  | @element o c name ts us children ns ho hc _ _ ihts ihus =>
    have hclose : step ⟨⟨name, o.span, children.reverse ++ []⟩ :: b.stack, b.roots, b.warnings⟩ c =
        b.add (.element name children) := by
      rw [step_closing_innermost hc, OpenElement.complete, List.append_nil, List.reverse_reverse]
    rw [List.foldl_cons, step_opening ho, List.foldl_append, ihts, addAll_inside, List.foldl_cons,
      hclose, ihus]
    rfl

end

end Builder

/-- Building well-nested tokens gives their forest and needs no repair. -/
theorem Denotes.ofTokens {ts : List Token} {nodes : List Node} (h : Denotes ts nodes) :
    Tree.ofTokens ts = ⟨nodes, []⟩ := by
  rw [Tree.ofTokens, Builder.foldl_step_of_denotes h, Builder.empty, Builder.addAll_outside]
  simp [Builder.finish, Builder.closeInner]

end Phrasebook.Markup

import Mathlib.Data.List.Forall2
import Phrasebook.Proofs.Markup.Mending

/-!
# Nothing is lost in the tree

From top to bottom and from left to right, the nodes of the tree are the tokens in their order,
without the closing tags (`preorder`, `givers`, `Token.Gives`).  This holds of the forest of any
well-nested tokens (`Denotes.gives`), and mending touches nothing but closing tags
(`givers_mended`).
-/

namespace Phrasebook.Markup

mutual

/-- The node and all that is below it, an element before its children. -/
def Node.preorder : Node → List Node
  | .text value => [.text value]
  | .element name children => .element name children :: Markup.preorder children

def preorder : List Node → List Node
  | [] => []
  | n :: ns => n.preorder ++ preorder ns

end

def Token.isClosing (t : Token) : Bool :=
  match t.shape with
  | .closing _ => true
  | .text | .opening _ | .selfClosing _ => false

/-- The node is what the token gives to the tree. -/
inductive Token.Gives : Token → Node → Prop
  | text {t : Token} : t.shape = .text → t.Gives (.text t.written)
  | opening {t : Token} {name : String} (children : List Node) :
      t.shape = .opening name → t.Gives (.element name children)
  | selfClosing {t : Token} {name : String} :
      t.shape = .selfClosing name → t.Gives (.element name [])

def givers (ts : List Token) : List Token :=
  ts.filter fun t => !t.isClosing

section
variable {t : Token} {name : String} {opened : List OpenTag} {ts us : List Token}
  {nodes : List Node}

theorem isClosing_of_closing (ht : t.shape = .closing name) : t.isClosing = true := by
  rw [Token.isClosing, ht]

theorem isClosing_eq_false (ht : ∀ name, t.shape ≠ .closing name) : t.isClosing = false := by
  rw [Token.isClosing]
  split
  · next name hname => exact absurd hname (ht name)
  all_goals rfl

theorem givers_append (ts us : List Token) : givers (ts ++ us) = givers ts ++ givers us :=
  List.filter_append ts us

theorem givers_cons_of_closing (ht : t.shape = .closing name) (ts : List Token) :
    givers (t :: ts) = givers ts := by
  simp [givers, isClosing_of_closing ht]

theorem givers_cons (ht : ∀ name, t.shape ≠ .closing name) (ts : List Token) :
    givers (t :: ts) = t :: givers ts := by
  simp [givers, isClosing_eq_false ht]

theorem givers_closingTags (opened : List OpenTag) :
    givers (opened.map (·.unclosed.closingTag)) = [] := by
  induction opened with
  | nil => rfl
  | cons e opened ih =>
    rw [List.map_cons, givers_cons_of_closing rfl, ih]

theorem givers_mendedAt (opened : List OpenTag) (t : Token) :
    givers (mendedAt opened t) = givers [t] := by
  cases effect opened t with
  | plain _ _ _ _ hmended => rw [hmended]
  | opening _ _ _ _ hmended => rw [hmended]
  | stray ht _ _ _ _ hmended => rw [hmended, givers_cons_of_closing ht]
  | closing _ _ _ _ _ _ hmended => rw [hmended, givers_append, givers_closingTags]; rfl

theorem givers_mended (opened : List OpenTag) (ts : List Token) :
    givers (mended opened ts) = givers ts := by
  induction ts generalizing opened with
  | nil => exact givers_closingTags opened
  | cons t ts ih => rw [mended, givers_append, givers_mendedAt, ih, ← givers_append]; rfl

/-- Well-nested tokens give the nodes of their forest. -/
theorem Denotes.gives (h : Denotes ts nodes) :
    List.Forall₂ Token.Gives (givers ts) (preorder nodes) := by
  induction h with
  | nil => exact .nil
  | text ht _ ih =>
    rw [givers_cons (by simp [ht])]
    exact .cons (.text ht) ih
  | selfClosing ht _ ih =>
    rw [givers_cons (by simp [ht])]
    exact .cons (.selfClosing ht) ih
  | element ho hc _ _ ihts ihus =>
    rw [givers_cons (by simp [ho]), givers_append, givers_cons_of_closing hc]
    exact .cons (.opening _ ho) (List.rel_append ihts ihus)

end

/-- The tokens of a text other than its closing tags are the nodes of its forest, one by one. -/
theorem gives_preorder_parse (source : String) :
    List.Forall₂ Token.Gives ((scan source).filter fun t => !t.isClosing)
      (preorder (parse source)) := by
  have hgives := (denotes_mended (scan source)).gives
  rwa [givers_mended] at hgives

end Phrasebook.Markup

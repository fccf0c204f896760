import Phrasebook.Proofs.Markup.Preorder

/-!
# How deep the nodes of a tree stand

The level of a node is the number of elements around it.  In the forest of a text the node that a
token gives stands as deep as there are elements open where the token is read, whatever is repaired:
mending changes no level (`tokenLevels_mended`).
-/

namespace Phrasebook.Markup

mutual

/-- The levels of the node and of all that is below it, in preorder; `k` elements are around it. -/
def Node.levels (k : Nat) : Node → List Nat
  | .text _ => [k]
  | .element _ children => k :: Markup.levels (k + 1) children

def levels (k : Nat) : List Node → List Nat
  | [] => []
  | n :: ns => n.levels k ++ levels k ns

end

/-- How many elements are open at each token that gives a node. -/
def tokenLevels : List OpenTag → List Token → List Nat
  | _, [] => []
  | opened, t :: ts =>
      if t.isClosing then tokenLevels (openAfter opened t) ts
      else opened.length :: tokenLevels (openAfter opened t) ts

section
variable {t : Token} {name : String} {opened outer : List OpenTag} {e : OpenTag}
  {ts us : List Token} {nodes : List Node}

theorem openAfter_of_plain (h : t.shape = .text ∨ ∃ name, t.shape = .selfClosing name) :
    openAfter opened t = opened := by
  rcases h with h | ⟨name, h⟩ <;> simp only [openAfter, h]

theorem openAfter_of_opening (h : t.shape = .opening name) :
    openAfter opened t = ⟨name, t.span⟩ :: opened := by
  simp only [openAfter, h]

/-- The closing tag of the innermost element closes just this one. -/
theorem openAfter_of_innermost (h : t.shape = .closing e.name) :
    openAfter (e :: outer) t = outer := by
  simp [openAfter, h]

theorem tokenLevels_closing (h : t.shape = .closing name) :
    tokenLevels opened (t :: ts) = tokenLevels (openAfter opened t) ts := by
  rw [tokenLevels, if_pos (isClosing_of_closing h)]

theorem tokenLevels_giver (h : ∀ name, t.shape ≠ .closing name) :
    tokenLevels opened (t :: ts) = opened.length :: tokenLevels (openAfter opened t) ts := by
  rw [tokenLevels, isClosing_eq_false h]
  rfl

/-! ### Levels and open elements -/

/-- Well-nested tokens leave the open elements as they are, and give their nodes inside these. -/
theorem Denotes.tokenLevels_append (h : Denotes ts nodes) (opened : List OpenTag)
    (us : List Token) :
    tokenLevels opened (ts ++ us) = levels opened.length nodes ++ tokenLevels opened us := by
  induction h generalizing opened us with
  | nil => rfl
  | text ht _ ih =>
    rw [List.cons_append, tokenLevels_giver (by simp [ht]), openAfter_of_plain (.inl ht), ih]
    rfl
  | selfClosing ht _ ih =>
    rw [List.cons_append, tokenLevels_giver (by simp [ht]), openAfter_of_plain (.inr ⟨_, ht⟩), ih]
    rfl
  | @element o c name ts us' children ns ho hc _ _ ihts ihus =>
    rw [List.cons_append, tokenLevels_giver (by simp [ho]), openAfter_of_opening ho,
      List.append_assoc, ihts, List.cons_append, tokenLevels_closing hc,
      openAfter_of_innermost (e := ⟨name, o.span⟩) hc, ihus, levels, Node.levels]
    simp

/-- The closing tags that were missing end the elements inside. -/
theorem tokenLevels_closingTags (inner outer : List OpenTag) (ts : List Token) :
    tokenLevels (inner ++ outer) (inner.map (·.unclosed.closingTag) ++ ts) =
      tokenLevels outer ts := by
  induction inner with
  | nil => rfl
  | cons e inner ih =>
    have he : e.unclosed.closingTag.shape = .closing e.name := rfl
    rw [List.map_cons, List.cons_append, List.cons_append, tokenLevels_closing he,
      openAfter_of_innermost he, ih]

/-- Mending a token changes no level, nor the elements that are open after it. -/
theorem tokenLevels_mendedAt (opened : List OpenTag) (t : Token) (ts us : List Token)
    (h : tokenLevels (openAfter opened t) us = tokenLevels (openAfter opened t) ts) :
    tokenLevels opened (mendedAt opened t ++ us) = tokenLevels opened (t :: ts) := by
  have hkept (hmended : mendedAt opened t = [t]) :
      tokenLevels opened (mendedAt opened t ++ us) = tokenLevels opened (t :: ts) := by
    rw [hmended, List.singleton_append, tokenLevels, tokenLevels, h]
  cases effect opened t with
  | plain _ _ _ _ hmended => exact hkept hmended
  | opening _ _ _ _ hmended => exact hkept hmended
  | stray ht _ hopen _ _ hmended =>
    rw [tokenLevels_closing ht, ← h, hopen, hmended]
    rfl
  | @closing inner outer e ht hsplit _ hopen _ _ hmended =>
    rw [tokenLevels_closing ht, ← h, hopen, hmended, hsplit, List.append_assoc,
      tokenLevels_closingTags, List.singleton_append, tokenLevels_closing ht,
      openAfter_of_innermost ht]

theorem tokenLevels_mended (opened : List OpenTag) (ts : List Token) :
    tokenLevels opened (mended opened ts) = tokenLevels opened ts := by
  induction ts generalizing opened with
  | nil =>
    have hclose := tokenLevels_closingTags opened [] []
    rwa [List.append_nil, List.append_nil] at hclose
  | cons t ts ih =>
    rw [mended]
    exact tokenLevels_mendedAt opened t ts _ (ih _)

/-- The nodes of a text stand as deep as elements are open at their tokens. -/
theorem levels_parse (source : String) :
    levels 0 (parse source) = tokenLevels [] (scan source) := by
  have hlevels := (denotes_mended (scan source)).tokenLevels_append [] []
  rw [List.append_nil, tokenLevels_mended, tokenLevels, List.append_nil] at hlevels
  exact hlevels.symm

/-! ### Levels and parts of the tokens -/

theorem mem_tokenLevels_cons {k : Nat} : k ∈ tokenLevels opened (t :: ts) ↔
    (t.isClosing = false ∧ opened.length = k) ∨ k ∈ tokenLevels (openAfter opened t) ts := by
  rw [tokenLevels]
  cases t.isClosing <;> simp [eq_comm]

/-- The levels are the numbers of open elements after the parts of the tokens in front of those
that give a node. -/
theorem mem_tokenLevels_iff {k : Nat} : k ∈ tokenLevels opened ts ↔
    ∃ before t after, ts = before ++ t :: after ∧ t.isClosing = false ∧
      (before.foldl openAfter opened).length = k := by
  induction ts generalizing opened with
  | nil => simp [tokenLevels]
  | cons u ts ih =>
    rw [mem_tokenLevels_cons, ih]
    constructor
    · rintro (⟨hu, hk⟩ | ⟨before, t, after, rfl, ht, hk⟩)
      · exact ⟨[], u, ts, rfl, hu, hk⟩
      · exact ⟨u :: before, t, after, rfl, ht, hk⟩
    · rintro ⟨before, t, after, hsplit, ht, hk⟩
      cases before with
      | nil =>
        cases hsplit
        exact .inl ⟨ht, hk⟩
      | cons b before =>
        cases hsplit
        exact .inr ⟨before, t, after, rfl, ht, hk⟩

end

end Phrasebook.Markup

import Mathlib.Data.List.Forall2
import Mathlib.Data.List.TakeWhile
import Phrasebook.Proofs.Format.Records
import Phrasebook.Proofs.Text.Runs

/-!
# Placeholders where they stand

A placeholder stands in a template wherever `{{`, at least one character that is no brace, and `}}`
follow one another (`Occurs`).  Two of them never overlap, however many braces stand around them
(`Occurs.eq_or_apart`), so reading from left to right finds each of them (`occurs_iff_pieces`).
Substitution puts the shown value in its place and leaves everything else as it is (`Shows`,
`toList_substitute`).
-/

namespace Phrasebook

namespace Template

/-! ### Occurrences -/

/-- What may stand between the braces of a placeholder. -/
structure IsInner (inner : List Char) : Prop where
  ne_nil : inner ≠ []
  noBrace : ∀ c ∈ inner, isBrace c = false

/-- A placeholder stands in `cs` between `before` and `after`. -/
structure Occurs (cs before inner after : List Char) : Prop where
  isInner : IsInner inner
  eq : cs = before ++ ((Piece.placeholder inner).source ++ after)

section
variable {c : Char} {cs before before' inner inner' middle after after' : List Char}

theorem source_placeholder_append (inner after : List Char) :
    (Piece.placeholder inner).source ++ after = '{' :: '{' :: (inner ++ '}' :: '}' :: after) := by
  simp only [Piece.source, List.cons_append, List.append_assoc, List.nil_append]

theorem IsInner.takeWhile_append (h : IsInner inner) (after : List Char) :
    (inner ++ '}' :: after).takeWhile (!isBrace ·) = inner := by
  refine takeWhile_append_of_stop (fun c hc => ?_) fun c more hmore => ?_
  · rw [h.noBrace c hc]
    rfl
  · rw [← (List.cons.inj hmore).1]
    rfl

/-- The first brace behind the inner text of a placeholder ends it. -/
theorem IsInner.append_inj (h : IsInner inner) (h' : IsInner inner')
    (heq : inner ++ '}' :: after = inner' ++ '}' :: after') : inner = inner' ∧ after = after' := by
  have hinner : inner = inner' := by
    rw [← h.takeWhile_append after, heq, h'.takeWhile_append after']
  subst hinner
  exact ⟨rfl, (List.cons.inj (List.append_cancel_left heq)).2⟩

theorem IsInner.open_notMem (h : IsInner inner) : '{' ∉ inner ++ ['}', '}'] := by
  intro hmem
  rcases List.mem_append.1 hmem with hinner | hclose
  · exact absurd (h.noBrace _ hinner) (by decide)
  · exact absurd hclose (by decide)

/-- A placeholder that begins behind the start of another one begins behind its end. -/
theorem source_isPrefix_or_eq (h : IsInner inner) (h' : IsInner inner')
    (heq : (Piece.placeholder inner).source ++ after =
      middle ++ ((Piece.placeholder inner').source ++ after')) :
    (middle = [] ∧ inner = inner' ∧ after = after') ∨
      (Piece.placeholder inner).source <+: middle := by
  rw [source_placeholder_append, source_placeholder_append] at heq
  match middle, heq with
  | [], heq =>
    obtain ⟨hinner, hafter⟩ := h.append_inj h' (List.cons.inj (List.cons.inj heq).2).2
    exact .inl ⟨rfl, hinner, (List.cons.inj hafter).2⟩
  | [d], heq =>
    -- the second brace cannot begin another placeholder: what follows it is no brace
    exfalso
    have hhead : (inner ++ '}' :: '}' :: after).head? = some '{' := by
      rw [(List.cons.inj (List.cons.inj heq).2).2]
      rfl
    obtain ⟨c, cs, rfl⟩ := List.exists_cons_of_ne_nil h.ne_nil
    have hc : c = '{' := Option.some.inj hhead
    exact absurd (h.noBrace c List.mem_cons_self) (by rw [hc]; decide)
  | d :: e :: middle, heq =>
    rw [List.cons_append, List.cons_append] at heq
    obtain ⟨rfl, hsecond⟩ := List.cons.inj heq
    obtain ⟨rfl, htail⟩ := List.cons.inj hsecond
    right
    have hsplit : (inner ++ ['}', '}']) ++ after =
        middle ++ ('{' :: '{' :: (inner' ++ '}' :: '}' :: after')) := by
      rw [List.append_assoc]
      exact htail
    rcases List.append_eq_append_iff.1 hsplit with ⟨more, rfl, -⟩ | ⟨more, hclose, hmore⟩
    · exact ⟨more, rfl⟩
    · cases more with
      | nil =>
        rw [List.append_nil] at hclose
        rw [← hclose]
        exact List.prefix_rfl
      | cons f more =>
        -- the other placeholder would begin inside this one
        exfalso
        have hf : '{' = f := (List.cons.inj hmore).1
        refine h.open_notMem ?_
        rw [hclose, hf]
        exact List.mem_append_right _ List.mem_cons_self

/-- Placeholders do not overlap. -/
theorem Occurs.eq_or_apart (h : Occurs cs before inner after)
    (h' : Occurs cs before' inner' after') :
    (before = before' ∧ inner = inner' ∧ after = after') ∨
      before ++ (Piece.placeholder inner).source <+: before' ∨
      before' ++ (Piece.placeholder inner').source <+: before := by
  have heq := h.eq.symm.trans h'.eq
  rcases List.append_eq_append_iff.1 heq with ⟨middle, rfl, hmiddle⟩ | ⟨middle, rfl, hmiddle⟩
  · rcases source_isPrefix_or_eq h.isInner h'.isInner hmiddle with ⟨rfl, hsame⟩ | hpre
    · exact .inl ⟨(List.append_nil before).symm, hsame⟩
    · exact .inr (.inl ((List.prefix_append_right_inj before).2 hpre))
  · rcases source_isPrefix_or_eq h'.isInner h.isInner hmiddle with ⟨rfl, hinner, hafter⟩ | hpre
    · exact .inl ⟨List.append_nil before', hinner.symm, hafter.symm⟩
    · exact .inr (.inr ((List.prefix_append_right_inj before').2 hpre))

theorem not_occurs_nil : ¬ Occurs [] before inner after := by
  intro h
  have hnil := List.append_eq_nil_iff.1 h.eq.symm
  rw [source_placeholder_append] at hnil
  exact absurd hnil.2 (List.cons_ne_nil _ _)

/-! ### The cut of a template -/

theorem placeholder?_eq_some_iff :
    placeholder? cs = some inner ↔ IsInner inner ∧ ∃ after, cs = inner ++ '}' :: '}' :: after := by
  constructor
  · intro h
    refine ⟨?_, _, placeholder?_append h⟩
    unfold placeholder? at h
    dsimp only at h
    split at h
    · next hc =>
      rw [Option.some.injEq] at h
      rw [Bool.and_eq_true, Bool.not_eq_true', List.isEmpty_eq_false_iff, h] at hc
      refine ⟨hc.1, fun c hmem => ?_⟩
      rw [← h] at hmem
      simpa only [Bool.not_eq_true'] using List.mem_takeWhile_imp hmem
    · cases h
  · rintro ⟨hinner, after, rfl⟩
    unfold placeholder?
    dsimp only
    rw [hinner.takeWhile_append, List.drop_left, List.isEmpty_eq_false_iff.2 hinner.ne_nil]
    rfl

theorem pieces_nil : pieces [] = [] := by
  rw [pieces]

theorem pieces_placeholder (h : IsInner inner) (after : List Char) :
    pieces ((Piece.placeholder inner).source ++ after) = .placeholder inner :: pieces after := by
  have hfound : placeholder? (inner ++ '}' :: '}' :: after) = some inner :=
    placeholder?_eq_some_iff.2 ⟨h, after, rfl⟩
  rw [source_placeholder_append, pieces, hfound]
  dsimp only
  rw [← List.drop_drop, List.drop_left]
  rfl

theorem pieces_char (h : ∀ inner after, ¬ Occurs (c :: cs) [] inner after) :
    pieces (c :: cs) = .char c :: pieces cs := by
  rw [pieces.eq_def]
  split
  · next heq => cases heq
  · next rest heq =>
    obtain ⟨rfl, rfl⟩ := List.cons.inj heq
    split
    · next inner hfound =>
      obtain ⟨hinner, after, rfl⟩ := placeholder?_eq_some_iff.1 hfound
      exact absurd ⟨hinner, (source_placeholder_append inner after).symm⟩ (h inner after)
    · rfl
  · next heq =>
    obtain ⟨rfl, rfl⟩ := List.cons.inj heq
    rfl

/-- A template is empty, or it begins with a placeholder or with a character that none begins
with. -/
theorem pieces_induction {P : List Char → Prop} (nil : P [])
    (placeholder : ∀ inner after, IsInner inner → P after →
      P ((Piece.placeholder inner).source ++ after))
    (char : ∀ c cs, (∀ inner after, ¬ Occurs (c :: cs) [] inner after) → P cs → P (c :: cs))
    (cs : List Char) : P cs := by
  induction hn : cs.length using Nat.strongRecOn generalizing cs with
  | _ n ih =>
    subst hn
    by_cases hoccurs : ∃ inner after, Occurs cs [] inner after
    · obtain ⟨inner, after, hinner, heq⟩ := hoccurs
      rw [List.nil_append] at heq
      subst heq
      have hlt : after.length < ((Piece.placeholder inner).source ++ after).length := by
        rw [source_placeholder_append]
        simp only [List.length_cons, List.length_append]
        omega
      exact placeholder inner after hinner (ih _ hlt after rfl)
    · cases cs with
      | nil => exact nil
      | cons c cs =>
        refine char c cs (fun inner after h => hoccurs ⟨inner, after, h⟩) (ih _ ?_ cs rfl)
        exact Nat.lt_succ_self cs.length

/-- The pieces are the template. -/
theorem flatMap_source_pieces (cs : List Char) : (pieces cs).flatMap Piece.source = cs := by
  induction cs using pieces_induction with
  | nil => rw [pieces_nil, List.flatMap_nil]
  | placeholder inner after hinner ih =>
    rw [pieces_placeholder hinner, List.flatMap_cons, ih]
  | char c cs hc ih =>
    rw [pieces_char hc, List.flatMap_cons, ih]
    rfl

theorem isInner_of_mem_pieces (h : .placeholder inner ∈ pieces cs) : IsInner inner := by
  induction cs using pieces_induction with
  | nil =>
    rw [pieces_nil] at h
    cases h
  | placeholder inner' after hinner ih =>
    rw [pieces_placeholder hinner] at h
    rcases List.mem_cons.1 h with heq | hmem
    · cases heq
      exact hinner
    · exact ih hmem
  | char c cs hc ih =>
    rw [pieces_char hc] at h
    rcases List.mem_cons.1 h with heq | hmem
    · cases heq
    · exact ih hmem

theorem Occurs.exists_pieces (h : Occurs cs before inner after) :
    ∃ ps qs, pieces cs = ps ++ .placeholder inner :: qs ∧ ps.flatMap Piece.source = before ∧
      qs.flatMap Piece.source = after := by
  induction cs using pieces_induction generalizing before with
  | nil => exact absurd h not_occurs_nil
  | placeholder inner' rest hinner ih =>
    have hfirst : Occurs ((Piece.placeholder inner').source ++ rest) [] inner' rest :=
      ⟨hinner, rfl⟩
    rw [pieces_placeholder hinner]
    rcases hfirst.eq_or_apart h with ⟨rfl, rfl, rfl⟩ | ⟨middle, rfl⟩ | hpre
    · exact ⟨[], pieces rest, rfl, rfl, flatMap_source_pieces rest⟩
    · have hrest : Occurs rest middle inner after := by
        refine ⟨h.isInner, ?_⟩
        have heq := h.eq
        rw [List.nil_append, List.append_assoc] at heq
        exact List.append_cancel_left heq
      obtain ⟨ps, qs, hpieces, hps, hqs⟩ := ih hrest
      refine ⟨.placeholder inner' :: ps, qs, ?_, ?_, hqs⟩
      · rw [hpieces]
        rfl
      · rw [List.flatMap_cons, hps]
        rfl
    · have hnil := List.append_eq_nil_iff.1 (List.prefix_nil.1 hpre)
      exact absurd hnil.2 (List.cons_ne_nil _ _)
  | char c cs hc ih =>
    rw [pieces_char hc]
    cases before with
    | nil => exact absurd h (hc inner after)
    | cons d before =>
      obtain ⟨rfl, heq⟩ := List.cons.inj h.eq
      obtain ⟨ps, qs, hpieces, hps, hqs⟩ := ih ⟨h.isInner, heq⟩
      refine ⟨.char c :: ps, qs, ?_, ?_, hqs⟩
      · rw [hpieces]
        rfl
      · rw [List.flatMap_cons, hps]
        rfl

/-- The placeholders of the cut are those that stand in the template, and where they stand. -/
theorem occurs_iff_pieces :
    Occurs cs before inner after ↔ ∃ ps qs, pieces cs = ps ++ .placeholder inner :: qs ∧
      ps.flatMap Piece.source = before ∧ qs.flatMap Piece.source = after := by
  constructor
  · exact Occurs.exists_pieces
  · rintro ⟨ps, qs, hpieces, rfl, rfl⟩
    have hmem : .placeholder inner ∈ pieces cs := by
      rw [hpieces]
      exact List.mem_append_right _ List.mem_cons_self
    refine ⟨isInner_of_mem_pieces hmem, ?_⟩
    rw [← List.flatMap_cons, ← List.flatMap_append, ← hpieces, flatMap_source_pieces]

theorem occurs_of_mem_pieces (h : .placeholder inner ∈ pieces cs) :
    ∃ before after, Occurs cs before inner after := by
  obtain ⟨ps, qs, hpieces⟩ := List.append_of_mem h
  exact ⟨_, _, occurs_iff_pieces.2 ⟨ps, qs, hpieces, rfl, rfl⟩⟩

theorem hasOpening_cons (c : Char) (h : hasOpening cs = true) : hasOpening (c :: cs) = true := by
  rw [hasOpening.eq_def]
  split
  · rfl
  · next heq =>
    obtain ⟨rfl, rfl⟩ := List.cons.inj heq
    exact h
  · next heq => cases heq

theorem Occurs.hasOpening (h : Occurs cs before inner after) : hasOpening cs = true := by
  obtain ⟨-, rfl⟩ := h
  induction before with
  | nil => rfl
  | cons c before ih => exact hasOpening_cons c ih

/-! ### What is shown -/

/-- What stands for a piece in the result. -/
inductive Shows (values : Table Scalar) : Piece → List Char → Prop
  | char (c : Char) : Shows values (.char c) [c]
  | bound {inner key : List Char} {s : Scalar} :
      Trims inner key → values.get? (String.ofList key) = some s →
      Shows values (.placeholder inner) s.display.toList
  | unbound {inner key : List Char} :
      Trims inner key → values.get? (String.ofList key) = none →
      Shows values (.placeholder inner) (Piece.placeholder inner).source

end

section
variable {values others : Table Scalar} {cs : List Char}

theorem shows_iff {p : Piece} {shown : List Char} :
    Shows values p shown ↔ p.fill values = shown := by
  constructor
  · intro h
    cases h with
    | char c => rfl
    | bound hkey hvalue =>
      rw [hkey.eq_trim] at hvalue
      rw [Piece.fill, hvalue]
    | unbound hkey hvalue =>
      rw [hkey.eq_trim] at hvalue
      rw [Piece.fill, hvalue]
  · rintro rfl
    cases p with
    | char c => exact .char c
    | placeholder inner =>
      rw [Piece.fill]
      cases hvalue : values.get? (String.ofList (trim inner)) with
      | some s => exact .bound (trims_trim inner) hvalue
      | none => exact .unbound (trims_trim inner) hvalue

theorem forall₂_shows_iff {ps : List Piece} {shown : List (List Char)} :
    List.Forall₂ (Shows values) ps shown ↔ ps.map (Piece.fill values) = shown := by
  have hshows : Shows values = fun p shown => p.fill values = shown := by
    funext p shown
    exact propext shows_iff
  rw [hshows, ← List.forall₂_map_left_iff, List.forall₂_eq_eq_eq]

/-- Two tables that agree on the keys of a template fill it alike. -/
theorem flatMap_fill_congr
    (h : ∀ before inner after key, Occurs cs before inner after → Trims inner key →
      others.get? (String.ofList key) = values.get? (String.ofList key)) :
    (pieces cs).flatMap (Piece.fill others) = (pieces cs).flatMap (Piece.fill values) := by
  refine List.flatMap_congr fun p hp => ?_
  cases p with
  | char c => rfl
  | placeholder inner =>
    obtain ⟨before, after, hoccurs⟩ := occurs_of_mem_pieces hp
    rw [Piece.fill, Piece.fill, h before inner after _ hoccurs (trims_trim inner)]

theorem fill_empty (p : Piece) : p.fill .empty = p.source := by
  cases p <;> rfl

/-- A template whose keys are all unbound is left as it is. -/
theorem flatMap_fill_of_unbound
    (h : ∀ before inner after key, Occurs cs before inner after → Trims inner key →
      values.get? (String.ofList key) = none) :
    (pieces cs).flatMap (Piece.fill values) = cs := by
  have hempty : (pieces cs).flatMap (Piece.fill .empty) = (pieces cs).flatMap (Piece.fill values) :=
    flatMap_fill_congr fun before inner after key hoccurs hkey =>
      (h before inner after key hoccurs hkey).symm
  have hfill : Piece.fill .empty = Piece.source := funext fill_empty
  rw [← hempty, hfill, flatMap_source_pieces]

/-- Nothing is missed by not looking for placeholders. -/
theorem toList_substitute (template : String) (values : Table Scalar) :
    (substitute template values).toList =
      (pieces template.toList).flatMap (Piece.fill values) := by
  rw [substitute]
  split
  · next hskip =>
    refine (flatMap_fill_of_unbound fun before inner after key hoccurs _ => ?_).symm
    rcases Bool.or_eq_true_iff.1 hskip with hempty | hopening
    · exact values.isEmpty_iff.1 hempty _
    · rw [hoccurs.hasOpening] at hopening
      cases hopening
  · rw [String.toList_ofList]

/-- The template is cut at its placeholders, which are found where they stand and stand apart; the
result is the join of what the pieces show, and that is all.  It makes no difference whether the
template is cut at all, and only the keys that stand in it matter. -/
theorem substitute_shows_pieces (template : String) (values : Table Scalar) :
    (∀ result : String, result = substitute template values ↔
      ∃ shown, List.Forall₂ (Shows values) (pieces template.toList) shown ∧
        result.toList = shown.flatten) ∧
    substitute template values =
      String.ofList ((pieces template.toList).flatMap (Piece.fill values)) ∧
    (pieces template.toList).flatMap Piece.source = template.toList ∧
    (∀ before inner after, Occurs template.toList before inner after ↔
      ∃ ps qs, pieces template.toList = ps ++ .placeholder inner :: qs ∧
        ps.flatMap Piece.source = before ∧ qs.flatMap Piece.source = after) ∧
    (∀ before inner after before' inner' after', Occurs template.toList before inner after →
      Occurs template.toList before' inner' after' →
      (before = before' ∧ inner = inner' ∧ after = after') ∨
        before ++ (Piece.placeholder inner).source <+: before' ∨
        before' ++ (Piece.placeholder inner').source <+: before) ∧
    ∀ others : Table Scalar,
      (∀ before inner after key, Occurs template.toList before inner after → Trims inner key →
        others.get? (String.ofList key) = values.get? (String.ofList key)) →
      substitute template others = substitute template values := by
  have hgeneral := toList_substitute template values
  refine ⟨fun result => ?_, ?_, flatMap_source_pieces _, fun _ _ _ => occurs_iff_pieces,
    fun _ _ _ _ _ _ h h' => h.eq_or_apart h', fun others hothers => ?_⟩
  · simp only [forall₂_shows_iff, exists_eq_left']
    rw [← List.flatMap_def, ← hgeneral]
    exact String.toList_inj.symm
  · rw [← hgeneral, String.ofList_toList]
  · apply String.toList_injective
    rw [toList_substitute, hgeneral, flatMap_fill_congr hothers]

/-- Of three braces on each side the inner two are taken. -/
example : pieces "{{{a}}}".toList = [.char '{', .placeholder ['a'], .char '}'] := by
  decide +kernel

end

end Template

end Phrasebook

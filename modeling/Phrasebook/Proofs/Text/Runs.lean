import Mathlib.Data.List.TakeWhile
import Phrasebook.Text.WhiteSpace

/-!
# Runs of characters

A run of characters of one kind is taken whole where a character of another kind stops it
(`takeWhile_append_eq_iff`).  `White` are the runs of white space, which `trimStart` and `trimEnd`
drop at the two ends of a text.  What is left by `trim` is told by `Trims` without the functions,
and it is the only text of which this can be said (`trims_trim`, `Trims.eq_trim`).
-/

namespace Phrasebook

section
variable {p : Char → Bool} {cs rest : List Char}

theorem takeWhile_append_eq_iff :
    (cs ++ rest).takeWhile p = cs ↔
      (∀ c ∈ cs, p c = true) ∧ ∀ c, rest.head? = some c → p c = false := by
  induction cs with
  | nil => cases rest <;> simp [List.takeWhile_cons]
  | cons c cs ih =>
    by_cases hc : p c = true
    · simp [hc, ih]
    · simp [hc]

theorem takeWhile_append_of_stop (hcs : ∀ c ∈ cs, p c = true)
    (hrest : ∀ c more, rest = c :: more → p c = false) : (cs ++ rest).takeWhile p = cs := by
  refine takeWhile_append_eq_iff.2 ⟨hcs, fun c hc => ?_⟩
  obtain ⟨more, rfl⟩ := List.head?_eq_some_iff.1 hc
  exact hrest c more rfl

end

/-! ### White space -/

def White (cs : List Char) : Prop :=
  ∀ c ∈ cs, isWhiteSpace c = true

theorem white_nil : White [] := by
  simp [White]

theorem White.of_append_left {cs ds : List Char} (h : White (cs ++ ds)) : White cs :=
  fun c hc => h c (List.mem_append_left ds hc)

theorem White.notMem {cs : List Char} (h : White cs) {c : Char} (hc : isWhiteSpace c = false) :
    c ∉ cs := by
  intro hmem
  rw [h c hmem] at hc
  cases hc

theorem trimStart_append {gap : List Char} (hgap : White gap) {c : Char}
    (hc : isWhiteSpace c = false) (cs : List Char) : trimStart (gap ++ c :: cs) = c :: cs := by
  rw [trimStart, List.dropWhile_append_of_pos hgap, List.dropWhile_cons_of_neg (by simp [hc])]

theorem exists_white_append_trimStart (cs : List Char) :
    ∃ gap, White gap ∧ cs = gap ++ trimStart cs :=
  ⟨cs.takeWhile isWhiteSpace, List.all_eq_true.1 List.all_takeWhile,
    List.takeWhile_append_dropWhile.symm⟩

/-! ### Trimming -/

/-- `key` is what is left of `cs` without the white space at its two ends. -/
structure Trims (cs key : List Char) : Prop where
  ends : ∃ front back, cs = front ++ (key ++ back) ∧ White front ∧ White back
  first : ∀ c ∈ key.head?, isWhiteSpace c = false
  last : ∀ c ∈ key.getLast?, isWhiteSpace c = false

section
variable {cs key back : List Char}

theorem head?_trimStart (cs : List Char) : ∀ c ∈ (trimStart cs).head?, isWhiteSpace c = false := by
  intro c hc
  have hnot := List.head?_dropWhile_not isWhiteSpace cs
  rw [trimStart] at hc
  rw [Option.mem_def.1 hc] at hnot
  exact hnot

/-- Only the end of a text is trimmed at its end. -/
theorem exists_trimEnd_append_white (cs : List Char) :
    ∃ back, White back ∧ cs = trimEnd cs ++ back := by
  obtain ⟨gap, hgap, hcs⟩ := exists_white_append_trimStart cs.reverse
  refine ⟨gap.reverse, fun c hc => hgap c (List.mem_reverse.1 hc), ?_⟩
  rw [trimEnd, ← List.reverse_append, ← hcs, List.reverse_reverse]

theorem head?_trimEnd (cs : List Char) : ∀ c ∈ (trimEnd cs).head?, c ∈ cs.head? := by
  intro c hc
  obtain ⟨back, -, hcs⟩ := exists_trimEnd_append_white cs
  rw [hcs, List.head?_append, Option.mem_def.1 hc]
  rfl

theorem getLast?_trimEnd (cs : List Char) :
    ∀ c ∈ (trimEnd cs).getLast?, isWhiteSpace c = false := by
  rw [trimEnd, List.getLast?_reverse]
  exact head?_trimStart cs.reverse

theorem trims_trim (cs : List Char) : Trims cs (trim cs) := by
  obtain ⟨front, hfront, hcs⟩ := exists_white_append_trimStart cs
  obtain ⟨back, hback, hstart⟩ := exists_trimEnd_append_white (trimStart cs)
  refine ⟨⟨front, back, ?_, hfront, hback⟩, ?_, getLast?_trimEnd _⟩
  · rw [trim, ← hstart]
    exact hcs
  · intro c hc
    exact head?_trimStart cs c (head?_trimEnd _ c hc)

theorem trimStart_of_white (h : White cs) : trimStart cs = [] :=
  List.dropWhile_eq_nil_iff.2 h

theorem trimEnd_append_white (hback : White back)
    (hlast : ∀ c ∈ key.getLast?, isWhiteSpace c = false) : trimEnd (key ++ back) = key := by
  have hrev : White back.reverse := fun c hc => hback c (List.mem_reverse.1 hc)
  rw [trimEnd, List.reverse_append]
  cases hkey : key.reverse with
  | nil =>
    rw [List.append_nil, trimStart_of_white hrev, List.reverse_nil, List.reverse_eq_nil_iff.1 hkey]
  | cons d ds =>
    have hd : isWhiteSpace d = false := by
      refine hlast d ?_
      rw [List.getLast?_eq_head?_reverse, hkey]
      rfl
    rw [trimStart_append hrev hd, ← hkey, List.reverse_reverse]

/-- There is one way to trim a text. -/
theorem Trims.eq_trim (h : Trims cs key) : key = trim cs := by
  obtain ⟨⟨front, back, rfl, hfront, hback⟩, hfirst, hlast⟩ := h
  cases key with
  | nil =>
    have hwhite : White (front ++ ([] ++ back)) := by
      intro c hc
      exact (List.mem_append.1 hc).elim (hfront c) (hback c)
    rw [trim, trimStart_of_white hwhite]
    rfl
  | cons c key =>
    have hc : isWhiteSpace c = false := hfirst c rfl
    rw [trim, List.cons_append, trimStart_append hfront hc, ← List.cons_append,
      trimEnd_append_white hback hlast]

end

end Phrasebook

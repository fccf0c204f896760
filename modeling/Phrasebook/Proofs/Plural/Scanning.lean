import Phrasebook.Proofs.Plural.Spelling

/-!
# Cutting a text between two lexemes

A lexeme looks one character ahead, at most.  So a text may be cut in front of any of its tokens
(`scanFrom_append_of_start`), and a text that no lexeme goes on with (`Inert`) may be put behind any
other text: the tokens of both parts are the tokens of the whole (`scanFrom_append`).
-/

namespace Phrasebook.Plural

open Ascii

/-! ### Lexemes and the character after them -/

section
variable {p : Char → Bool} {more rest rest' : List Char} {k : Nat}

theorem takeWhile_take_append_eq_iff :
    ((more ++ rest).take k).takeWhile p = more ↔
      (more.length ≤ k ∧ ∀ d ∈ more, p d = true) ∧
        (more.length < k → ∀ d, rest.head? = some d → p d = false) := by
  induction more generalizing k with
  | nil =>
    cases k with
    | zero => simp
    | succ k => cases rest <;> simp [List.takeWhile_cons]
  | cons c more ih =>
    cases k with
    | zero => simp
    | succ k =>
      by_cases hc : p c = true
      · simp [hc, ih]
      · simp [hc]

end

/-- No lexeme goes on with the text: it is empty, or begins with a character that only stands at
the beginning of lexemes, or between them. -/
def Inert (rest : List Char) : Prop :=
  ∀ d, rest.head? = some d → isNamePart d = false ∧ d ≠ '=' ∧ d ≠ '&' ∧ d ≠ '|'

theorem inert_nil : Inert [] :=
  fun _ h => nomatch h

theorem inert_blank (cs : List Char) : Inert (' ' :: cs) := by
  rintro d ⟨⟩
  decide

theorem inert_semicolon (cs : List Char) : Inert (';' :: cs) := by
  rintro d ⟨⟩
  decide

/-- What comes after a lexeme may be replaced by a text that begins in the same way or that no
lexeme goes on with. -/
def Replaces (rest' rest : List Char) : Prop :=
  rest'.head? = rest.head? ∨ Inert rest'

section
variable {c : Char} {more rest rest' : List Char}

theorem Replaces.stops {p : Char → Bool} (h : Replaces rest' rest)
    (hp : ∀ d, isNamePart d = false ∧ d ≠ '=' ∧ d ≠ '&' ∧ d ≠ '|' → p d = false)
    (hrest : ∀ d, rest.head? = some d → p d = false) :
    ∀ d, rest'.head? = some d → p d = false := by
  intro d hd
  rcases h with heq | hinert
  · exact hrest d (heq ▸ hd)
  · exact hp d (hinert d hd)

/-- A lexeme does not become longer. -/
theorem Replaces.continuation_eq (h : Replaces rest' rest)
    (hm : continuation c (more ++ rest) = more) : continuation c (more ++ rest') = more := by
  have take {p : Char → Bool} {k : Nat}
      (hp : ∀ d, isNamePart d = false ∧ d ≠ '=' ∧ d ≠ '&' ∧ d ≠ '|' → p d = false)
      (hm : ((more ++ rest).take k).takeWhile p = more) :
      ((more ++ rest').take k).takeWhile p = more := by
    rw [takeWhile_take_append_eq_iff] at hm ⊢
    exact ⟨hm.1, fun hk => h.stops hp (hm.2 hk)⟩
  have takeAll {p : Char → Bool}
      (hp : ∀ d, isNamePart d = false ∧ d ≠ '=' ∧ d ≠ '&' ∧ d ≠ '|' → p d = false)
      (hm : (more ++ rest).takeWhile p = more) : (more ++ rest').takeWhile p = more := by
    rw [takeWhile_append_eq_iff] at hm ⊢
    exact ⟨hm.1, h.stops hp hm.2⟩
  unfold continuation at hm ⊢
  split
  · next hc =>
    rw [if_pos hc] at hm
    exact takeAll (fun d hd => hd.1) hm
  next hc =>
  rw [if_neg hc] at hm
  split
  · next hdigit =>
    rw [if_pos hdigit] at hm
    refine takeAll (fun d hd => Bool.eq_false_iff.2 fun h => ?_) hm
    rw [isNamePart_of_isDigit h] at hd
    exact nomatch hd.1
  next hdigit =>
  rw [if_neg hdigit] at hm
  split
  · next hangle =>
    rw [if_pos hangle] at hm
    exact take (fun d hd => decide_eq_false hd.2.1) hm
  next hangle =>
  rw [if_neg hangle] at hm
  split
  · next hequals =>
    rw [if_pos hequals] at hm
    exact take (fun d hd => decide_eq_false hd.2.1) hm
  next hequals =>
  rw [if_neg hequals] at hm
  split
  · next hpair =>
    rw [if_pos hpair] at hm
    refine take (fun d hd => decide_eq_false ?_) hm
    rintro rfl
    simp only [Bool.or_eq_true, decide_eq_true_eq] at hpair
    rcases hpair with rfl | rfl
    · exact hd.2.2.1 rfl
    · exact hd.2.2.2 rfl
  next hpair =>
  rw [if_neg hpair] at hm
  exact hm

/-- A lexeme stays what it is, unless it is a fault because of what comes after it. -/
theorem Replaces.ofText_eq (h : Replaces rest' rest)
    (hok : (Lexeme.ofText c more rest.head?).isFault = false ∨ rest = []) :
    Lexeme.ofText c more rest'.head? = Lexeme.ofText c more rest.head? := by
  rcases h with heq | hinert
  · rw [heq]
  have hnext' : rest'.head?.any isNameStart = false := by
    refine Bool.eq_false_iff.2 fun hany => ?_
    obtain ⟨d, hd, hstart⟩ := Option.any_eq_true _ _ |>.1 hany
    have hpart := (hinert d hd).1
    rw [isNamePart_of_isNameStart hstart] at hpart
    cases hpart
  unfold Lexeme.ofText at hok ⊢
  dsimp only at hok ⊢
  by_cases hc : isNameStart c = true
  · rw [if_pos hc, if_pos hc]
  rw [if_neg hc] at hok
  rw [if_neg hc, if_neg hc]
  by_cases hdigit : isDigit c = true
  · rw [if_pos hdigit] at hok
    rw [if_pos hdigit, if_pos hdigit, hnext']
    have hnext : rest.head?.any isNameStart = false := by
      rcases hok with hok | rfl
      · refine Bool.eq_false_iff.2 fun hany => ?_
        rw [if_pos hany] at hok
        cases hok
      · rfl
    rw [hnext]
  · rw [if_neg hdigit, if_neg hdigit]

end

/-! ### One token after the other -/

/-- A text is empty, or it begins with a blank or with the text of a token. -/
theorem scanFrom_induction {motive : Nat → List Char → Prop} (nil : ∀ offset, motive offset [])
    (blank : ∀ offset c rest, isBlank c = true → motive (offset + c.utf8Size) rest →
      motive offset (c :: rest))
    (token : ∀ offset c more rest, isBlank c = false → continuation c (more ++ rest) = more →
      motive (offset + utf8Length (c :: more)) rest → motive offset (c :: (more ++ rest)))
    (offset : Nat) (cs : List Char) : motive offset cs := by
  induction hn : cs.length using Nat.strongRecOn generalizing cs offset with
  | _ n ih =>
    subst hn
    cases cs with
    | nil => exact nil offset
    | cons c cs =>
      by_cases hc : isBlank c = true
      · exact blank offset c cs hc (ih _ (Nat.lt_succ_self _) _ cs rfl)
      · obtain ⟨rest, hrest⟩ := continuation_isPrefix c cs
        have hlt : rest.length < (c :: cs).length := by
          rw [← hrest, List.length_cons, List.length_append]
          omega
        have htoken := token offset c (continuation c cs) rest (Bool.eq_false_iff.2 hc)
          (by rw [hrest]) (ih _ hlt _ rest rfl)
        rwa [hrest] at htoken

section
variable {offset : Nat} {c : Char} {more rest : List Char}

theorem scanFrom_nil (offset : Nat) : scanFrom offset [] = [] := by
  rw [scanFrom]

theorem scanFrom_token (hc : isBlank c = false) (hm : continuation c (more ++ rest) = more) :
    scanFrom offset (c :: (more ++ rest)) =
      if (Lexeme.ofText c more rest.head?).isFault = true then
        [⟨offset, String.ofList (c :: more), Lexeme.ofText c more rest.head?⟩]
      else
        ⟨offset, String.ofList (c :: more), Lexeme.ofText c more rest.head?⟩ ::
          scanFrom (offset + utf8Length (c :: more)) rest := by
  rw [scanFrom, hc, if_neg Bool.false_ne_true]
  simp only [hm, List.drop_left]

theorem scanFrom_semicolon (offset : Nat) (cs : List Char) :
    scanFrom offset (';' :: cs) =
      ⟨offset, ";", .mark .semicolon⟩ :: scanFrom (offset + 1) cs :=
  @scanFrom_token offset ';' [] cs rfl rfl

end

/-! ### Where tokens stand -/

section
variable {offset : Nat} {cs : List Char} {t : Token}

theorem start_of_mem_scanFrom (h : t ∈ scanFrom offset cs) :
    offset ≤ t.start ∧ t.start < offset + utf8Length cs := by
  obtain ⟨before, c, rest, rfl, rfl⟩ := mem_scanFrom h
  have hc : 0 < c.utf8Size := Char.utf8Size_pos c
  show offset ≤ offset + utf8Length before ∧ offset + utf8Length before < _
  rw [utf8Length_append, utf8Length]
  omega

theorem start_lt_stop_of_mem_scanFrom (h : t ∈ scanFrom offset cs) : t.start < t.stop := by
  obtain ⟨before, c, rest, -, rfl⟩ := mem_scanFrom h
  have hpos := utf8Length_pos (List.cons_ne_nil c (continuation c rest))
  rw [utf8Length_eq_utf8ByteSize] at hpos
  exact Nat.lt_add_of_pos_right hpos

/-- The tokens of a text stand one behind the other, and only the last one may be a fault. -/
theorem pairwise_stop (offset : Nat) (cs : List Char) :
    (scanFrom offset cs).Pairwise fun t u => t.stop ≤ u.start ∧ t.lexeme.isFault = false := by
  induction offset, cs using scanFrom_induction with
  | nil offset => rw [scanFrom_nil]; exact .nil
  | blank offset c rest hc ih => rw [scanFrom_blank hc]; exact ih
  | token offset c more rest hc hm ih =>
    rw [scanFrom_token hc hm]
    split
    · exact List.pairwise_singleton _ _
    · next hf =>
      refine .cons (fun u hu => ⟨?_, Bool.eq_false_iff.2 hf⟩) ih
      have hle := (start_of_mem_scanFrom hu).1
      rwa [utf8Length_eq_utf8ByteSize] at hle

theorem pairwise_start (offset : Nat) (cs : List Char) :
    (scanFrom offset cs).Pairwise fun t u => t.start < u.start :=
  (pairwise_stop offset cs).imp_of_mem fun ht _ h =>
    Nat.lt_of_lt_of_le (start_lt_stop_of_mem_scanFrom ht) h.1

/-- A token is known by its place. -/
theorem split_eq_of_start {ts us vs ws : List Token} {t u : Token}
    (hts : (ts ++ t :: us).Pairwise fun t u => t.start < u.start)
    (h : ts ++ t :: us = vs ++ u :: ws) (hstart : t.start = u.start) : ts = vs ∧ t = u := by
  have before {ts us : List Token} {t v : Token}
      (hts : (ts ++ t :: us).Pairwise fun t u => t.start < u.start) (hv : v ∈ ts) :
      v.start < t.start :=
    (List.pairwise_append.1 hts).2.2 v hv t List.mem_cons_self
  rcases List.append_eq_append_iff.1 h with ⟨more, rfl, hmore⟩ | ⟨more, rfl, hmore⟩
  · cases more with
    | nil =>
      cases hmore
      exact ⟨(List.append_nil _).symm, rfl⟩
    | cons v more =>
      cases hmore
      have hlt := before (h ▸ hts) (List.mem_append_right ts List.mem_cons_self)
      omega
  · cases more with
    | nil =>
      cases hmore
      exact ⟨List.append_nil _, rfl⟩
    | cons v more =>
      cases hmore
      have hlt := before hts (List.mem_append_right vs List.mem_cons_self)
      omega

end

/-! ### Texts side by side -/

/-- The token list ends in a fault, and the scanner has stopped there. -/
def Faulty (ts : List Token) : Prop :=
  ∃ t ∈ ts, t.lexeme.isFault = true

section
variable {offset : Nat} {cs rest : List Char} {t : Token}

theorem faulty_cons {t : Token} {ts : List Token} (h : t.lexeme.isFault = false) :
    Faulty (t :: ts) ↔ Faulty ts := by
  simp [Faulty, h]

/-- A lexeme of a text is one of the longer text. -/
theorem scanFrom_token_append {c : Char} {more : List Char} (hrest : Inert rest)
    (hc : isBlank c = false) (hm : continuation c (more ++ cs) = more) :
    scanFrom offset (c :: (more ++ cs) ++ rest) =
      if (Lexeme.ofText c more cs.head?).isFault = true then
        [⟨offset, String.ofList (c :: more), Lexeme.ofText c more cs.head?⟩]
      else
        ⟨offset, String.ofList (c :: more), Lexeme.ofText c more cs.head?⟩ ::
          scanFrom (offset + utf8Length (c :: more)) (cs ++ rest) := by
  have hreplaces : Replaces (cs ++ rest) cs := by
    cases cs with
    | nil => exact .inr hrest
    | cons d ds => exact .inl rfl
  have hlexeme : Lexeme.ofText c more (cs ++ rest).head? = Lexeme.ofText c more cs.head? := by
    cases cs with
    | nil => exact hreplaces.ofText_eq (.inr rfl)
    | cons d ds => rfl
  rw [List.cons_append, List.append_assoc, scanFrom_token hc (hreplaces.continuation_eq hm),
    hlexeme]

theorem scanFrom_append (hrest : Inert rest) (hok : ¬ Faulty (scanFrom offset cs)) :
    scanFrom offset (cs ++ rest) =
      scanFrom offset cs ++ scanFrom (offset + utf8Length cs) rest := by
  induction offset, cs using scanFrom_induction with
  | nil offset => rw [scanFrom_nil]; rfl
  | blank offset c cs hc ih =>
    rw [scanFrom_blank hc] at hok
    rw [List.cons_append, scanFrom_blank hc, scanFrom_blank hc, ih hok, utf8Length, Nat.add_assoc]
  | token offset c more cs hc hm ih =>
    rw [scanFrom_token hc hm] at hok ⊢
    rw [scanFrom_token_append hrest hc hm]
    split
    · next hf => exact absurd ⟨_, List.mem_cons_self, hf⟩ (if_pos hf ▸ hok)
    · next hf =>
      rw [if_neg hf, faulty_cons (Bool.eq_false_iff.2 hf)] at hok
      have hlength : offset + utf8Length (c :: more) + utf8Length cs =
          offset + utf8Length (c :: (more ++ cs)) := by
        simp only [utf8Length, utf8Length_append]
        omega
      rw [ih hok, hlength, List.cons_append]

/-- What comes after a fault is not scanned. -/
theorem scanFrom_append_of_faulty (hrest : Inert rest) (h : Faulty (scanFrom offset cs)) :
    scanFrom offset (cs ++ rest) = scanFrom offset cs := by
  induction offset, cs using scanFrom_induction with
  | nil offset =>
    rw [scanFrom_nil] at h
    exact absurd h fun ⟨_, h, _⟩ => nomatch h
  | blank offset c cs hc ih =>
    rw [scanFrom_blank hc] at h
    rw [List.cons_append, scanFrom_blank hc, scanFrom_blank hc, ih h]
  | token offset c more cs hc hm ih =>
    rw [scanFrom_token hc hm] at h ⊢
    rw [scanFrom_token_append hrest hc hm]
    split
    · rfl
    · next hf =>
      rw [if_neg hf, faulty_cons (Bool.eq_false_iff.2 hf)] at h
      rw [ih h]

/-- A token that stands before another one ends before it. -/
theorem exists_token_before {c : Char} (hc : isBlank c = false)
    (ht : t ∈ scanFrom offset (c :: (cs ++ rest)))
    (hstart : t.start = offset + utf8Length (c :: cs)) :
    ∃ more ds, cs = more ++ ds ∧ continuation c (more ++ (ds ++ rest)) = more ∧
      (Lexeme.ofText c more (ds ++ rest).head?).isFault = false ∧
      t ∈ scanFrom (offset + utf8Length (c :: more)) (ds ++ rest) := by
  obtain ⟨after, hafter⟩ := continuation_isPrefix c (cs ++ rest)
  generalize hmore : continuation c (cs ++ rest) = more at hafter
  have hpos := utf8Length_pos (List.cons_ne_nil c cs)
  rw [← hafter] at ht hmore
  rw [scanFrom_token hc hmore] at ht
  have hf : (Lexeme.ofText c more after.head?).isFault = false := by
    refine Bool.eq_false_iff.2 fun hf => ?_
    rw [if_pos hf] at ht
    obtain rfl := List.mem_singleton.1 ht
    dsimp only at hstart
    omega
  rw [hf, if_neg Bool.false_ne_true] at ht
  replace ht : t ∈ scanFrom (offset + utf8Length (c :: more)) after := by
    rcases List.mem_cons.1 ht with rfl | ht
    · dsimp only at hstart
      omega
    · exact ht
  have hle := (start_of_mem_scanFrom ht).1
  obtain ⟨ds, rfl⟩ : more <+: cs := by
    refine isPrefix_of_utf8Length_le ⟨after, hafter⟩ ⟨rest, rfl⟩ ?_
    simp only [utf8Length] at hle hstart
    omega
  rw [List.append_assoc] at hafter
  obtain rfl := List.append_cancel_left hafter
  exact ⟨more, ds, rfl, hmore, hf, ht⟩

/-- A text is cut in front of each of its tokens, and no fault stands before a token. -/
theorem scanFrom_append_of_start (ht : t ∈ scanFrom offset (cs ++ rest))
    (hstart : t.start = offset + utf8Length cs) :
    scanFrom offset (cs ++ rest) = scanFrom offset cs ++ scanFrom (offset + utf8Length cs) rest ∧
      ¬ Faulty (scanFrom offset cs) := by
  induction hn : cs.length using Nat.strongRecOn generalizing cs offset with
  | _ n ih =>
    subst hn
    cases cs with
    | nil =>
      rw [scanFrom_nil offset]
      exact ⟨rfl, fun ⟨_, h, _⟩ => nomatch h⟩
    | cons c cs =>
      by_cases hc : isBlank c = true
      · rw [List.cons_append, scanFrom_blank hc] at ht
        rw [utf8Length, ← Nat.add_assoc] at hstart ⊢
        rw [List.cons_append, scanFrom_blank hc, scanFrom_blank hc]
        exact ih _ (Nat.lt_succ_self _) ht hstart rfl
      · replace hc := Bool.eq_false_iff.2 hc
        obtain ⟨more, ds, rfl, hm, hf, ht⟩ := exists_token_before hc ht hstart
        have hreplaces : Replaces ds (ds ++ rest) := by
          cases ds with
          | nil => exact .inr inert_nil
          | cons d ds => exact .inl rfl
        have hlength : offset + utf8Length (c :: (more ++ ds)) =
            offset + utf8Length (c :: more) + utf8Length ds := by
          simp only [utf8Length, utf8Length_append]
          omega
        have hlt : ds.length < (c :: (more ++ ds)).length := by
          rw [List.length_cons, List.length_append]
          omega
        rw [hlength] at hstart ⊢
        obtain ⟨hds, hok⟩ := ih _ hlt ht hstart rfl
        rw [List.cons_append, List.append_assoc, scanFrom_token hc hm,
          scanFrom_token hc (hreplaces.continuation_eq hm), hreplaces.ofText_eq (.inl hf), hf,
          if_neg Bool.false_ne_true, if_neg Bool.false_ne_true, hds]
        exact ⟨rfl, (not_congr (faulty_cons hf)).2 hok⟩

end

/-! ### Tokens further on -/

/-- The same token, so many bytes further on. -/
def Token.shift (bytes : Nat) (t : Token) : Token :=
  { t with start := bytes + t.start }

theorem scanFrom_add (bytes offset : Nat) (cs : List Char) :
    scanFrom (bytes + offset) cs = (scanFrom offset cs).map (Token.shift bytes) := by
  induction offset, cs using scanFrom_induction with
  | nil offset => rw [scanFrom_nil, scanFrom_nil]; rfl
  | blank offset c rest hc ih =>
    rw [scanFrom_blank hc, scanFrom_blank hc, Nat.add_assoc, ih]
  | token offset c more rest hc hm ih =>
    rw [scanFrom_token hc hm, scanFrom_token hc hm]
    split
    · rfl
    · rw [Nat.add_assoc, ih]
      rfl

end Phrasebook.Plural

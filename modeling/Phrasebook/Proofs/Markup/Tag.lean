import Phrasebook.Markup.Token
import Phrasebook.Proofs.Text.Runs

/-!
# The written form of tags

A grammar of tags that says nothing of how they are found (`IsTag`, `TagAt`), and the scanner's
steps seen through it: where a tag of the grammar begins, the scanner cuts it off whole
(`scanFrom_tag`), and anywhere else it takes one character as text (`scanFrom_text`).
-/

namespace Phrasebook.Markup

/-! ### The grammar -/

/-- The last character that is no white space is a `/`. -/
def EndsInSlash (cs : List Char) : Prop :=
  ∃ front blank, cs = front ++ '/' :: blank ∧ White blank

/-- A name that is not empty and cannot be longer where `after` follows it. -/
structure Named (name after : List Char) : Prop where
  ne_nil : name ≠ []
  alphanum : ∀ c ∈ name, c.isAlphanum = true
  longest : ∀ c more, after = c :: more → c.isAlphanum = false

def lowered (name : List Char) : String :=
  String.ofList (name.map Char.toLower)

/-- The tags, and what each of them is. -/
inductive IsTag : List Char → Shape → Prop
  | closing {gap gap' name tail : List Char} :
      White gap → White gap' → Named name tail → '>' ∉ tail →
      IsTag ('<' :: (gap ++ '/' :: (gap' ++ (name ++ (tail ++ ['>']))))) (.closing (lowered name))
  | selfClosing {gap name tail : List Char} :
      White gap → Named name tail → '>' ∉ tail → EndsInSlash tail →
      IsTag ('<' :: (gap ++ (name ++ (tail ++ ['>'])))) (.selfClosing (lowered name))
  | opening {gap name tail : List Char} :
      White gap → Named name tail → '>' ∉ tail → ¬ EndsInSlash tail →
      IsTag ('<' :: (gap ++ (name ++ (tail ++ ['>'])))) (.opening (lowered name))

/-- A tag begins with the first of the characters. -/
def TagAt (cs : List Char) : Prop :=
  ∃ written shape, IsTag written shape ∧ written <+: cs

section
variable {written : List Char} {shape : Shape}

theorem IsTag.shape_ne_text (h : IsTag written shape) : shape ≠ .text := by
  cases h <;> exact Shape.noConfusion

theorem IsTag.exists_cons (h : IsTag written shape) : ∃ cs, written = '<' :: cs := by
  cases h <;> exact ⟨_, rfl⟩

end

theorem not_tagAt_cons {c : Char} (hc : c ≠ '<') (cs : List Char) : ¬ TagAt (c :: cs) := by
  rintro ⟨written, shape, htag, hpre⟩
  obtain ⟨ds, rfl⟩ := htag.exists_cons
  exact hc (List.cons_prefix_cons.1 hpre).1.symm

/-! ### Characters -/

theorem toNat_of_isAlphanum {c : Char} (h : c.isAlphanum = true) :
    48 ≤ c.toNat ∧ c.toNat ≤ 122 := by
  unfold Char.isAlphanum Char.isAlpha Char.isUpper Char.isLower Char.isDigit at h
  simp only [Bool.or_eq_true, Bool.and_eq_true, decide_eq_true_eq, ge_iff_le,
    UInt32.le_iff_toNat_le] at h
  -- the bounds as code points
  change ((65 ≤ c.toNat ∧ c.toNat ≤ 90) ∨ (97 ≤ c.toNat ∧ c.toNat ≤ 122)) ∨
    (48 ≤ c.toNat ∧ c.toNat ≤ 57) at h
  omega

theorem isWhiteSpace_of_isAlphanum {c : Char} (h : c.isAlphanum = true) :
    isWhiteSpace c = false := by
  have hbounds := toNat_of_isAlphanum h
  rw [Bool.eq_false_iff]
  intro hwhite
  simp only [isWhiteSpace, whiteSpaceRanges, List.any_cons, List.any_nil, Bool.or_eq_true,
    Bool.and_eq_true, decide_eq_true_eq, Bool.false_eq_true, or_false] at hwhite
  omega

theorem ne_slash_of_isAlphanum {c : Char} (h : c.isAlphanum = true) : c ≠ '/' := by
  rintro rfl
  exact absurd h (by decide)

theorem gt_notMem_of_white {cs : List Char} (h : White cs) : '>' ∉ cs :=
  h.notMem (by decide)

/-- An end of white space does not hide the last visible character. -/
theorem getLast?_trimEnd_eq_slash {cs : List Char} :
    (trimEnd cs).getLast? = some '/' ↔ EndsInSlash cs := by
  rw [trimEnd, List.getLast?_reverse]
  constructor
  · intro h
    obtain ⟨gap, hgap, hcs⟩ := exists_white_append_trimStart cs.reverse
    obtain ⟨more, hmore⟩ := List.head?_eq_some_iff.1 h
    refine ⟨more.reverse, gap.reverse, ?_, fun c hc => hgap c (List.mem_reverse.1 hc)⟩
    rw [hmore] at hcs
    rw [← List.reverse_reverse cs, hcs]
    simp only [List.reverse_append, List.reverse_cons, List.append_assoc, List.singleton_append]
  · rintro ⟨front, blank, rfl, hblank⟩
    have hrev : White blank.reverse := fun c hc => hblank c (List.mem_reverse.1 hc)
    rw [List.reverse_append, List.reverse_cons, List.append_assoc, List.singleton_append,
      trimStart_append hrev (by decide)]
    rfl

/-- Nothing in front of a visible character other than `/` matters. -/
theorem endsInSlash_append_cons {front tail : List Char} {c : Char} (hc : isWhiteSpace c = false)
    (hslash : c ≠ '/') : EndsInSlash (front ++ c :: tail) ↔ EndsInSlash tail := by
  constructor
  · rintro ⟨start, blank, hcs, hblank⟩
    rcases List.append_eq_append_iff.1 hcs with ⟨more, rfl, hmore⟩ | ⟨more, rfl, hmore⟩
    · cases more with
      | nil => exact absurd (List.cons.inj hmore).1 hslash
      | cons d more => exact ⟨more, blank, (List.cons.inj hmore).2, hblank⟩
    · cases more with
      | nil => exact absurd (List.cons.inj hmore).1.symm hslash
      | cons d more =>
        have hmem : c ∈ blank := (List.cons.inj hmore).2 ▸ by simp
        exact absurd (hblank c hmem) (by simp [hc])
  · rintro ⟨start, blank, rfl, hblank⟩
    exact ⟨front ++ c :: start, blank, by simp, hblank⟩

/-! ### Heads -/

/-- The characters are the head, as it is written after the `<`. -/
inductive Leads : List Char → TagHead → Prop
  | name {gap name : List Char} : White gap → Leads (gap ++ name) ⟨false, name⟩
  | slash {gap gap' name : List Char} : White gap → White gap' →
      Leads (gap ++ '/' :: (gap' ++ name)) ⟨true, name⟩

/-- The head with the name that stands first, where a `/` has been found or not. -/
def nameHead? (closing : Bool) (cs : List Char) : Option TagHead :=
  let name := cs.takeWhile Char.isAlphanum
  if name.isEmpty then none else some ⟨closing, name⟩

section
variable {head : TagHead} {closing : Bool} {lead name gap after tail rest cs ds : List Char}

theorem tagHead?_slash (h : trimStart cs = '/' :: ds) :
    tagHead? cs = nameHead? true (trimStart ds) := by
  rw [tagHead?, h]
  rfl

theorem tagHead?_name (h : ∀ ds, trimStart cs ≠ '/' :: ds) :
    tagHead? cs = nameHead? false (trimStart cs) := by
  rw [tagHead?]
  split
  next closing ds hds =>
    split at hds
    · next more hmore => exact absurd hmore (h more)
    · cases hds
      rfl

theorem nameHead?_eq_some (h : Named name after) :
    nameHead? closing (name ++ after) = some ⟨closing, name⟩ := by
  have hrun : (name ++ after).takeWhile Char.isAlphanum = name :=
    takeWhile_append_of_stop h.alphanum h.longest
  simp [nameHead?, hrun, h.ne_nil]

theorem exists_name_of_nameHead? (h : nameHead? closing cs = some head) :
    head.closing = closing ∧ ∃ after, cs = head.name ++ after ∧ Named head.name after := by
  unfold nameHead? at h
  dsimp only at h
  split at h
  · cases h
  · next hne =>
    cases h
    refine ⟨rfl, cs.dropWhile Char.isAlphanum, List.takeWhile_append_dropWhile.symm, ?_⟩
    refine ⟨by simpa using hne, List.all_eq_true.1 List.all_takeWhile, ?_⟩
    intro c more hcons
    have hhead := List.head?_dropWhile_not Char.isAlphanum cs
    rwa [hcons] at hhead

theorem Named.trimStart_append (h : Named name after) (hgap : White gap) :
    trimStart (gap ++ (name ++ after)) = name ++ after := by
  obtain ⟨c, more, rfl⟩ := List.exists_cons_of_ne_nil h.ne_nil
  have hc : c.isAlphanum = true := h.alphanum c List.mem_cons_self
  exact Phrasebook.trimStart_append hgap (isWhiteSpace_of_isAlphanum hc) (more ++ after)

theorem Named.append_ne_slash (h : Named name after) (ds : List Char) :
    name ++ after ≠ '/' :: ds := by
  intro hds
  obtain ⟨c, more, rfl⟩ := List.exists_cons_of_ne_nil h.ne_nil
  exact ne_slash_of_isAlphanum (h.alphanum c List.mem_cons_self) (List.cons.inj hds).1

theorem tagHead?_eq_some_iff : tagHead? cs = some head ↔
    ∃ lead after, cs = lead ++ after ∧ Leads lead head ∧ Named head.name after := by
  constructor
  · intro h
    obtain ⟨gap, hgap, hcs⟩ := exists_white_append_trimStart cs
    by_cases hslash : ∃ ds, trimStart cs = '/' :: ds
    · obtain ⟨ds, hds⟩ := hslash
      obtain ⟨gap', hgap', hds'⟩ := exists_white_append_trimStart ds
      rw [tagHead?_slash hds] at h
      obtain ⟨hclosing, after, hafter, hname⟩ := exists_name_of_nameHead? h
      refine ⟨gap ++ '/' :: (gap' ++ head.name), after, ?_, ?_, hname⟩
      · rw [hcs, hds, hds', hafter]
        simp
      · have hlead : Leads (gap ++ '/' :: (gap' ++ head.name)) ⟨true, head.name⟩ :=
          .slash hgap hgap'
        rwa [← hclosing] at hlead
    · rw [tagHead?_name (not_exists.1 hslash)] at h
      obtain ⟨hclosing, after, hafter, hname⟩ := exists_name_of_nameHead? h
      refine ⟨gap ++ head.name, after, ?_, ?_, hname⟩
      · rw [hcs, hafter, List.append_assoc]
      · have hlead : Leads (gap ++ head.name) ⟨false, head.name⟩ := .name hgap
        rwa [← hclosing] at hlead
  · rintro ⟨lead, after, rfl, hlead, hname⟩
    cases hlead with
    | @name gap name hgap =>
      have htrim := hname.trimStart_append hgap
      have hslash : ∀ ds, trimStart (gap ++ (name ++ after)) ≠ '/' :: ds :=
        fun ds hds => hname.append_ne_slash ds (htrim.symm.trans hds)
      rw [List.append_assoc, tagHead?_name hslash, htrim]
      exact nameHead?_eq_some hname
    | @slash gap gap' name hgap hgap' =>
      have htrim : trimStart (gap ++ '/' :: (gap' ++ (name ++ after))) =
          '/' :: (gap' ++ (name ++ after)) := trimStart_append hgap (by decide) _
      rw [List.append_assoc, List.cons_append, List.append_assoc, tagHead?_slash htrim,
        hname.trimStart_append hgap']
      exact nameHead?_eq_some hname

/-- No head reaches over the end of the tag. -/
theorem Leads.gt_notMem (h : Leads lead head) (hname : ∀ c ∈ head.name, c.isAlphanum = true) :
    '>' ∉ lead := by
  have hgt : '>' ∉ head.name := fun hmem => absurd (hname _ hmem) (by decide)
  cases h with
  | name hgap => simpa [gt_notMem_of_white hgap] using hgt
  | slash hgap hgap' => simpa [gt_notMem_of_white hgap, gt_notMem_of_white hgap'] using hgt

/-- The name hides what stands in front of it from the end of the tag. -/
theorem Leads.endsInSlash_append (h : Leads lead head) (hname : Named head.name after) :
    EndsInSlash (lead ++ tail) ↔ EndsInSlash tail := by
  have hlast := hname.alphanum _ (List.getLast_mem hname.ne_nil)
  have hend (front : List Char) : EndsInSlash (front ++ (head.name ++ tail)) ↔ EndsInSlash tail := by
    rw [← List.dropLast_concat_getLast hname.ne_nil, List.append_assoc, ← List.append_assoc,
      List.singleton_append]
    exact endsInSlash_append_cons (isWhiteSpace_of_isAlphanum hlast) (ne_slash_of_isAlphanum hlast)
  cases h with
  | @name gap name hgap =>
    rw [List.append_assoc]
    exact hend gap
  | @slash gap gap' name hgap hgap' =>
    have hlead : gap ++ '/' :: (gap' ++ name) ++ tail = gap ++ '/' :: gap' ++ (name ++ tail) := by
      simp
    rw [hlead]
    exact hend (gap ++ '/' :: gap')

/-- The `>` that ends a tag ends the name as well. -/
theorem named_append_gt : Named name (tail ++ '>' :: rest) ↔ Named name tail := by
  constructor
  · rintro ⟨hne, hname, hstop⟩
    refine ⟨hne, hname, ?_⟩
    rintro c more rfl
    exact hstop c (more ++ '>' :: rest) rfl
  · rintro ⟨hne, hname, hstop⟩
    refine ⟨hne, hname, ?_⟩
    intro c more hcons
    cases tail with
    | nil =>
      cases hcons
      decide
    | cons d ds => exact hstop c ds (by rw [(List.cons.inj hcons).1])

theorem Leads.shape_of_endsInSlash (h : Leads lead ⟨false, name⟩) (hname : Named name tail)
    (hslash : EndsInSlash tail) :
    TagHead.shape ⟨false, name⟩ (lead ++ tail) = .selfClosing (lowered name) :=
  if_pos (getLast?_trimEnd_eq_slash.2 ((h.endsInSlash_append hname).2 hslash))

theorem Leads.shape_of_not_endsInSlash (h : Leads lead ⟨false, name⟩) (hname : Named name tail)
    (hslash : ¬ EndsInSlash tail) :
    TagHead.shape ⟨false, name⟩ (lead ++ tail) = .opening (lowered name) :=
  if_neg fun hlast => hslash ((h.endsInSlash_append hname).1 (getLast?_trimEnd_eq_slash.1 hlast))

/-- The tags are the heads, each with what follows it up to the next `>`. -/
theorem isTag_iff {written : List Char} {shape : Shape} : IsTag written shape ↔
    ∃ head lead tail, written = '<' :: (lead ++ (tail ++ ['>'])) ∧ Leads lead head ∧
      Named head.name tail ∧ '>' ∉ tail ∧ shape = head.shape (lead ++ tail) := by
  constructor
  · intro h
    cases h with
    | @closing gap gap' name tail hgap hgap' hname htail =>
      refine ⟨⟨true, name⟩, gap ++ '/' :: (gap' ++ name), tail, by simp, ?_, hname, htail, rfl⟩
      exact .slash hgap hgap'
    | @selfClosing gap name tail hgap hname htail hslash =>
      have hlead : Leads (gap ++ name) ⟨false, name⟩ := .name hgap
      exact ⟨⟨false, name⟩, gap ++ name, tail, by simp, hlead, hname, htail,
        (hlead.shape_of_endsInSlash hname hslash).symm⟩
    | @opening gap name tail hgap hname htail hslash =>
      have hlead : Leads (gap ++ name) ⟨false, name⟩ := .name hgap
      exact ⟨⟨false, name⟩, gap ++ name, tail, by simp, hlead, hname, htail,
        (hlead.shape_of_not_endsInSlash hname hslash).symm⟩
  · rintro ⟨head, lead, tail, rfl, hlead, hname, htail, rfl⟩
    cases hlead with
    | @name gap name hgap =>
      have hlead : Leads (gap ++ name) ⟨false, name⟩ := .name hgap
      rw [List.append_assoc gap name (tail ++ ['>'])]
      by_cases hslash : EndsInSlash tail
      · rw [hlead.shape_of_endsInSlash hname hslash]
        exact .selfClosing hgap hname htail hslash
      · rw [hlead.shape_of_not_endsInSlash hname hslash]
        exact .opening hgap hname htail hslash
    | @slash gap gap' name hgap hgap' =>
      rw [List.append_assoc gap, List.cons_append, List.append_assoc gap']
      exact .closing hgap hgap' hname htail

end

/-! ### Steps of the scanner -/

section
variable {start : Nat} {reversed cs rest : List Char}

theorem scanFrom_nil : scanFrom start reversed [] = textToken start reversed := by
  rw [scanFrom]

/-- Without a `>` there is no tag any more. -/
theorem scanFrom_of_gt_notMem (h : '>' ∉ cs) :
    scanFrom start reversed cs = textToken start (cs.reverse ++ reversed) := by
  induction cs generalizing reversed with
  | nil => exact scanFrom_nil
  | cons c cs ih =>
    have hcs : '>' ∉ cs := fun hmem => h (List.mem_cons_of_mem c hmem)
    have hnext : scanFrom start (c :: reversed) cs =
        textToken start ((c :: cs).reverse ++ reversed) := by
      rw [ih hcs, List.reverse_cons, List.append_assoc, List.singleton_append]
    rw [scanFrom]
    split
    · split
      · exact hnext
      · rw [List.reverse_cons, List.append_assoc, List.singleton_append]
    · exact hnext

/-- Where no tag begins, the scanner takes a character as text. -/
theorem scanFrom_text {c : Char} (h : ¬ TagAt (c :: cs)) :
    scanFrom start reversed (c :: cs) = scanFrom start (c :: reversed) cs := by
  rw [scanFrom]
  split
  · next hc =>
    subst hc
    split
    · rfl
    · next head hhead =>
      have hgt : '>' ∉ cs := by
        intro hmem
        obtain ⟨lead, after, rfl, hlead, hname⟩ := tagHead?_eq_some_iff.1 hhead
        have hafter : '>' ∈ after :=
          (List.mem_append.1 hmem).resolve_left (hlead.gt_notMem hname.alphanum)
        obtain ⟨tail, rest, rfl, htail⟩ := List.eq_append_cons_of_mem hafter
        have htag : IsTag ('<' :: (lead ++ (tail ++ ['>']))) (head.shape (lead ++ tail)) :=
          isTag_iff.2 ⟨head, lead, tail, rfl, hlead, named_append_gt.1 hname, htail, rfl⟩
        exact h ⟨_, _, htag, rest, by simp⟩
      rw [if_neg hgt, scanFrom_of_gt_notMem hgt]
  · rfl

/-- Where a tag begins, the scanner cuts it off. -/
theorem scanFrom_tag {written : List Char} {shape : Shape} (h : IsTag written shape) :
    scanFrom start reversed (written ++ rest) =
      textToken start reversed ++ ⟨start + utf8Length reversed, String.ofList written, shape⟩ ::
        scanFrom (start + utf8Length reversed + utf8Length written) [] rest := by
  obtain ⟨head, lead, tail, rfl, hlead, hname, htail, rfl⟩ := isTag_iff.1 h
  have hcs : '<' :: (lead ++ (tail ++ ['>'])) ++ rest = '<' :: (lead ++ (tail ++ '>' :: rest)) := by
    simp
  have hhead : tagHead? (lead ++ (tail ++ '>' :: rest)) = some head :=
    tagHead?_eq_some_iff.2 ⟨lead, _, rfl, hlead, named_append_gt.2 hname⟩
  have hbody : ∀ c ∈ lead ++ tail, decide (c ≠ '>') = true := by
    intro c hc
    rw [decide_eq_true_eq]
    rintro rfl
    exact (List.mem_append.1 hc).elim (hlead.gt_notMem hname.alphanum) htail
  have htake : (lead ++ (tail ++ '>' :: rest)).takeWhile (· ≠ '>') = lead ++ tail := by
    rw [← List.append_assoc, List.takeWhile_append_of_pos hbody]
    simp
  have hdrop : (lead ++ (tail ++ '>' :: rest)).dropWhile (· ≠ '>') = '>' :: rest := by
    rw [← List.append_assoc, List.dropWhile_append_of_pos hbody]
    simp
  rw [hcs, scanFrom, if_pos rfl, hhead]
  simp only [htake, hdrop]
  simp

end

end Phrasebook.Markup

import Phrasebook.Proofs.Markup.Flattening

/-!
# Tags that flattening leaves

Flattening deletes the tags of a text once.  Where it deletes one, the runs of text on either side
come together, and they may spell a tag that was none before (`LeavesTag`).  The only way to this is
a run that ends like the beginning of a tag, up to its name at most (`Stub`, `Cut.leavesTag`): with
any other `<` it is known from the run alone whether a tag begins there (`stub_of_tagAt`).
-/

namespace Phrasebook.Markup

/-! ### Beginnings of tags -/

/-- What a tag is written with before its name. -/
inductive Stub : List Char → Prop
  | opening {gap : List Char} : White gap → Stub ('<' :: gap)
  | closing {gap gap' : List Char} : White gap → White gap' → Stub ('<' :: (gap ++ '/' :: gap'))

section
variable {cs ds rest rest' stub name lead : List Char} {head : TagHead}

/-- A stub that is cut short is a stub. -/
theorem Stub.of_append_left (h : Stub (cs ++ ds)) (hne : cs ≠ []) : Stub cs := by
  obtain ⟨c, cs, rfl⟩ := List.exists_cons_of_ne_nil hne
  generalize hstub : c :: cs ++ ds = stub at h
  cases h with
  | opening hgap =>
    obtain ⟨rfl, rfl⟩ := List.cons.inj hstub
    exact .opening hgap.of_append_left
  | @closing gap gap' hgap hgap' =>
    obtain ⟨rfl, hcs⟩ := List.cons.inj hstub
    rcases List.append_eq_append_iff.1 hcs with ⟨more, rfl, -⟩ | ⟨more, rfl, hmore⟩
    · exact .opening hgap.of_append_left
    · cases more with
      | nil =>
        rw [List.append_nil]
        exact .opening hgap
      | cons d more =>
        obtain ⟨rfl, rfl⟩ := List.cons.inj hmore
        exact .closing hgap hgap'.of_append_left

theorem Leads.exists_stub (h : Leads lead head) :
    ∃ stub, Stub stub ∧ '<' :: lead = stub ++ head.name := by
  cases h with
  | @name gap name hgap => exact ⟨'<' :: gap, .opening hgap, rfl⟩
  | @slash gap gap' name hgap hgap' =>
    exact ⟨'<' :: (gap ++ '/' :: gap'), .closing hgap hgap', by simp⟩

theorem Stub.exists_leads (h : Stub stub) (name : List Char) :
    ∃ lead closing, '<' :: lead = stub ++ name ∧ Leads lead ⟨closing, name⟩ := by
  cases h with
  | @opening gap hgap => exact ⟨gap ++ name, false, rfl, .name hgap⟩
  | @closing gap gap' hgap hgap' =>
    exact ⟨gap ++ '/' :: (gap' ++ name), true, by simp, .slash hgap hgap'⟩

theorem exists_named {c : Char} (hc : c.isAlphanum = true) (more : List Char) :
    ∃ name after, c :: more = name ++ after ∧ Named name after := by
  have hhead : nameHead? false (c :: more) =
      some ⟨false, (c :: more).takeWhile Char.isAlphanum⟩ := by
    simp [nameHead?, hc]
  obtain ⟨-, after, hafter, hname⟩ := exists_name_of_nameHead? hhead
  exact ⟨_, after, hafter, hname⟩

/-- A tag begins with a stub and the first character of a name, if a `>` comes later. -/
theorem tagAt_iff : TagAt cs ↔ ∃ stub c more, cs = stub ++ c :: more ∧ Stub stub ∧
    c.isAlphanum = true ∧ '>' ∈ more := by
  constructor
  · rintro ⟨written, shape, htag, rest, rfl⟩
    obtain ⟨head, lead, tail, rfl, hlead, hname, -, -⟩ := isTag_iff.1 htag
    obtain ⟨stub, hstub, heq⟩ := hlead.exists_stub
    obtain ⟨c, name, hcons⟩ := List.exists_cons_of_ne_nil hname.ne_nil
    have hc : c.isAlphanum = true := hname.alphanum c (hcons ▸ List.mem_cons_self)
    refine ⟨stub, c, name ++ (tail ++ '>' :: rest), ?_, hstub, hc, by simp⟩
    rw [← List.cons_append, heq, hcons]
    simp
  · rintro ⟨stub, c, more, rfl, hstub, hc, hgt⟩
    obtain ⟨name, after, hafter, hname⟩ := exists_named hc more
    obtain ⟨lead, closing, hlead, hleads⟩ := hstub.exists_leads name
    have hmem : '>' ∈ name ++ after := hafter ▸ List.mem_cons_of_mem c hgt
    have hnot : '>' ∉ name := fun hin => absurd (hname.alphanum _ hin) (by decide)
    obtain ⟨tail, rest, rfl, htail⟩ :=
      List.eq_append_cons_of_mem ((List.mem_append.1 hmem).resolve_left hnot)
    have htag : IsTag ('<' :: (lead ++ (tail ++ ['>'])))
        (TagHead.shape ⟨closing, name⟩ (lead ++ tail)) :=
      isTag_iff.2 ⟨⟨closing, name⟩, lead, tail, rfl, hleads, named_append_gt.1 hname, htail, rfl⟩
    refine ⟨_, _, htag, rest, ?_⟩
    rw [hafter, ← List.append_assoc stub, ← hlead]
    simp

/-- Characters that begin a tag with one continuation and none with another are a stub, if there is a
`>` in the other. -/
theorem stub_of_tagAt (hne : cs ≠ []) (htag : TagAt (cs ++ rest)) (hgt : '>' ∈ rest')
    (hnone : ¬ TagAt (cs ++ rest')) : Stub cs := by
  obtain ⟨stub, c, more, hcs, hstub, hc, -⟩ := tagAt_iff.1 htag
  rcases List.append_eq_append_iff.1 hcs with ⟨ds, rfl, -⟩ | ⟨ds, rfl, hds⟩
  · exact hstub.of_append_left hne
  · cases ds with
    | nil => rwa [List.append_nil]
    | cons d ds =>
      obtain ⟨rfl, -⟩ := List.cons.inj hds
      refine absurd (tagAt_iff.2 ⟨stub, c, ds ++ rest', ?_, hstub, hc, ?_⟩) hnone
      · rw [List.append_assoc, List.cons_append]
      · exact List.mem_append_right ds hgt

theorem TagAt.gt_mem (h : TagAt cs) : '>' ∈ cs := by
  obtain ⟨stub, c, more, rfl, -, -, hgt⟩ := tagAt_iff.1 h
  simp [hgt]

theorem not_tagAt_nil : ¬ TagAt [] :=
  fun h => absurd h.gt_mem List.not_mem_nil

end

/-! ### Where a tag is left -/

/-- A run of text ends with a stub that the runs after it make a tag of. -/
def LeavesTag (ts : List Token) : Prop :=
  ∃ before t after, ts = before ++ t :: after ∧ t.shape = .text ∧ ∃ front stub,
    t.written.toList = front ++ stub ∧ Stub stub ∧ TagAt (stub ++ (visibleText after).toList)

section
variable {start : Nat} {cs front rest : List Char} {ts : List Token} {source : String}

theorem LeavesTag.cons (h : LeavesTag ts) (t : Token) : LeavesTag (t :: ts) := by
  obtain ⟨before, u, after, rfl, hu⟩ := h
  exact ⟨t :: before, u, after, rfl, hu⟩

theorem LeavesTag.exists_tagAt (h : LeavesTag ts) :
    ∃ front rest, (visibleText ts).toList = front ++ rest ∧ TagAt rest := by
  obtain ⟨before, t, after, rfl, ht, front, stub, hwritten, -, htag⟩ := h
  refine ⟨(visibleText before).toList ++ front, stub ++ (visibleText after).toList, ?_, htag⟩
  rw [visibleText_append, visibleText_cons_of_text ht, String.toList_append, String.toList_append,
    hwritten]
  simp

theorem Cut.eq_nil (h : Cut start [] ts) : ts = [] := by
  generalize hcs : [] = cs at h
  cases h with
  | nil => rfl
  | text hne _ _ _ => exact absurd (List.append_eq_nil_iff.1 hcs.symm).1 hne
  | tag htag _ =>
    obtain ⟨more, rfl⟩ := htag.exists_cons
    cases hcs

/-- A tag that is seen when the tags are deleted begins in a run that ends with a stub. -/
theorem Cut.leavesTag (h : Cut start cs ts) (hvisible : (visibleText ts).toList = front ++ rest)
    (htag : TagAt rest) : LeavesTag ts := by
  induction h generalizing front with
  | nil =>
    have hrest := (List.append_eq_nil_iff.1 hvisible.symm).2
    exact absurd (hrest ▸ htag) not_tagAt_nil
  | @tag start written rest' shape ts hwritten hcut ih =>
    rw [visibleText_cons_of_ne hwritten.shape_ne_text] at hvisible
    exact (ih hvisible).cons _
  | @text start text rest' ts hne hfree hrest hcut ih =>
    rw [visibleText_cons_of_text rfl, String.toList_append, String.toList_ofList] at hvisible
    rcases List.append_eq_append_iff.1 hvisible with ⟨more, -, hmore⟩ | ⟨stub, rfl, rfl⟩
    · exact (ih hmore).cons _
    · by_cases hstub : stub = []
      · subst hstub
        exact (ih (List.nil_append _).symm).cons _
      · have hnone : ¬ TagAt (stub ++ rest') := hfree front stub rfl hstub
        rcases hrest with rfl | hrest
        · -- Nothing is deleted after the last run, so no tag comes about in it.
          rw [hcut.eq_nil] at htag
          exact absurd htag hnone
        · exact ⟨[], _, ts, rfl, rfl, front, stub, String.toList_ofList,
            stub_of_tagAt hstub htag hrest.gt_mem hnone, htag⟩

/-- No tag begins anywhere if all pieces are text. -/
theorem Cut.not_tagAt (h : Cut start (front ++ rest) ts) (hplain : ∀ t ∈ ts, t.shape = .text) :
    ¬ TagAt rest := by
  generalize hcs : front ++ rest = cs at h
  cases h with
  | nil =>
    rw [(List.append_eq_nil_iff.1 hcs).2]
    exact not_tagAt_nil
  | tag htag _ => exact absurd (hplain _ List.mem_cons_self) htag.shape_ne_text
  | @text start text rest' ts hne hfree hrest hcut =>
    -- There is no second run behind the first, and nothing else either.
    have hnil : ts = [] := by
      rw [← List.head?_eq_none_iff, Option.eq_none_iff_forall_ne_some]
      intro t ht
      have hmem : t ∈ ts := List.mem_of_mem_head? ht
      exact hcut.head_shape_ne_text hrest t ht (hplain t (List.mem_cons_of_mem _ hmem))
    subst hnil
    cases hcut
    rw [List.append_nil] at hcs
    by_cases hrest : rest = []
    · rw [hrest]
      exact not_tagAt_nil
    · have hnone := hfree front rest hcs.symm hrest
      rwa [List.append_nil] at hnone

theorem forall_text_iff : (∀ t ∈ scan source, t.shape = .text) ↔
    ∀ front rest, source.toList = front ++ rest → ¬ TagAt rest := by
  constructor
  · intro hplain front rest hsource
    have hcut := cut_scan source
    rw [hsource] at hcut
    exact hcut.not_tagAt hplain
  · intro hnone t ht
    by_contra hshape
    obtain ⟨before, after, hsource, -, -, htag⟩ := (cut_scan source).exists_place ht
    exact hnone before _ hsource ⟨_, _, htag hshape, after, rfl⟩

/-- Every tag that is deleted takes characters with it. -/
theorem Cut.length_visibleText_add_le (h : Cut start cs ts) :
    (visibleText ts).toList.length + ts.countP (fun t => t.shape ≠ .text) ≤ cs.length := by
  induction h with
  | nil => exact Nat.le_refl 0
  | @text start text rest ts _ _ _ _ ih =>
    rw [visibleText_cons_of_text rfl, List.countP_cons_of_neg (by simp), String.toList_append,
      String.toList_ofList, List.length_append, List.length_append]
    omega
  | @tag start written rest shape ts htag _ ih =>
    obtain ⟨more, rfl⟩ := htag.exists_cons
    rw [visibleText_cons_of_ne htag.shape_ne_text, List.countP_cons,
      if_pos (decide_eq_true htag.shape_ne_text), List.length_append, List.length_cons]
    omega

theorem visibleText_scan_eq_self_iff :
    visibleText (scan source) = source ↔ ∀ t ∈ scan source, t.shape = .text := by
  refine ⟨fun h => ?_, visibleText_scan_eq_self⟩
  have hle := (cut_scan source).length_visibleText_add_le
  rw [h] at hle
  have hzero : (scan source).countP (fun t => t.shape ≠ .text) = 0 := by omega
  intro t ht
  simpa using List.countP_eq_zero.1 hzero t ht

end

/-- What flattening leaves is free of tags, and stays as it is when it is flattened again, unless a
run of text ends with a stub that the runs after it make a tag of. -/
theorem flatten_tagFree_iff (source : String) :
    ((∀ t ∈ scan (flatten source), t.shape = .text) ↔ ¬ LeavesTag (scan source)) ∧
      (flatten (flatten source) = flatten source ↔ ¬ LeavesTag (scan source)) := by
  have hplain : (∀ t ∈ scan (flatten source), t.shape = .text) ↔ ¬ LeavesTag (scan source) := by
    rw [forall_text_iff, flatten_eq]
    constructor
    · intro hnone hleaves
      obtain ⟨front, rest, hsplit, htag⟩ := hleaves.exists_tagAt
      exact hnone front rest hsplit htag
    · intro hnone front rest hsplit htag
      exact hnone ((cut_scan source).leavesTag hsplit htag)
  refine ⟨hplain, ?_⟩
  rw [flatten_eq (flatten source), visibleText_scan_eq_self_iff, hplain]

/-- A tag inside another one is deleted first, and the other comes about only then. -/
theorem exists_flatten_ne :
    flatten "<<b>b>" = "<b>" ∧ (¬ ∀ t ∈ scan (flatten "<<b>b>"), t.shape = .text) ∧
      flatten (flatten "<<b>b>") ≠ flatten "<<b>b>" := by
  have houter : flatten "<<b>b>" = "<b>" := by
    rw [flatten_eq]
    decide +kernel
  have hnothing : flatten "<b>" = "" := by
    rw [flatten_eq]
    decide +kernel
  rw [houter, hnothing]
  exact ⟨rfl, by decide +kernel, by decide⟩

end Phrasebook.Markup

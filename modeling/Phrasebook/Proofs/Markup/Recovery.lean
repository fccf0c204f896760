import Mathlib.Data.List.Count
import Mathlib.Data.List.Nodup
import Phrasebook.Proofs.Markup.Cut
import Phrasebook.Proofs.Markup.Preorder

/-!
# What the warnings of a tree say

The warnings of a tree say all that has to be done to its tokens: leave out each closing tag that is
reported, and close each element that is reported where it ends.  `repair` does just this, and the
tokens that come out of it are the mended ones (`Apart.repair_reports`).  A closing tag is reported
if no element of its name is open (`unexpected_mem_reports_iff`), and an element that was opened is
closed once or reported once (`Apart.closed_or_reported`).
-/

namespace Phrasebook.Markup

/-! ### The repair -/

/-- Puts `extra` where the element that the tokens are in ends: in front of the first closing tag
that closes no element inside it, and at the very end if there is none.  Of the elements inside,
`depth` are still open. -/
def putClosing (extra : Token) : Nat → List Token → List Token
  | _, [] => [extra]
  | depth, t :: ts =>
      match t.shape, depth with
      | .closing _, 0 => extra :: t :: ts
      | .closing _, depth + 1 => t :: putClosing extra depth ts
      | .opening _, depth => t :: putClosing extra (depth + 1) ts
      | .text, depth | .selfClosing _, depth => t :: putClosing extra depth ts

def Token.opens (t : Token) (w : Warning) : Prop :=
  t.shape = .opening w.name ∧ t.span = w.span

instance (t : Token) (w : Warning) : Decidable (t.opens w) :=
  inferInstanceAs (Decidable (_ ∧ _))

/-- Closes the element that the warning is about. -/
def closeElement : List Token → Warning → List Token
  | [], _ => []
  | t :: ts, w => if t.opens w then t :: putClosing w.closingTag 0 ts else t :: closeElement ts w

def Token.reportedIn (ws : List Warning) (t : Token) : Bool :=
  match t.shape with
  | .closing name => decide (⟨.unexpectedClosingTag, name, t.span⟩ ∈ ws)
  | .text | .opening _ | .selfClosing _ => false

/-- Does to the tokens what the warnings say, one after the other. -/
def repair (ws : List Warning) (ts : List Token) : List Token :=
  (ws.filter (·.kind = .unclosedElement)).foldl closeElement
    (ts.filter fun t => !t.reportedIn ws)

/-! ### Elements that were opened -/

def Token.openTag? (t : Token) : Option OpenTag :=
  match t.shape with
  | .opening name => some ⟨name, t.span⟩
  | .text | .closing _ | .selfClosing _ => none

/-- The elements that the tokens open. -/
def openings (ts : List Token) : List OpenTag :=
  ts.filterMap Token.openTag?

/-- The elements that the builder finds closed by a tag of their own, one for each such tag. -/
def Builder.closed : Builder → List Token → List OpenTag
  | _, [] => []
  | b, t :: ts => closedAt b.openTags t ++ (b.step t).closed ts

section
variable {t : Token} {name : String} {opened : List OpenTag} {e : OpenTag} {ts us : List Token}
  {w : Warning}

theorem openTag?_eq_some_iff : t.openTag? = some e ↔ t.opens e.unclosed := by
  unfold Token.openTag? Token.opens OpenTag.unclosed
  obtain ⟨name, span⟩ := e
  cases ht : t.shape <;> simp

theorem openings_append (ts us : List Token) : openings (ts ++ us) = openings ts ++ openings us :=
  List.filterMap_append

theorem openings_cons_of_opening (ht : t.shape = .opening name) (ts : List Token) :
    openings (t :: ts) = ⟨name, t.span⟩ :: openings ts := by
  simp [openings, Token.openTag?, ht]

theorem openings_cons_of_ne (ht : ∀ name, t.shape ≠ .opening name) (ts : List Token) :
    openings (t :: ts) = openings ts := by
  have hnone : t.openTag? = none := by
    rw [Token.openTag?]
    split
    · next name hname => exact absurd hname (ht name)
    all_goals rfl
  rw [openings, List.filterMap_cons_none hnone, openings]

theorem openings_cons_of_closing (ht : t.shape = .closing name) (ts : List Token) :
    openings (t :: ts) = openings ts :=
  openings_cons_of_ne (by simp [ht]) ts

theorem mem_openings (ht : t ∈ ts) (hopens : t.opens e.unclosed) : e ∈ openings ts :=
  List.mem_filterMap.2 ⟨t, ht, openTag?_eq_some_iff.2 hopens⟩

/-- Closing tags open nothing. -/
theorem openings_givers (ts : List Token) : openings (givers ts) = openings ts := by
  rw [openings, givers, List.filterMap_filter, openings]
  congr 1
  funext t
  cases ht : t.shape <;> simp [Token.isClosing, Token.openTag?, ht]

theorem openings_mendedAt (opened : List OpenTag) (t : Token) :
    openings (mendedAt opened t) = openings [t] := by
  rw [← openings_givers, givers_mendedAt, openings_givers]

theorem unclosed_injective : Function.Injective OpenTag.unclosed := by
  rintro ⟨name, span⟩ ⟨name', span'⟩ h
  cases h
  rfl

theorem count_map_unclosed (opened : List OpenTag) (e : OpenTag) :
    (opened.map OpenTag.unclosed).count e.unclosed = opened.count e :=
  List.count_map_of_injective opened OpenTag.unclosed unclosed_injective e

/-- What was open or is opened gets closed or gets reported. -/
theorem count_closed_add_count_reports (b : Builder) (ts : List Token) (e : OpenTag) :
    (b.closed ts).count e + (reports b.openTags ts).count e.unclosed =
      b.openTags.count e + (openings ts).count e := by
  induction ts generalizing b with
  | nil =>
    rw [Builder.closed, reports, count_map_unclosed]
    exact Nat.add_comm _ _
  | cons t ts ih =>
    have hrest := ih (b.step t)
    rw [Builder.openTags_step] at hrest
    rw [Builder.closed, reports, List.count_append, List.count_append]
    cases effect b.openTags t with
    | plain ht hopen hclosed hreports =>
      have hne : ∀ name, t.shape ≠ .opening name := by
        rcases ht with ht | ⟨name, ht⟩ <;> simp [ht]
      simp only [hopen, hclosed, hreports, openings_cons_of_ne hne, List.count_nil] at hrest ⊢
      omega
    | opening ht hopen hclosed hreports =>
      simp only [hopen, hclosed, hreports, openings_cons_of_opening ht, List.count_cons,
        List.count_nil] at hrest ⊢
      omega
    | @stray name ht _ hopen hclosed hreports =>
      have hkind : [(⟨.unexpectedClosingTag, name, t.span⟩ : Warning)].count e.unclosed = 0 := by
        simp [OpenTag.unclosed]
      simp only [hopen, hclosed, hreports, hkind, openings_cons_of_closing ht,
        List.count_nil] at hrest ⊢
      omega
    | @closing inner outer d ht hsplit _ hopen hclosed hreports =>
      rw [hopen] at hrest
      rw [hopen, hclosed, hreports, hsplit, openings_cons_of_closing ht, count_map_unclosed]
      simp only [List.count_append, List.count_cons, List.count_nil]
      omega

end

/-! ### Closing tags that are reported -/

section
variable {opened : List OpenTag} {ts us : List Token} {t c : Token} {name : String} {span : Span}

theorem unexpected_mem_reportsAt_iff :
    ⟨.unexpectedClosingTag, name, span⟩ ∈ reportsAt opened t ↔
      t.shape = .closing name ∧ t.span = span ∧ ∀ e ∈ opened, e.name ≠ name := by
  cases effect opened t with
  | plain ht _ _ hreports =>
    rcases ht with ht | ⟨_, ht⟩ <;> simp [hreports, ht]
  | opening ht _ _ hreports => simp [hreports, ht]
  | @stray other ht hnone _ _ hreports =>
    simp only [hreports, ht, List.mem_singleton, Warning.mk.injEq, Shape.closing.injEq, true_and]
    constructor
    · rintro ⟨rfl, rfl⟩
      exact ⟨rfl, rfl, hnone⟩
    · rintro ⟨rfl, rfl, -⟩
      exact ⟨rfl, rfl⟩
  | @closing inner outer e ht hsplit _ _ _ hreports =>
    constructor
    · intro hmem
      rw [hreports] at hmem
      obtain ⟨d, -, hd⟩ := List.mem_map.1 hmem
      cases hd
    · rintro ⟨hname, -, hnone⟩
      rw [ht] at hname
      have he : e ∈ opened := hsplit ▸ by simp
      exact absurd (Shape.closing.inj hname) (hnone e he)

theorem unexpected_mem_reports_iff :
    ⟨.unexpectedClosingTag, name, span⟩ ∈ reports opened ts ↔
      ∃ before c after, ts = before ++ c :: after ∧ c.shape = .closing name ∧ c.span = span ∧
        ∀ e ∈ before.foldl openAfter opened, e.name ≠ name := by
  induction ts generalizing opened with
  | nil => simp [reports, OpenTag.unclosed]
  | cons t ts ih =>
    rw [reports, List.mem_append, unexpected_mem_reportsAt_iff, ih]
    constructor
    · rintro (⟨ht, hspan, hnone⟩ | ⟨before, c, after, rfl, hc⟩)
      · exact ⟨[], t, ts, rfl, ht, hspan, hnone⟩
      · exact ⟨t :: before, c, after, rfl, hc⟩
    · rintro ⟨before, c, after, hsplit, hc⟩
      cases before with
      | nil =>
        cases hsplit
        exact .inl hc
      | cons u before =>
        cases hsplit
        exact .inr ⟨before, c, after, rfl, hc⟩

/-- No two of the tokens stand in one place. -/
def Apart (ts : List Token) : Prop :=
  (ts.map Token.span).Nodup

theorem Apart.nodup_openings (h : Apart ts) : (openings ts).Nodup := by
  refine List.Pairwise.filterMap _ ?_ (List.pairwise_map.1 h)
  intro t u hspan e he d hd hed
  have ht := (openTag?_eq_some_iff.1 he).2
  have hu := (openTag?_eq_some_iff.1 hd).2
  exact hspan (by rw [ht, hu, hed])

theorem Apart.before_eq {before before' after after' : List Token} {c c' : Token}
    (h : Apart ts) (hts : ts = before ++ c :: after) (hts' : ts = before' ++ c' :: after')
    (hspan : c.span = c'.span) : before = before' := by
  have hc : c ∈ ts := hts ▸ by simp
  have hc' : c' ∈ ts := hts' ▸ by simp
  obtain rfl : c = c' := List.inj_on_of_nodup_map h hc hc' hspan
  have hnodup : (before ++ c :: after).Nodup := hts ▸ h.of_map
  have hnot : c ∉ before ++ after := (List.nodup_middle.1 hnodup).notMem
  rw [List.mem_append, not_or] at hnot
  exact ((List.append_cons_inj_of_notMem hnot.1 hnot.2).1 (hts ▸ hts')).1

/-- The closing tags that are reported are just those that find no element of their name open. -/
def StraysReported (ws : List Warning) (opened : List OpenTag) (ts : List Token) : Prop :=
  ∀ before c after name, ts = before ++ c :: after → c.shape = .closing name →
    (⟨.unexpectedClosingTag, name, c.span⟩ ∈ ws ↔
      ∀ e ∈ before.foldl openAfter opened, e.name ≠ name)

theorem StraysReported.tail {ws : List Warning} (h : StraysReported ws opened (t :: ts)) :
    StraysReported ws (openAfter opened t) ts := by
  intro before c after name hts hc
  exact h (t :: before) c after name (by rw [hts, List.cons_append]) hc

theorem Apart.straysReported (h : Apart ts) (opened : List OpenTag) :
    StraysReported (reports opened ts) opened ts := by
  intro before c after name hts hc
  rw [unexpected_mem_reports_iff]
  constructor
  · rintro ⟨before', c', after', hts', -, hspan, hnone⟩
    rwa [h.before_eq hts hts' hspan.symm]
  · intro hnone
    exact ⟨before, c, after, hts, hc, rfl, hnone⟩

end

/-! ### The repair mends -/

section
variable {b : Builder} {extra t o : Token} {ts us done rest : List Token} {nodes : List Node}
  {e : OpenTag} {inner outer opened : List OpenTag} {w : Warning} {ws : List Warning}
  {name : String}

/-- Nothing is put inside a complete element. -/
theorem putClosing_append (h : Denotes us nodes) (depth : Nat) :
    putClosing extra depth (us ++ ts) = us ++ putClosing extra depth ts := by
  induction h generalizing depth ts with
  | nil => rfl
  | text ht _ ih => simp only [List.cons_append, putClosing, ht, ih]
  | selfClosing ht _ ih => simp only [List.cons_append, putClosing, ht, ih]
  | element ho hc _ _ ihts ihus =>
    simp only [List.cons_append, List.append_assoc, putClosing, ho, hc, ihts, ihus]

/-- Nothing is left open where the tokens end or go on with a closing tag. -/
def Ends (ts : List Token) : Prop :=
  ∀ t ∈ ts.head?, ∃ name, t.shape = .closing name

theorem putClosing_of_ends (h : Ends ts) : putClosing extra 0 ts = extra :: ts := by
  cases ts with
  | nil => rfl
  | cons t ts =>
    obtain ⟨name, ht⟩ := h t rfl
    simp only [putClosing, ht]

theorem closeElement_append (h : ∀ t ∈ us, ¬ t.opens w) (ts : List Token) :
    closeElement (us ++ ts) w = us ++ closeElement ts w := by
  induction us with
  | nil => rfl
  | cons t us ih =>
    have hus : ∀ u ∈ us, ¬ u.opens w := fun u hu => h u (List.mem_cons_of_mem t hu)
    rw [List.cons_append, closeElement, if_neg (h t List.mem_cons_self), ih hus, List.cons_append]

/-- What a builder holds ends with the tag of the innermost open element and complete nodes. -/
theorem Builder.Holding.exists_opens (h : b.Holding done) (hopen : b.openTags = e :: outer) :
    ∃ ts o us nodes, done = ts ++ o :: us ∧ o.opens e.unclosed ∧ Denotes us nodes := by
  obtain ⟨stack, roots, warnings⟩ := b
  cases h with
  | outside => cases hopen
  | @inside element stack roots ts us o hstack ho hspan hchildren =>
    cases hopen
    exact ⟨ts, o, us, element.children.reverse, rfl, ⟨ho, hspan⟩, hchildren⟩

theorem Builder.Holding.closeElement_append (h : b.Holding done) (hopen : b.openTags = e :: outer)
    (hdone : (openings done).Nodup) (hrest : Ends rest) :
    closeElement (done ++ rest) e.unclosed = done ++ e.unclosed.closingTag :: rest := by
  obtain ⟨ts, o, us, nodes, rfl, ho, hus⟩ := h.exists_opens hopen
  have hfirst : ∀ t ∈ ts, ¬ t.opens e.unclosed := by
    intro t ht hopens
    have he : e ∈ openings (o :: us) := mem_openings List.mem_cons_self ho
    rw [openings_append] at hdone
    exact List.disjoint_of_nodup_append hdone (mem_openings ht hopens) he
  rw [List.append_assoc, Markup.closeElement_append hfirst, List.cons_append, closeElement,
    if_pos ho, putClosing_append hus, putClosing_of_ends hrest]
  simp

/-- The elements inside are closed one after the other, the innermost first. -/
theorem Builder.Holding.foldl_closeElement (h : b.Holding done)
    (hopen : b.openTags = inner ++ outer) (hdone : (openings done).Nodup) (hrest : Ends rest) :
    (inner.map OpenTag.unclosed).foldl closeElement (done ++ rest) =
      done ++ inner.map (·.unclosed.closingTag) ++ rest := by
  induction inner generalizing b done with
  | nil => rw [List.map_nil, List.foldl_nil, List.map_nil, List.append_nil]
  | cons e inner ih =>
    have hpop : b.popUnclosed.Holding (done ++ [e.unclosed.closingTag]) := h.popUnclosed hopen
    have hpopped : (openings (done ++ [e.unclosed.closingTag])).Nodup := by
      rw [openings_append, openings_cons_of_closing rfl]
      simpa [openings] using hdone
    have hinner := ih hpop (openTags_popUnclosed hopen) hpopped
    rw [List.map_cons, List.foldl_cons, h.closeElement_append hopen hdone hrest, List.append_cons,
      hinner]
    simp

theorem filter_map_unclosed (opened : List OpenTag) :
    (opened.map OpenTag.unclosed).filter (·.kind = .unclosedElement) =
      opened.map OpenTag.unclosed := by
  rw [List.filter_eq_self]
  intro w hw
  obtain ⟨e, -, rfl⟩ := List.mem_map.1 hw
  rfl

theorem reportedIn_of_ne (ht : ∀ name, t.shape ≠ .closing name) : t.reportedIn ws = false := by
  rw [Token.reportedIn]
  split
  · next name hname => exact absurd hname (ht name)
  all_goals rfl

theorem repair_nil (ts : List Token) : repair [] ts = ts := by
  have hkept : ∀ t ∈ ts, (!t.reportedIn []) = true := by
    intro t _
    cases ht : t.shape <;> simp [Token.reportedIn, ht]
  exact List.filter_eq_self.2 hkept

theorem StraysReported.reportedIn_iff (h : StraysReported ws opened (t :: ts))
    (ht : t.shape = .closing name) : t.reportedIn ws = true ↔ ∀ e ∈ opened, e.name ≠ name := by
  rw [Token.reportedIn, ht]
  exact decide_eq_true_iff.trans (h [] t ts name rfl ht)

/-- What is reported at a token mends it where all in front of it is mended. -/
theorem Builder.Holding.repair_step (h : b.Holding done) (hdone : (openings done).Nodup)
    (hstrays : StraysReported ws b.openTags (t :: ts)) :
    ((reportsAt b.openTags t).filter (·.kind = .unclosedElement)).foldl closeElement
        (done ++ (t :: ts).filter fun t => !t.reportedIn ws) =
      done ++ mendedAt b.openTags t ++ ts.filter fun t => !t.reportedIn ws := by
  cases effect b.openTags t with
  | plain ht _ _ hreports hmended =>
    have hkept : t.reportedIn ws = false := by
      refine reportedIn_of_ne ?_
      rcases ht with ht | ⟨name, ht⟩ <;> simp [ht]
    simp [hreports, hmended, hkept]
  | opening ht _ _ hreports hmended =>
    have hkept : t.reportedIn ws = false := reportedIn_of_ne (by simp [ht])
    simp [hreports, hmended, hkept]
  | stray ht hnone _ _ hreports hmended =>
    have hleft : t.reportedIn ws = true := (hstrays.reportedIn_iff ht).2 hnone
    simp [hreports, hmended, hleft]
  | @closing inner outer e ht hsplit _ _ _ hreports hmended =>
    have hkept : t.reportedIn ws = false := by
      rw [Bool.eq_false_iff]
      intro hleft
      exact (hstrays.reportedIn_iff ht).1 hleft e (hsplit ▸ by simp) rfl
    have hends : Ends (t :: ts.filter fun t => !t.reportedIn ws) := by
      intro u hu
      cases hu
      exact ⟨e.name, ht⟩
    rw [hreports, hmended, filter_map_unclosed, List.filter_cons_of_pos (by simp [hkept]),
      h.foldl_closeElement hsplit hdone hends]
    simp

/-- All that is reported mends the tokens that it is reported of. -/
theorem Builder.Holding.repair_run (h : b.Holding done) (hnodup : (openings (done ++ ts)).Nodup)
    (hstrays : StraysReported ws b.openTags ts) :
    ((reports b.openTags ts).filter (·.kind = .unclosedElement)).foldl closeElement
        (done ++ ts.filter fun t => !t.reportedIn ws) =
      done ++ mended b.openTags ts := by
  induction ts generalizing b done with
  | nil =>
    have hends : Ends [] := by simp [Ends]
    rw [List.append_nil] at hnodup
    rw [reports, filter_map_unclosed, List.filter_nil,
      h.foldl_closeElement (List.append_nil _).symm hnodup hends, List.append_nil, mended]
  | cons t ts ih =>
    have hdone : (openings done).Nodup := by
      rw [openings_append] at hnodup
      exact hnodup.of_append_left
    have hnext : (openings (done ++ mendedAt b.openTags t ++ ts)).Nodup := by
      rw [openings_append, openings_append, openings_mendedAt, ← openings_append,
        ← openings_append, ← List.append_cons]
      exact hnodup
    have hrest := ih (h.step t) hnext (openTags_step b t ▸ hstrays.tail)
    rw [openTags_step] at hrest
    rw [reports, mended, List.filter_append, List.foldl_append, h.repair_step hdone hstrays, hrest,
      List.append_assoc]

end

/-- Where the tokens stand apart, doing what their warnings say mends them. -/
theorem Apart.repair_reports {ts : List Token} (h : Apart ts) :
    repair (reports [] ts) ts = mended [] ts := by
  have hempty : Builder.empty.Holding [] := .outside .nil
  exact hempty.repair_run h.nodup_openings (h.straysReported [])

/-- Of `<a><b></a></b>` the last tag is left out, and `b` is closed before `a` is. -/
example :
    repair [⟨.unclosedElement, "b", ⟨3, 6⟩⟩, ⟨.unexpectedClosingTag, "b", ⟨10, 14⟩⟩]
        [⟨0, "<a>", .opening "a"⟩, ⟨3, "<b>", .opening "b"⟩, ⟨6, "</a>", .closing "a"⟩,
          ⟨10, "</b>", .closing "b"⟩] =
      [⟨0, "<a>", .opening "a"⟩, ⟨3, "<b>", .opening "b"⟩, ⟨6, "</b>", .closing "b"⟩,
        ⟨6, "</a>", .closing "a"⟩] := by
  decide

/-- Where the tokens stand apart, each element that is opened is closed once or reported once. -/
theorem Apart.closed_or_reported {ts : List Token} {o : Token} {e : OpenTag} (h : Apart ts)
    (ho : o ∈ ts) (hopens : o.opens e.unclosed) :
    ((Builder.empty.closed ts).count e = 1 ∧ (reports [] ts).count e.unclosed = 0) ∨
      ((Builder.empty.closed ts).count e = 0 ∧ (reports [] ts).count e.unclosed = 1) := by
  have hcount : (Builder.empty.closed ts).count e + (reports [] ts).count e.unclosed =
      ([] : List OpenTag).count e + (openings ts).count e :=
    count_closed_add_count_reports .empty ts e
  rw [h.nodup_openings.count, if_pos (mem_openings ho hopens), List.count_nil] at hcount
  omega

/-! ### The warnings of a text -/

theorem apart_scan (source : String) : Apart (scan source) :=
  (cut_scan source).tiles.nodup

/-- The warnings of a text mend its tokens; what comes out is well nested, and its tree is the tree
of the text without a warning.  Just those closing tags are reported that find no element of their
name open; every element that is opened is either closed by one tag or reported once; and the texts
without a warning are those whose tags are well nested. -/
theorem repair_warnings (source : String) :
    repair (Tree.parse source).warnings (scan source) = mended [] (scan source) ∧
    WellNested (repair (Tree.parse source).warnings (scan source)) ∧
    Tree.ofTokens (repair (Tree.parse source).warnings (scan source)) = ⟨parse source, []⟩ ∧
    (∀ before c after name, scan source = before ++ c :: after → c.shape = .closing name →
      (⟨.unexpectedClosingTag, name, c.span⟩ ∈ (Tree.parse source).warnings ↔
        ∀ e ∈ (before.foldl Builder.step .empty).stack, e.name ≠ name)) ∧
    (∀ o ∈ scan source, ∀ name, o.shape = .opening name →
      ((Builder.empty.closed (scan source)).count ⟨name, o.span⟩ = 1 ∧
        (Tree.parse source).warnings.count ⟨.unclosedElement, name, o.span⟩ = 0) ∨
      ((Builder.empty.closed (scan source)).count ⟨name, o.span⟩ = 0 ∧
        (Tree.parse source).warnings.count ⟨.unclosedElement, name, o.span⟩ = 1)) ∧
    ((Tree.parse source).warnings = [] ↔ WellNested (scan source)) := by
  have hapart := apart_scan source
  have hws : (Tree.parse source).warnings = reports [] (scan source) :=
    Tree.warnings_ofTokens (scan source)
  have hrepair : repair (Tree.parse source).warnings (scan source) = mended [] (scan source) := by
    rw [hws]
    exact hapart.repair_reports
  have hdenotes : Denotes (repair (Tree.parse source).warnings (scan source)) (parse source) := by
    rw [hrepair]
    exact denotes_mended (scan source)
  refine ⟨hrepair, ⟨_, hdenotes⟩, hdenotes.ofTokens, ?_, ?_, ?_, ?_⟩
  · intro before c after name hts hc
    rw [hws, hapart.straysReported [] before c after name hts hc]
    show (∀ e ∈ before.foldl openAfter Builder.empty.openTags, e.name ≠ name) ↔ _
    rw [← Builder.openTags_run, Builder.openTags, List.forall_mem_map]
  · intro o ho name hname
    rw [hws]
    exact hapart.closed_or_reported (e := ⟨name, o.span⟩) ho ⟨hname, rfl⟩
  · intro hnone
    rw [hnone, repair_nil] at hdenotes
    exact ⟨_, hdenotes⟩
  · rintro ⟨nodes, hnodes⟩
    rw [Tree.parse, hnodes.ofTokens]

end Phrasebook.Markup

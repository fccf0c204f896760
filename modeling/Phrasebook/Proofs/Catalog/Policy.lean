import Mathlib.Data.List.Basic
import Phrasebook.Catalog.Compile
import Phrasebook.Proofs.Plural.WellFormed

/-!
# Headers that are refused, and what is logged

A document is compiled with its own header if that is good.  The default header stands in for one
that is missing, and by the policy `useDefault` also for one that is bad.  `Decides` relates a
document to the header that decides; the result is read off it (`compile_eq_ok_iff`,
`compile_eq_error_iff`), and so is the log (`events_of_ok`, `events_of_error`).  Whatever is odd in
a document that compiles is announced once: a bad header first, then each message that has not as
many variants as the header declares.
-/

namespace Phrasebook

/-! ### Messages with variants -/

/-- A message that has a text for each variant, and where it stands. -/
structure PluralEntry where
  context : String
  id : String
  variants : List String

/-- The messages with variants, by contexts and in each context by ids, both as they come. -/
def Messages.pluralEntries (messages : Messages) : List PluralEntry :=
  messages.entries.flatMap fun c => c.2.entries.filterMap fun e =>
    match e.2 with
    | .single _ => none
    | .plural variants => some ⟨c.1, e.1, variants⟩

/-! ### Headers -/

namespace Document

/-- The error of a header that is there and is bad. -/
def rejection? (document : Document) : Option InvalidPluralForms :=
  document.pluralForms.bind fun source =>
    match PluralRule.compile source with
    | .ok _ => none
    | .error e => some e

/-- The default header is the one that is compiled in the end. -/
def TakesDefault (document : Document) (options : Options) : Prop :=
  document.pluralForms = none ∨
    ((∃ e, document.rejection? = some e) ∧ options.invalidForms = .useDefault)

theorem rejection?_eq_some_iff {document : Document} {e : InvalidPluralForms} :
    document.rejection? = some e ↔
      ∃ source, document.pluralForms = some source ∧ PluralRule.compile source = .error e := by
  rw [rejection?, Option.bind_eq_some_iff]
  refine exists_congr fun source => and_congr_right fun _ => ?_
  cases PluralRule.compile source <;> simp

end Document

namespace Catalog

variable {document : Document} {options : Options}

/-- The event of a bad header that the default header stands in for. -/
def fallbackEvents (document : Document) (options : Options) : List Event :=
  (document.rejection?.map fun e => .fallback e options.defaultPluralForms).toList

/-- The one header that is compiled in the end, and what has been logged by then. -/
inductive Decides (document : Document) (options : Options) : String → List Event → Prop
  | own {source : String} : ¬ document.TakesDefault options → document.pluralForms = some source →
      Decides document options source []
  | default : document.TakesDefault options →
      Decides document options options.defaultPluralForms (fallbackEvents document options)

/-- A bad header that the default one does not stand in for is refused. -/
theorem reject_of_not_takesDefault {source : String} {e : InvalidPluralForms}
    (h : ¬ document.TakesDefault options) (hheader : document.pluralForms = some source)
    (hbad : PluralRule.compile source = .error e) : options.invalidForms = .reject := by
  cases hpolicy : options.invalidForms with
  | reject => rfl
  | useDefault =>
    exact absurd (.inr ⟨⟨e, Document.rejection?_eq_some_iff.2 ⟨source, hheader, hbad⟩⟩, hpolicy⟩) h

/-- The default header stands in for no header that is good or that the policy refuses. -/
theorem useDefault_of_takesDefault {source : String} (h : document.TakesDefault options)
    (hheader : document.pluralForms = some source) :
    (∃ e, PluralRule.compile source = .error e) ∧ options.invalidForms = .useDefault := by
  rcases h with hnone | ⟨⟨e, he⟩, hpolicy⟩
  · rw [hheader] at hnone
    cases hnone
  · obtain ⟨source', hheader', hbad⟩ := Document.rejection?_eq_some_iff.1 he
    rw [hheader] at hheader'
    cases hheader'
    exact ⟨⟨e, hbad⟩, hpolicy⟩

theorem exists_decides (document : Document) (options : Options) :
    ∃ source events, Decides document options source events ∧
      ruleOf? options document.pluralForms = (PluralRule.compile source, events) := by
  by_cases hdefault : document.TakesDefault options
  · refine ⟨_, _, .default hdefault, ?_⟩
    rcases hdefault with hnone | ⟨⟨e, he⟩, hpolicy⟩
    · simp only [fallbackEvents, Document.rejection?, ruleOf?, hnone]
      rfl
    · obtain ⟨source, hheader, hbad⟩ := Document.rejection?_eq_some_iff.1 he
      simp only [fallbackEvents, he, ruleOf?, ruleOf, hheader, hbad, hpolicy]
      rfl
  · obtain ⟨source, hheader⟩ := Option.ne_none_iff_exists'.1 (not_or.1 hdefault).1
    refine ⟨_, _, .own hdefault hheader, ?_⟩
    cases hrule : PluralRule.compile source with
    | ok rule => simp only [ruleOf?, ruleOf, hheader, hrule]
    | error e =>
      have hpolicy := reject_of_not_takesDefault hdefault hheader hrule
      simp only [ruleOf?, ruleOf, hheader, hrule, hpolicy]

namespace Decides

variable {source : String} {events : List Event}

theorem compile_eq_error_iff {e : InvalidPluralForms} (h : Decides document options source events) :
    PluralRule.compile source = .error e ↔
      (∃ own, document.pluralForms = some own ∧ e.source = own ∧
        PluralRule.compile own = .error e ∧ options.invalidForms = .reject) ∨
      (document.TakesDefault options ∧ e.source = options.defaultPluralForms ∧
        PluralRule.compile options.defaultPluralForms = .error e) := by
  cases h with
  | own hnot hheader =>
    constructor
    · intro hbad
      have hpolicy := reject_of_not_takesDefault hnot hheader hbad
      exact .inl ⟨source, hheader, (PluralRule.compile_eq_error hbad).1, hbad, hpolicy⟩
    · rintro (⟨own, hown, -, hbad, -⟩ | ⟨hdefault, -⟩)
      · rw [hheader] at hown
        cases hown
        exact hbad
      · exact absurd hdefault hnot
  | default hdefault =>
    constructor
    · intro hbad
      exact .inr ⟨hdefault, (PluralRule.compile_eq_error hbad).1, hbad⟩
    · rintro (⟨own, hown, -, -, hpolicy⟩ | ⟨-, -, hbad⟩)
      · rw [(useDefault_of_takesDefault hdefault hown).2] at hpolicy
        cases hpolicy
      · exact hbad

theorem compile_eq_ok_iff {rule : PluralRule} (h : Decides document options source events) :
    PluralRule.compile source = .ok rule ↔
      (∃ own, document.pluralForms = some own ∧ PluralRule.compile own = .ok rule) ∨
      (document.TakesDefault options ∧
        PluralRule.compile options.defaultPluralForms = .ok rule) := by
  cases h with
  | own hnot hheader =>
    constructor
    · intro hgood
      exact .inl ⟨source, hheader, hgood⟩
    · rintro (⟨own, hown, hgood⟩ | ⟨hdefault, -⟩)
      · rw [hheader] at hown
        cases hown
        exact hgood
      · exact absurd hdefault hnot
  | default hdefault =>
    constructor
    · intro hgood
      exact .inr ⟨hdefault, hgood⟩
    · rintro (⟨own, hown, hgood⟩ | ⟨-, hgood⟩)
      · obtain ⟨e, hbad⟩ := (useDefault_of_takesDefault hdefault hown).1
        rw [hbad] at hgood
        cases hgood
      · exact hgood

theorem events_of_ok {rule : PluralRule} (h : Decides document options source events)
    (hgood : PluralRule.compile source = .ok rule) : events = fallbackEvents document options := by
  cases h with
  | own hnot hheader =>
    have hnone : document.rejection? = none := by
      rw [Document.rejection?, hheader, Option.bind_some, hgood]
    rw [fallbackEvents, hnone]
    rfl
  | default hdefault => rfl

theorem events_of_error {e : InvalidPluralForms} (h : Decides document options source events)
    (hbad : PluralRule.compile source = .error e) :
    events = if options.invalidForms = .useDefault then fallbackEvents document options else [] := by
  cases h with
  | own hnot hheader =>
    rw [reject_of_not_takesDefault hnot hheader hbad]
    rfl
  | default hdefault =>
    rcases hdefault with hnone | ⟨-, hpolicy⟩
    · rw [fallbackEvents, Document.rejection?, hnone]
      exact (ite_self []).symm
    · rw [if_pos hpolicy]

end Decides

/-! ### Documents -/

/-- The catalog of a document that is ruled by `rule`. -/
def ruledBy (document : Document) (options : Options) (rule : PluralRule) : Catalog :=
  ⟨document.lang.getD options.defaultLang, addDefaultContext document.messages, rule⟩

theorem entries_addDefaultContext (messages : Messages) :
    (addDefaultContext messages).entries = messages.entries ++
      if defaultContext ∈ messages.keys then [] else [(defaultContext, .empty)] := by
  rw [addDefaultContext]
  by_cases hcontext : defaultContext ∈ messages.keys
  · rw [if_pos hcontext, if_pos ((messages.contains_iff_mem_keys _).2 hcontext), List.append_nil]
  · rw [if_neg hcontext, if_neg (mt (messages.contains_iff_mem_keys _).1 hcontext)]
    exact Table.entries_insert_of_notMem hcontext .empty

/-- A context without messages has no message with variants. -/
theorem pluralEntries_addDefaultContext (messages : Messages) :
    Messages.pluralEntries (addDefaultContext messages) = messages.pluralEntries := by
  rw [Messages.pluralEntries, entries_addDefaultContext, List.flatMap_append]
  split
  · exact List.append_nil _
  · exact List.append_nil _

theorem variantCountEvents_eq (nplurals : Nat) (messages : Messages) :
    variantCountEvents nplurals messages =
      (messages.pluralEntries.filter (·.variants.length ≠ nplurals)).map fun p =>
        .variantCount p.context p.id p.variants.length nplurals := by
  rw [variantCountEvents, Messages.pluralEntries, List.filter_flatMap, List.map_flatMap]
  refine List.flatMap_congr fun c _ => ?_
  rw [List.filter_filterMap, List.map_filterMap]
  refine List.filterMap_congr fun e _ => ?_
  cases hwording : e.2 with
  | single text => rfl
  | plural variants =>
    by_cases hcount : variants.length = nplurals
    · simp [variantCountEvent?, Option.filter, hcount]
    · simp [variantCountEvent?, Option.filter, hcount]

theorem eq_ruledBy_iff {rule : PluralRule} {c : Catalog} :
    c = ruledBy document options rule ↔
      c.rule = rule ∧ c.lang = document.lang.getD options.defaultLang ∧
      c.messages.entries = document.messages.entries ++
        if defaultContext ∈ document.messages.keys then [] else [(defaultContext, .empty)] := by
  rw [← entries_addDefaultContext]
  constructor
  · rintro rfl
    exact ⟨rfl, rfl, rfl⟩
  · obtain ⟨lang, ⟨entries, hnodup⟩, rule'⟩ := c
    rintro ⟨rfl, rfl, rfl⟩
    rfl

/-- The events of the messages of a document that is ruled by `rule`. -/
def countEvents (document : Document) (rule : PluralRule) : List Event :=
  rule.nplurals.elim [] fun k =>
    (document.messages.pluralEntries.filter (·.variants.length ≠ k)).map fun p =>
      .variantCount p.context p.id p.variants.length k

theorem compile_of_ok {rule : PluralRule} {events : List Event}
    (h : ruleOf? options document.pluralForms = (.ok rule, events)) :
    compile document options =
      (.ok (ruledBy document options rule), events ++ countEvents document rule ++
        [.compiled (ruledBy document options rule).lang
          (ruledBy document options rule).messages.size rule.nplurals]) := by
  rw [compile, h, countEvents]
  cases hcount : rule.nplurals with
  | none => simp only [hcount]; rfl
  | some k =>
    simp only [hcount, variantCountEvents_eq, pluralEntries_addDefaultContext]
    rfl

/-- A document whose own header is good compiles, whatever the options are. -/
theorem compile_of_header {source : String} {rule : PluralRule}
    (hheader : document.pluralForms = some source) (hrule : PluralRule.compile source = .ok rule) :
    (compile document options).1 = .ok (ruledBy document options rule) := by
  have hdecided : ruleOf? options document.pluralForms = (.ok rule, []) := by
    rw [hheader, ruleOf?, ruleOf, hrule]
  rw [compile_of_ok hdecided]

theorem compile_of_error {e : InvalidPluralForms} {events : List Event}
    (h : ruleOf? options document.pluralForms = (.error e, events)) :
    compile document options = (.error e, events) := by
  rw [compile, h]

/-- A catalog is that of its document, and everything odd in the document has been logged. -/
theorem eq_ruledBy_of_compile {c : Catalog} (h : (compile document options).1 = .ok c) :
    (∃ source, PluralRule.compile source = .ok c.rule) ∧
      c = ruledBy document options c.rule ∧
      (compile document options).2 =
        fallbackEvents document options ++ countEvents document c.rule ++
          [.compiled c.lang c.messages.size c.rule.nplurals] := by
  obtain ⟨source, events, hdecides, heq⟩ := exists_decides document options
  cases hrule : PluralRule.compile source with
  | ok rule =>
    rw [hrule] at heq
    rw [compile_of_ok heq] at h ⊢
    cases h
    exact ⟨⟨source, hrule⟩, rfl, by rw [hdecides.events_of_ok hrule]; rfl⟩
  | error e =>
    rw [hrule] at heq
    rw [compile_of_error heq] at h
    cases h

/-- Where there is no catalog, nothing but a bad header has been logged. -/
theorem events_of_compile_error {e : InvalidPluralForms}
    (h : (compile document options).1 = .error e) :
    (compile document options).2 =
      if options.invalidForms = .useDefault then fallbackEvents document options else [] := by
  obtain ⟨source, events, hdecides, heq⟩ := exists_decides document options
  cases hrule : PluralRule.compile source with
  | ok rule =>
    rw [hrule] at heq
    rw [compile_of_ok heq] at h
    cases h
  | error e' =>
    rw [hrule] at heq
    rw [compile_of_error heq, hdecides.events_of_error hrule]

/-- A document fails to compile only for a header that is refused or for the default header that
stands in for it.  Otherwise the messages stay as they are, the default context apart, and what is
odd is logged in front of the catalog that has been compiled. -/
theorem compile_policy (document : Document) (options : Options) :
    (∀ e, (compile document options).1 = .error e ↔
      (∃ own, document.pluralForms = some own ∧ e.source = own ∧
        PluralRule.compile own = .error e ∧ options.invalidForms = .reject) ∨
      (document.TakesDefault options ∧ e.source = options.defaultPluralForms ∧
        PluralRule.compile options.defaultPluralForms = .error e)) ∧
    (∀ c, (compile document options).1 = .ok c ↔
      ((∃ own, document.pluralForms = some own ∧ PluralRule.compile own = .ok c.rule) ∨
        (document.TakesDefault options ∧
          PluralRule.compile options.defaultPluralForms = .ok c.rule)) ∧
      c.lang = document.lang.getD options.defaultLang ∧
      c.messages.entries = document.messages.entries ++
        if defaultContext ∈ document.messages.keys then [] else [(defaultContext, .empty)]) ∧
    (∀ c, (compile document options).1 = .ok c →
      (compile document options).2 =
        (document.rejection?.map fun e => Event.fallback e options.defaultPluralForms).toList ++
        (c.rule.nplurals.elim [] fun k =>
          (document.messages.pluralEntries.filter (·.variants.length ≠ k)).map fun p =>
            .variantCount p.context p.id p.variants.length k) ++
        [.compiled c.lang c.messages.size c.rule.nplurals]) ∧
    (∀ e, (compile document options).1 = .error e →
      (compile document options).2 =
        if options.invalidForms = .useDefault then
          (document.rejection?.map fun e => Event.fallback e options.defaultPluralForms).toList
        else []) := by
  obtain ⟨source, events, hdecides, heq⟩ := exists_decides document options
  simp only [← hdecides.compile_eq_error_iff, ← hdecides.compile_eq_ok_iff]
  cases hrule : PluralRule.compile source with
  | ok rule =>
    rw [hrule] at heq
    rw [compile_of_ok heq, hdecides.events_of_ok hrule]
    refine ⟨fun e => iff_of_false nofun nofun, fun c => ?_, ?_, ?_⟩
    · rw [Except.ok.injEq, Except.ok.injEq, eq_comm, eq_ruledBy_iff]
      exact and_congr_left fun _ => eq_comm
    · intro c hc
      cases hc
      rfl
    · intro e he
      cases he
  | error e =>
    rw [hrule] at heq
    rw [compile_of_error heq, hdecides.events_of_error hrule]
    refine ⟨fun e' => ?_, fun c => iff_of_false nofun ?_, ?_, fun e' _ => rfl⟩
    · rw [Except.error.injEq, Except.error.injEq]
    · intro hc
      cases hc.1
    · intro c hc
      cases hc

end Catalog

end Phrasebook

import Phrasebook.Proofs.Catalog.Answers
import Phrasebook.Proofs.Plural.Printing

/-!
# Variants for every index

A compiled catalog has been searched for messages that have not as many variants as the header
declares, and all of them are announced (`variantCount_mem_compile_iff`).  Where no such message is
announced, a look-up falls back to an id only for an index that the header does not declare.
-/

namespace Phrasebook

/-- A list has an element at each index below its length and at no other. -/
theorem length_ne_iff {α : Type} {l : List α} {k : Nat} :
    l.length ≠ k ↔ (∃ i < k, l[i]? = none) ∨ ∃ i, k ≤ i ∧ l[i]? ≠ none := by
  simp only [List.getElem?_eq_none_iff, ne_eq, Nat.not_le]
  constructor
  · intro hne
    rcases Nat.lt_or_gt_of_ne hne with hshort | hlong
    · exact .inl ⟨l.length, hshort, Nat.le_refl _⟩
    · exact .inr ⟨k, Nat.le_refl k, hlong⟩
  · rintro (⟨i, hi, hlen⟩ | ⟨i, hi, hlen⟩)
    · omega
    · omega

theorem Event.message_eq_iff {event : Event} :
    event.message = "plural variant count does not match nplurals" ↔
      ∃ context id variants nplurals, event = .variantCount context id variants nplurals := by
  constructor
  · intro h
    cases event with
    | variantCount context id variants nplurals => exact ⟨context, id, variants, nplurals, rfl⟩
    | compiled | fallback | replaced | closingTagIgnored | elementClosed =>
      exact absurd h (by simp [message])
  · rintro ⟨context, id, variants, nplurals, rfl⟩
    rfl

theorem Document.mem_pluralEntries_iff {document : Document} {p : PluralEntry} :
    p ∈ document.messages.pluralEntries ↔ document.Words p.context p.id (.plural p.variants) := by
  rw [Messages.pluralEntries, List.mem_flatMap]
  constructor
  · rintro ⟨⟨context, messages⟩, hcontext, hp⟩
    obtain ⟨⟨id, wording⟩, hid, hwording⟩ := List.mem_filterMap.1 hp
    cases wording with
    | single text => cases hwording
    | plural variants =>
      cases hwording
      exact ⟨messages, hcontext, hid⟩
  · rintro ⟨messages, hcontext, hid⟩
    exact ⟨_, hcontext, List.mem_filterMap.2 ⟨_, hid, rfl⟩⟩

/-- The header that stands in for others is good. -/
theorem PluralRule.compile_defaultForms : compile defaultForms = .ok english := by
  have hlexemes : Plural.lexemes (Plural.scan defaultForms) = english.program.textLexemes := by
    decide +kernel
  exact compile_of_parse (Plural.Program.parse_of_textLexemes hlexemes (by decide))

namespace Catalog

variable {document : Document} {options : Options}

theorem variantCount_mem_countEvents_iff {rule : PluralRule} {context id : String}
    {variants k : Nat} :
    .variantCount context id variants k ∈ countEvents document rule ↔
      rule.nplurals = some k ∧ variants ≠ k ∧
        ∃ texts, document.Words context id (.plural texts) ∧ texts.length = variants := by
  rw [countEvents]
  cases hcount : rule.nplurals with
  | none => simp
  | some nplurals =>
    simp only [Option.elim_some, List.mem_map, List.mem_filter, decide_eq_true_eq,
      Document.mem_pluralEntries_iff, Option.some.injEq]
    constructor
    · rintro ⟨⟨_, _, texts⟩, ⟨hwords, hne⟩, hevent⟩
      cases hevent
      exact ⟨rfl, hne, texts, hwords, rfl⟩
    · rintro ⟨rfl, hne, texts, hwords, rfl⟩
      exact ⟨⟨context, id, texts⟩, ⟨hwords, hne⟩, rfl⟩

theorem variantCount_notMem_fallbackEvents {context id : String} {variants k : Nat} :
    .variantCount context id variants k ∉ fallbackEvents document options := by
  rw [fallbackEvents, Option.mem_toList, Option.map_eq_some_iff]
  rintro ⟨e, -, hevent⟩
  cases hevent

/-- What is announced as miscounted is a miscounted message of a document that compiles, and each
of these is announced. -/
theorem variantCount_mem_compile_iff {context id : String} {variants k : Nat} :
    .variantCount context id variants k ∈ (compile document options).2 ↔
      ∃ c, (compile document options).1 = .ok c ∧ c.rule.nplurals = some k ∧ variants ≠ k ∧
        ∃ texts, document.Words context id (.plural texts) ∧ texts.length = variants := by
  cases hresult : (compile document options).1 with
  | ok c =>
    obtain ⟨-, -, hevents⟩ := eq_ruledBy_of_compile hresult
    rw [hevents, List.mem_append, List.mem_append, variantCount_mem_countEvents_iff]
    simp [variantCount_notMem_fallbackEvents]
  | error e =>
    rw [events_of_compile_error hresult]
    split
    · simp [variantCount_notMem_fallbackEvents]
    · simp

/-- Where no message is announced as miscounted, each index that the header declares has a variant
in each message with variants, and this is what the look-up answers.  What is announced is a message
that lacks a declared variant or has one that is not declared. -/
theorem declared_variants_answered (document : Document) (options : Options) :
    (∀ c k, (compile document options).1 = .ok c → c.rule.nplurals = some k →
      (∀ event ∈ (compile document options).2,
        event.message ≠ "plural variant count does not match nplurals") →
      ∀ context id variants, document.Words context id (.plural variants) →
        ∀ idPlural n (i : Nat), (c.rule.index n).toInt = i → i < k →
          variants[i]? = some (c.pluralIn context id idPlural n)) ∧
    ∀ event ∈ (compile document options).2,
      event.message = "plural variant count does not match nplurals" →
      ∃ c k, (compile document options).1 = .ok c ∧ c.rule.nplurals = some k ∧
        ∃ context id variants, document.Words context id (.plural variants) ∧
          event.fields = [("context", context), ("msgid", id),
            ("variants", toString variants.length), ("nplurals", toString k)] ∧
          ((∃ i < k, variants[i]? = none) ∨ ∃ i, k ≤ i ∧ variants[i]? ≠ none) := by
  constructor
  · intro c k hc hk hquiet context id variants hwords idPlural n i hindex hi
    have hlen : variants.length = k := by
      by_contra hne
      refine hquiet _ (variantCount_mem_compile_iff.2 ⟨c, hc, hk, hne, variants, hwords, rfl⟩) ?_
      exact Event.message_eq_iff.2 ⟨context, id, variants.length, k, rfl⟩
    have hvariant : variants[i]? = some variants[i] := List.getElem?_eq_getElem (hlen ▸ hi)
    rw [hvariant, (pluralIn_eq_iff hc).2 (.variant hwords hindex hvariant)]
  · intro event hevent hmessage
    obtain ⟨context, id, count, k, rfl⟩ := Event.message_eq_iff.1 hmessage
    obtain ⟨c, hc, hk, hne, variants, hwords, rfl⟩ := variantCount_mem_compile_iff.1 hevent
    exact ⟨c, k, hc, hk, context, id, variants, hwords, rfl, length_ne_iff.1 hne⟩

def berries : Document where
  pluralForms := some PluralRule.defaultForms
  lang := none
  messages := .ofList [("menu", .ofList [("berry", .plural ["malina", "maliny"])])]

theorem declared_variants_answered_of_berries : ∃ c, (compile berries {}).1 = .ok c ∧
    ∀ n, c.pluralIn "menu" "berry" "berries" n = if n = 1 then "malina" else "maliny" := by
  have hcompile : (compile berries {}).1 = .ok (ruledBy berries {} .english) :=
    compile_of_header rfl PluralRule.compile_defaultForms
  have hberry : berries.Words "menu" "berry" (.plural ["malina", "maliny"]) :=
    Document.words_iff.2 (by decide)
  have hcounts : countEvents berries .english = [] := by decide
  have hquiet : ∀ event ∈ (compile berries {}).2,
      event.message ≠ "plural variant count does not match nplurals" := by
    intro event hevent hmessage
    obtain ⟨context, id, variants, k, rfl⟩ := Event.message_eq_iff.1 hmessage
    rw [(eq_ruledBy_of_compile hcompile).2.2] at hevent
    simp [ruledBy, hcounts, variantCount_notMem_fallbackEvents] at hevent
  refine ⟨_, hcompile, fun n => ?_⟩
  have hanswer := (declared_variants_answered berries {}).1 _ 2 hcompile rfl hquiet
    "menu" "berry" _ hberry "berries" n
  have hindex : PluralRule.english.index n = Plural.truth (n ≠ 1) := rfl
  by_cases hn : n = 1
  · rw [if_pos hn]
    refine (Option.some.inj (hanswer 0 ?_ (by decide))).symm
    show (PluralRule.english.index n).toInt = 0
    rw [hindex, hn]
    rfl
  · rw [if_neg hn]
    refine (Option.some.inj (hanswer 1 ?_ (by decide))).symm
    show (PluralRule.english.index n).toInt = 1
    rw [hindex, Plural.truth, decide_eq_true hn]
    rfl

end Catalog

end Phrasebook

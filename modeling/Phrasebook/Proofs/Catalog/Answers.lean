import Phrasebook.Catalog.Lookup
import Phrasebook.Proofs.Catalog.Policy
import Phrasebook.Proofs.Plural.Safety

/-!
# What look-ups answer

The answers of a catalog are those of its document: the text that the document has for the message,
or an id that was asked for.  `Answers` and `AnswersCount` say so of the document alone, and a
look-up answers nothing else (`textOrVariant_eq_iff`, `pluralIn_eq_iff`).  The default context that
compiling adds has no message and so answers nothing (`bind_get?_addDefaultContext`).
-/

namespace Phrasebook

/-! ### The document -/

namespace Document

/-- The document words the message so.  It words no message whose context or id is missing. -/
def Words (document : Document) (context id : String) (wording : Wording) : Prop :=
  ∃ messages, (context, messages) ∈ document.messages.entries ∧ (id, wording) ∈ messages.entries

/-- The text is that of a message, or of one of its variants. -/
def HasText (document : Document) (text : String) : Prop :=
  ∃ context id, document.Words context id (.single text) ∨
    ∃ variants, document.Words context id (.plural variants) ∧ text ∈ variants

/-- What the document answers without a count: the text of the message, its variant `k` if it has
variants, or else the id. -/
inductive Answers (document : Document) (k : Nat) (context id : String) : String → Prop
  | single {text : String} : document.Words context id (.single text) →
      Answers document k context id text
  | variant {variants : List String} {text : String} :
      document.Words context id (.plural variants) → variants[k]? = some text →
      Answers document k context id text
  | short {variants : List String} :
      document.Words context id (.plural variants) → variants.length ≤ k →
      Answers document k context id id
  | missing : (∀ wording, ¬ document.Words context id wording) → Answers document k context id id

/-- What the document answers for the count `n`: the variant at `index`, if the message has variants
and one stands there, or else the id for one thing or the id for several. -/
inductive AnswersCount (document : Document) (index : Int) (context id idPlural : String)
    (n : Int64) : String → Prop
  | variant {variants : List String} {k : Nat} {text : String} :
      document.Words context id (.plural variants) → index = k → variants[k]? = some text →
      AnswersCount document index context id idPlural n text
  | one : (∀ variants, document.Words context id (.plural variants) →
        ¬ (0 ≤ index ∧ index < variants.length)) → n = 1 →
      AnswersCount document index context id idPlural n id
  | other : (∀ variants, document.Words context id (.plural variants) →
        ¬ (0 ≤ index ∧ index < variants.length)) → n ≠ 1 →
      AnswersCount document index context id idPlural n idPlural

variable {document : Document} {context id idPlural answer : String} {k : Nat} {index : Int}
  {n : Int64}

theorem words_iff {wording : Wording} : document.Words context id wording ↔
    (document.messages.get? context).bind (·.get? id) = some wording := by
  rw [Option.bind_eq_some_iff]
  refine exists_congr fun messages => ?_
  rw [Table.get?_eq_some_iff, Table.get?_eq_some_iff]

theorem Answers.eq_id_or_hasText (h : document.Answers k context id answer) :
    answer = id ∨ document.HasText answer := by
  cases h with
  | single hwords => exact .inr ⟨context, id, .inl hwords⟩
  | variant hwords hk => exact .inr ⟨context, id, .inr ⟨_, hwords, List.mem_of_getElem? hk⟩⟩
  | short | missing => exact .inl rfl

theorem AnswersCount.eq_id_or_hasText
    (h : document.AnswersCount index context id idPlural n answer) :
    answer = id ∨ answer = idPlural ∨ document.HasText answer := by
  cases h with
  | variant hwords hindex hk =>
    exact .inr (.inr ⟨context, id, .inr ⟨_, hwords, List.mem_of_getElem? hk⟩⟩)
  | one => exact .inl rfl
  | other => exact .inr (.inl rfl)

end Document

/-! ### The catalog -/

namespace Catalog

variable {document : Document} {options : Options} {c : Catalog} {context id : String}

/-- The default context that is added has no message. -/
theorem bind_get?_addDefaultContext (messages : Messages) (context id : String) :
    ((addDefaultContext messages).get? context).bind (·.get? id) =
      (messages.get? context).bind (·.get? id) := by
  rw [addDefaultContext]
  split
  · rfl
  · next hdefault =>
    rw [Table.get?_insert]
    split
    · next hcontext =>
      have hnone : messages.get? context = none := by
        rw [hcontext]
        exact Option.not_isSome_iff_eq_none.1 hdefault
      rw [hnone]
      rfl
    · rfl

theorem entry?_eq_some_iff (h : (compile document options).1 = .ok c) {wording : Wording} :
    c.entry? context id = some wording ↔ document.Words context id wording := by
  obtain ⟨-, hc, -⟩ := eq_ruledBy_of_compile h
  unfold entry?
  rw [hc, Document.words_iff]
  exact (congrArg (· = some wording) (bind_get?_addDefaultContext ..)).to_iff

theorem entry?_eq_none_iff (h : (compile document options).1 = .ok c) :
    c.entry? context id = none ↔ ∀ wording, ¬ document.Words context id wording := by
  rw [Option.eq_none_iff_forall_ne_some]
  exact forall_congr' fun wording => not_congr (entry?_eq_some_iff h)

/-- The variant that a count chooses is the one that the document has at the index of the rule. -/
theorem variantFor?_eq_some_iff (h : (compile document options).1 = .ok c) {n : Int64}
    {text : String} :
    c.variantFor? context id n = some text ↔
      ∃ variants, document.Words context id (.plural variants) ∧
        ∃ k : Nat, (c.rule.index n).toInt = k ∧ variants[k]? = some text := by
  simp only [variantFor?, Option.bind_eq_bind, Option.bind_eq_some_iff,
    PluralRule.variantNumber?_eq_some_iff, entry?_eq_some_iff h]
  constructor
  · rintro ⟨k, hindex, wording, hwords, hk⟩
    cases wording with
    | single t => cases hk
    | plural variants => exact ⟨variants, hwords, k, hindex, hk⟩
  · rintro ⟨variants, hwords, k, hindex, hk⟩
    exact ⟨k, hindex, .plural variants, hwords, hk⟩

/-- There is none if the message has no variants or none at the index. -/
theorem variantFor?_eq_none_iff (h : (compile document options).1 = .ok c) {n : Int64} :
    c.variantFor? context id n = none ↔
      ∀ variants, document.Words context id (.plural variants) →
        ¬ (0 ≤ (c.rule.index n).toInt ∧ (c.rule.index n).toInt < variants.length) := by
  constructor
  · rintro hnone variants hwords ⟨hle, hlt⟩
    obtain ⟨k, hk⟩ := Int.eq_ofNat_of_zero_le hle
    have hbound : k < variants.length := by omega
    have hsome := (variantFor?_eq_some_iff h).2
      ⟨variants, hwords, k, hk, List.getElem?_eq_getElem hbound⟩
    rw [hnone] at hsome
    cases hsome
  · intro hout
    rw [Option.eq_none_iff_forall_ne_some]
    intro text hsome
    obtain ⟨variants, hwords, k, hindex, hk⟩ := (variantFor?_eq_some_iff h).1 hsome
    obtain ⟨hbound, -⟩ := List.getElem?_eq_some_iff.1 hk
    exact hout variants hwords (by omega)

theorem textOrVariant_eq_iff (h : (compile document options).1 = .ok c) {k : Nat}
    {answer : String} :
    c.textOrVariant k context id = answer ↔ document.Answers k context id answer := by
  constructor
  · rintro rfl
    rw [textOrVariant]
    cases hentry : c.entry? context id with
    | none => exact .missing ((entry?_eq_none_iff h).1 hentry)
    | some wording =>
      have hwords := (entry?_eq_some_iff h).1 hentry
      cases wording with
      | single text => exact .single hwords
      | plural variants =>
        show document.Answers k context id ((variants[k]?).getD id)
        cases hk : variants[k]? with
        | none => exact .short hwords (List.getElem?_eq_none_iff.1 hk)
        | some text => exact .variant hwords hk
  · intro hanswer
    rw [textOrVariant]
    cases hanswer with
    | single hwords => rw [(entry?_eq_some_iff h).2 hwords]
    | variant hwords hk =>
      rw [(entry?_eq_some_iff h).2 hwords]
      show (_[k]?).getD id = answer
      rw [hk, Option.getD_some]
    | short hwords hk =>
      rw [(entry?_eq_some_iff h).2 hwords]
      show (_[k]?).getD id = id
      rw [List.getElem?_eq_none_iff.2 hk, Option.getD_none]
    | missing hnone => rw [(entry?_eq_none_iff h).2 hnone]

theorem pluralIn_eq_iff (h : (compile document options).1 = .ok c) {idPlural answer : String}
    {n : Int64} :
    c.pluralIn context id idPlural n = answer ↔
      document.AnswersCount (c.rule.index n).toInt context id idPlural n answer := by
  constructor
  · rintro rfl
    rw [pluralIn]
    cases hvariant : c.variantFor? context id n with
    | some text =>
      obtain ⟨variants, hwords, k, hindex, hk⟩ := (variantFor?_eq_some_iff h).1 hvariant
      exact .variant hwords hindex hk
    | none =>
      have hout := (variantFor?_eq_none_iff h).1 hvariant
      rw [Option.getD_none]
      split
      · next hn => exact .one hout hn
      · next hn => exact .other hout hn
  · intro hanswer
    rw [pluralIn]
    cases hanswer with
    | variant hwords hindex hk =>
      rw [(variantFor?_eq_some_iff h).2 ⟨_, hwords, _, hindex, hk⟩, Option.getD_some]
    | one hout hn => rw [(variantFor?_eq_none_iff h).2 hout, Option.getD_none, if_pos hn]
    | other hout hn => rw [(variantFor?_eq_none_iff h).2 hout, Option.getD_none, if_neg hn]

/-- The look-ups of a catalog answer what its document answers, for every count at the index that a
run of the rule leaves.  Every answer is an id that was asked for or a text of the document. -/
theorem answers_of_compile (h : (compile document options).1 = .ok c) :
    (∀ n, ∃ env, c.rule.program.run n = some env ∧
      env[Plural.pluralSlot]? = some (c.rule.index n)) ∧
    (∀ id answer, c.text id = answer ↔ document.Answers 1 defaultContext id answer) ∧
    (∀ context id answer, c.textIn context id = answer ↔ document.Answers 0 context id answer) ∧
    (∀ id idPlural n answer, c.plural id idPlural n = answer ↔
      document.AnswersCount (c.rule.index n).toInt defaultContext id idPlural n answer) ∧
    (∀ context id idPlural n answer, c.pluralIn context id idPlural n = answer ↔
      document.AnswersCount (c.rule.index n).toInt context id idPlural n answer) ∧
    ∀ context id idPlural n,
      (c.text id = id ∨ document.HasText (c.text id)) ∧
      (c.textIn context id = id ∨ document.HasText (c.textIn context id)) ∧
      (c.plural id idPlural n ∈ [id, idPlural] ∨ document.HasText (c.plural id idPlural n)) ∧
      (c.pluralIn context id idPlural n ∈ [id, idPlural] ∨
        document.HasText (c.pluralIn context id idPlural n)) := by
  obtain ⟨⟨source, hrule⟩, -, -⟩ := eq_ruledBy_of_compile h
  refine ⟨PluralRule.exists_run_index hrule, fun id answer => textOrVariant_eq_iff h,
    fun context id answer => textOrVariant_eq_iff h,
    fun id idPlural n answer => pluralIn_eq_iff h,
    fun context id idPlural n answer => pluralIn_eq_iff h, ?_⟩
  intro context id idPlural n
  have hcount (context : String) : c.pluralIn context id idPlural n ∈ [id, idPlural] ∨
      document.HasText (c.pluralIn context id idPlural n) := by
    rw [List.mem_pair, or_assoc]
    exact ((pluralIn_eq_iff h).1 rfl).eq_id_or_hasText
  exact ⟨((textOrVariant_eq_iff h).1 rfl).eq_id_or_hasText,
    ((textOrVariant_eq_iff h).1 rfl).eq_id_or_hasText, hcount defaultContext, hcount context⟩

/-- The index is negative for counts below 5; no message has a variant for a count from 7 on. -/
def fishes : Document where
  pluralForms := some "plural=n-5;"
  lang := none
  messages := .ofList
    [("", .ofList [("hello", .single "ahoj"), ("fish", .plural ["ryba", "ryby"])]),
      ("menu", .ofList [("fish", .plural ["kapr"])])]

theorem parse_fishes : Plural.Program.parse "plural=n-5;" = .ok
    ⟨[.assign Plural.pluralSlot (.binary .subtract (.var Plural.countSlot) (.lit 5))],
      Plural.reservedNames⟩ := by
  have hlexemes : Plural.lexemes (Plural.scan "plural=n-5;") =
      [.name "plural", .sign .assign, .name "n", .sign (.operator .subtract), .number 5,
        .mark .semicolon] := by decide +kernel
  have hdifference : Plural.Derives Plural.maxNesting Plural.reservedNames.idxOf .conditional 2 _
      (.binary .subtract (.var Plural.countSlot) (.lit 5)) :=
    .binary .subtract (by decide) (.primary (.name "n")) (.primary (.number 5))
  have hvariant := Plural.Derives.assign_name "plural" (by decide) (.value (by decide) hdifference)
  exact Plural.Program.parse_of_derives hlexemes (by decide)
    (.statement (.expression hvariant) .nil)

theorem answers_of_fishes : ∃ c, (compile fishes {}).1 = .ok c ∧
    c.text "fish" = "ryby" ∧ c.textIn "menu" "fish" = "kapr" ∧ c.textIn "menu" "hello" = "hello" ∧
    c.pluralIn "menu" "fish" "fishes" 5 = "kapr" ∧ c.plural "fish" "fishes" 1 = "fish" ∧
    c.plural "fish" "fishes" (-1) = "fishes" := by
  have hcompile : (compile fishes {}).1 = .ok (ruledBy fishes {} _) :=
    compile_of_header rfl (PluralRule.compile_of_parse parse_fishes)
  obtain ⟨-, htext, htextIn, hplural, hpluralIn, -⟩ := answers_of_compile hcompile
  have hfish : fishes.Words "" "fish" (.plural ["ryba", "ryby"]) := Document.words_iff.2 (by decide)
  have hmenu : fishes.Words "menu" "fish" (.plural ["kapr"]) := Document.words_iff.2 (by decide)
  have hhello (wording : Wording) : ¬ fishes.Words "menu" "hello" wording := by
    rw [Document.words_iff]
    exact ne_of_eq_of_ne (by decide) (Option.some_ne_none wording).symm
  refine ⟨_, hcompile, (htext _ _).2 (.variant hfish rfl), (htextIn _ _ _).2 (.variant hmenu rfl),
    (htextIn _ _ _).2 (.missing hhello), (hpluralIn _ _ _ _ _).2 (.variant (k := 0) hmenu rfl rfl),
    (hplural _ _ _ _).2 (.one ?_ rfl), (hplural _ _ _ _).2 (.other ?_ (by decide))⟩
  · intro variants _ hindex
    exact absurd hindex.1 (by decide)
  · intro variants _ hindex
    exact absurd hindex.1 (by decide)

end Catalog

end Phrasebook

import Phrasebook.Catalog.Compile
import Phrasebook.Proofs.Json.Compact

/-!
# Documents and options survive their JSON text

The text that is written for a document gives the document back (`Document.read_toJson`), with its
contexts and message ids in their order, whatever characters its strings have and however many
messages there are; the same is true of options (`Options.read_toJson`).  So it does not matter
whether a catalog is compiled from a document or from its text.

Tables come back because their keys are distinct: reading inserts one entry after the other, and
each of them is new (`readTable_toObject`).
-/

namespace Phrasebook

open Json (Draft Fault Value)

/-! ### Wordings -/

namespace Wording

theorem textual_toJson (w : Wording) : w.toJson.Textual := by
  cases w with
  | single text => exact .string text
  | plural variants =>
    refine .array fun v hv => ?_
    obtain ⟨text, -, rfl⟩ := List.mem_map.1 hv
    exact .string text

/-- A wording is at most an array of strings. -/
theorem depth_toJson_le (w : Wording) : w.toJson.depth ≤ 1 := by
  cases w with
  | single text => exact Nat.zero_le 1
  | plural variants =>
    refine Nat.succ_le_succ (Value.itemsDepth_le_iff.2 fun v hv => ?_)
    obtain ⟨text, -, rfl⟩ := List.mem_map.1 hv
    exact Nat.le_refl 0

theorem stringsOfJson_map_string (texts : List String) :
    stringsOfJson (texts.map .string) = .ok texts := by
  induction texts with
  | nil => rfl
  | cons text texts ih =>
    rw [List.map_cons, stringsOfJson, ih]
    rfl

theorem ofJson_toJson (w : Wording) : ofJson w.toJson = .ok w := by
  cases w with
  | single text => rfl
  | plural variants =>
    rw [toJson, ofJson, stringsOfJson_map_string]
    rfl

theorem read_toJson (w : Wording) {limit : Nat} (h : 1 ≤ limit) :
    Wording.read limit w.toJson.draft = .ok w := by
  rw [Wording.read, Value.read_draft _ (Nat.le_trans w.depth_toJson_le h)]
  exact w.ofJson_toJson

end Wording

/-! ### Tables -/

section
variable {α : Type} {toJson : α → Value}

/-- The object that a table is written as. -/
def Table.toObject (toJson : α → Value) (t : Table α) : Value :=
  .object (t.entries.map fun e => (e.1, toJson e.2))

theorem Table.textual_toObject (h : ∀ a, (toJson a).Textual) (t : Table α) :
    (t.toObject toJson).Textual := by
  refine .object fun m hm => ?_
  obtain ⟨e, -, rfl⟩ := List.mem_map.1 hm
  exact h e.2

theorem Table.depth_toObject_le {n : Nat} (h : ∀ a, (toJson a).depth ≤ n) (t : Table α) :
    (t.toObject toJson).depth ≤ n + 1 := by
  refine Nat.succ_le_succ (Value.membersDepth_le_iff.2 fun m hm => ?_)
  obtain ⟨e, -, rfl⟩ := List.mem_map.1 hm
  exact h e.2

/-- A table is read back, in its order, if its values are. -/
theorem readTable_toObject {limit : Nat} {readItem : Nat → Draft → Except Fault α}
    (h : ∀ a, readItem limit (toJson a).draft = .ok a) (t : Table α) :
    readTable (limit + 1) readItem (t.toObject toJson).draft = .ok t := by
  have hfold (start : Table α) (es : List (String × α)) :
      (es.map fun e => (e.1, toJson e.2)).foldlM
        (fun table m => do return table.insert m.1 (← readItem limit m.2.draft)) start =
          Except.ok (es.foldl (fun t e => t.insert e.1 e.2) start) := by
    induction es generalizing start with
    | nil => rfl
    | cons e es ih =>
      rw [List.map_cons, List.foldlM_cons, h]
      exact ih (start.insert e.1 e.2)
  refine (Value.foldMembers_draft _ Table.empty _ limit).trans ((hfold _ t.entries).trans ?_)
  exact congrArg Except.ok t.ofList_entries

end

/-! ### Messages -/

namespace Messages

theorem textual_toJson (m : Messages) : (toJson m).Textual :=
  Table.textual_toObject (fun context => Table.textual_toObject Wording.textual_toJson context) m

theorem depth_toJson_le (m : Messages) : (toJson m).depth ≤ 3 :=
  Table.depth_toObject_le
    (fun context => Table.depth_toObject_le Wording.depth_toJson_le context) m

theorem read_toJson (m : Messages) {limit : Nat} (h : 3 ≤ limit) :
    Messages.read limit (toJson m).draft = .ok m := by
  obtain ⟨k, rfl⟩ := Nat.exists_eq_add_of_le' h
  have hcontext (context : Table Wording) :
      readTable (k + 2) Wording.read (contextToJson context).draft = .ok context :=
    readTable_toObject (fun w => w.read_toJson (Nat.le_add_left 1 k)) context
  exact readTable_toObject hcontext m

end Messages

/-! ### Documents and options -/

section
variable {σ : Type} {names : List String} {set : σ → String → Draft → Except Fault σ}

/-- A record is read from the members that were written for it. -/
theorem readRecord_object (start : σ) (limit : Nat) (ms : List (String × Value)) :
    readRecord (limit + 1) names set start (Value.object ms).draft =
      ms.foldlM (fun state m => set state m.1 m.2.draft) start :=
  Value.foldMembers_draft set start ms limit

end

namespace Document

/-- The members of a written document: the header and the language if they are there, and the
messages. -/
theorem toJson_eq_object (d : Document) :
    ∃ ms, d.toJson = .object ms ∧
      ∀ m ∈ ms, (∃ s, m.2 = .string s) ∨ m.2 = Messages.toJson d.messages := by
  refine ⟨_, rfl, fun m hm => ?_⟩
  simp only [List.mem_append, Option.mem_toList, Option.map_eq_some_iff, List.mem_singleton] at hm
  rcases hm with (⟨s, -, rfl⟩ | ⟨s, -, rfl⟩) | rfl
  · exact .inl ⟨s, rfl⟩
  · exact .inl ⟨s, rfl⟩
  · exact .inr rfl

theorem textual_toJson (d : Document) : d.toJson.Textual := by
  obtain ⟨ms, heq, hms⟩ := d.toJson_eq_object
  rw [heq]
  refine .object fun m hm => ?_
  rcases hms m hm with ⟨s, hs⟩ | hmessages
  · exact hs ▸ .string s
  · exact hmessages ▸ Messages.textual_toJson d.messages

theorem depth_toJson_le (d : Document) : d.toJson.depth ≤ 4 := by
  obtain ⟨ms, heq, hms⟩ := d.toJson_eq_object
  rw [heq]
  refine Nat.succ_le_succ (Value.membersDepth_le_iff.2 fun m hm => ?_)
  rcases hms m hm with ⟨s, hs⟩ | hmessages
  · exact hs ▸ Nat.zero_le 3
  · exact hmessages ▸ Messages.depth_toJson_le d.messages

/-! The members of a written document are set one after the other. -/

section
variable {limit : Nat} {forms? lang? : Option (Option String)}

theorem foldlM_set_pluralForms (s? : Option String) :
    ((s?.map fun s => ("pluralForms", Value.string s)).toList).foldlM
      (fun (m : Members) e => set limit m e.1 e.2.draft) {} =
        .ok { pluralForms := s?.map some } := by
  cases s? <;> rfl

theorem foldlM_set_lang (s? : Option String) :
    ((s?.map fun s => ("lang", Value.string s)).toList).foldlM
      (fun (m : Members) e => set limit m e.1 e.2.draft) { pluralForms := forms? } =
        .ok { pluralForms := forms?, lang := s?.map some } := by
  cases s? <;> rfl

theorem foldlM_set_messages (messages : Messages) (h : 3 ≤ limit) :
    [("messages", Messages.toJson messages)].foldlM
      (fun (m : Members) e => set limit m e.1 e.2.draft) { pluralForms := forms?, lang := lang? } =
        .ok ⟨forms?, lang?, some messages⟩ := by
  rw [List.foldlM_cons, set, Messages.read_toJson messages h]
  rfl

end

theorem readRecord_toJson (d : Document) :
    readRecord Json.maxDepth ["pluralForms", "lang", "messages"] (set (Json.maxDepth - 1)) {}
      d.toJson.draft = .ok ⟨d.pluralForms.map some, d.lang.map some, some d.messages⟩ := by
  rw [show Json.maxDepth = 126 + 1 from rfl, toJson, readRecord_object, List.append_assoc,
    List.foldlM_append, foldlM_set_pluralForms]
  show List.foldlM _ ({ pluralForms := d.pluralForms.map some } : Members) _ = _
  rw [List.foldlM_append, foldlM_set_lang]
  exact foldlM_set_messages d.messages (by decide)

theorem read_toJson (d : Document) : Document.read d.toJson.draft = .ok d := by
  rw [Document.read, readRecord_toJson]
  rcases d with ⟨_ | forms, _ | lang, messages⟩ <;> rfl

end Document

namespace Options

theorem textual_toJson (o : Options) : o.toJson.Textual := by
  refine .object fun m hm => ?_
  simp only [List.mem_cons, List.not_mem_nil, or_false] at hm
  rcases hm with rfl | rfl | rfl <;> exact .string _

theorem depth_toJson (o : Options) : o.toJson.depth = 1 := rfl

theorem read_toJson (o : Options) : Options.read o.toJson.draft = .ok o := by
  rw [Options.read, show Json.maxDepth = 126 + 1 from rfl, toJson, readRecord_object]
  rcases o with ⟨forms, lang, _ | _⟩ <;> rfl

end Options

/-- Documents and options are read back from their text as they were written, and this text is JSON
in the sense of a reader of any value.  Two tables are the same only if their keys come in the same
order.  So compiling the text of a document has the same catalog or error, and the same events, as
compiling the document. -/
theorem Document.ofJson_text_toJson (document : Document) (options : Options) :
    Document.ofJson document.toJson.text = .ok document ∧
    Options.ofJson options.toJson.text = .ok options ∧
    Value.ofText document.toJson.text = .ok document.toJson ∧
    Value.ofText options.toJson.text = .ok options.toJson ∧
    ∀ given : Options, Catalog.ofJson document.toJson.text given =
      ((Catalog.compile document given).1.mapError .invalidPluralForms,
        (Catalog.compile document given).2) := by
  have hdocument : Document.ofJson document.toJson.text = .ok document := by
    rw [Document.ofJson, Value.readText_text document.textual_toJson, document.read_toJson]
  have hoptions : Options.ofJson options.toJson.text = .ok options := by
    rw [Options.ofJson, Value.readText_text options.textual_toJson, options.read_toJson]
  refine ⟨hdocument, hoptions, ?_, ?_, ?_⟩
  · exact Value.ofText_text document.textual_toJson
      (Nat.le_trans document.depth_toJson_le (by decide))
  · exact Value.ofText_text options.textual_toJson (by rw [options.depth_toJson]; decide)
  · intro given
    rw [Catalog.ofJson, hdocument]

end Phrasebook

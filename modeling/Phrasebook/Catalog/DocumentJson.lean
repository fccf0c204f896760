import Phrasebook.Catalog.Document
import Phrasebook.Json.Draft

/-!
# Documents and options as JSON

A document is the object `{"pluralForms":…,"lang":…,"messages":{…}}` and options are the object
`{"defaultPluralForms":…,"defaultLang":…,"invalidPluralForms":…}`.  Every member may be missing and
others are passed over; none of these may come twice.  An array of the members in this order, or of
the first of them, does as well.
-/

namespace Phrasebook

open Json (Cut Draft Fault Key Value)

/-! ### Writing -/

namespace Wording

def toJson : Wording → Value
  | single text => .string text
  | plural variants => .array (variants.map .string)

end Wording

namespace Messages

def contextToJson (context : Table Wording) : Value :=
  .object (context.entries.map fun e => (e.1, e.2.toJson))

def toJson (messages : Messages) : Value :=
  .object (messages.entries.map fun e => (e.1, contextToJson e.2))

end Messages

namespace Document

/-- A missing header or language is left out. -/
def toJson (d : Document) : Value :=
  .object
    (((d.pluralForms.map fun s => ("pluralForms", Value.string s)).toList
      ++ (d.lang.map fun s => ("lang", Value.string s)).toList)
      ++ [("messages", Messages.toJson d.messages)])

end Document

namespace InvalidFormsPolicy

def name : InvalidFormsPolicy → String
  | reject => "reject"
  | useDefault => "useDefault"

def ofName : String → Except Fault InvalidFormsPolicy
  | "reject" => .ok reject
  | "useDefault" => .ok useDefault
  | _ => .error .mismatch

end InvalidFormsPolicy

namespace Options

def toJson (o : Options) : Value :=
  .object
    [("defaultPluralForms", .string o.defaultPluralForms), ("defaultLang", .string o.defaultLang),
      ("invalidPluralForms", .string o.invalidForms.name)]

end Options

/-! ### Reading messages -/

namespace Wording

def stringsOfJson : List Value → Except Fault (List String)
  | [] => .ok []
  | .string s :: vs => do
      let ss ← stringsOfJson vs
      return s :: ss
  | _ :: _ => .error .mismatch

def ofJson : Value → Except Fault Wording
  | .string s => .ok (single s)
  | .array vs => do return plural (← stringsOfJson vs)
  | _ => .error .mismatch

/-- A wording is read completely before it is judged. -/
def read (depth : Nat) (d : Draft) : Except Fault Wording := do
  ofJson (← d.read depth)

end Wording

/-- Reads an object as a table.  A repeated key keeps its place and its last value. -/
def readTable {α : Type} (depth : Nat) (readItem : Nat → Draft → Except Fault α) (d : Draft) :
    Except Fault (Table α) := do
  let (members, cut) ← d.asObject depth
  Json.foldMembers
    (fun table key item => do return table.insert key (← readItem (depth - 1) item))
    Table.empty members cut

def Messages.read (depth : Nat) (d : Draft) : Except Fault Messages :=
  readTable depth (fun depth => readTable depth Wording.read) d

/-! ### Reading records -/

/-- Sets a member that has not been set yet. -/
def setOnce {α : Type} (current : Option α) (value : Except Fault α) : Except Fault (Option α) :=
  match current with
  | some _ => .error .mismatch
  | none => value.map some

/-- Reads a record of up to three members, from an object by their names or from an array by their
order.  More items than members are not JSON of such a record. -/
def readRecord {σ : Type} (depth : Nat) (names : List String)
    (set : σ → String → Draft → Except Fault σ) (start : σ) (d : Draft) : Except Fault σ :=
  match d with
  | .array .. => do
      let (items, cut) ← d.asArray depth
      let state ← (names.zip items).foldlM (fun state (name, item) => set state name item) start
      if names.length < items.length then
        .error .malformed
      else
        Json.checkCut cut
        return state
  | _ => do
      let (members, cut) ← d.asObject depth
      Json.foldMembers set start members cut

namespace Document

/-- The members of a document that have been read. -/
structure Members where
  pluralForms : Option (Option String) := none
  lang : Option (Option String) := none
  messages : Option Messages := none

def set (depth : Nat) (m : Members) (key : String) (d : Draft) : Except Fault Members :=
  match key with
  | "pluralForms" => do return { m with pluralForms := ← setOnce m.pluralForms d.readStringOrNull }
  | "lang" => do return { m with lang := ← setOnce m.lang d.readStringOrNull }
  | "messages" => do return { m with messages := ← setOnce m.messages (Messages.read depth d) }
  | _ => do
      d.skip
      return m

def read (d : Draft) : Except Fault Document := do
  let m ← readRecord Json.maxDepth ["pluralForms", "lang", "messages"] (set (Json.maxDepth - 1)) {} d
  return ⟨m.pluralForms.getD none, m.lang.getD none, m.messages.getD .empty⟩

def ofJson (source : String) : Except Fault Document :=
  Json.readText read source

end Document

namespace InvalidFormsPolicy

/-- A policy is its name, or an object with its name as the only key and `null` as the value. -/
def read (d : Draft) : Except Fault InvalidFormsPolicy :=
  match d with
  | .string s => do ofName (← s)
  | .object ((key, d) :: others) cut => do
      let policy ← ofName (← key.read)
      match d with
      | .null =>
          if others.isEmpty then
            Json.checkCut cut
            return policy
          else
            .error .malformed
      | d => .error d.otherKind
  | .object [] (some cut) => .error cut.value
  | .broken cut => .error cut.first
  | _ => .error .malformed

end InvalidFormsPolicy

namespace Options

/-- The members of options that have been read. -/
structure Members where
  defaultPluralForms : Option String := none
  defaultLang : Option String := none
  invalidForms : Option InvalidFormsPolicy := none

def set (m : Members) (key : String) (d : Draft) : Except Fault Members :=
  match key with
  | "defaultPluralForms" => do
      return { m with defaultPluralForms := ← setOnce m.defaultPluralForms d.readString }
  | "defaultLang" => do return { m with defaultLang := ← setOnce m.defaultLang d.readString }
  | "invalidPluralForms" => do
      return { m with invalidForms := ← setOnce m.invalidForms (InvalidFormsPolicy.read d) }
  | _ => do
      d.skip
      return m

def read (d : Draft) : Except Fault Options := do
  let m ← readRecord Json.maxDepth ["defaultPluralForms", "defaultLang", "invalidPluralForms"] set {} d
  let o : Options := {}
  return ⟨m.defaultPluralForms.getD o.defaultPluralForms, m.defaultLang.getD o.defaultLang,
    m.invalidForms.getD o.invalidForms⟩

def ofJson (source : String) : Except Fault Options :=
  Json.readText read source

end Options

end Phrasebook

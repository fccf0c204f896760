import Phrasebook.Catalog.DocumentJson
import Phrasebook.Catalog.Event

/-!
# Compiling catalogs

A catalog is a document whose plural header has been compiled and whose default context is there.
Compiling gives the catalog, or the error of the header that was refused, and in either case the
events on the way.
-/

namespace Phrasebook

structure Catalog where
  lang : String
  messages : Messages
  rule : PluralRule
deriving Repr

/-- Why no catalog could be loaded. -/
inductive LoadError where
  | invalidPluralForms (error : InvalidPluralForms)
  | json (fault : Json.Fault)
  | notFound
  | notText
deriving DecidableEq, Repr

namespace Catalog

/-! ### Plural headers -/

/-- The rule of a document's header, or of the default header if the policy says so. -/
def ruleOf (options : Options) (source : String) :
    Except InvalidPluralForms PluralRule × List Event :=
  match PluralRule.compile source with
  | .ok rule => (.ok rule, [])
  | .error e =>
      match options.invalidForms with
      | .reject => (.error e, [])
      | .useDefault =>
          (PluralRule.compile options.defaultPluralForms, [.fallback e options.defaultPluralForms])

/-- The rule of a document, which may have no header. -/
def ruleOf? (options : Options) : Option String → Except InvalidPluralForms PluralRule × List Event
  | some source => ruleOf options source
  | none => (PluralRule.compile options.defaultPluralForms, [])

/-! ### Messages -/

/-- The messages with an empty default context at the end if there is none. -/
def addDefaultContext (messages : Messages) : Messages :=
  if messages.contains defaultContext then messages else messages.insert defaultContext .empty

/-- The event of a wording that has not `nplurals` variants. -/
def variantCountEvent? (nplurals : Nat) (context id : String) : Wording → Option Event
  | .single _ => none
  | .plural variants =>
      if variants.length = nplurals then none
      else some (.variantCount context id variants.length nplurals)

/-- The events of all wordings that have not `nplurals` variants. -/
def variantCountEvents (nplurals : Nat) (messages : Messages) : List Event :=
  messages.entries.flatMap fun c =>
    c.2.entries.filterMap fun e => variantCountEvent? nplurals c.1 e.1 e.2

/-! ### Catalogs -/

def compile (document : Document) (options : Options) :
    Except InvalidPluralForms Catalog × List Event :=
  match ruleOf? options document.pluralForms with
  | (.error e, events) => (.error e, events)
  | (.ok rule, events) =>
      let lang := document.lang.getD options.defaultLang
      let messages := addDefaultContext document.messages
      let counts :=
        match rule.nplurals with
        | some nplurals => variantCountEvents nplurals messages
        | none => []
      (.ok ⟨lang, messages, rule⟩, events ++ counts ++ [.compiled lang messages.size rule.nplurals])

/-- Reads and compiles the JSON text of a document. -/
def ofJson (source : String) (options : Options) : Except LoadError Catalog × List Event :=
  match Document.ofJson source with
  | .error f => (.error (.json f), [])
  | .ok document =>
      let (result, events) := compile document options
      (result.mapError .invalidPluralForms, events)

/-- Reads and compiles the contents of a file, which may be missing or not UTF-8. -/
def ofFile : Option ByteArray → Except LoadError Catalog
  | none => .error .notFound
  | some bytes =>
      match String.fromUTF8? bytes with
      | some source => (ofJson source {}).1
      | none => .error .notText

/-- The catalog without messages: every look-up gives the message id. -/
def empty : Catalog :=
  ⟨({} : Options).defaultLang, Table.empty.insert defaultContext .empty, .english⟩

/-! ### Equality -/

/-- Whether two tables bind the same keys to equal values, in whatever order. -/
def sameEntries {α : Type} (same : α → α → Bool) (t u : Table α) : Bool :=
  t.size = u.size && t.entries.all fun e => (u.get? e.1).any (same e.2)

/-- Catalogs are equal if their languages, messages and plural programs are; neither the order of
messages nor the text of the header matters. -/
instance : BEq Catalog where
  beq a b :=
    a.lang == b.lang && sameEntries (sameEntries (fun s t => decide (s = t))) a.messages b.messages
      && a.rule == b.rule

end Catalog

end Phrasebook

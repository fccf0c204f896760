import Phrasebook.Catalog.Lookup

/-!
# Stores

A store holds the catalog that is current and the options for those that are loaded into it.  A
snapshot is the catalog that is current when it is taken; later changes do not reach it.
-/

namespace Phrasebook

structure Store where
  current : Catalog
  options : Options
deriving Repr

namespace Store

/-- Makes `next` current and gives the catalog that was. -/
def replace (s : Store) (next : Catalog) : Store × Catalog × List Event :=
  ({ s with current := next }, s.current, [.replaced s.current.lang next.lang])

/-- Makes a catalog current that may have failed to load; then nothing changes. -/
def install (s : Store) : Except LoadError Catalog × List Event →
    Store × Except LoadError Unit × List Event
  | (.ok next, events) =>
      let (s, _, replaced) := s.replace next
      (s, .ok (), events ++ replaced)
  | (.error e, events) => (s, .error e, events)

def loadJson (s : Store) (source : String) : Store × Except LoadError Unit × List Event :=
  s.install (Catalog.ofJson source s.options)

def loadDocument (s : Store) (document : Document) : Store × Except LoadError Unit × List Event :=
  let (result, events) := Catalog.compile document s.options
  s.install (result.mapError .invalidPluralForms, events)

/-- The diagnostic text of a store. -/
def describe (s : Store) : String :=
  let policy := match s.options.invalidForms with
    | .reject => "Reject"
    | .useDefault => "UseDefault"
  "CatalogStore \x7b lang: " ++ quoted s.current.lang
    ++ ", config: GettextConfig \x7b default_plural_forms: " ++ quoted s.options.defaultPluralForms
    ++ ", default_lang: " ++ quoted s.options.defaultLang
    ++ ", invalid_plural_forms: " ++ policy ++ " \x7d \x7d"

end Store

/-! ### Sessions -/

/-- A store and the snapshots that have been taken of it, by name. -/
structure Session where
  store : Store
  snapshots : Table Catalog

inductive Action where
  | loadJson (source : String)
  | loadDocument (document : Document)
  | replace (next : Catalog)
  | snapshot (name : String)

/-- What an action gives. -/
inductive Outcome where
  | loaded (lang : String)
  | refused (error : LoadError)
  | replaced (previous : Catalog)
  | taken (snapshot : Catalog)

namespace Session

/-- The snapshot of this name, or a fresh one if there is none; a fresh one has no name. -/
def view (s : Session) (name : String) : Catalog :=
  if name = "" then s.store.current else (s.snapshots.get? name).getD s.store.current

/-- What follows a load. -/
def loaded (s : Session) : Store × Except LoadError Unit × List Event →
    Session × Outcome × List Event
  | (store, .ok (), events) => ({ s with store }, .loaded store.current.lang, events)
  | (store, .error e, events) => ({ s with store }, .refused e, events)

def perform (s : Session) : Action → Session × Outcome × List Event
  | .loadJson source => s.loaded (s.store.loadJson source)
  | .loadDocument document => s.loaded (s.store.loadDocument document)
  | .replace next =>
      let (store, previous, events) := s.store.replace next
      ({ s with store }, .replaced previous, events)
  | .snapshot name =>
      ({ s with snapshots := s.snapshots.insert name s.store.current }, .taken s.store.current, [])

end Session

end Phrasebook

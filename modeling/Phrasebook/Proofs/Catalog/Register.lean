import Phrasebook.Catalog.Store

/-!
# A store is a register

However loads, replacements, snapshots and look-ups follow one another (`after`, `replies`), the
current catalog is the last one that has been installed (`current_after`), and whoever replaces it
gets it back (`handedBack_append_current`).  A load that fails leaves no trace (`step_load_error`).
A snapshot answers for good as the catalog that was current when it was taken (`view_after`).  All
of this is read off `step_cases`, which says what a step can be.
-/

namespace Phrasebook

/-! ### Questions -/

/-- What a catalog can be asked. -/
inductive Query where
  | lang
  | index (n : Int64)
  | text (id : String)
  | textIn (context id : String)
  | plural (id idPlural : String) (n : Int64)
  | pluralIn (context id idPlural : String) (n : Int64)

inductive Answer where
  | text (s : String)
  | index (i : Int64)

def Catalog.answer (c : Catalog) : Query → Answer
  | .lang => .text c.lang
  | .index n => .index (c.rule.index n)
  | .text id => .text (c.text id)
  | .textIn context id => .text (c.textIn context id)
  | .plural id idPlural n => .text (c.plural id idPlural n)
  | .pluralIn context id idPlural n => .text (c.pluralIn context id idPlural n)

namespace Session

/-! ### Runs -/

/-- An action on the store, or a question to the snapshot of this name. -/
inductive Step where
  | act (action : Action)
  | ask (name : String) (query : Query)

inductive Reply where
  | outcome (outcome : Outcome)
  | answer (answer : Answer)

def step (s : Session) : Step → Session × Reply
  | .act action => ((s.perform action).1, .outcome (s.perform action).2.1)
  | .ask name query => (s, .answer ((s.view name).answer query))

/-- The session after these steps. -/
def after (s : Session) (steps : List Step) : Session :=
  steps.foldl (fun s t => (s.step t).1) s

/-- What these steps give, one reply for each. -/
def replies (s : Session) : List Step → List Reply
  | [] => []
  | t :: ts => (s.step t).2 :: (s.step t).1.replies ts

/-- The catalog that a load compiles, or why there is none.  It does not depend on the store. -/
def Step.load? (options : Options) : Step → Option (Except LoadError Catalog)
  | .act (.loadJson source) => some (Catalog.ofJson source options).1
  | .act (.loadDocument document) =>
      some ((Catalog.compile document options).1.mapError .invalidPluralForms)
  | _ => none

/-- The catalog that a step installs, if it does. -/
def Step.installed? (options : Options) : Step → Option Catalog
  | .act (.replace next) => some next
  | t => (t.load? options).bind Except.toOption

/-- The catalog that a replacement hands back. -/
def Reply.handedBack? : Reply → Option Catalog
  | .outcome (.replaced previous) => some previous
  | _ => none

/-- The session with `next` as the current catalog. -/
def withCurrent (s : Session) (next : Catalog) : Session :=
  { s with store := { s.store with current := next } }

/-! ### One step -/

section
variable {s : Session} {t : Step} {name : String} {next : Catalog}

/-- Both loads install what they have compiled, or report why they have not. -/
theorem exists_step_eq_install {result : Except LoadError Catalog}
    (h : t.load? s.store.options = some result) :
    ∃ events, s.step t = ((s.loaded (s.store.install (result, events))).1,
      .outcome (s.loaded (s.store.install (result, events))).2.1) := by
  cases t with
  | ask name query => cases h
  | act action =>
    cases action with
    | loadJson source =>
      cases h
      exact ⟨(Catalog.ofJson source s.store.options).2, rfl⟩
    | loadDocument document =>
      cases h
      exact ⟨(Catalog.compile document s.store.options).2, rfl⟩
    | replace next => cases h
    | snapshot name => cases h

theorem step_load_error {e : LoadError} (h : t.load? s.store.options = some (.error e)) :
    s.step t = (s, .outcome (.refused e)) := by
  obtain ⟨events, hstep⟩ := exists_step_eq_install h
  exact hstep

/-- A load that succeeds changes the current catalog and nothing else. -/
theorem step_load_ok (h : t.load? s.store.options = some (.ok next)) :
    s.step t = (s.withCurrent next, .outcome (.loaded next.lang)) := by
  obtain ⟨events, hstep⟩ := exists_step_eq_install h
  exact hstep

theorem step_replace : s.step (.act (.replace next)) =
    (s.withCurrent next, .outcome (.replaced s.store.current)) :=
  rfl

theorem step_snapshot : s.step (.act (.snapshot name)) =
    ({ s with snapshots := s.snapshots.insert name s.store.current },
      .outcome (.taken s.store.current)) :=
  rfl

/-- Every step is a look-up, a snapshot, a replacement, or a load that fails or succeeds. -/
theorem step_cases (s : Session) (t : Step) :
    (∃ name query, t = .ask name query) ∨ (∃ name, t = .act (.snapshot name)) ∨
      (∃ next, t = .act (.replace next)) ∨ (∃ e, t.load? s.store.options = some (.error e)) ∨
      ∃ next, t.load? s.store.options = some (.ok next) := by
  have hload : ∀ result : Except LoadError Catalog, t.load? s.store.options = some result →
      (∃ e, t.load? s.store.options = some (.error e)) ∨
        ∃ next, t.load? s.store.options = some (.ok next) := by
    rintro (e | next) h
    · exact .inl ⟨e, h⟩
    · exact .inr ⟨next, h⟩
  cases t with
  | ask name query => exact .inl ⟨name, query, rfl⟩
  | act action =>
    cases action with
    | loadJson source => exact .inr (.inr (.inr (hload _ rfl)))
    | loadDocument document => exact .inr (.inr (.inr (hload _ rfl)))
    | replace next => exact .inr (.inr (.inl ⟨next, rfl⟩))
    | snapshot name => exact .inr (.inl ⟨name, rfl⟩)

theorem installed?_of_load {options : Options} {result : Except LoadError Catalog}
    (h : t.load? options = some result) : t.installed? options = result.toOption := by
  have hbind : t.installed? options = (t.load? options).bind Except.toOption := by
    cases t with
    | ask name query => rfl
    | act action =>
      cases action with
      | replace next => cases h
      | _ => rfl
  rw [hbind, h]
  rfl

theorem step_of_installed (h : t.installed? s.store.options = some next) :
    (s.step t).1 = s.withCurrent next := by
  rcases step_cases s t with ⟨name, query, rfl⟩ | ⟨name, rfl⟩ | ⟨next', rfl⟩ | ⟨e, he⟩ | ⟨next', hok⟩
  · cases h
  · cases h
  · cases h
    rfl
  · rw [installed?_of_load he] at h
    cases h
  · rw [installed?_of_load hok] at h
    cases h
    rw [step_load_ok hok]

theorem store_step_of_not_installed (h : t.installed? s.store.options = none) :
    (s.step t).1.store = s.store := by
  rcases step_cases s t with ⟨name, query, rfl⟩ | ⟨name, rfl⟩ | ⟨next', rfl⟩ | ⟨e, he⟩ | ⟨next', hok⟩
  · rfl
  · rfl
  · cases h
  · rw [step_load_error he]
  · rw [installed?_of_load hok] at h
    cases h

theorem options_step (s : Session) (t : Step) :
    (s.step t).1.store.options = s.store.options := by
  cases hinstalled : t.installed? s.store.options with
  | none => rw [store_step_of_not_installed hinstalled]
  | some next =>
    rw [step_of_installed hinstalled]
    rfl

/-- Only a snapshot of the same name changes a snapshot. -/
theorem get?_snapshots_step (h : t ≠ .act (.snapshot name)) :
    (s.step t).1.snapshots.get? name = s.snapshots.get? name := by
  rcases step_cases s t with ⟨name', query, rfl⟩ | ⟨name', rfl⟩ | ⟨next', rfl⟩ | ⟨e, he⟩ | ⟨next', hok⟩
  · rfl
  · rw [step_snapshot]
    refine (Table.get?_insert _ _ _ _).trans (if_neg ?_)
    rintro rfl
    exact h rfl
  · rfl
  · rw [step_load_error he]
  · rw [step_load_ok hok]
    rfl

/-- Nothing but a replacement hands a catalog back. -/
theorem handedBack?_step (h : ∀ next, t ≠ .act (.replace next)) :
    (s.step t).2.handedBack? = none := by
  rcases step_cases s t with ⟨name, query, rfl⟩ | ⟨name, rfl⟩ | ⟨next, rfl⟩ | ⟨e, he⟩ | ⟨next, hok⟩
  · rfl
  · rfl
  · exact absurd rfl (h next)
  · rw [step_load_error he]
    rfl
  · rw [step_load_ok hok]
    rfl

end

/-! ### All steps -/

section
variable {s : Session} {name : String} {steps before rest : List Step}

theorem after_append (s : Session) (before rest : List Step) :
    s.after (before ++ rest) = (s.after before).after rest :=
  List.foldl_append

theorem after_concat (s : Session) (before : List Step) (t : Step) :
    s.after (before ++ [t]) = ((s.after before).step t).1 :=
  s.after_append before [t]

/-- The reply to a step is the one in the session that the steps before it have led to. -/
theorem getElem?_replies (s : Session) (before : List Step) (t : Step) (rest : List Step) :
    (s.replies (before ++ t :: rest))[before.length]? = some ((s.after before).step t).2 := by
  induction before generalizing s with
  | nil => rfl
  | cons u before ih => exact ih (s.step u).1

theorem options_after (s : Session) (steps : List Step) :
    (s.after steps).store.options = s.store.options := by
  induction steps generalizing s with
  | nil => rfl
  | cons t steps ih => exact (ih (s.step t).1).trans (s.options_step t)

theorem current_after (s : Session) (steps : List Step) :
    (s.after steps).store.current =
      (steps.filterMap (Step.installed? s.store.options)).getLast?.getD s.store.current := by
  induction steps generalizing s with
  | nil => rfl
  | cons t steps ih =>
    have htail := ih (s.step t).1
    rw [s.options_step t] at htail
    cases hinstalled : t.installed? s.store.options with
    | none =>
      rw [store_step_of_not_installed hinstalled] at htail
      rw [List.filterMap_cons_none hinstalled]
      exact htail
    | some next =>
      have hcurrent : (s.step t).1.store.current = next := by
        rw [step_of_installed hinstalled]
        rfl
      rw [hcurrent] at htail
      rw [List.filterMap_cons_some hinstalled, List.getLast?_cons]
      exact htail

theorem get?_snapshots_after (h : .act (.snapshot name) ∉ steps) :
    (s.after steps).snapshots.get? name = s.snapshots.get? name := by
  induction steps generalizing s with
  | nil => rfl
  | cons t steps ih =>
    rw [List.mem_cons, not_or] at h
    exact (ih h.2).trans (get?_snapshots_step (Ne.symm h.1))

theorem get?_snapshots_step_snapshot (s : Session) (name : String) :
    (s.step (.act (.snapshot name))).1.snapshots.get? name = some s.store.current :=
  (Table.get?_insert _ _ _ _).trans (if_pos rfl)

/-- A named snapshot stays what it is until another one is taken under its name. -/
theorem view_after {c : Catalog} (hname : name ≠ "") (hsnapshot : s.snapshots.get? name = some c)
    (h : .act (.snapshot name) ∉ steps) : (s.after steps).view name = c := by
  rw [view, if_neg hname, get?_snapshots_after h, hsnapshot]
  rfl

/-- What is handed back and what is current are what was current and what is installed, in order. -/
theorem handedBack_append_current
    (h : ∀ t ∈ steps, t.installed? s.store.options ≠ none → ∃ next, t = .act (.replace next)) :
    (s.replies steps).filterMap Reply.handedBack? ++ [(s.after steps).store.current] =
      s.store.current :: steps.filterMap (Step.installed? s.store.options) := by
  induction steps generalizing s with
  | nil => rfl
  | cons t steps ih =>
    have htail := ih (s := (s.step t).1)
    rw [s.options_step t] at htail
    have hrest := htail fun u hu => h u (List.mem_cons_of_mem t hu)
    cases hinstalled : t.installed? s.store.options with
    | none =>
      have hquiet : (s.step t).2.handedBack? = none := by
        refine handedBack?_step fun next hnext => ?_
        rw [hnext] at hinstalled
        cases hinstalled
      rw [store_step_of_not_installed hinstalled] at hrest
      rw [replies, List.filterMap_cons_none hquiet, List.filterMap_cons_none hinstalled]
      exact hrest
    | some next =>
      obtain ⟨next', rfl⟩ : ∃ next', t = .act (.replace next') :=
        h t List.mem_cons_self (by rw [hinstalled]; exact Option.some_ne_none next)
      have hback : (s.step (.act (.replace next'))).2.handedBack? = some s.store.current := rfl
      cases hinstalled
      rw [replies, List.filterMap_cons_some hback, List.cons_append]
      exact congrArg (s.store.current :: ·) hrest

/-- The current catalog is the last one that was installed; a replacement gives the one before it,
so that each is handed back once as long as nothing else installs; a load that fails changes
nothing, and one that succeeds only what is current; and a snapshot answers as the catalog did that
was current when it was taken, or as it did at the start if it is older than that.  Without a name
it is the current catalog that is asked. -/
theorem run_register (s : Session) (steps : List Step) :
    (s.after steps).store.current =
      (steps.filterMap (Step.installed? s.store.options)).getLast?.getD s.store.current ∧
    (s.after steps).store.options = s.store.options ∧
    (∀ before next rest, steps = before ++ .act (.replace next) :: rest →
      (s.replies steps)[before.length]? =
        some (.outcome (.replaced (s.after before).store.current))) ∧
    ((∀ t ∈ steps, t.installed? s.store.options ≠ none → ∃ next, t = .act (.replace next)) →
      (s.replies steps).filterMap Reply.handedBack? ++ [(s.after steps).store.current] =
        s.store.current :: steps.filterMap (Step.installed? s.store.options)) ∧
    (∀ before t rest e, steps = before ++ t :: rest →
      t.load? s.store.options = some (.error e) →
      (s.replies steps)[before.length]? = some (.outcome (.refused e)) ∧
        s.after (before ++ [t]) = s.after before) ∧
    (∀ before t rest next, steps = before ++ t :: rest →
      t.load? s.store.options = some (.ok next) →
      (s.replies steps)[before.length]? = some (.outcome (.loaded next.lang)) ∧
        s.after (before ++ [t]) = (s.after before).withCurrent next) ∧
    (∀ before name rest, steps = before ++ .act (.snapshot name) :: rest →
      (s.replies steps)[before.length]? =
        some (.outcome (.taken (s.after before).store.current))) ∧
    (∀ before name between query rest,
      steps = (before ++ .act (.snapshot name) :: between) ++ .ask name query :: rest →
      name ≠ "" → .act (.snapshot name) ∉ between →
      (s.replies steps)[(before ++ .act (.snapshot name) :: between).length]? =
        some (.answer ((s.after before).store.current.answer query))) ∧
    (∀ before name query rest c, steps = before ++ .ask name query :: rest →
      name ≠ "" → s.snapshots.get? name = some c → .act (.snapshot name) ∉ before →
      (s.replies steps)[before.length]? = some (.answer (c.answer query))) ∧
    (∀ before query rest, steps = before ++ .ask "" query :: rest →
      (s.replies steps)[before.length]? =
        some (.answer ((s.after before).store.current.answer query))) := by
  refine ⟨current_after s steps, options_after s steps, ?_, handedBack_append_current, ?_, ?_, ?_, ?_,
    ?_, ?_⟩
  · rintro before next rest rfl
    rw [getElem?_replies, step_replace]
  · rintro before t rest e rfl he
    rw [← options_after s before] at he
    rw [getElem?_replies, after_concat, step_load_error he]
    exact ⟨rfl, rfl⟩
  · rintro before t rest next rfl hok
    rw [← options_after s before] at hok
    rw [getElem?_replies, after_concat, step_load_ok hok]
    exact ⟨rfl, rfl⟩
  · rintro before name rest rfl
    rw [getElem?_replies, step_snapshot]
  · rintro before name between query rest rfl hname hbetween
    have hview := view_after hname (get?_snapshots_step_snapshot (s.after before) name) hbetween
    rw [getElem?_replies, after_append]
    exact congrArg (fun c => some (Reply.answer (Catalog.answer c query))) hview
  · rintro before name query rest c rfl hname hsnapshot hbefore
    rw [getElem?_replies, step, view_after hname hsnapshot hbefore]
  · rintro before query rest rfl
    rw [getElem?_replies]
    rfl

end

end Session

end Phrasebook

import Phrasebook.Format.Message
import Phrasebook.Proofs.Format.Records

/-!
# Records after any edits

However a record has come about, it has one binding for each key, the one that was written last, at
the place of the first one (`after_eq_ofList`); and who replaces a binding is given it back
(`edit_fst_eq_some_iff`).  The halves of a record keep its order and have each of its keys once
between them (`disjoint_keys`, `mem_keys_iff_halves`).  A message asks a record for no more than the
binding of a key, so it does not depend on the order at all (`Message.rich_congr`).
-/

namespace Phrasebook

namespace Values

section
variable {τ : Type}

/-! ### Edits -/

/-- What can be done to a record.  `collect` gives it up for a new one. -/
inductive Edit (τ : Type) where
  | withScalar (key : String) (s : Scalar)
  | withTransform (name : String) (f : τ)
  | replace (key : String) (b : Binding τ)
  | collect (pairs : List (String × Scalar))

/-- The binding that is given back, and the record that is left. -/
def edit (v : Values τ) : Edit τ → Option (Binding τ) × Values τ
  | .withScalar key s => (none, withScalar v key s)
  | .withTransform name f => (none, withTransform v name f)
  | .replace key b => replace v key b
  | .collect pairs => (none, ofScalars pairs)

/-- The record after these edits. -/
def after (edits : List (Edit τ)) : Values τ :=
  edits.foldl (fun v e => (edit v e).2) .empty

/-- The bindings that have been written, if `writes` have been before. -/
def Edit.write (writes : List (String × Binding τ)) : Edit τ → List (String × Binding τ)
  | withScalar key s => writes ++ [(key, .scalar s)]
  | withTransform name f => writes ++ [(name, .transform f)]
  | replace key b => writes ++ [(key, b)]
  | collect pairs => pairs.map fun p => (p.1, .scalar p.2)

/-- The bindings that these edits write, from the last `collect` on. -/
def written (edits : List (Edit τ)) : List (String × Binding τ) :=
  edits.foldl Edit.write []

theorem ofScalars_eq_ofList (pairs : List (String × Scalar)) :
    (ofScalars pairs : Values τ) = .ofList (pairs.map fun p => (p.1, .scalar p.2)) := by
  rw [Table.ofList, List.foldl_map]
  rfl

/-- One edit of a record that is made of what was written. -/
theorem edit_ofList (writes : List (String × Binding τ)) (e : Edit τ) :
    (edit (.ofList writes) e).2 = .ofList (e.write writes) := by
  cases e with
  | withScalar key s => exact (Table.ofList_concat writes (key, .scalar s)).symm
  | withTransform name f => exact (Table.ofList_concat writes (name, .transform f)).symm
  | replace key b => exact (Table.ofList_concat writes (key, b)).symm
  | collect pairs => exact ofScalars_eq_ofList pairs

theorem after_eq_ofList (edits : List (Edit τ)) : after edits = .ofList (written edits) := by
  have hrun (writes : List (String × Binding τ)) :
      edits.foldl (fun v e => (edit v e).2) (.ofList writes) =
        .ofList (edits.foldl Edit.write writes) := by
    induction edits generalizing writes with
    | nil => rfl
    | cons e edits ih => rw [List.foldl_cons, edit_ofList, ih, List.foldl_cons]
  exact hrun []

theorem keys_after (edits : List (Edit τ)) :
    (after edits).keys = ((written edits).map Prod.fst).eraseDups := by
  rw [after_eq_ofList, Table.keys_ofList]

theorem mem_entries_after_iff {edits : List (Edit τ)} {key : String} {b : Binding τ} :
    (key, b) ∈ (after edits).entries ↔ LastOf (written edits) key b := by
  rw [after_eq_ofList, Table.mem_entries_ofList_iff]

/-- Only a replacement gives something back, and it is what it replaces. -/
theorem edit_fst_eq_some_iff {v : Values τ} {e : Edit τ} {b : Binding τ} :
    (edit v e).1 = some b ↔ ∃ key new, e = .replace key new ∧ (key, b) ∈ v.entries := by
  cases e with
  | replace key new =>
    constructor
    · intro h
      exact ⟨key, new, rfl, (v.get?_eq_some_iff key b).1 h⟩
    · rintro ⟨key', new', heq, h⟩
      cases heq
      exact (v.get?_eq_some_iff key b).2 h
  | withScalar | withTransform | collect => simp [edit]

/-! ### Halves -/

/-- Puts an entry into the half where it belongs. -/
def sortEntry (halves : Table Scalar × Table τ) (e : String × Binding τ) :
    Table Scalar × Table τ :=
  match e.2 with
  | .scalar s => (halves.1.insert e.1 s, halves.2)
  | .transform f => (halves.1, halves.2.insert e.1 f)

/-- A single pass over the record makes both halves. -/
theorem foldl_sortEntry (v : Values τ) :
    v.entries.foldl sortEntry (.empty, .empty) = (v.scalars, v.transforms) := by
  have hpass (es : List (String × Binding τ)) (t : Table Scalar) (u : Table τ) :
      es.foldl sortEntry (t, u) =
        ((es.filterMap fun e => e.2.scalar?.map fun s => (e.1, s)).foldl
            (fun t p => t.insert p.1 p.2) t,
          (es.filterMap fun e => e.2.transform?.map fun f => (e.1, f)).foldl
            (fun u p => u.insert p.1 p.2) u) := by
    induction es generalizing t u with
    | nil => rfl
    | cons e es ih =>
      obtain ⟨key, b⟩ := e
      cases b with
      | scalar s => exact ih (t.insert key s) u
      | transform f => exact ih t (u.insert key f)
  rw [hpass]
  exact Prod.ext v.scalars.ofList_entries v.transforms.ofList_entries

theorem map_entries_scalars (v : Values τ) :
    v.scalars.entries.map (fun e => (e.1, Binding.scalar e.2)) =
      v.entries.filter fun e => e.2.scalar?.isSome :=
  Table.map_entries_filterMap Binding.scalar?_eq_some_iff v

theorem map_entries_transforms (v : Values τ) :
    v.transforms.entries.map (fun e => (e.1, Binding.transform e.2)) =
      v.entries.filter fun e => e.2.transform?.isSome :=
  Table.map_entries_filterMap Binding.transform?_eq_some_iff v

theorem mem_keys_scalars_iff {v : Values τ} {key : String} :
    key ∈ v.scalars.keys ↔ ∃ s, v.get? key = some (.scalar s) := by
  simp only [Table.mem_keys_iff, get?_scalars_eq_some]

theorem mem_keys_transforms_iff {v : Values τ} {key : String} :
    key ∈ v.transforms.keys ↔ ∃ f, v.get? key = some (.transform f) := by
  simp only [Table.mem_keys_iff, get?_transforms_eq_some]

theorem disjoint_keys (v : Values τ) : v.scalars.keys.Disjoint v.transforms.keys := by
  intro key hscalar htransform
  obtain ⟨s, hs⟩ := mem_keys_scalars_iff.1 hscalar
  obtain ⟨f, hf⟩ := mem_keys_transforms_iff.1 htransform
  rw [hs] at hf
  cases hf

theorem mem_keys_iff_halves {v : Values τ} {key : String} :
    key ∈ v.keys ↔ key ∈ v.scalars.keys ∨ key ∈ v.transforms.keys := by
  rw [mem_keys_scalars_iff, mem_keys_transforms_iff, Table.mem_keys_iff]
  constructor
  · rintro ⟨b, hb⟩
    cases b with
    | scalar s => exact .inl ⟨s, hb⟩
    | transform f => exact .inr ⟨f, hb⟩
  · rintro (⟨s, hs⟩ | ⟨f, hf⟩)
    · exact ⟨_, hs⟩
    · exact ⟨_, hf⟩

theorem hasTransforms_iff (v : Values τ) : v.hasTransforms = true ↔ v.transforms.entries ≠ [] := by
  rw [Ne, ← List.isEmpty_iff, Bool.not_eq_true]
  show _ ↔ v.transforms.isEmpty = false
  rw [isEmpty_transforms, Bool.not_eq_false']

end

end Values

/-! ### Messages -/

section
variable {m : Type → Type} [Monad m] {γ : Type} [Markup.Content γ]

/-- A message is told by a record only what it binds each key to. -/
theorem Message.rich_congr {v w : Values (γ → m γ)} (h : ∀ key, v.get? key = w.get? key)
    (message : Message) : message.rich v = message.rich w := by
  have hscalars (key : String) : v.scalars.get? key = w.scalars.get? key := by
    rw [Values.get?_scalars, Values.get?_scalars, h]
  have htransforms : v.transforms.get? = w.transforms.get? := by
    funext key
    rw [Values.get?_transforms, Values.get?_transforms, h]
  have hempty : v.transforms.isEmpty = w.transforms.isEmpty :=
    Table.isEmpty_congr fun key => by rw [htransforms]
  rw [rich, rich, Template.substitute_congr hscalars, hempty, htransforms]

end

/-- After any edits a record has one binding for each key that was written since the last `collect`,
the last one, and the keys are in the order of their first writes; a replacement gives back the
binding that was there.  A pass over a record sorts its entries into halves, which keep their order
and share no key; no transform is left out of the one for tags.  Records that bind the same keys to
the same give the same for every message, whatever their orders are. -/
theorem Values.record_after_edits {τ : Type} {m : Type → Type} [Monad m] {γ : Type}
    [Markup.Content γ] :
    (∀ edits : List (Edit τ),
      (after edits).keys.Nodup ∧
      (after edits).keys = ((written edits).map Prod.fst).eraseDups ∧
      (∀ key b, (key, b) ∈ (after edits).entries ↔ LastOf (written edits) key b) ∧
      ∀ e b, (edit (after edits) e).1 = some b ↔
        ∃ key new, e = .replace key new ∧ LastOf (written edits) key b) ∧
    (∀ v : Values τ,
      v.entries.foldl sortEntry (.empty, .empty) = (v.scalars, v.transforms) ∧
      v.scalars.entries.map (fun e => (e.1, Binding.scalar e.2)) =
        v.entries.filter (fun e => e.2.scalar?.isSome) ∧
      v.transforms.entries.map (fun e => (e.1, Binding.transform e.2)) =
        v.entries.filter (fun e => e.2.transform?.isSome) ∧
      v.scalars.keys.Disjoint v.transforms.keys ∧
      (∀ key, key ∈ v.keys ↔ key ∈ v.scalars.keys ∨ key ∈ v.transforms.keys) ∧
      (v.hasTransforms = true ↔ v.transforms.entries ≠ [])) ∧
    ∀ v w : Values (γ → m γ), (∀ key, v.get? key = w.get? key) →
      ∀ message : Message, message.rich v = message.rich w := by
  refine ⟨fun edits => ⟨(after edits).nodup_keys, keys_after edits,
    fun key b => mem_entries_after_iff, fun e b => ?_⟩, fun v => ?_, fun v w => Message.rich_congr⟩
  · simp only [edit_fst_eq_some_iff, mem_entries_after_iff]
  · exact ⟨v.foldl_sortEntry, v.map_entries_scalars, v.map_entries_transforms, v.disjoint_keys,
      fun key => mem_keys_iff_halves, v.hasTransforms_iff⟩

/-- Keys change from one half to the other, before and after the record is collected anew. -/
def reboundKeys : List (Values.Edit (String → Id String)) :=
  [.withScalar "b" (.int 1), .withTransform "b" pure,
    .collect [("who", .text "Ada"), ("b", .int 2), ("who", .text "Bob")],
    .replace "b" (.transform fun inner => pure ("*" ++ inner ++ "*")),
    .withTransform "i" pure, .withScalar "i" (.text "<b>it</b>")]

/-- The same bindings without detours. -/
def finalBindings : Values (String → Id String) :=
  Values.withTransform (Values.ofScalars [("i", .text "<b>it</b>"), ("who", .text "Bob")]) "b"
    fun inner => pure ("*" ++ inner ++ "*")

theorem Values.record_after_edits_of_reboundKeys :
    (after reboundKeys).keys = ["who", "b", "i"] ∧ finalBindings.keys = ["i", "who", "b"] ∧
      (edit (after reboundKeys) (.replace "who" (.scalar (.int 3)))).1 =
        some (.scalar (.text "Bob")) ∧
      (∀ key, (after reboundKeys).get? key = finalBindings.get? key) ∧
      ∀ text, Message.rich ⟨text⟩ (after reboundKeys) = Message.rich ⟨text⟩ finalBindings := by
  obtain ⟨hedits, -, hrich⟩ := record_after_edits (τ := String → Id String) (m := Id) (γ := String)
  obtain ⟨-, hkeys, -, hback⟩ := hedits reboundKeys
  have hperm : (after reboundKeys).entries.Perm finalBindings.entries :=
    @List.perm_append_comm _ [_, _] [_]
  have hsame (key : String) : (after reboundKeys).get? key = finalBindings.get? key :=
    Table.get?_eq_of_perm hperm key
  refine ⟨hkeys.trans (by decide), by decide, (hback _ _).2 ⟨"who", _, rfl, ?_⟩, hsame,
    fun text => hrich _ _ hsame ⟨text⟩⟩
  exact ⟨[("who", .scalar (.text "Ada")), ("b", .scalar (.int 2))], _, rfl, by decide⟩

end Phrasebook

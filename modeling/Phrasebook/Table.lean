/-!
# Tables

A table maps strings to values and keeps the order in which its keys were first inserted.  Each key
occurs once, which is part of the type.

* `Table.get?` is the view of a table; `get?_insert` says what insertion does to it.
* `Table.keys` is the order; `keys_insert` says that only a new key changes it.
-/

namespace Phrasebook

/-! ### Entries -/

/-- Puts a value at the place of its key, or at the end when the key is new. -/
def insertEntry {α : Type} (key : String) (value : α) :
    List (String × α) → List (String × α)
  | [] => [(key, value)]
  | e :: es => if e.1 = key then (key, value) :: es else e :: insertEntry key value es

theorem keys_insertEntry {α : Type} (key : String) (value : α) (es : List (String × α)) :
    (insertEntry key value es).map Prod.fst =
      if key ∈ es.map Prod.fst then es.map Prod.fst else es.map Prod.fst ++ [key] := by
  induction es with
  | nil => simp [insertEntry]
  | cons e es ih =>
    by_cases h : e.1 = key
    · simp [insertEntry, h]
    · have h' : ¬ key = e.1 := fun hk => h hk.symm
      simp only [insertEntry, h, if_false, List.map_cons, ih, List.mem_cons, h', false_or]
      split <;> rfl

theorem nodup_insertEntry {α : Type} (key : String) (value : α) (es : List (String × α))
    (h : (es.map Prod.fst).Nodup) : ((insertEntry key value es).map Prod.fst).Nodup := by
  rw [keys_insertEntry]
  split
  · exact h
  · next hk =>
    refine List.nodup_append.2 ⟨h, List.nodup_cons.2 ⟨List.not_mem_nil, List.nodup_nil⟩, ?_⟩
    intro a ha b hb hab
    rw [List.mem_singleton] at hb
    exact hk (hb ▸ hab ▸ ha)

theorem lookup_insertEntry {α : Type} (key : String) (value : α) (es : List (String × α))
    (k : String) :
    (insertEntry key value es).lookup k = if k = key then some value else es.lookup k := by
  induction es with
  | nil =>
    by_cases h : k = key
    · simp [insertEntry, h]
    · simp [insertEntry, List.lookup_cons, beq_false_of_ne h, h]
  | cons e es ih =>
    obtain ⟨ek, ev⟩ := e
    by_cases h : ek = key
    · subst h
      by_cases hk : k = ek
      · simp [insertEntry, hk]
      · simp [insertEntry, List.lookup_cons, beq_false_of_ne hk, hk]
    · by_cases hk : k = ek
      · subst hk
        simp [insertEntry, h]
      · simp only [insertEntry, h, if_false, List.lookup_cons, beq_false_of_ne hk, ih]

theorem insertEntry_of_notMem {α : Type} {key : String} {es : List (String × α)}
    (h : key ∉ es.map Prod.fst) (value : α) :
    insertEntry key value es = es ++ [(key, value)] := by
  induction es with
  | nil => rfl
  | cons e es ih =>
    rw [List.map_cons, List.mem_cons, not_or] at h
    rw [insertEntry, if_neg (Ne.symm h.1), ih h.2, List.cons_append]

/-! ### Tables -/

structure Table (α : Type) where
  entries : List (String × α)
  nodup_keys : (entries.map Prod.fst).Nodup
deriving DecidableEq

namespace Table

variable {α β : Type}

instance [Repr α] : Repr (Table α) where
  reprPrec t n := reprPrec t.entries n

def empty : Table α :=
  ⟨[], List.nodup_nil⟩

def keys (t : Table α) : List String :=
  t.entries.map Prod.fst

def size (t : Table α) : Nat :=
  t.entries.length

def isEmpty (t : Table α) : Bool :=
  t.entries.isEmpty

def get? (t : Table α) (key : String) : Option α :=
  t.entries.lookup key

def contains (t : Table α) (key : String) : Bool :=
  (t.get? key).isSome

/-- Binds `key`; a key that is there keeps its place. -/
def insert (t : Table α) (key : String) (value : α) : Table α :=
  ⟨insertEntry key value t.entries, nodup_insertEntry key value t.entries t.nodup_keys⟩

theorem get?_empty (key : String) : (empty : Table α).get? key = none := rfl

theorem get?_insert (t : Table α) (key : String) (value : α) (k : String) :
    (t.insert key value).get? k = if k = key then some value else t.get? k :=
  lookup_insertEntry key value t.entries k

theorem keys_insert (t : Table α) (key : String) (value : α) :
    (t.insert key value).keys = if key ∈ t.keys then t.keys else t.keys ++ [key] :=
  keys_insertEntry key value t.entries

theorem contains_iff_mem_keys (t : Table α) (key : String) :
    t.contains key = true ↔ key ∈ t.keys := by
  rw [contains, get?, keys, Option.isSome_iff_ne_none, Ne, List.lookup_eq_none_iff, List.mem_map]
  simp only [bne_iff_ne, ne_eq, Classical.not_forall, Classical.not_not, exists_prop]
  exact exists_congr fun e => and_congr_right fun _ => eq_comm

/-- No two entries have one key, so the value of a key is that of its entry. -/
theorem get?_eq_some_iff (t : Table α) (key : String) (value : α) :
    t.get? key = some value ↔ (key, value) ∈ t.entries := by
  rw [get?, List.lookup_eq_some_iff]
  constructor
  · rintro ⟨before, after, hsplit, -⟩
    rw [hsplit]
    exact List.mem_append_right _ List.mem_cons_self
  · intro hmem
    obtain ⟨before, after, hsplit⟩ := List.append_of_mem hmem
    refine ⟨before, after, hsplit, fun e he => ?_⟩
    have hnodup := t.nodup_keys
    rw [hsplit, List.map_append, List.map_cons, List.nodup_append] at hnodup
    rw [bne_iff_ne]
    exact (hnodup.2.2 e.1 (List.mem_map_of_mem he) key List.mem_cons_self).symm

/-- A new key comes last. -/
theorem entries_insert_of_notMem {t : Table α} {key : String} (h : key ∉ t.keys) (value : α) :
    (t.insert key value).entries = t.entries ++ [(key, value)] :=
  insertEntry_of_notMem h value

/-- Inserts the pairs one after the other. -/
def ofList (pairs : List (String × α)) : Table α :=
  pairs.foldl (fun t p => t.insert p.1 p.2) empty

/-- New keys come last, in their order. -/
theorem entries_foldl_insert (t : Table α) (pairs : List (String × α))
    (h : (t.keys ++ pairs.map Prod.fst).Nodup) :
    (pairs.foldl (fun t p => t.insert p.1 p.2) t).entries = t.entries ++ pairs := by
  induction pairs generalizing t with
  | nil => exact (List.append_nil _).symm
  | cons p pairs ih =>
    have hnew : p.1 ∉ t.keys := fun hp =>
      (List.nodup_append.1 h).2.2 p.1 hp p.1 List.mem_cons_self rfl
    have hkeys : (t.insert p.1 p.2).keys = t.keys ++ [p.1] := by
      rw [keys_insert, if_neg hnew]
    rw [List.foldl_cons, ih, entries_insert_of_notMem hnew, List.append_assoc]
    · rfl
    · rwa [hkeys, List.append_assoc]

/-- A table can be made out of its entries. -/
theorem ofList_entries (t : Table α) : ofList t.entries = t := by
  have h : (ofList t.entries).entries = t.entries :=
    entries_foldl_insert empty t.entries t.nodup_keys
  cases t
  exact (Table.mk.injEq ..).mpr h

/-- The entries that `f` keeps, in the same order. -/
def filterMap (f : α → Option β) (t : Table α) : Table β :=
  ⟨t.entries.filterMap fun e => (f e.2).map fun b => (e.1, b), by
    refine List.Nodup.sublist ?_ t.nodup_keys
    induction t.entries with
    | nil => exact List.Sublist.slnil
    | cons e es ih =>
      cases h : f e.2 with
      | none => simpa [h] using ih.cons e.1
      | some b => simpa [h] using ih.cons_cons e.1⟩

end Table

end Phrasebook

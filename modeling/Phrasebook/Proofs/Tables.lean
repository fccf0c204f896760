import Mathlib.Data.List.Induction
import Mathlib.Data.List.Perm.Subperm
import Phrasebook.Table

/-!
# What is known of a table

A table is known by its keys, which do not repeat, and by its look-ups.  A table that is made of
pairs has their keys in the order of their first occurrence (`keys_ofList`), and keeps of each key
what came last (`LastOf`, `get?_ofList`).
-/

namespace Phrasebook

/-! ### Entries -/

section
variable {α β : Type} {key : String}

theorem forall_bne_iff_notMem {es : List (String × α)} :
    (∀ e ∈ es, (key != e.1) = true) ↔ key ∉ es.map Prod.fst := by
  simp only [bne_iff_ne, List.mem_map, not_exists, not_and, ne_comm (a := key)]

theorem lookup_eq_none_of_notMem {es : List (String × α)} (h : key ∉ es.map Prod.fst) :
    es.lookup key = none :=
  List.lookup_eq_none_iff.2 (forall_bne_iff_notMem.2 h)

theorem lookup_filterMap (f : α → Option β) {es : List (String × α)}
    (hnodup : (es.map Prod.fst).Nodup) :
    (es.filterMap fun e => (f e.2).map fun b => (e.1, b)).lookup key =
      (es.lookup key).bind f := by
  induction es with
  | nil => rfl
  | cons e es ih =>
    obtain ⟨k, a⟩ := e
    obtain ⟨hk, hes⟩ := List.nodup_cons.1 hnodup
    by_cases hkey : key = k
    · -- The entry is the only one of this key, so one that is left out leaves nothing behind.
      subst hkey
      have hnone : es.lookup key = none := lookup_eq_none_of_notMem hk
      cases hf : f a with
      | none => simp [hf, ih hes, hnone]
      | some b => simp [hf]
    · cases hf : f a with
      | none => simp [hf, ih hes, List.lookup_cons, beq_false_of_ne hkey]
      | some b => simp [hf, ih hes, List.lookup_cons, beq_false_of_ne hkey]

/-- The pair occurs, and no later one has its key. -/
def LastOf (pairs : List (String × α)) (key : String) (a : α) : Prop :=
  ∃ earlier later, pairs = earlier ++ (key, a) :: later ∧ key ∉ later.map Prod.fst

theorem lookup_reverse_eq_some_iff {pairs : List (String × α)} {a : α} :
    pairs.reverse.lookup key = some a ↔ LastOf pairs key a := by
  simp only [List.lookup_eq_some_iff, forall_bne_iff_notMem]
  constructor
  · rintro ⟨later, earlier, hpairs, hlater⟩
    refine ⟨earlier.reverse, later.reverse, ?_, ?_⟩
    · rw [← List.reverse_reverse pairs, hpairs, List.reverse_append, List.reverse_cons,
        List.append_assoc, List.singleton_append]
    · rwa [List.map_reverse, List.mem_reverse]
  · rintro ⟨earlier, later, rfl, hlater⟩
    refine ⟨later.reverse, earlier.reverse, ?_, ?_⟩
    · rw [List.reverse_append, List.reverse_cons, List.append_assoc, List.singleton_append]
    · rwa [List.map_reverse, List.mem_reverse]

end

namespace Table

section
variable {α β : Type} {t u : Table α} {key : String}

/-! ### Keys -/

theorem mem_keys_iff : key ∈ t.keys ↔ ∃ a, t.get? key = some a := by
  rw [← t.contains_iff_mem_keys, contains, Option.isSome_iff_exists]

theorem length_keys (t : Table α) : t.keys.length = t.size :=
  List.length_map _

/-- A table that is not bigger than another one, but has all of its keys, has no more of them. -/
theorem keys_perm_of_subset (hsize : t.size = u.size) (hsub : t.keys ⊆ u.keys) :
    t.keys.Perm u.keys := by
  refine (List.Nodup.subperm t.nodup_keys hsub).perm_of_length_le ?_
  show u.keys.length ≤ t.keys.length
  exact Nat.le_of_eq (by rw [length_keys, length_keys, hsize])

theorem size_eq_of_mem_keys_iff (h : ∀ key, key ∈ t.keys ↔ key ∈ u.keys) : t.size = u.size := by
  have hperm : t.keys.Perm u.keys := (List.perm_ext_iff_of_nodup t.nodup_keys u.nodup_keys).2 h
  rw [← length_keys, ← length_keys, hperm.length_eq]

/-- The order of the entries does not matter. -/
theorem get?_eq_of_perm (h : t.entries.Perm u.entries) (key : String) : t.get? key = u.get? key := by
  refine Option.ext fun a => ?_
  rw [get?_eq_some_iff, get?_eq_some_iff, h.mem_iff]

theorem isEmpty_iff (t : Table α) : t.isEmpty = true ↔ ∀ key, t.get? key = none := by
  obtain ⟨entries, hnodup⟩ := t
  cases entries with
  | nil => simp [isEmpty, get?]
  | cons e es =>
    refine iff_of_false (by simp [isEmpty]) fun h => ?_
    have hkey := h e.1
    simp [get?] at hkey

/-- Whether a table is empty is known from what it binds. -/
theorem isEmpty_congr {t : Table α} {u : Table β}
    (h : ∀ key, (t.get? key).isSome = (u.get? key).isSome) : t.isEmpty = u.isEmpty := by
  rw [Bool.eq_iff_iff, isEmpty_iff, isEmpty_iff]
  refine forall_congr' fun key => ?_
  rw [← Option.isNone_iff_eq_none, ← Option.isNone_iff_eq_none, ← Option.not_isSome,
    ← Option.not_isSome, h]

/-! ### Tables made of pairs -/

theorem ofList_concat (pairs : List (String × α)) (p : String × α) :
    ofList (pairs ++ [p]) = (ofList pairs).insert p.1 p.2 := by
  rw [ofList, List.foldl_append]
  rfl

theorem keys_ofList (pairs : List (String × α)) :
    (ofList pairs).keys = (pairs.map Prod.fst).eraseDups := by
  induction pairs using List.reverseRecOn with
  | nil => rfl
  | append_singleton pairs p ih =>
    rw [ofList_concat, keys_insert, ih, List.map_append, List.eraseDups_append]
    by_cases hp : p.1 ∈ pairs.map Prod.fst
    · simp [List.removeAll, hp]
    · simp [List.removeAll, List.eraseDups_cons, hp]

theorem get?_ofList (pairs : List (String × α)) (key : String) :
    (ofList pairs).get? key = pairs.reverse.lookup key := by
  induction pairs using List.reverseRecOn with
  | nil => rfl
  | append_singleton pairs p ih =>
    obtain ⟨k, a⟩ := p
    rw [ofList_concat, get?_insert, ih, List.reverse_append, List.reverse_singleton,
      List.singleton_append, List.lookup_cons]
    by_cases hkey : key = k
    · simp [hkey]
    · simp [hkey, beq_false_of_ne hkey]

theorem mem_entries_ofList_iff {pairs : List (String × α)} {a : α} :
    (key, a) ∈ (ofList pairs).entries ↔ LastOf pairs key a := by
  rw [← get?_eq_some_iff, get?_ofList, lookup_reverse_eq_some_iff]

/-! ### Tables made of a part of the entries -/

section
variable {f : α → Option β} {g : β → α}

theorem get?_filterMap (f : α → Option β) (t : Table α) (key : String) :
    (t.filterMap f).get? key = (t.get? key).bind f :=
  lookup_filterMap f t.nodup_keys

theorem get?_filterMap_eq_some (h : ∀ {a b}, f a = some b ↔ a = g b) {b : β} :
    (t.filterMap f).get? key = some b ↔ t.get? key = some (g b) := by
  simp only [get?_filterMap, Option.bind_eq_some_iff, h, exists_eq_right]

/-- What is kept stays in its order. -/
theorem map_entries_filterMap (h : ∀ {a b}, f a = some b ↔ a = g b) (t : Table α) :
    (t.filterMap f).entries.map (fun e => (e.1, g e.2)) =
      t.entries.filter fun e => (f e.2).isSome := by
  show (t.entries.filterMap fun e => (f e.2).map fun b => (e.1, b)).map _ = _
  rw [List.map_filterMap, ← List.filterMap_eq_filter]
  refine List.filterMap_congr fun e _ => ?_
  cases hf : f e.2 with
  | none => simp [hf, Option.guard]
  | some b => simp [hf, Option.guard, ← h.1 hf]

end

end

end Table

end Phrasebook

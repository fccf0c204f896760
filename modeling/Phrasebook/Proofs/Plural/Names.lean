import Mathlib.Data.List.Basic
import Phrasebook.Plural.Parser

/-!
# Names and their slots

A name gets its slot where it first occurs.  The parser adds names to a list as it meets them
(`addNames`), and for a whole program that list is the first occurrences, after the reserved names
(`slotNames`, `slotNames_eq`).
-/

namespace Phrasebook.Plural

/-! ### Lexemes of tokens -/

def lexemes (ts : List Token) : List Lexeme :=
  ts.map Token.lexeme

theorem lexemes_append (ts us : List Token) : lexemes (ts ++ us) = lexemes ts ++ lexemes us :=
  List.map_append

theorem lexemes_cons (t : Token) (ts : List Token) : lexemes (t :: ts) = t.lexeme :: lexemes ts :=
  rfl

/-! ### Names and their slots -/

/-- The name that a lexeme is. -/
def Lexeme.name? : Lexeme → Option String
  | name text => some text
  | _ => none

/-- The names among the lexemes, with repetitions and in order. -/
def namesOf (ls : List Lexeme) : List String :=
  ls.filterMap Lexeme.name?

/-- The names of the slots: the reserved ones, and then every other name at its first
occurrence. -/
def slotNames (ls : List Lexeme) : List String :=
  (reservedNames ++ namesOf ls).eraseDups

theorem namesOf_append (ls ms : List Lexeme) : namesOf (ls ++ ms) = namesOf ls ++ namesOf ms :=
  List.filterMap_append

theorem namesOf_cons_of_none {l : Lexeme} (h : l.name? = none) (ls : List Lexeme) :
    namesOf (l :: ls) = namesOf ls :=
  List.filterMap_cons_none h

theorem namesOf_cons_name (x : String) (ls : List Lexeme) :
    namesOf (.name x :: ls) = x :: namesOf ls :=
  rfl

/-! ### Names grow at their end -/

/-- `names` with `x` at the end, unless it is there already. -/
def addName (names : List String) (x : String) : List String :=
  if x ∈ names then names else names ++ [x]

def addNames (names xs : List String) : List String :=
  xs.foldl addName names

theorem addNames_append (names xs ys : List String) :
    addNames names (xs ++ ys) = addNames (addNames names xs) ys :=
  List.foldl_append

theorem addNames_cons (names : List String) (x : String) (xs : List String) :
    addNames names (x :: xs) = addNames (addName names x) xs :=
  rfl

theorem prefix_addName (names : List String) (x : String) : names <+: addName names x := by
  unfold addName
  split
  · exact List.prefix_refl names
  · exact List.prefix_append names [x]

theorem prefix_addNames (names xs : List String) : names <+: addNames names xs := by
  induction xs generalizing names with
  | nil => exact List.prefix_refl names
  | cons x xs ih => exact (prefix_addName names x).trans (ih (addName names x))

theorem mem_addName (names : List String) (x : String) : x ∈ addName names x := by
  unfold addName
  split
  · assumption
  · exact List.mem_append_right names List.mem_cons_self

theorem ParseState.slot_eq (s : ParseState) (x : String) :
    s.slot x = ((addName s.names x).idxOf x, { s with names := addName s.names x }) := by
  unfold ParseState.slot addName
  split
  · rfl
  · next h => rw [List.idxOf_append, if_neg h, List.idxOf_cons_self, Nat.zero_add]

theorem nodup_addName {names : List String} (h : names.Nodup) (x : String) :
    (addName names x).Nodup := by
  unfold addName
  split
  · exact h
  · next hx =>
    refine List.nodup_append.2 ⟨h, List.nodup_cons.2 ⟨List.not_mem_nil, List.nodup_nil⟩, ?_⟩
    intro y hy z hz hyz
    rw [List.mem_singleton] at hz
    exact hx (hz ▸ hyz ▸ hy)

theorem nodup_addNames {names : List String} (h : names.Nodup) (xs : List String) :
    (addNames names xs).Nodup := by
  induction xs generalizing names with
  | nil => exact h
  | cons x xs ih => exact ih (nodup_addName h x)

theorem mem_addNames {names xs : List String} {x : String} :
    x ∈ addNames names xs ↔ x ∈ names ∨ x ∈ xs := by
  induction xs generalizing names with
  | nil => simp [addNames]
  | cons y xs ih =>
    rw [addNames_cons, ih, List.mem_cons]
    unfold addName
    split
    · next hy =>
      constructor
      · exact Or.imp_right Or.inr
      · rintro (h | rfl | h)
        · exact .inl h
        · exact .inl hy
        · exact .inr h
    · rw [List.mem_append, List.mem_singleton, or_assoc]

/-! ### First occurrences -/

theorem addName_eraseDups (names : List String) (x : String) :
    addName names.eraseDups x = (names ++ [x]).eraseDups := by
  rw [List.eraseDups_append]
  by_cases h : x ∈ names
  · simp [addName, List.removeAll, h]
  · simp [addName, List.removeAll, List.eraseDups_cons, h]

theorem addNames_eraseDups (names xs : List String) :
    addNames names.eraseDups xs = (names ++ xs).eraseDups := by
  induction xs generalizing names with
  | nil => rw [List.append_nil, addNames, List.foldl_nil]
  | cons x xs ih =>
    rw [addNames_cons, addName_eraseDups, ih, List.append_assoc, List.singleton_append]

/-- The names that the parser ends with are the first occurrences. -/
theorem slotNames_eq (ls : List Lexeme) : slotNames ls = addNames reservedNames (namesOf ls) :=
  (addNames_eraseDups reservedNames (namesOf ls)).symm

end Phrasebook.Plural

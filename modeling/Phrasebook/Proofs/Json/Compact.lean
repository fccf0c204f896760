import Phrasebook.Json.Draft

/-!
# Compact texts are read back

The compact text of a value is cut into the tokens of the value, whatever text comes next
(`scan_chars`), and these tokens are read as one complete draft, wherever a value is awaited
(`readTokens_tokens`).  A reader of any value gets the value back from its draft (`read_draft`),
unless it is nested too deeply and therefore malformed (`read_draft_of_lt`).

Numbers are left out of the first of the three steps: a value is textual if none occurs in it.
-/

namespace Phrasebook.Json

/-! ### Strings -/

theorem hexValue?_hexDigit : ∀ n < 16, hexValue? (hexDigit n) = some n := by
  decide

theorem unitOfHex?_hexDigit {n : Nat} (h : n < 256) :
    unitOfHex? '0' '0' (hexDigit (n / 16)) (hexDigit (n % 16)) = some n := by
  have hzero : hexValue? '0' = some 0 := by decide
  have hhigh : hexValue? (hexDigit (n / 16)) = some (n / 16) := hexValue?_hexDigit _ (by omega)
  have hlow : hexValue? (hexDigit (n % 16)) = some (n % 16) := hexValue?_hexDigit _ (by omega)
  have hsum : 16 * (n / 16) + n % 16 = n := Nat.div_add_mod n 16
  simp [unitOfHex?, hzero, hhigh, hlow, hsum]

/-- The characters below U+0020 whose escape is a letter. -/
def lettered : List Char :=
  ['\x08', '\x0c', '\n', '\r', '\t']

/-- The part that is found where a character is written. -/
def writtenPart (c : Char) : StringPart :=
  if c.toNat < 32 ∧ c ∉ lettered then .unit c.toNat else .char c

/-- A character that may stand in a string as it is. -/
theorem scanString_cons {c : Char} (hquote : c ≠ '"') (hslash : c ≠ '\\')
    (hcontrol : ¬ c.toNat < 32) (rest : List Char) :
    scanString (c :: rest) = (scanString rest).cons (.char c) := by
  rw [scanString, if_neg hcontrol] <;> simp_all

theorem scanString_escapedChars (c : Char) (rest : List Char) :
    scanString (escapedChars c rest) = (scanString rest).cons (writtenPart c) := by
  by_cases hquote : c = '"'
  · subst hquote
    rfl
  by_cases hslash : c = '\\'
  · subst hslash
    rfl
  by_cases hcontrol : c.toNat < 32
  · by_cases hletter : c ∈ lettered
    · simp only [lettered, List.mem_cons, List.not_mem_nil, or_false] at hletter
      rcases hletter with rfl | rfl | rfl | rfl | rfl <;> rfl
    · -- no letter is left for it, so it is named by its number
      have hpart : writtenPart c = .unit c.toNat := if_pos ⟨hcontrol, hletter⟩
      simp only [lettered, List.mem_cons, List.not_mem_nil, or_false, not_or] at hletter
      simp only [escapedChars, hquote, hslash, hcontrol, hletter, if_true, if_false]
      rw [scanString, unitOfHex?_hexDigit (by omega), hpart]
  · have hpart : writtenPart c = .char c := if_neg fun h => hcontrol h.1
    simp only [escapedChars, hquote, hslash, hcontrol, if_false]
    rw [scanString_cons hquote hslash hcontrol, hpart]

/-- The parts of a written string, up to its closing quote. -/
theorem scanString_foldr (cs rest : List Char) :
    scanString (cs.foldr escapedChars ('"' :: rest)) = ⟨cs.map writtenPart, none, rest⟩ := by
  induction cs with
  | nil => rfl
  | cons c cs ih =>
    rw [List.foldr_cons, scanString_escapedChars, ih]
    rfl

/-- A unit that is no surrogate needs no partner. -/
theorem joinUnits_unit {n : Nat} (h : n < 0xD800) (parts : List StringPart) :
    joinUnits none (.unit n :: parts) =
      (joinUnits none parts).map (Char.ofNat n :: ·) := by
  have hhigh : isHighSurrogate n = false := by simp [isHighSurrogate]; omega
  have hlow : isLowSurrogate n = false := by simp [isLowSurrogate]; omega
  match parts with
  | [] => simp [joinUnits, hhigh, hlow, Except.map]
  | .char c :: parts =>
    simp only [joinUnits, hhigh, hlow]
    cases joinUnits none parts <;> rfl
  | .unit m :: parts =>
    rw [joinUnits]
    simp only [hhigh, hlow]
    cases joinUnits none (.unit m :: parts) <;> rfl

theorem joinUnits_writtenPart (cs : List Char) :
    joinUnits none (cs.map writtenPart) = .ok cs := by
  induction cs with
  | nil => rfl
  | cons c cs ih =>
    rw [List.map_cons, writtenPart]
    split
    next h =>
      rw [joinUnits_unit (by omega), ih, Char.ofNat_toNat]
      rfl
    next =>
      rw [joinUnits, ih]
      rfl

theorem stringToken_foldr (s : String) (rest : List Char) :
    stringToken (s.toList.foldr escapedChars ('"' :: rest)) = (.string (.ok s), rest) := by
  simp only [stringToken, scanString_foldr, joinUnits_writtenPart, Except.map, String.ofList_toList]

/-! ### Tokens -/

/-- Outside blanks a token begins. -/
theorem scan_cons {c : Char} (h : isSpace c = false) (rest : List Char) :
    scan (c :: rest) = (tokenAt c rest).1 :: scan (tokenAt c rest).2 := by
  rw [scan, h]
  rfl

theorem scan_stringChars (s : String) (rest : List Char) :
    scan (stringChars s rest) = .string (.ok s) :: scan rest := by
  rw [stringChars, scan_cons rfl]
  show (stringToken _).1 :: scan (stringToken _).2 = _
  rw [stringToken_foldr]

theorem scan_keyChars (k : String) (rest : List Char) :
    scan (stringChars k (':' :: rest)) = .string (.ok k) :: .colon :: scan rest := by
  rw [scan_stringChars, scan_cons rfl]
  rfl

namespace Value

mutual

/-- The tokens of the compact text of a value. -/
def tokens : Value → List Token
  | null => [.null]
  | bool b => [.bool b]
  | number n => [.number (.ok n)]
  | string s => [.string (.ok s)]
  | array [] => [.openArray, .closeArray]
  | array (v :: vs) => .openArray :: (v.tokens ++ itemTokens vs)
  | object [] => [.openObject, .closeObject]
  | object ((k, v) :: ms) =>
      .openObject :: .string (.ok k) :: .colon :: (v.tokens ++ memberTokens ms)

def itemTokens : List Value → List Token
  | [] => [.closeArray]
  | v :: vs => .comma :: (v.tokens ++ itemTokens vs)

def memberTokens : List (String × Value) → List Token
  | [] => [.closeObject]
  | (k, v) :: ms => .comma :: .string (.ok k) :: .colon :: (v.tokens ++ memberTokens ms)

end

/-- No number occurs in the value. -/
inductive Textual : Value → Prop
  | null : Textual .null
  | bool (b : Bool) : Textual (.bool b)
  | string (s : String) : Textual (.string s)
  | array {items : List Value} : (∀ v ∈ items, Textual v) → Textual (.array items)
  | object {members : List (String × Value)} :
      (∀ m ∈ members, Textual m.2) → Textual (.object members)

mutual

theorem scan_chars {v : Value} (h : v.Textual) (rest : List Char) :
    scan (v.chars rest) = v.tokens ++ scan rest := by
  match v, h with
  | .null, _ => rw [chars, scan_cons rfl]; rfl
  | .bool true, _ => rw [chars, scan_cons rfl]; rfl
  | .bool false, _ => rw [chars, scan_cons rfl]; rfl
  | .string s, _ => rw [chars, scan_stringChars]; rfl
  | .array [], _ =>
    rw [chars, scan_cons rfl]
    show _ :: scan (']' :: rest) = _
    rw [scan_cons rfl]
    rfl
  | .array (v :: vs), .array h =>
    obtain ⟨hv, hvs⟩ := List.forall_mem_cons.1 h
    rw [chars, scan_cons rfl]
    show _ :: scan (v.chars (itemChars vs rest)) = _
    rw [scan_chars hv, scan_itemChars hvs, tokens, ← List.append_assoc]
    rfl
  | .object [], _ =>
    rw [chars, scan_cons rfl]
    show _ :: scan ('\x7d' :: rest) = _
    rw [scan_cons rfl]
    rfl
  | .object ((k, v) :: ms), .object h =>
    obtain ⟨hv, hms⟩ := List.forall_mem_cons.1 h
    rw [chars, scan_cons rfl]
    show _ :: scan (stringChars k (':' :: v.chars (memberChars ms rest))) = _
    rw [scan_keyChars, scan_chars hv, scan_memberChars hms, tokens, ← List.append_assoc]
    rfl

theorem scan_itemChars {vs : List Value} (h : ∀ v ∈ vs, v.Textual) (rest : List Char) :
    scan (itemChars vs rest) = itemTokens vs ++ scan rest := by
  match vs with
  | [] => rw [itemChars, scan_cons rfl]; rfl
  | v :: vs =>
    obtain ⟨hv, hvs⟩ := List.forall_mem_cons.1 h
    rw [itemChars, scan_cons rfl]
    show _ :: scan (v.chars (itemChars vs rest)) = _
    rw [scan_chars hv, scan_itemChars hvs, itemTokens, ← List.append_assoc]
    rfl

theorem scan_memberChars {ms : List (String × Value)} (h : ∀ m ∈ ms, m.2.Textual)
    (rest : List Char) : scan (memberChars ms rest) = memberTokens ms ++ scan rest := by
  match ms with
  | [] => rw [memberChars, scan_cons rfl]; rfl
  | (k, v) :: ms =>
    obtain ⟨hv, hms⟩ := List.forall_mem_cons.1 h
    rw [memberChars, scan_cons rfl]
    show _ :: scan (stringChars k (':' :: v.chars (memberChars ms rest))) = _
    rw [scan_keyChars, scan_chars hv, scan_memberChars hms, memberTokens, ← List.append_assoc]
    rfl

end

end Value

/-! ### Drafts -/

/-- What comes of the tokens `ts` after this progress. -/
def Progress.proceed : Progress → List Token → Reading
  | .more focus stack, ts => readTokens focus stack ts
  | .complete root, ts => ⟨root, !ts.isEmpty⟩
  | .cut root, _ => ⟨root, false⟩

theorem readTokens_cons (focus : Focus) (stack : List Frame) (t : Token) (ts : List Token) :
    readTokens focus stack (t :: ts) = (advance stack focus t).proceed ts := by
  rw [readTokens]
  cases advance stack focus t <;> rfl

namespace Value

mutual

/-- The draft of a value that was written completely. -/
def draft : Value → Draft
  | null => .null
  | bool b => .bool b
  | number n => .number (.ok n)
  | string s => .string (.ok s)
  | array items => .array (itemDrafts items) none
  | object members => .object (memberDrafts members) none

def itemDrafts : List Value → List Draft
  | [] => []
  | v :: vs => v.draft :: itemDrafts vs

def memberDrafts : List (String × Value) → List (Key × Draft)
  | [] => []
  | (k, v) :: ms => (.text (.ok k), v.draft) :: memberDrafts ms

end

/-- The first token of a value does not close an array. -/
theorem readTokens_firstItem (v : Value) (stack : List Frame) (ts : List Token) :
    readTokens .firstItem stack (v.tokens ++ ts) =
      readTokens .value (.item [] :: stack) (v.tokens ++ ts) := by
  match v with
  | .null | .bool _ | .number _ | .string _ => rfl
  | .array [] | .array (_ :: _) | .object [] | .object (_ :: _) => rfl

/-- A key awaits its value. -/
theorem readTokens_key (k : String) (before : List (Key × Draft)) (first : Bool)
    (stack : List Frame) (ts : List Token) :
    readTokens (.key before first) stack (.string (.ok k) :: .colon :: ts) =
      readTokens .value (.member before (.text (.ok k)) :: stack) ts := by
  cases first <;> rfl

/-! The writer treats the first item and the first member apart, and so does each of the next three
proofs; `before` is what the frame of the array or object holds by then. -/

mutual

/-- The tokens of a value put its draft where a value is awaited. -/
theorem readTokens_tokens (v : Value) (stack : List Frame) (ts : List Token) :
    readTokens .value stack (v.tokens ++ ts) = (settle v.draft stack).proceed ts := by
  match v with
  | .null => rw [tokens, List.singleton_append, readTokens_cons]; rfl
  | .bool b => rw [tokens, List.singleton_append, readTokens_cons]; rfl
  | .number n => rw [tokens, List.singleton_append, readTokens_cons]; rfl
  | .string s => rw [tokens, List.singleton_append, readTokens_cons]; rfl
  | .array [] =>
    show readTokens .value stack (.openArray :: .closeArray :: ts) = _
    rw [readTokens_cons]
    show readTokens .firstItem stack (.closeArray :: ts) = _
    rw [readTokens_cons]
    rfl
  | .array (v :: vs) =>
    rw [tokens, List.cons_append, readTokens_cons, List.append_assoc]
    show readTokens .firstItem stack (v.tokens ++ (itemTokens vs ++ ts)) = _
    rw [readTokens_firstItem, readTokens_tokens v]
    exact readTokens_itemTokens vs [v.draft] stack ts
  | .object [] =>
    show readTokens .value stack (.openObject :: .closeObject :: ts) = _
    rw [readTokens_cons]
    show readTokens (.key [] true) stack (.closeObject :: ts) = _
    rw [readTokens_cons]
    rfl
  | .object ((k, v) :: ms) =>
    rw [tokens, List.cons_append, readTokens_cons]
    show readTokens (.key [] true) stack
      (.string (.ok k) :: .colon :: (v.tokens ++ memberTokens ms ++ ts)) = _
    rw [readTokens_key, List.append_assoc, readTokens_tokens v]
    exact readTokens_memberTokens ms [(.text (.ok k), v.draft)] stack ts

theorem readTokens_itemTokens (vs : List Value) (before : List Draft) (stack : List Frame)
    (ts : List Token) :
    readTokens (.afterItem before) stack (itemTokens vs ++ ts) =
      (settle (.array (before.reverse ++ itemDrafts vs) none) stack).proceed ts := by
  match vs with
  | [] =>
    rw [itemTokens, List.singleton_append, readTokens_cons, itemDrafts, List.append_nil]
    rfl
  | v :: vs =>
    rw [itemTokens, List.cons_append, readTokens_cons, List.append_assoc]
    show readTokens .value (.item before :: stack) (v.tokens ++ (itemTokens vs ++ ts)) = _
    rw [readTokens_tokens v]
    show readTokens (.afterItem (v.draft :: before)) stack (itemTokens vs ++ ts) = _
    rw [readTokens_itemTokens vs, List.reverse_cons, List.append_assoc, itemDrafts]
    rfl

theorem readTokens_memberTokens (ms : List (String × Value)) (before : List (Key × Draft))
    (stack : List Frame) (ts : List Token) :
    readTokens (.afterMember before) stack (memberTokens ms ++ ts) =
      (settle (.object (before.reverse ++ memberDrafts ms) none) stack).proceed ts := by
  match ms with
  | [] =>
    rw [memberTokens, List.singleton_append, readTokens_cons, memberDrafts, List.append_nil]
    rfl
  | (k, v) :: ms =>
    rw [memberTokens, List.cons_append, readTokens_cons]
    show readTokens (.key before false) stack
      (.string (.ok k) :: .colon :: (v.tokens ++ memberTokens ms ++ ts)) = _
    rw [readTokens_key, List.append_assoc, readTokens_tokens v]
    show readTokens (.afterMember ((.text (.ok k), v.draft) :: before)) stack
      (memberTokens ms ++ ts) = _
    rw [readTokens_memberTokens ms, List.reverse_cons, List.append_assoc, memberDrafts]
    rfl

end

/-- The compact text of a textual value is its draft and nothing else. -/
theorem reading_text {v : Value} (h : v.Textual) : Reading.ofText v.text = ⟨v.draft, false⟩ := by
  have hscan : scan (v.chars []) = v.tokens ++ [] := by
    rw [scan_chars h, scan]
  rw [Reading.ofText, text, String.toList_ofList, hscan, readTokens_tokens]
  rfl

theorem readText_text {α : Type} {v : Value} (h : v.Textual) (read : Draft → Except Fault α) :
    readText read v.text = read v.draft := by
  rw [readText, reading_text h]
  cases read v.draft <;> rfl

/-! ### Values -/

mutual

/-- How deep arrays and objects are nested. -/
def depth : Value → Nat
  | array items => itemsDepth items + 1
  | object members => membersDepth members + 1
  | _ => 0

def itemsDepth : List Value → Nat
  | [] => 0
  | v :: vs => max v.depth (itemsDepth vs)

def membersDepth : List (String × Value) → Nat
  | [] => 0
  | (_, v) :: ms => max v.depth (membersDepth ms)

end

theorem itemsDepth_le_iff {vs : List Value} {n : Nat} :
    itemsDepth vs ≤ n ↔ ∀ v ∈ vs, v.depth ≤ n := by
  induction vs with
  | nil => simp [itemsDepth]
  | cons v vs ih => rw [itemsDepth, Nat.max_le, ih, List.forall_mem_cons]

theorem membersDepth_le_iff {ms : List (String × Value)} {n : Nat} :
    membersDepth ms ≤ n ↔ ∀ m ∈ ms, m.2.depth ≤ n := by
  induction ms with
  | nil => simp [membersDepth]
  | cons m ms ih => rw [membersDepth, Nat.max_le, ih, List.forall_mem_cons]

mutual

theorem read_draft (v : Value) {limit : Nat} (h : v.depth ≤ limit) :
    v.draft.read limit = .ok v := by
  match v, limit with
  | .null, _ | .bool _, _ | .number _, _ | .string _, _ => rfl
  | .array vs, limit + 1 =>
    rw [depth] at h
    rw [draft, Draft.read, readItems_itemDrafts vs (by omega)]
    rfl
  | .object ms, limit + 1 =>
    rw [depth] at h
    rw [draft, Draft.read, readMembers_memberDrafts ms (by omega)]
    rfl

theorem readItems_itemDrafts (vs : List Value) {limit : Nat} (h : itemsDepth vs ≤ limit) :
    Draft.readItems limit (itemDrafts vs) = .ok vs := by
  match vs with
  | [] => rfl
  | v :: vs =>
    rw [itemsDepth] at h
    rw [itemDrafts, Draft.readItems, read_draft v (by omega), readItems_itemDrafts vs (by omega)]
    rfl

theorem readMembers_memberDrafts (ms : List (String × Value)) {limit : Nat}
    (h : membersDepth ms ≤ limit) :
    Draft.readMembers limit (memberDrafts ms) = .ok ms := by
  match ms with
  | [] => rfl
  | (k, v) :: ms =>
    rw [membersDepth] at h
    rw [memberDrafts, Draft.readMembers, read_draft v (by omega),
      readMembers_memberDrafts ms (by omega)]
    rfl

end

/-! Every part in front of the one that is too deep is read, and the depth is the only fault. -/

mutual

theorem read_draft_of_lt (v : Value) {limit : Nat} (h : limit < v.depth) :
    v.draft.read limit = .error .malformed := by
  match v, limit with
  | .null, _ | .bool _, _ | .number _, _ | .string _, _ => exact absurd h (Nat.not_lt_zero _)
  | .array _, 0 | .object _, 0 => rfl
  | .array vs, limit + 1 =>
    rw [depth] at h
    rw [draft, Draft.read, readItems_itemDrafts_of_lt vs (by omega)]
    rfl
  | .object ms, limit + 1 =>
    rw [depth] at h
    rw [draft, Draft.read, readMembers_memberDrafts_of_lt ms (by omega)]
    rfl

theorem readItems_itemDrafts_of_lt (vs : List Value) {limit : Nat} (h : limit < itemsDepth vs) :
    Draft.readItems limit (itemDrafts vs) = .error .malformed := by
  match vs with
  | [] => exact absurd h (Nat.not_lt_zero _)
  | v :: vs =>
    rw [itemsDepth] at h
    rw [itemDrafts, Draft.readItems]
    by_cases hv : v.depth ≤ limit
    · rw [read_draft v hv, readItems_itemDrafts_of_lt vs (by omega)]
      rfl
    · rw [read_draft_of_lt v (by omega)]
      rfl

theorem readMembers_memberDrafts_of_lt (ms : List (String × Value)) {limit : Nat}
    (h : limit < membersDepth ms) :
    Draft.readMembers limit (memberDrafts ms) = .error .malformed := by
  match ms with
  | [] => exact absurd h (Nat.not_lt_zero _)
  | (k, v) :: ms =>
    rw [membersDepth] at h
    rw [memberDrafts, Draft.readMembers]
    by_cases hv : v.depth ≤ limit
    · rw [read_draft v hv, readMembers_memberDrafts_of_lt ms (by omega)]
      rfl
    · rw [read_draft_of_lt v (by omega)]
      rfl

end

/-- Compact texts are read back as values. -/
theorem ofText_text {v : Value} (h : v.Textual) (hdepth : v.depth ≤ maxDepth) :
    ofText v.text = .ok v := by
  rw [ofText, readText_text h, read_draft v hdepth]

/-! ### Arrays and objects -/

theorem asArray_draft (vs : List Value) (limit : Nat) :
    (array vs).draft.asArray (limit + 1) = .ok (itemDrafts vs, none) := by
  rw [draft, Draft.asArray, if_neg (Nat.succ_ne_zero limit)]

theorem asObject_draft (ms : List (String × Value)) (limit : Nat) :
    (object ms).draft.asObject (limit + 1) = .ok (memberDrafts ms, none) := by
  rw [draft, Draft.asObject, if_neg (Nat.succ_ne_zero limit)]

section
variable {σ : Type} (add : σ → String → Draft → Except Fault σ) (state : σ)
  (ms : List (String × Value))

theorem foldlM_memberDrafts :
    (memberDrafts ms).foldlM (fun state (m : Key × Draft) => do add state (← m.1.read) m.2) state =
      ms.foldlM (fun state m => add state m.1 m.2.draft) state := by
  induction ms generalizing state with
  | nil => rfl
  | cons m ms ih =>
    rw [memberDrafts, List.foldlM_cons, List.foldlM_cons]
    exact bind_congr ih

/-- A reader of objects meets the members one after the other. -/
theorem foldMembers_draft (limit : Nat) :
    (do
      let (members, cut) ← (object ms).draft.asObject (limit + 1)
      foldMembers add state members cut) =
        ms.foldlM (fun state m => add state m.1 m.2.draft) state := by
  rw [asObject_draft]
  show foldMembers add state (memberDrafts ms) none = _
  rw [foldMembers, foldlM_memberDrafts]
  exact bind_pure _

end

end Value

end Phrasebook.Json

import Phrasebook.Json.Token

/-!
# Drafts of JSON values

A draft is what can be made out of a text, up to the place where the text breaks off.  That place
is always on the right edge of the tree, so whoever visits a draft in order meets the first fault
first, and an array or object knows whether it is cut anywhere inside.

`Draft.ofTokens` reads the tokens once and keeps the open arrays and objects on a stack, so nesting
is not limited here.
-/

namespace Phrasebook.Json

/-- The key of a member, or the cut where a key is missing. -/
inductive Key where
  | text (s : Except Fault String)
  | missing (cut : Cut)

inductive Draft where
  | null
  | bool (b : Bool)
  | number (n : Except Fault Number)
  | string (s : Except Fault String)
  | array (items : List Draft) (cut : Option Cut)
  | object (members : List (Key × Draft)) (cut : Option Cut)
  | broken (cut : Cut)

/-- A text read as one value; `trailing` says that more follows the value. -/
structure Reading where
  root : Draft
  trailing : Bool

/-! ### Reading tokens -/

/-- An open array or object that waits for a value.  What it holds so far is in reverse order. -/
inductive Frame where
  | item (before : List Draft)
  | member (before : List (Key × Draft)) (key : Key)

/-- What is expected inside the innermost open array or object. -/
inductive Focus where
  | value
  | firstItem
  | afterItem (before : List Draft)
  | key (before : List (Key × Draft)) (first : Bool)
  | colon (before : List (Key × Draft)) (key : Key)
  | afterMember (before : List (Key × Draft))

/-- Either more tokens are needed, or the value is complete, or it is cut. -/
inductive Progress where
  | more (focus : Focus) (stack : List Frame)
  | complete (root : Draft)
  | cut (root : Draft)

/-- Puts a complete value where one is awaited. -/
def settle (d : Draft) : List Frame → Progress
  | [] => .complete d
  | .item before :: stack => .more (.afterItem (d :: before)) stack
  | .member before key :: stack => .more (.afterMember ((key, d) :: before)) stack

/-- Puts a value that is cut where one is awaited, and cuts everything around it. -/
def cutAround (cut : Cut) (d : Draft) : List Frame → Draft
  | [] => d
  | .item before :: stack => cutAround cut (.array (d :: before).reverse (some cut)) stack
  | .member before key :: stack =>
      cutAround cut (.object ((key, d) :: before).reverse (some cut)) stack

/-- Cuts the value at the place where `focus` stands. -/
def abandon (cut : Cut) (stack : List Frame) : Focus → Draft
  | .value => cutAround cut (.broken cut) stack
  | .firstItem => cutAround cut (.array [] (some cut)) stack
  | .afterItem before => cutAround cut (.array before.reverse (some cut)) stack
  | .key before _ =>
      cutAround cut (.object ((.missing cut, .broken cut) :: before).reverse (some cut)) stack
  | .colon before key =>
      cutAround cut (.object ((key, .broken cut) :: before).reverse (some cut)) stack
  | .afterMember before => cutAround cut (.object before.reverse (some cut)) stack

/-- The cut at a token that stands where a key must: a key is a string. -/
def Token.keyCut : Token → Cut
  | .brokenString cut => cut
  | _ => .atStray

def readValue (stack : List Frame) : Token → Progress
  | .null => settle .null stack
  | .bool b => settle (.bool b) stack
  | .number n => settle (.number n) stack
  | .string s => settle (.string s) stack
  | .openArray => .more .firstItem stack
  | .openObject => .more (.key [] true) stack
  | .brokenString cut | .broken cut => .cut (abandon cut stack .value)
  | _ => .cut (abandon .atStray stack .value)

/-- One token. -/
def advance (stack : List Frame) : Focus → Token → Progress
  | .value, t => readValue stack t
  | .firstItem, .closeArray => settle (.array [] none) stack
  | .firstItem, t => readValue (.item [] :: stack) t
  | .afterItem before, .comma => .more .value (.item before :: stack)
  | .afterItem before, .closeArray => settle (.array before.reverse none) stack
  | .key before true, .closeObject => settle (.object before.reverse none) stack
  | .key before _, .string s => .more (.colon before (.text s)) stack
  | .key before first, t => .cut (abandon t.keyCut stack (.key before first))
  | .colon before key, .colon => .more .value (.member before key :: stack)
  | .afterMember before, .comma => .more (.key before false) stack
  | .afterMember before, .closeObject => settle (.object before.reverse none) stack
  | focus, _ => .cut (abandon .atStray stack focus)

def readTokens (focus : Focus) (stack : List Frame) : List Token → Reading
  | [] => ⟨abandon .atEnd stack focus, false⟩
  | t :: ts =>
      match advance stack focus t with
      | .more focus stack => readTokens focus stack ts
      | .complete root => ⟨root, !ts.isEmpty⟩
      | .cut root => ⟨root, false⟩

def Reading.ofText (text : String) : Reading :=
  readTokens .value [] (scan text.toList)

/-! ### Visiting drafts -/

def Key.read : Key → Except Fault String
  | .text s => s
  | .missing cut => .error cut.value

/-- The fault of `cut`, if there is one. -/
def checkCut : Option Cut → Except Fault Unit
  | none => .ok ()
  | some cut => .error cut.value

namespace Draft

/-- The fault that a reader finds who wants a value of another kind. -/
def otherKind : Draft → Fault
  | number (.error f) => f
  | string (.error f) => f
  | broken cut => cut.value
  | _ => .mismatch

/-- Reads a string. -/
def readString : Draft → Except Fault String
  | string s => s
  | d => .error d.otherKind

/-- Reads `null` or a string. -/
def readStringOrNull : Draft → Except Fault (Option String)
  | null => .ok none
  | d => d.readString.map some

/-- Passes over a value.  Only its grammar matters, not its depth nor what its numbers and
escapes stand for. -/
def skip : Draft → Except Fault Unit
  | array _ (some cut) | object _ (some cut) | broken cut => .error cut.skipped
  | _ => .ok ()

mutual

/-- Reads a value with at most `depth` levels of arrays and objects. -/
def read (depth : Nat) : Draft → Except Fault Value
  | null => .ok .null
  | bool b => .ok (.bool b)
  | number n => n.map .number
  | string s => s.map .string
  | array items cut =>
      match depth with
      | 0 => .error .malformed
      | depth + 1 => do
          let vs ← readItems depth items
          checkCut cut
          return .array vs
  | object members cut =>
      match depth with
      | 0 => .error .malformed
      | depth + 1 => do
          let ms ← readMembers depth members
          checkCut cut
          return .object ms
  | broken cut => .error cut.value

def readItems (depth : Nat) : List Draft → Except Fault (List Value)
  | [] => .ok []
  | d :: ds => do
      let v ← d.read depth
      let vs ← readItems depth ds
      return v :: vs

def readMembers (depth : Nat) : List (Key × Draft) → Except Fault (List (String × Value))
  | [] => .ok []
  | (k, d) :: ms => do
      let k ← k.read
      let v ← d.read depth
      let ms ← readMembers depth ms
      return (k, v) :: ms

end

/-- The items of an array, or the fault that a reader of arrays finds. -/
def asArray (depth : Nat) : Draft → Except Fault (List Draft × Option Cut)
  | array items cut => if depth = 0 then .error .malformed else .ok (items, cut)
  | d => .error d.otherKind

/-- The members of an object, or the fault that a reader of objects finds. -/
def asObject (depth : Nat) : Draft → Except Fault (List (Key × Draft) × Option Cut)
  | object members cut => if depth = 0 then .error .malformed else .ok (members, cut)
  | d => .error d.otherKind

end Draft

/-- Reads the members of an object one after the other into `state`. -/
def foldMembers {σ : Type} (add : σ → String → Draft → Except Fault σ) (state : σ)
    (members : List (Key × Draft)) (cut : Option Cut) : Except Fault σ := do
  let state ← members.foldlM (fun state (k, d) => do add state (← k.read) d) state
  checkCut cut
  return state

/-- Reads a whole text: one value, and nothing but blanks after it. -/
def readText {α : Type} (read : Draft → Except Fault α) (text : String) : Except Fault α := do
  let reading := Reading.ofText text
  let a ← read reading.root
  if reading.trailing then .error .malformed else return a

/-- Reads a text as any JSON value. -/
def Value.ofText (text : String) : Except Fault Value :=
  readText (Draft.read maxDepth) text

end Phrasebook.Json

import Phrasebook.Json.Draft
import Phrasebook.Markup.Node

/-!
# Markup trees as JSON

A text is `{"type":"text","value":…}` and an element `{"type":"el","name":…,"children":[…]}`.  The
keys may come in any order and other keys do not matter, but none of these may come twice.  Both
can also be written as arrays, `["text",…]` and `["el",…,[…]]`.

The type of an outermost node is judged where it stands; all else of it is read first and judged
afterwards.  Inside children a type may also be the number `0` or `1`.
-/

namespace Phrasebook.Markup

open Json (Draft Fault Key Value)

/-! ### Writing -/

namespace Node

mutual

def toJson : Node → Value
  | text value => .object [("type", .string "text"), ("value", .string value)]
  | element name children =>
      .object [("type", .string "el"), ("name", .string name), ("children", .array (listToJson children))]

def listToJson : List Node → List Value
  | [] => []
  | n :: ns => n.toJson :: listToJson ns

end

/-! ### Reading -/

inductive Kind where
  | text
  | element

def Kind.ofName : String → Except Fault Kind
  | "text" => .ok .text
  | "el" => .ok .element
  | _ => .error .mismatch

/-- The kind of a node inside children. -/
def Kind.ofJson : Value → Except Fault Kind
  | .string s => ofName s
  | .number (.integer 0) => .ok .text
  | .number (.integer 1) => .ok .element
  | _ => .error .mismatch

/-- What the members of an object give to a node; each member is listed as often as it occurs. -/
structure Fields where
  kinds : List Value
  values : List Value
  names : List Value
  children : List (Except Fault (List Node))

/-- The only element of a list. -/
def only {α : Type} : List α → Except Fault α
  | [a] => .ok a
  | _ => .error .mismatch

def onlyString (vs : List Value) : Except Fault String :=
  match vs with
  | [.string s] => .ok s
  | _ => .error .mismatch

/-- The node of a kind with these fields. -/
def Fields.node (f : Fields) : Kind → Except Fault Node
  | .text => do return .text (← onlyString f.values)
  | .element => do
      let name ← onlyString f.names
      let children ← only f.children
      return .element name (← children)

mutual

/-- The node that a value inside children describes. -/
def ofJson : Value → Except Fault Node
  | .object members => do
      let f := fieldsOfJson members
      let kind ← Kind.ofJson (← only f.kinds)
      f.node kind
  | .array (kind :: fields) => do
      let kind ← Kind.ofJson kind
      ofItems kind fields
  | _ => .error .mismatch

/-- The node of a kind whose fields are given in order. -/
def ofItems : Kind → List Value → Except Fault Node
  | .text, [.string value] => .ok (.text value)
  | .element, [.string name, .array items] => do return .element name (← listOfJson items)
  | _, _ => .error .mismatch

def listOfJson : List Value → Except Fault (List Node)
  | [] => .ok []
  | v :: vs => do
      let n ← ofJson v
      let ns ← listOfJson vs
      return n :: ns

def fieldsOfJson : List (String × Value) → Fields
  | [] => ⟨[], [], [], []⟩
  | (key, v) :: members =>
      let f := fieldsOfJson members
      match key with
      | "type" => { f with kinds := v :: f.kinds }
      | "value" => { f with values := v :: f.values }
      | "name" => { f with names := v :: f.names }
      | "children" =>
          let nodes := match v with
            | .array items => listOfJson items
            | _ => .error .mismatch
          { f with children := nodes :: f.children }
      | _ => f

end

/-- Reads the members of an outermost node: its kind, and its other members as values. -/
def readMembers (depth : Nat) (state : Option Kind × List (String × Value)) (key : String)
    (d : Draft) : Except Fault (Option Kind × List (String × Value)) :=
  if key = "type" then
    match state.1 with
    | some _ => .error .mismatch
    | none => do
        let kind ← Kind.ofName (← d.readString)
        return (some kind, state.2)
  else do
    let v ← d.read depth
    return (state.1, state.2 ++ [(key, v)])

/-- Reads an outermost node. -/
def read (depth : Nat) (d : Draft) : Except Fault Node :=
  match d with
  | .object .. => do
      let (members, cut) ← d.asObject depth
      let (kind?, members) ← Json.foldMembers (readMembers (depth - 1)) (none, []) members cut
      match kind? with
      | some kind => (fieldsOfJson members).node kind
      | none => .error .mismatch
  | .array .. => do
      let (items, cut) ← d.asArray depth
      match items with
      | [] => do
          Json.checkCut cut
          .error .mismatch
      | first :: others => do
          let kind ← Kind.ofName (← first.readString)
          let fields ← Draft.readItems (depth - 1) others
          Json.checkCut cut
          ofItems kind fields
  | d => .error d.otherKind

end Node

/-- Reads a forest from its JSON text. -/
def forestOfJson (source : String) : Except Fault (List Node) :=
  Json.readText
    (fun d => do
      let (items, cut) ← d.asArray Json.maxDepth
      let nodes ← items.mapM (Node.read (Json.maxDepth - 1))
      Json.checkCut cut
      return nodes)
    source

/-- The JSON text of a forest. -/
def forestToJson (nodes : List Node) : String :=
  (Value.array (Node.listToJson nodes)).text

end Phrasebook.Markup

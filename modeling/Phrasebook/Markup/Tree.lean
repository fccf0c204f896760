import Phrasebook.Markup.Node
import Phrasebook.Markup.Token

/-!
# Building markup trees

Building never fails.  A closing tag closes the innermost open element of its name, and with it
every element that is open inside; a closing tag without such an element is dropped; the end of the
text closes what is still open.  Each of these repairs gives a warning.
-/

namespace Phrasebook.Markup

/-! ### Warnings -/

inductive WarningKind where
  | unexpectedClosingTag
  | unclosedElement
deriving DecidableEq, Repr

/-- A repair, with the name and the span of the tag that made it necessary. -/
structure Warning where
  kind : WarningKind
  name : String
  span : Span
deriving DecidableEq, Repr

def Warning.message (w : Warning) : String :=
  let what := match w.kind with
    | .unexpectedClosingTag => "Unexpected closing tag \""
    | .unclosedElement => "Unclosed element \""
  what ++ w.name ++ "\" at " ++ toString w.span.start

/-! ### The builder -/

/-- An element whose closing tag has not come yet; its children are in reverse order. -/
structure OpenElement where
  name : String
  span : Span
  children : List Node

namespace OpenElement

def complete (e : OpenElement) : Node :=
  .element e.name e.children.reverse

def unclosed (e : OpenElement) : Warning :=
  ⟨.unclosedElement, e.name, e.span⟩

end OpenElement

/-- The open elements, innermost first; the complete nodes outside of them and the warnings, both in
reverse order. -/
structure Builder where
  stack : List OpenElement
  roots : List Node
  warnings : List Warning

namespace Builder

def empty : Builder :=
  ⟨[], [], []⟩

/-- Adds a complete node to the innermost open element. -/
def add (b : Builder) (node : Node) : Builder :=
  match b.stack with
  | [] => { b with roots := node :: b.roots }
  | e :: stack => { b with stack := { e with children := node :: e.children } :: stack }

def warn (b : Builder) (w : Warning) : Builder :=
  { b with warnings := w :: b.warnings }

/-- Completes the innermost open element. -/
def pop (b : Builder) : Builder :=
  match b.stack with
  | [] => b
  | e :: stack => add { b with stack } e.complete

/-- Completes the innermost open element and warns that it was not closed. -/
def popUnclosed (b : Builder) : Builder :=
  match b.stack with
  | [] => b
  | e :: _ => (b.warn e.unclosed).pop

/-- Completes the `k` innermost open elements, none of which was closed. -/
def closeInner (b : Builder) : Nat → Builder
  | 0 => b
  | k + 1 => b.popUnclosed.closeInner k

def step (b : Builder) (t : Token) : Builder :=
  match t.shape with
  | .text => b.add (.text t.written)
  | .selfClosing name => b.add (.element name [])
  | .opening name => { b with stack := ⟨name, t.span, []⟩ :: b.stack }
  | .closing name =>
      match b.stack.findIdx? (·.name = name) with
      | some k => (b.closeInner k).pop
      | none => b.warn ⟨.unexpectedClosingTag, name, t.span⟩

/-- Completes everything that is still open. -/
def finish (b : Builder) : Builder :=
  b.closeInner b.stack.length

end Builder

/-! ### Trees -/

/-- A forest and the repairs that building it took. -/
structure Tree where
  nodes : List Node
  warnings : List Warning

def Tree.ofTokens (tokens : List Token) : Tree :=
  let b := (tokens.foldl Builder.step Builder.empty).finish
  ⟨b.roots.reverse, b.warnings.reverse⟩

def Tree.parse (source : String) : Tree :=
  .ofTokens (scan source)

/-- The forest of a text. -/
def parse (source : String) : List Node :=
  (Tree.parse source).nodes

end Phrasebook.Markup

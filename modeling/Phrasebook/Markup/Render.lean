import Phrasebook.Markup.Node

/-!
# Rendering markup

A forest is folded into a type of content: text is lifted, siblings are joined, and the content of
an element goes through the transform that is registered for its name, if there is one.

Transforms may have effects, so the order in which they run matters.  `render` keeps the elements
it is in on a stack of its own and so needs no recursion into the tree.
-/

namespace Phrasebook.Markup

/-- What markup is rendered into. -/
class Content (γ : Type) where
  ofText : String → γ
  concat : List γ → γ

instance : Content String where
  ofText := id
  concat := String.join

/-! ### Pending work -/

/-- An element whose children are being rendered, or the whole forest if there is no name.  The
rendered parts are in reverse order. -/
structure RenderFrame (γ : Type) where
  name? : Option String
  pending : List Node
  parts : List γ

/-- The number of nodes of a forest. -/
def forestSize : List Node → Nat
  | [] => 0
  | .text _ :: ns => forestSize ns + 1
  | .element _ children :: ns => forestSize children + forestSize ns + 1

/-- The steps that a stack of frames still takes: one for each node and one more for each element
and each frame. -/
def pendingSteps {γ : Type} : List (RenderFrame γ) → Nat
  | [] => 0
  | frame :: stack => 2 * forestSize frame.pending + 1 + pendingSteps stack

/-! ### Rendering -/

section

variable {m : Type → Type} [Monad m] {γ : Type} [Content γ]

/-- Passes the content of an element through the transform for its name. -/
def transform (tag? : String → Option (γ → m γ)) (name? : Option String) (inner : γ) : m γ :=
  match name?.bind tag? with
  | some f => f inner
  | none => pure inner

/-- Renders what is pending in a frame, then in the frames around it. -/
def renderFrames (tag? : String → Option (γ → m γ)) :
    RenderFrame γ → List (RenderFrame γ) → m γ
  | ⟨name?, .text s :: pending, parts⟩, stack =>
      renderFrames tag? ⟨name?, pending, Content.ofText s :: parts⟩ stack
  | ⟨name?, .element name children :: pending, parts⟩, stack =>
      renderFrames tag? ⟨some name, children, []⟩ (⟨name?, pending, parts⟩ :: stack)
  | ⟨_, [], parts⟩, [] => pure (Content.concat parts.reverse)
  | ⟨name?, [], parts⟩, parent :: stack => do
      let content ← transform tag? name? (Content.concat parts.reverse)
      renderFrames tag? { parent with parts := content :: parent.parts } stack
termination_by frame stack => pendingSteps (frame :: stack)
decreasing_by
  all_goals simp only [pendingSteps, forestSize]; omega

/-- Renders a forest depth first and from left to right. -/
def render (tag? : String → Option (γ → m γ)) (nodes : List Node) : m γ :=
  renderFrames tag? ⟨none, nodes, []⟩ []

end

end Phrasebook.Markup

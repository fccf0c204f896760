import Phrasebook.Format.Template
import Phrasebook.Format.Values
import Phrasebook.Markup.Render
import Phrasebook.Markup.Tree

/-!
# Messages

A message is one text.  It is shown as it is, or with its placeholders replaced, or with
its placeholders replaced and its markup rendered; the values decide which of the last two.
-/

namespace Phrasebook

open Markup (Content)

structure Message where
  text : String
deriving DecidableEq, Repr

namespace Message

variable {m : Type → Type} [Monad m] {γ : Type} [Content γ]

/-- Replaces placeholders and renders the result.  Markup is only read if there is a transform for
some tag; otherwise the text is lifted as it is. -/
def rich (message : Message) (values : Values (γ → m γ)) : m γ :=
  let text := Template.substitute message.text values.scalars
  if values.transforms.isEmpty then
    pure (Content.ofText text)
  else
    Markup.render values.transforms.get? (Markup.parse text)

/-- The message rendered to a plain text. -/
def format (message : Message) (values : Values (String → m String)) : m String :=
  message.rich values

end Message

end Phrasebook

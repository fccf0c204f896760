/-!
# Markup trees

A forest of text and elements.  Elements have a name and children, but neither attributes nor
positions.
-/

namespace Phrasebook.Markup

inductive Node where
  | text (value : String)
  | element (name : String) (children : List Node)
deriving Repr, Inhabited

end Phrasebook.Markup

import Phrasebook.Plural.Token

/-!
# Clauses

No expression contains `;`, and none contains `,`.  So a header is the list of its clauses, cut at
every `;`, and a declaration is the list of its declarators, cut at every `,`.  A clause knows what
ended it, for that is what a reader finds where a token is missing.
-/

namespace Phrasebook.Plural

/-- What ends a clause: a token, or the end of a text of so many bytes. -/
inductive Stop where
  | token (t : Token)
  | endOfText (length : Nat)
deriving DecidableEq, Repr

def Stop.offset : Stop → Nat
  | token t => t.start
  | endOfText length => length

structure Clause where
  tokens : List Token
  stop : Stop
deriving DecidableEq, Repr

/-- The clauses of `tokens`: the first one, and those after it. -/
def splitClauses (separator : Mark) (last : Stop) : List Token → Clause × List Clause
  | [] => (⟨[], last⟩, [])
  | t :: ts =>
      let (first, others) := splitClauses separator last ts
      if t.lexeme = .mark separator then
        (⟨[], .token t⟩, first :: others)
      else
        (⟨t :: first.tokens, first.stop⟩, others)

/-- All clauses of `tokens` in order. -/
def clauses (separator : Mark) (last : Stop) (tokens : List Token) : List Clause :=
  let (first, others) := splitClauses separator last tokens
  first :: others

end Phrasebook.Plural

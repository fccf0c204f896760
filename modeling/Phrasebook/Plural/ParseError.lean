import Phrasebook.Plural.Token

/-!
# Errors of plural headers

A header is refused for one cause at one byte position.  The position is that of the token which
cannot stand there, or the length of the header.
-/

namespace Phrasebook.Plural

/-- What the grammar asks for. -/
inductive Wanted where
  | expression
  | variableName
  | separator
  | mark (m : Mark)
deriving DecidableEq, Repr

def Wanted.message : Wanted → String
  | expression => "Expected expression"
  | variableName => "Expected variable name"
  | separator => "Expected ';'"
  | mark m => "Expected character '" ++ String.singleton m.char ++ "'"

/-- How many levels an expression may be nested. -/
def maxNesting : Nat := 128

inductive ParseCause where
  | lexical (fault : LexicalFault)
  | unexpected (wanted : Wanted) (written : String)
  | unexpectedEnd (wanted : Wanted)
  | invalidTarget
  | tooDeep
deriving DecidableEq, Repr

def ParseCause.message : ParseCause → String
  | lexical fault => fault.message
  | unexpected wanted written => wanted.message ++ ", got [" ++ written ++ "]"
  | unexpectedEnd wanted => wanted.message ++ ", got end of input"
  | invalidTarget => "Invalid left-hand side in assignment"
  | tooDeep => "Expression nested deeper than " ++ toString maxNesting ++ " levels"

structure ParseError where
  cause : ParseCause
  offset : Nat
deriving DecidableEq, Repr

end Phrasebook.Plural

import Phrasebook.Plural.Expr

/-!
# Plural programs

A program is a list of statements over named slots.  The first three names are always `n` (the
count), `plural` (the chosen variant) and `nplurals` (the number of variants).

`Program.text` is the canonical text: every group is parenthesised, a statement that is an
assignment is not, and each statement ends in `;`.
-/

namespace Phrasebook.Plural

def countSlot : Nat := 0

def pluralSlot : Nat := 1

def npluralsSlot : Nat := 2

def reservedNames : List String :=
  ["n", "plural", "nplurals"]

structure Program where
  statements : List Expr
  names : List String
deriving DecidableEq, Repr

/-! ### Running -/

namespace Program

/-- The count in its slot and zero everywhere else. -/
def start (p : Program) (n : Int64) : Env :=
  (List.replicate (max p.names.length reservedNames.length) 0).set countSlot n

/-- Evaluates the statements in order and gives the environment they leave. -/
def run (p : Program) (n : Int64) : Option Env :=
  p.statements.foldlM (fun env e => (e.eval env).map Prod.snd) (p.start n)

def assigns (p : Program) (slot : Nat) : Bool :=
  p.statements.any (Expr.assigns slot)

end Program

/-! ### Canonical text -/

/-- A slot without a name is written `?`. -/
def slotName (names : List String) (slot : Nat) : String :=
  names.getD slot "?"

def Expr.text (names : List String) : Expr → String
  | lit v => toString v.toInt
  | var slot => slotName names slot
  | unary op e => op.text ++ e.text names
  | binary op l r => "(" ++ l.text names ++ " " ++ op.text ++ " " ++ r.text names ++ ")"
  | cond c t f => "(" ++ c.text names ++ " ? " ++ t.text names ++ " : " ++ f.text names ++ ")"
  | assign slot e => "(" ++ slotName names slot ++ " = " ++ e.text names ++ ")"

/-- An assignment that is a whole statement has no parentheses. -/
def Expr.statementText (names : List String) : Expr → String
  | assign slot e => slotName names slot ++ " = " ++ e.text names
  | e => e.text names

def Program.text (p : Program) : String :=
  " ".intercalate (p.statements.map fun e => e.statementText p.names ++ ";")

end Phrasebook.Plural

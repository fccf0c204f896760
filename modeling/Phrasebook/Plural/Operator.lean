/-!
# Operators of plural rules

Plural rules compute on signed 64-bit integers.  Comparisons and connectives give `0` or `1`,
arithmetic wraps, division truncates toward zero, and dividing by zero gives zero.
-/

namespace Phrasebook.Plural

/-- The integer that stands for a truth value. -/
def truth (b : Bool) : Int64 :=
  if b then 1 else 0

inductive UnaryOperator where
  | not
  | minus
  | plus
deriving DecidableEq, Repr

namespace UnaryOperator

def text : UnaryOperator → String
  | not => "!"
  | minus => "-"
  | plus => "+"

def apply : UnaryOperator → Int64 → Int64
  | not, v => truth (v = 0)
  | minus, v => -v
  | plus, v => v

end UnaryOperator

inductive BinaryOperator where
  | or
  | and
  | equals
  | notEquals
  | lower
  | greater
  | lowerEquals
  | greaterEquals
  | add
  | subtract
  | multiply
  | divide
  | modulo
deriving DecidableEq, Repr

namespace BinaryOperator

def text : BinaryOperator → String
  | or => "||"
  | and => "&&"
  | equals => "=="
  | notEquals => "!="
  | lower => "<"
  | greater => ">"
  | lowerEquals => "<="
  | greaterEquals => ">="
  | add => "+"
  | subtract => "-"
  | multiply => "*"
  | divide => "/"
  | modulo => "%"

def ofText? : String → Option BinaryOperator
  | "||" => some or
  | "&&" => some and
  | "==" => some equals
  | "!=" => some notEquals
  | "<" => some lower
  | ">" => some greater
  | "<=" => some lowerEquals
  | ">=" => some greaterEquals
  | "+" => some add
  | "-" => some subtract
  | "*" => some multiply
  | "/" => some divide
  | "%" => some modulo
  | _ => none

theorem ofText?_text (op : BinaryOperator) : ofText? op.text = some op := by
  cases op <;> rfl

/-- The operator on operands that are already evaluated. -/
def apply : BinaryOperator → Int64 → Int64 → Int64
  | or, l, r => truth (l ≠ 0 || r ≠ 0)
  | and, l, r => truth (l ≠ 0 && r ≠ 0)
  | equals, l, r => truth (l = r)
  | notEquals, l, r => truth (l ≠ r)
  | lower, l, r => truth (l < r)
  | greater, l, r => truth (l > r)
  | lowerEquals, l, r => truth (l ≤ r)
  | greaterEquals, l, r => truth (l ≥ r)
  | add, l, r => l + r
  | subtract, l, r => l - r
  | multiply, l, r => l * r
  | divide, l, r => if r = 0 then 0 else l / r
  | modulo, l, r => if r = 0 then 0 else l % r

/-- How tightly the operator binds; a higher level binds tighter. -/
def level : BinaryOperator → Nat
  | or => 0
  | and => 1
  | equals | notEquals => 2
  | lower | greater | lowerEquals | greaterEquals => 3
  | add | subtract => 4
  | multiply | divide | modulo => 5

theorem level_lt (op : BinaryOperator) : op.level < 6 := by
  cases op <;> decide

end BinaryOperator

end Phrasebook.Plural

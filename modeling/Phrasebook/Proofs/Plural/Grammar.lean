import Phrasebook.Proofs.Plural.Names

/-!
# The grammar of plural programs

A derivation (`Derives`, `DerivesProgram`) says that a list of lexemes is a phrase of the grammar,
which tree it stands for and at which nesting count it stands.  Nothing here reads tokens: a
derivation is of a whole list, and where a phrase ends inside a longer one is left to the parser.

The nesting count starts at zero and never exceeds a limit (`Derives.lt_limit`).  An assignment, a
prefix operand and the right operand of the `k`-th operator of a chain stand one, one and `k` levels
deeper than the phrase around them.  Names are mapped to slots by a function, which for a whole
program is the place among the first occurrences.
-/

namespace Phrasebook.Plural

/-! ### Expressions -/

inductive Phrase where
  | assignment
  | conditional
  | chain (level : Nat)
  | run (level count : Nat)
  | operand
  | primary
deriving DecidableEq, Repr

/-- The binary operators of one precedence level, the loosest first. -/
def operatorsAt : Nat → List BinaryOperator
  | 0 => [.or]
  | 1 => [.and]
  | 2 => [.equals, .notEquals]
  | 3 => [.lower, .greater, .lowerEquals, .greaterEquals]
  | 4 => [.add, .subtract]
  | 5 => [.multiply, .divide, .modulo]
  | _ => []

theorem mem_operatorsAt {op : BinaryOperator} {level : Nat} :
    op ∈ operatorsAt level ↔ op.level = level := by
  constructor
  · intro h
    match level with
    | 0 | 1 | 2 | 3 | 4 | 5 => revert h; cases op <;> decide
    | n + 6 => exact absurd h List.not_mem_nil
  · rintro rfl
    cases op <;> decide

/-- `Derives limit slotOf phrase depth ls e`: the lexemes `ls` are a `phrase` with the tree `e`,
at nesting count `depth`. -/
inductive Derives (limit : Nat) (slotOf : String → Nat) :
    Phrase → Nat → List Lexeme → Expr → Prop
  | value {depth : Nat} {ls : List Lexeme} {e : Expr} : depth < limit →
      Derives limit slotOf .conditional (depth + 1) ls e →
      Derives limit slotOf .assignment depth ls e
  | assign {depth slot : Nat} {ls ms : List Lexeme} {e : Expr} : depth < limit →
      Derives limit slotOf .conditional (depth + 1) ls (.var slot) →
      Derives limit slotOf .assignment (depth + 1) ms e →
      Derives limit slotOf .assignment depth (ls ++ .sign .assign :: ms) (.assign slot e)
  | condition {depth : Nat} {ls : List Lexeme} {e : Expr} :
      Derives limit slotOf (.chain 0) depth ls e →
      Derives limit slotOf .conditional depth ls e
  | ternary {depth : Nat} {ls ms ns : List Lexeme} {c t f : Expr} :
      Derives limit slotOf (.chain 0) depth ls c →
      Derives limit slotOf .assignment depth ms t →
      Derives limit slotOf .assignment depth ns f →
      Derives limit slotOf .conditional depth
        (ls ++ .sign .question :: (ms ++ .mark .colon :: ns)) (.cond c t f)
  | chain {depth level count : Nat} {ls : List Lexeme} {e : Expr} :
      Derives limit slotOf (.run level count) depth ls e →
      Derives limit slotOf (.chain level) depth ls e
  | tightest {depth level : Nat} {ls : List Lexeme} {e : Expr} : 6 ≤ level →
      Derives limit slotOf .operand depth ls e →
      Derives limit slotOf (.chain level) depth ls e
  | first {depth level : Nat} {ls : List Lexeme} {e : Expr} : level < 6 →
      Derives limit slotOf (.chain (level + 1)) depth ls e →
      Derives limit slotOf (.run level 0) depth ls e
  | next {depth level count : Nat} {ls ms : List Lexeme} {op : BinaryOperator} {l r : Expr} :
      Derives limit slotOf (.run level count) depth ls l →
      op ∈ operatorsAt level → depth + (count + 1) ≤ limit →
      Derives limit slotOf (.chain (level + 1)) (depth + (count + 1)) ms r →
      Derives limit slotOf (.run level (count + 1)) depth (ls ++ .sign (.operator op) :: ms)
        (.binary op l r)
  | unary {depth : Nat} {sign : Sign} {ls : List Lexeme} {op : UnaryOperator} {e : Expr} :
      sign.unary? = some op → depth < limit →
      Derives limit slotOf .operand (depth + 1) ls e →
      Derives limit slotOf .operand depth (.sign sign :: ls) (.unary op e)
  | primary {depth : Nat} {ls : List Lexeme} {e : Expr} :
      Derives limit slotOf .primary depth ls e →
      Derives limit slotOf .operand depth ls e
  | number {depth : Nat} (v : Int64) :
      Derives limit slotOf .primary depth [.number v] (.lit v)
  | name {depth : Nat} (x : String) :
      Derives limit slotOf .primary depth [.name x] (.var (slotOf x))
  | group {depth : Nat} {ls : List Lexeme} {e : Expr} :
      Derives limit slotOf .assignment depth ls e →
      Derives limit slotOf .primary depth (.mark .openParen :: (ls ++ [.mark .closeParen])) e

/-- A chain of tighter operators is a chain of looser ones that has no operator of its own. -/
theorem Derives.chain_of_le {limit depth level level' : Nat} {slotOf : String → Nat}
    {ls : List Lexeme} {e : Expr} (hle : level ≤ level') (hlt : level' ≤ 6)
    (h : Derives limit slotOf (.chain level') depth ls e) :
    Derives limit slotOf (.chain level) depth ls e := by
  induction hle with
  | refl => exact h
  | step _ ih => exact ih (Nat.le_of_succ_le hlt) (.chain (.first hlt h))

theorem Derives.chain_of_operand {limit depth level : Nat} {slotOf : String → Nat}
    {ls : List Lexeme} {e : Expr} (hlevel : level ≤ 6)
    (h : Derives limit slotOf .operand depth ls e) :
    Derives limit slotOf (.chain level) depth ls e :=
  (Derives.tightest (Nat.le_refl 6) h).chain_of_le hlevel (Nat.le_refl 6)

theorem Derives.conditional_of_operand {limit depth : Nat} {slotOf : String → Nat}
    {ls : List Lexeme} {e : Expr} (h : Derives limit slotOf .operand depth ls e) :
    Derives limit slotOf .conditional depth ls e :=
  .condition (h.chain_of_operand (Nat.zero_le 6))

section
variable {limit depth : Nat} {slotOf : String → Nat} {ls ms : List Lexeme} {e l r : Expr}

/-- An operand is an assignment one level further out. -/
theorem Derives.assignment_of_operand (hlt : depth < limit)
    (h : Derives limit slotOf .operand (depth + 1) ls e) :
    Derives limit slotOf .assignment depth ls e :=
  .value hlt h.conditional_of_operand

/-- Two operands and an operator, of whatever level it is. -/
theorem Derives.binary (op : BinaryOperator) (hlt : depth < limit)
    (hl : Derives limit slotOf .operand depth ls l)
    (hr : Derives limit slotOf .operand (depth + 1) ms r) :
    Derives limit slotOf .conditional depth (ls ++ .sign (.operator op) :: ms)
      (.binary op l r) := by
  have hlevel := op.level_lt
  have hfirst : Derives limit slotOf (.run op.level 0) depth ls l :=
    .first hlevel (hl.chain_of_operand hlevel)
  have hrun := hfirst.next (mem_operatorsAt.2 rfl) hlt (hr.chain_of_operand hlevel)
  exact .condition ((Derives.chain hrun).chain_of_le (Nat.zero_le _) (Nat.le_of_lt hlevel))

/-- A name, `=` and a value. -/
theorem Derives.assign_name (x : String) (hlt : depth < limit)
    (h : Derives limit slotOf .assignment (depth + 1) ls e) :
    Derives limit slotOf .assignment depth (.name x :: .sign .assign :: ls)
      (.assign (slotOf x) e) := by
  have hname : Derives limit slotOf .conditional (depth + 1) [.name x] (.var (slotOf x)) :=
    Derives.conditional_of_operand (.primary (.name x))
  exact .assign hlt hname h

theorem Derives.assign_operand (x : String) (hle : depth + 2 ≤ limit)
    (h : Derives limit slotOf .operand (depth + 2) ls e) :
    Derives limit slotOf .assignment depth (.name x :: .sign .assign :: ls)
      (.assign (slotOf x) e) :=
  .assign_name x (Nat.lt_of_succ_lt hle) (h.assignment_of_operand hle)

end

theorem Derives.lt_limit {limit depth : Nat} {slotOf : String → Nat} {ls : List Lexeme} {e : Expr}
    (h : Derives limit slotOf .assignment depth ls e) : depth < limit := by
  cases h with
  | value hlt _ => exact hlt
  | assign hlt _ _ => exact hlt

/-! ### Statements -/

/-- A declarator is a name, alone or with a value; only one with a value is a statement. -/
inductive DerivesDeclarator (limit : Nat) (slotOf : String → Nat) :
    List Lexeme → List Expr → Prop
  | bare (x : String) : DerivesDeclarator limit slotOf [.name x] []
  | initialised {x : String} {ls : List Lexeme} {e : Expr} :
      Derives limit slotOf .assignment 0 ls e →
      DerivesDeclarator limit slotOf (.name x :: .sign .assign :: ls) [.assign (slotOf x) e]

/-- One part, or more parts with a mark between each two. -/
inductive Separated (separator : Mark) (Part : List Lexeme → List Expr → Prop) :
    List Lexeme → List Expr → Prop
  | last {ls : List Lexeme} {es : List Expr} : Part ls es → Separated separator Part ls es
  | more {ls ms : List Lexeme} {es fs : List Expr} : Part ls es →
      Separated separator Part ms fs →
      Separated separator Part (ls ++ .mark separator :: ms) (es ++ fs)

inductive DerivesStatement (limit : Nat) (slotOf : String → Nat) :
    List Lexeme → List Expr → Prop
  | declaration {word : String} {ls : List Lexeme} {es : List Expr} :
      Separated .comma (DerivesDeclarator limit slotOf) ls es →
      DerivesStatement limit slotOf (.keyword word :: ls) es
  | expression {ls : List Lexeme} {e : Expr} : Derives limit slotOf .assignment 0 ls e →
      DerivesStatement limit slotOf ls [e]

/-- Any number of statements and of `;`, where a statement ends at `;` or with the list. -/
inductive DerivesProgram (limit : Nat) (slotOf : String → Nat) : List Lexeme → List Expr → Prop
  | nil : DerivesProgram limit slotOf [] []
  | semicolon {ls : List Lexeme} {es : List Expr} : DerivesProgram limit slotOf ls es →
      DerivesProgram limit slotOf (.mark .semicolon :: ls) es
  | last {ls : List Lexeme} {es : List Expr} : DerivesStatement limit slotOf ls es →
      DerivesProgram limit slotOf ls es
  | statement {ls ms : List Lexeme} {es fs : List Expr} : DerivesStatement limit slotOf ls es →
      DerivesProgram limit slotOf ms fs →
      DerivesProgram limit slotOf (ls ++ .mark .semicolon :: ms) (es ++ fs)

end Phrasebook.Plural

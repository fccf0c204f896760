import Phrasebook.Plural.Clause
import Phrasebook.Plural.ParseError
import Phrasebook.Plural.Program

/-!
# Reading plural programs

Recursive descent over the tokens of one clause.  Each reader takes a nesting budget: an
assignment, a prefix operand and the right operand of a binary operator cost one level each, and
a chain of binary operators gets its levels back when it ends.  Since every way round the grammar
spends a level, the budget is also why reading ends.

Names become slots in the order in which they are first read.
-/

namespace Phrasebook.Plural

/-- The tokens that are left of a clause, and the names met so far. -/
structure ParseState where
  rest : List Token
  names : List String

/-! ### Errors at the current token -/

namespace ParseState

/-- The byte position of the next token. -/
def offset (stop : Stop) (s : ParseState) : Nat :=
  match s.rest with
  | t :: _ => t.start
  | [] => stop.offset

/-- The error that something else than `wanted` comes next. -/
def unexpected (stop : Stop) (s : ParseState) (wanted : Wanted) : ParseError :=
  match s.rest, stop with
  | t :: _, _ | [], .token t =>
      match t.lexeme with
      | .fault f => ⟨.lexical f, t.start⟩
      | _ => ⟨.unexpected wanted t.written, t.start⟩
  | [], .endOfText length => ⟨.unexpectedEnd wanted, length⟩

/-- The slot of `name`, which gets a new one at its first occurrence. -/
def slot (s : ParseState) (name : String) : Nat × ParseState :=
  if name ∈ s.names then
    (s.names.idxOf name, s)
  else
    (s.names.length, { s with names := s.names ++ [name] })

/-- Takes the mark `m`, which must come next. -/
def expect (stop : Stop) (s : ParseState) (m : Mark) : Except ParseError ParseState :=
  match s.rest with
  | t :: rest =>
      if t.lexeme = .mark m then .ok { s with rest } else .error (s.unexpected stop (.mark m))
  | [] => .error (s.unexpected stop (.mark m))

end ParseState

/-! ### Expressions -/

variable (stop : Stop)

mutual

/-- An expression, or a variable, `=` and an assignment. -/
def parseAssignment (budget : Nat) (s : ParseState) :
    Except ParseError (Expr × ParseState) :=
  match budget with
  | 0 => .error ⟨.tooDeep, s.offset stop⟩
  | budget + 1 => do
      let (left, s) ← parseConditional budget s
      match s.rest with
      | [] => return (left, s)
      | t :: rest =>
          if t.lexeme = .sign .assign then
            match left with
            | .var slot =>
                let (value, s) ← parseAssignment budget { s with rest }
                return (.assign slot value, s)
            | _ => .error ⟨.invalidTarget, t.start⟩
          else
            return (left, s)
termination_by (budget, 0)

/-- A chain, or a chain, `?`, an assignment, `:` and an assignment. -/
def parseConditional (budget : Nat) (s : ParseState) :
    Except ParseError (Expr × ParseState) := do
  let (condition, s) ← parseChain 0 budget s
  match s.rest with
  | [] => return (condition, s)
  | t :: rest =>
      if t.lexeme = .sign .question then
        let (whenTrue, s) ← parseAssignment budget { s with rest }
        let s ← s.expect stop .colon
        let (whenFalse, s) ← parseAssignment budget s
        return (.cond condition whenTrue whenFalse, s)
      else
        return (condition, s)
termination_by (budget, 10)

/-- Operands joined by operators of `level` and above; past the last level, an operand. -/
def parseChain (level budget : Nat) (s : ParseState) :
    Except ParseError (Expr × ParseState) :=
  if level < 6 then do
    let (first, s) ← parseChain (level + 1) budget s
    parseChainRest level budget first s
  else
    parsePrefix budget s
termination_by (budget, 3 + (6 - level))

/-- The rest of a chain of operators of `level` whose operands so far make `left`. -/
def parseChainRest (level budget : Nat) (left : Expr) (s : ParseState) :
    Except ParseError (Expr × ParseState) :=
  match s.rest with
  | [] => return (left, s)
  | t :: rest =>
      match t.lexeme with
      | .sign (.operator op) =>
          if op.level = level then
            let s := { s with rest }
            match budget with
            | 0 => .error ⟨.tooDeep, s.offset stop⟩
            | budget + 1 => do
                let (right, s) ← parseChain (level + 1) budget s
                parseChainRest level budget (.binary op left right) s
          else
            return (left, s)
      | _ => return (left, s)
termination_by (budget, 0)

/-- A primary expression with any number of prefix operators. -/
def parsePrefix (budget : Nat) (s : ParseState) :
    Except ParseError (Expr × ParseState) :=
  match s.rest with
  | [] => parsePrimary budget s
  | t :: rest =>
      match t.lexeme with
      | .sign sign =>
          match sign.unary? with
          | some op =>
              let s := { s with rest }
              match budget with
              | 0 => .error ⟨.tooDeep, s.offset stop⟩
              | budget + 1 => do
                  let (operand, s) ← parsePrefix budget s
                  return (.unary op operand, s)
          | none => parsePrimary budget s
      | _ => parsePrimary budget s
termination_by (budget, 2)

/-- A number, a variable or a group. -/
def parsePrimary (budget : Nat) (s : ParseState) :
    Except ParseError (Expr × ParseState) :=
  match s.rest with
  | [] => .error (s.unexpected stop .expression)
  | t :: rest =>
      match t.lexeme with
      | .mark .openParen => do
          let (inner, s) ← parseAssignment budget { s with rest }
          let s ← s.expect stop .closeParen
          return (inner, s)
      | .number value => return (.lit value, { s with rest })
      | .name name =>
          let (slot, s) := { s with rest }.slot name
          return (.var slot, s)
      | _ => .error (s.unexpected stop .expression)
termination_by (budget, 1)

end

/-! ### Statements -/

/-- Refuses tokens that are left when a statement is complete. -/
def finishClause (s : ParseState) : Except ParseError (List String) :=
  match s.rest with
  | [] => .ok s.names
  | _ => .error (s.unexpected stop .separator)

/-- A declarator is a name, with or without a value; only one with a value is a statement. -/
def parseDeclarator (names : List String) (clause : Clause) :
    Except ParseError (List Expr × List String) :=
  let s : ParseState := ⟨clause.tokens, names⟩
  match clause.tokens with
  | [] => .error (s.unexpected clause.stop .variableName)
  | t :: rest =>
      match t.lexeme with
      | .name name => do
          let (slot, s) := { s with rest }.slot name
          match s.rest with
          | [] => return ([], s.names)
          | u :: rest =>
              if u.lexeme = .sign .assign then
                let (value, s) ← parseAssignment clause.stop maxNesting { s with rest }
                let names ← finishClause clause.stop s
                return ([.assign slot value], names)
              else
                .error (s.unexpected clause.stop .separator)
      | _ => .error (s.unexpected clause.stop .variableName)

/-- Reads parts one after the other; each adds statements, and names for the parts after it. -/
def parseAll (parse : List String → Clause → Except ParseError (List Expr × List String)) :
    List String → List Clause → Except ParseError (List Expr × List String)
  | names, [] => .ok ([], names)
  | names, c :: cs => do
      let (first, names) ← parse names c
      let (others, names) ← parseAll parse names cs
      return (first ++ others, names)

/-- A clause is empty, a declaration or an expression. -/
def parseClause (names : List String) (clause : Clause) :
    Except ParseError (List Expr × List String) :=
  match clause.tokens with
  | [] => .ok ([], names)
  | t :: rest =>
      match t.lexeme with
      | .keyword _ => parseAll parseDeclarator names (clauses .comma clause.stop rest)
      | _ => do
          let (statement, s) ← parseAssignment clause.stop maxNesting ⟨clause.tokens, names⟩
          let names ← finishClause clause.stop s
          return ([statement], names)

/-- The program of a token list that comes from a text of `length` bytes. -/
def parseTokens (length : Nat) (tokens : List Token) : Except ParseError Program := do
  let (statements, names) ←
    parseAll parseClause reservedNames (clauses .semicolon (.endOfText length) tokens)
  return ⟨statements, names⟩

/-- Reads the program of a plural header. -/
def Program.parse (source : String) : Except ParseError Program :=
  parseTokens source.utf8ByteSize (scan source)

end Phrasebook.Plural

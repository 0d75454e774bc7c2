import ProcLang.Parsing.State

/-!
Expressions.  There are six levels of operators between two operands, each of which groups to the
left, then the operators before one operand, then literals, variables and parentheses.

The readings that repeat or nest take a bound on how often they may do so.  Each time takes a token,
so the number of tokens to come is a bound that is never reached.
-/

namespace ProcLang.Parsing

/-- The operators of a level, by their tokens. -/
abbrev Level := List (TokenKind × BinaryOp)

/-- The levels of operators between two operands, the loosest first. -/
def levels : List Level :=
  [ [(.doublePipe, .logic .or)],
    [(.doubleAmpersand, .logic .and)],
    [(.doubleEqual, .compare .equal), (.bangEqual, .compare .notEqual)],
    [(.less, .compare .less), (.lessEqual, .compare .lessEqual),
      (.greater, .compare .greater), (.greaterEqual, .compare .greaterEqual)],
    [(.plus, .arith .add), (.hyphen, .arith .sub)],
    [(.star, .arith .mul), (.slash, .arith .div)] ]

/-- The operators before their operand. -/
def unaryOps : List (TokenKind × UnaryOp) :=
  [(.plus, .plus), (.hyphen, .negate), (.bang, .not)]

/-- Operators of a level with their right operands, folded to the left. -/
def chain (ops : Level) (operand : Parser Expr) : Nat → Expr → Parser Expr
  | 0, _ => spent
  | bound + 1, lhs => do
    let token ← current
    match ops.lookup token.kind with
    | none => return lhs
    | some op => do
      let _ ← advance
      begin token.span
      let rhs ← operand
      let node ← finishExpr token.span fun tag => .binary tag op lhs rhs
      chain ops operand bound node

/-- Expressions of some levels over an operand. -/
def ladder (operand : Parser Expr) : List Level → Parser Expr
  | [] => operand
  | ops :: tighter => do
    let lhs ← ladder operand tighter
    let bound ← remaining
    chain ops (ladder operand tighter) bound lhs

/-- A literal, a variable, or an expression in parentheses. -/
def primary (inner : Parser Expr) : Parser Expr := do
  let token ← current
  match token.kind with
  | .number => do
    begin token.span
    let _ ← advance
    finishExpr token.span fun tag => .literal tag (.integer token.integer)
  | .stringLiteral => do
    begin token.span
    let _ ← advance
    finishExpr token.span fun tag => .literal tag (.string token.string)
  | .identifier => do
    begin token.span
    let _ ← advance
    let s ← Stage.get
    if s.hasVariable token.string then
      finishExpr token.span fun tag => .var tag token.string
    else refuse token.span (.undeclaredVariable token.string)
  | .lparen => do
    let _ ← advance
    let e ← inner
    let _ ← expect .rparen
    return e
  | _ => unexpected .expression

/-- An operand with the operators before it; it nests at most `bound` deep. -/
def unary : Nat → Parser Expr
  | 0 => spent
  | bound + 1 => do
    let token ← current
    match unaryOps.lookup token.kind with
    | some op => do
      let _ ← advance
      begin token.span
      let e ← unary bound
      finishExpr token.span fun tag => .unary tag op e
    | none => primary (ladder (unary bound) levels)

/-- An expression. -/
def expression : Parser Expr := do
  let bound ← remaining
  ladder (unary (bound + 1)) levels

end ProcLang.Parsing

import ProcLang.Parsing.Statement

/-!
Programs: procedure declarations one after another, up to the end of the tokens.
-/

namespace ProcLang

namespace Parsing

/-- The body of a procedure, with its parameters declared. -/
def procedureBody (params : List String) : Parser Stmt := do
  let bound ← remaining
  block (statement false (bound + 1)) params

/-- Procedures up to the end of the tokens, at most `bound`. -/
def procedures : Nat → Parser (List Stmt)
  | 0 => spent
  | bound + 1 => do
    let token ← current
    if token.kind = .eof then return []
    else if token.kind = .externKey ∨ token.kind.isType then
      let first ← procedure procedureBody
      let rest ← procedures bound
      return first :: rest
    else unexpected .procedure

/-- A program. -/
def program : Parser Ast := do
  let start ← current
  begin start.span
  Stage.modify fun s => { s with scopes := {} :: s.scopes }
  let bound ← remaining
  let body ← procedures bound
  Stage.modify fun s => { s with scopes := s.scopes.drop 1 }
  let root ← finishStmt start.span fun tag => .block tag body
  let s ← Stage.get
  return { s.ast with root := some root }

/-- Read an expression a number of times, each time from where the last reading stopped, whether it
succeeded or not. -/
def expressions : Nat → State → List (Except CompileError Expr) × State
  | 0, s => ([], s)
  | count + 1, s =>
    let first := expression s
    let (rest, last) := expressions count first.state
    (first.result :: rest, last)

end Parsing

/-- The program that tokens spell. -/
def parse (tokens : List Token) : Except CompileError Ast :=
  (Parsing.program (.ofTokens tokens)).result

end ProcLang

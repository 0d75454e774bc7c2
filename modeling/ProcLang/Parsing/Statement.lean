import ProcLang.Parsing.Expression

/-!
Statements.  A name must be declared before it is used, and no name is declared twice in one block;
a variable counts as declared behind its declaration, a procedure behind its parameters.
-/

namespace ProcLang.Parsing

/-- A type. -/
def typeName : Parser DataType := do
  let token ← advance
  match token.kind.type? with
  | some t => return t
  | none => Stage.fail (.grammar token.span (.expected .type token.kind))

/-- Declare a variable in the innermost block. -/
def declareVariable (name : String) (span : Span) : Parser Unit := do
  let s ← Stage.get
  if s.scope.vars.contains name then refuse span (.redeclaredVariable name)
  else
    Stage.modify fun s => s.withScope { s.scope with vars := name :: s.scope.vars }

/-- Declare a procedure in the innermost block. -/
def declareProcedure (name : String) (span : Span) : Parser Unit := do
  let s ← Stage.get
  if s.scope.procedures.contains name then refuse span (.redeclaredProcedure name)
  else
    Stage.modify fun s => s.withScope { s.scope with procedures := name :: s.scope.procedures }

/-! ### Blocks -/

/-- Statements up to the end of their block, at most `bound`. -/
def statements (statement : Parser Stmt) : Nat → Parser (List Stmt)
  | 0 => spent
  | bound + 1 => do
    let token ← current
    if token.kind = .rbrace ∨ token.kind = .eof then return []
    else
      let first ← statement
      let rest ← statements statement bound
      return first :: rest

/-- A block, with some variables declared in it from the start. -/
def block (statement : Parser Stmt) (declared : List String) : Parser Stmt := do
  let start ← current
  begin start.span
  let _ ← expect .lbrace
  Stage.modify fun s => { s with scopes := { vars := declared } :: s.scopes }
  let bound ← remaining
  let body ← statements statement bound
  let _ ← expect .rbrace
  Stage.modify fun s => { s with scopes := s.scopes.drop 1 }
  finishStmt start.span fun tag => .block tag body

/-! ### Procedures -/

/-- Parameters separated by commas, at most `bound`, behind those already read. -/
def parameters : Nat → List Parameter → Parser (List Parameter)
  | 0, _ => spent
  | bound + 1, earlier => do
    let type ← typeName
    let name ← expect .identifier
    if type = .void then refuse name.span (.voidParameter name.string)
    else if earlier.any (·.name == name.string) then
      refuse name.span (.duplicateParameter name.string)
    else
      let params := earlier ++ [⟨name.string, type, name.span⟩]
      if ← accept .comma then parameters bound params else return params

/-- The parameters of a declaration, from behind the opening parenthesis. -/
def parameterList : Parser (List Parameter) := do
  let token ← current
  let bound ← remaining
  let params ← if token.kind = .rparen then pure [] else parameters (bound + 1) []
  let _ ← expect .rparen
  return params

/-- A procedure declaration behind the word `extern`; only one that is not external has a body. -/
def procedureOf (body : List String → Parser Stmt) (span : Span) (external : Bool) :
    Parser Stmt := do
  let returns ← typeName
  let name ← expect .identifier
  let _ ← expect .lparen
  let params ← parameterList
  declareProcedure name.string name.span
  let signature : Signature := ⟨name.string, returns, params, external⟩
  if external then
    let _ ← expect .semicolon
    finishStmt span fun tag => .procedure tag signature none
  else
    let inside ← body (params.map (·.name))
    finishStmt span fun tag => .procedure tag signature (some inside)

/-- A procedure declaration. -/
def procedure (body : List String → Parser Stmt) : Parser Stmt := do
  let start ← current
  begin start.span
  let external ← accept .externKey
  procedureOf body start.span external

/-! ### Other statements -/

/-- A variable declaration. -/
def declaration : Parser Stmt := do
  let start ← current
  begin start.span
  let type ← typeName
  let name ← expect .identifier
  if type = .void then refuse name.span (.voidVariable name.string)
  else
    let init ← if ← accept .equal then some <$> expression else pure none
    let _ ← expect .semicolon
    declareVariable name.string name.span
    finishStmt start.span fun tag => .declaration tag name.string type init

/-- An assignment. -/
def assignment : Parser Stmt := do
  let start ← current
  begin start.span
  let name ← expect .identifier
  let s ← Stage.get
  if s.hasVariable name.string then
    let _ ← expect .equal
    let value ← expression
    let _ ← expect .semicolon
    finishStmt start.span fun tag => .assignment tag name.string value
  else refuse name.span (.undeclaredVariable name.string)

/-- Arguments separated by commas, at most `bound`. -/
def arguments : Nat → Parser (List Expr)
  | 0 => spent
  | bound + 1 => do
    let first ← expression
    if ← accept .comma then
      let rest ← arguments bound
      return first :: rest
    else return [first]

/-- The arguments of a call, from behind the opening parenthesis. -/
def argumentList : Parser (List Expr) := do
  let token ← current
  let bound ← remaining
  let args ← if token.kind = .rparen then pure [] else arguments (bound + 1)
  let _ ← expect .rparen
  return args

/-- A call. -/
def call : Parser Stmt := do
  let start ← current
  begin start.span
  let name ← expect .identifier
  let s ← Stage.get
  if s.hasProcedure name.string then
    let _ ← expect .lparen
    let args ← argumentList
    let _ ← expect .semicolon
    finishStmt start.span fun tag => .call tag name.string args
  else refuse name.span (.undeclaredProcedure name.string)

/-- The condition of a branch or a loop, behind its keyword. -/
def condition : Parser Expr := do
  let _ ← expect .lparen
  let e ← expression
  let _ ← expect .rparen
  return e

/-- A branch; behind `else` stands a block or a further branch, at most `bound` of them. -/
def branch (block : Parser Stmt) : Nat → Parser Stmt
  | 0 => spent
  | bound + 1 => do
    let start ← current
    begin start.span
    let _ ← expect .ifKey
    let test ← condition
    let thenBranch ← block
    if ← accept .elseKey then
      let token ← current
      let elseBranch ←
        match token.kind with
        | .ifKey => branch block bound
        | .lbrace => block
        | _ => unexpected .elseBranch
      finishStmt start.span fun tag => .branch tag test thenBranch (some elseBranch)
    else finishStmt start.span fun tag => .branch tag test thenBranch none

/-- A loop. -/
def loop (block : Parser Stmt) : Parser Stmt := do
  let start ← current
  begin start.span
  let _ ← expect .whileKey
  let test ← condition
  let body ← block
  finishStmt start.span fun tag => .loop tag test body

/-- A jump, which must stand in a loop. -/
def jump (inLoop : Bool) (kind : Jump) (build : Tag → Stmt) : Parser Stmt := do
  let start ← current
  begin start.span
  let _ ← advance
  if inLoop then
    let _ ← expect .semicolon
    finishStmt start.span build
  else refuse start.span (.misplacedJump kind)

/-- A return. -/
def giveBack : Parser Stmt := do
  let start ← current
  begin start.span
  let _ ← expect .returnKey
  let token ← current
  let value ← if token.kind = .semicolon then pure none else some <$> expression
  let _ ← expect .semicolon
  finishStmt start.span fun tag => .giveBack tag value

/-- A statement, in a loop or not; it nests at most `bound` deep. -/
def statement (inLoop : Bool) : Nat → Parser Stmt
  | 0 => spent
  | bound + 1 => do
    let s ← Stage.get
    match s.current.kind with
    | .lbrace => block (statement inLoop bound) []
    | .whileKey => loop (block (statement true bound) [])
    | .ifKey => branch (block (statement inLoop bound) []) s.remaining
    | .continueKey => jump inLoop .continueLoop .continueLoop
    | .breakKey => jump inLoop .breakLoop .breakLoop
    | .returnKey => giveBack
    | .externKey => procedure (block (statement inLoop bound))
    | .type _ => declaration
    | .identifier => if (s.peek 1).kind = .lparen then call else assignment
    | _ => unexpected .statement

end ProcLang.Parsing

import ProcLang.Event
import ProcLang.Stage

/-!
The state of a reading of tokens: the tokens and the place reached among them, the names declared so
far in the blocks around that place, and the nodes made.
-/

namespace ProcLang

/-- The names that a block declares. -/
structure NameScope where
  vars : List String := []
  procedures : List String := []
deriving DecidableEq, Inhabited

namespace Parsing

/-- The state of a reading of tokens. -/
structure State where
  /-- The tokens, of which the last is an end. -/
  tokens : List Token
  /-- The place of the current token. -/
  pos : Nat := 0
  /-- The names of the blocks around, the innermost first. -/
  scopes : List NameScope := []
  /-- The nodes made so far. -/
  ast : Ast := {}
deriving Inhabited

namespace State

/-- The end of tokens that have none: it is where the last of them is. -/
def endOf (tokens : List Token) : Token :=
  { kind := .eof, span := (tokens.getLast?.map (·.span)).getD ⟨"<input>", 1, 1⟩ }

/-- Tokens with an end behind them, if the last of them is not one. -/
def closed (tokens : List Token) : List Token :=
  if tokens.getLast?.map (·.kind) = some .eof then tokens else tokens ++ [endOf tokens]

/-- The state before the first token. -/
def ofTokens (tokens : List Token) : State := { tokens := closed tokens }

/-- The token at a distance; the last one repeats for ever. -/
def peek (s : State) (distance : Nat) : Token :=
  s.tokens[min (s.pos + distance) (s.tokens.length - 1)]?.getD default

/-- The current token. -/
def current (s : State) : Token := s.peek 0

/-- The state behind the current token; at an end it stays. -/
def advance (s : State) : State :=
  { s with pos := if s.current.kind = .eof then s.pos else s.pos + 1 }

/-- The number of tokens from the current one on. -/
def remaining (s : State) : Nat := s.tokens.length - s.pos

/-- A variable of the name is declared here. -/
def hasVariable (s : State) (name : String) : Bool :=
  s.scopes.any (·.vars.contains name)

/-- A procedure of the name is declared here. -/
def hasProcedure (s : State) (name : String) : Bool :=
  s.scopes.any (·.procedures.contains name)

/-- The names of the innermost block. -/
def scope (s : State) : NameScope := s.scopes.headD {}

/-- The state with other names in the innermost block. -/
def withScope (s : State) (scope : NameScope) : State :=
  { s with scopes := scope :: s.scopes.drop 1 }

end State

end Parsing

/-- A reading of tokens for a value. -/
abbrev Parser (α : Type) := Stage Event Parsing.State α

namespace Parsing

/-- The current token. -/
def current : Parser Token := do
  let s ← Stage.get
  return s.current

/-- The number of tokens from the current one on. -/
def remaining : Parser Nat := do
  let s ← Stage.get
  return s.remaining

/-- Take the current token. -/
def advance : Parser Token := do
  let token ← current
  Stage.modify State.advance
  return token

/-- End with the complaint that something else was asked for here. -/
def unexpected {α : Type} (wanted : Wanted) : Parser α := do
  let token ← current
  Stage.fail (.grammar token.span (.expected wanted token.kind))

/-- Take the current token if it is of a kind. -/
def accept (kind : TokenKind) : Parser Bool := do
  let token ← current
  if token.kind = kind then
    let _ ← advance
    return true
  else return false

/-- Take the current token, which must be of a kind. -/
def expect (kind : TokenKind) : Parser Token := do
  let token ← current
  if token.kind = kind then advance else unexpected (.token kind)

/-- End with an error about the program at a place. -/
def refuse {α : Type} (span : Span) (cause : SemanticCause) : Parser α :=
  Stage.fail (.semantic (some span) cause)

/-- End because a bound is reached. -/
def spent {α : Type} : Parser α := Stage.fail (.grammar default (.other "bound reached"))

/-- Report that a node starts. -/
def begin (span : Span) : Parser Unit :=
  Stage.mark { mode := .parser, happening := .nodeStart, span := some span }

/-- Report that a node is made. -/
def reportNode (node : Node) : Parser Unit :=
  Stage.mark
    { mode := .parser
      happening := .nodeEnd
      span := some node.tag.span
      node := some node.tag.id
      text := some node.kind.name }

/-- The tag of the next node. -/
def nextTag (span : Span) : Parser Tag := do
  let s ← Stage.get
  return ⟨s.ast.size, span⟩

/-- Make a node. -/
def addNode (node : Node) : Parser Unit := do
  Stage.modify fun s => { s with ast := s.ast.push node }
  reportNode node

/-- Make an expression that started at a place. -/
def finishExpr (span : Span) (build : Tag → Expr) : Parser Expr := do
  let tag ← nextTag span
  addNode (.expr (build tag))
  return build tag

/-- Make a statement that started at a place. -/
def finishStmt (span : Span) (build : Tag → Stmt) : Parser Stmt := do
  let tag ← nextTag span
  addNode (.stmt (build tag))
  return build tag

end Parsing

end ProcLang

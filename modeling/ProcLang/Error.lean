import ProcLang.Ast
import ProcLang.Register
import ProcLang.Token
import ProcLang.Token.Number

/-!
Why a compilation fails.  An error is a cause of one of four sorts, with a position where the sort
has one, or the wish of an observer to stop.  Every wording stands in this module.
-/

namespace ProcLang

/-- A byte in a message: printable ASCII as it is, the rest by an escape. -/
def escapedByte (b : UInt8) : String :=
  match b with
  | 0x09 => "\\t"
  | 0x0d => "\\r"
  | 0x0a => "\\n"
  | 0x27 => "\\'"
  | 0x22 => "\\\""
  | 0x5c => "\\\\"
  | _ =>
    if 0x20 ≤ b ∧ b ≤ 0x7e then String.singleton (Char.ofNat b.toNat)
    else "\\x" ++ (if b < 0x10 then "0" else "") ++ String.ofList (Nat.toDigits 16 b.toNat)

/-- Why text is not a token. -/
inductive LexicalCause where
  | unterminatedComment
  | unterminatedString
  | numberRunsOn
  | number (fault : NumberFault)
  | invalidCharacter (c : Char)
  | other (message : String)
deriving DecidableEq, Inhabited

/-- The message of a cause.  A character is shown by its first byte. -/
def LexicalCause.message : LexicalCause → String
  | unterminatedComment => "unterminated block comment"
  | unterminatedString => "unterminated string literal"
  | numberRunsOn => "invalid number format"
  | number fault => fault.message
  | invalidCharacter c => "invalid character '" ++ escapedByte (firstByte c) ++ "'"
  | other message => message

/-- What the grammar asks for. -/
inductive Wanted where
  | token (kind : TokenKind)
  | type
  | procedure
  | statement
  | expression
  | elseBranch
deriving DecidableEq, Inhabited

/-- How a message speaks of what is asked for. -/
def Wanted.text : Wanted → String
  | token kind => kind.text
  | type => "type"
  | procedure => "procedure declaration"
  | statement => "statement"
  | expression => "expression"
  | elseBranch => "'\x7b' or 'if' after 'else'"

/-- Why tokens are not a program. -/
inductive GrammarCause where
  | expected (wanted : Wanted) (found : TokenKind)
  | other (message : String)
deriving DecidableEq, Inhabited

/-- The message of a cause. -/
def GrammarCause.message : GrammarCause → String
  | expected wanted found => "expected " ++ wanted.text ++ ", found " ++ found.text
  | other message => message

/-- A jump out of a block. -/
inductive Jump where
  | continueLoop
  | breakLoop
  | giveBack
deriving DecidableEq, Inhabited

/-- Why a program has no meaning. -/
inductive SemanticCause where
  | voidParameter (name : String)
  | duplicateParameter (name : String)
  | redeclaredProcedure (name : String)
  | voidVariable (name : String)
  | redeclaredVariable (name : String)
  | undeclaredVariable (name : String)
  | undeclaredProcedure (name : String)
  | misplacedJump (jump : Jump)
  | emptyProgram
  | notBlock (kind : NodeKind)
  | notStatement (kind : NodeKind)
  | notExpression (kind : NodeKind)
  | noBody (name : String)
  | nestedProcedure (name : String)
  | noStackSlot (name : String)
  | voidReturnsValue
  | argumentCount (name : String) (expected got : Nat)
  | stackArgument (number : Nat) (name : String)
  | literalTooLarge (value : UInt64) (type : DataType)
  | noEnclosingBlock
  | noJumpLabel
  | other (message : String)
deriving DecidableEq, Inhabited

/-- The message of a cause. -/
def SemanticCause.message : SemanticCause → String
  | voidParameter name => "parameter '" ++ name ++ "' declared void"
  | duplicateParameter name => "duplicate parameter '" ++ name ++ "'"
  | redeclaredProcedure name => "redeclaration of procedure '" ++ name ++ "'"
  | voidVariable name => "variable '" ++ name ++ "' declared void"
  | redeclaredVariable name => "redeclaration of '" ++ name ++ "'"
  | undeclaredVariable name => "undeclared identifier '" ++ name ++ "'"
  | undeclaredProcedure name => "undeclared procedure '" ++ name ++ "'"
  | misplacedJump .continueLoop => "'continue' outside of a loop"
  | misplacedJump .breakLoop => "'break' outside of a loop"
  | misplacedJump .giveBack => "'return' outside of a procedure"
  | emptyProgram => "empty program"
  | notBlock kind => "expected a block, found " ++ kind.name
  | notStatement kind => kind.name ++ " is not a statement"
  | notExpression kind => kind.name ++ " is not an expression"
  | noBody name => "procedure '" ++ name ++ "' has no body"
  | nestedProcedure name => "procedure '" ++ name ++ "' must be defined at top level"
  | noStackSlot name => "'" ++ name ++ "' has no stack slot"
  | voidReturnsValue => "void procedure returns a value"
  | argumentCount name expected got =>
    "procedure '" ++ name ++ "' expects " ++ toString expected ++ " argument(s), got "
      ++ toString got
  | stackArgument number name =>
    "unsupported parameter class: argument " ++ toString number ++ " of '" ++ name
      ++ "' is passed on the stack"
  | literalTooLarge value type =>
    "integer literal " ++ toString value.toNat ++ " does not fit in " ++ type.name
  | noEnclosingBlock => "no enclosing block"
  | noJumpLabel => "jump target has no label"
  | other message => message

/-- Why the registers do not do. -/
inductive ResourceCause where
  | notAllocatable (register : Register)
  | noRegister
  | alreadyHolds (register : Register) (location : Location)
  | alreadyLives (location : Location) (register : Register)
  | alreadyResident (location : Location)
  | doesNotHold (register : Register) (location : Location)
  | notFree (register : Register)
  | isEmpty (register : Register)
  | notInRegister (location : Location)
  | slotNotIndexed (register : Register) (location : Location)
  | indexNotHeld (location : Location) (register : Register)
  | other (message : String)
deriving DecidableEq, Inhabited

/-- The message of a cause. -/
def ResourceCause.message : ResourceCause → String
  | notAllocatable r => r.name ++ " is not allocatable"
  | noRegister => "no available register"
  | alreadyHolds r l => r.name ++ " already holds " ++ l.text
  | alreadyLives l r => l.text ++ " already lives in " ++ r.name
  | alreadyResident l => l.text ++ " is already resident"
  | doesNotHold r l => r.name ++ " does not hold " ++ l.text
  | notFree r => r.name ++ " is not free"
  | isEmpty r => r.name ++ " is empty"
  | notInRegister l => l.text ++ " is not in a register"
  | slotNotIndexed r l =>
    "register file inconsistent: " ++ r.name ++ " holds " ++ l.text ++ " but the index disagrees"
  | indexNotHeld l r => "register file inconsistent: " ++ l.text ++ " is indexed to " ++ r.name
  | other message => message

/-- Why a compilation fails. -/
inductive CompileError where
  | lexical (span : Span) (cause : LexicalCause)
  | grammar (span : Span) (cause : GrammarCause)
  | semantic (span : Option Span) (cause : SemanticCause)
  | resource (cause : ResourceCause)
  | cancelled
deriving DecidableEq, Inhabited

namespace CompileError

/-- Where the error is, if it has a place. -/
def span? : CompileError → Option Span
  | lexical s _ => some s
  | grammar s _ => some s
  | semantic s _ => s
  | resource _ | cancelled => none

/-- The text of an error, with its place in front. -/
def text : CompileError → String
  | lexical s cause => s.text ++ ": lexical error: " ++ cause.message
  | grammar s cause => s.text ++ ": syntax error: " ++ cause.message
  | semantic (some s) cause => s.text ++ ": semantic error: " ++ cause.message
  | semantic none cause => "semantic error: " ++ cause.message
  | resource cause => "codegen error: " ++ cause.message
  | cancelled => "compilation cancelled"

end CompileError

end ProcLang

import ProcLang.DataType
import ProcLang.Span
import ProcLang.Text.Quoted

/-!
The tokens of the language.  A kind with a fixed spelling is a keyword or a mark; the other kinds
are identifiers, numbers, strings, the end of the text and the token that stands for a failure.
-/

namespace ProcLang

/-- What a token is. -/
inductive TokenKind where
  | type (type : DataType)
  | returnKey
  | continueKey
  | breakKey
  | ifKey
  | elseKey
  | whileKey
  | externKey
  | lparen
  | rparen
  | lbrace
  | rbrace
  | plus
  | hyphen
  | star
  | slash
  | bang
  | less
  | greater
  | lessEqual
  | greaterEqual
  | doubleEqual
  | bangEqual
  | doubleAmpersand
  | doublePipe
  | equal
  | comma
  | semicolon
  | identifier
  | number
  | stringLiteral
  | eof
  | error
deriving DecidableEq, Inhabited

namespace TokenKind

/-- The spelling of a keyword or a mark. -/
def spelling? : TokenKind → Option String
  | type t => some t.name
  | returnKey => some "return"
  | continueKey => some "continue"
  | breakKey => some "break"
  | ifKey => some "if"
  | elseKey => some "else"
  | whileKey => some "while"
  | externKey => some "extern"
  | lparen => some "("
  | rparen => some ")"
  | lbrace => some "\x7b"
  | rbrace => some "\x7d"
  | plus => some "+"
  | hyphen => some "-"
  | star => some "*"
  | slash => some "/"
  | bang => some "!"
  | less => some "<"
  | greater => some ">"
  | lessEqual => some "<="
  | greaterEqual => some ">="
  | doubleEqual => some "=="
  | bangEqual => some "!="
  | doubleAmpersand => some "&&"
  | doublePipe => some "||"
  | equal => some "="
  | comma => some ","
  | semicolon => some ";"
  | identifier | number | stringLiteral | eof | error => none

/-- How a message speaks of a kind: a fixed spelling in single quotes, or what the token is. -/
def text (k : TokenKind) : String :=
  match k.spelling? with
  | some s => "'" ++ s ++ "'"
  | none =>
    match k with
    | number => "number"
    | stringLiteral => "string literal"
    | eof => "end of file"
    | error => "invalid token"
    | _ => "identifier"

/-- The name of a kind in a listing of tokens. -/
def title : TokenKind → String
  | type .void => "Void"
  | type .int => "Int"
  | type .u8 => "U8"
  | type .s8 => "S8"
  | returnKey => "Return"
  | continueKey => "Continue"
  | breakKey => "Break"
  | ifKey => "If"
  | elseKey => "Else"
  | whileKey => "While"
  | externKey => "Extern"
  | lparen => "LParen"
  | rparen => "RParen"
  | lbrace => "LBrace"
  | rbrace => "RBrace"
  | plus => "Plus"
  | hyphen => "Hyphen"
  | star => "Star"
  | slash => "Slash"
  | bang => "Bang"
  | less => "Less"
  | greater => "Greater"
  | lessEqual => "LessEqual"
  | greaterEqual => "GreaterEqual"
  | doubleEqual => "DoubleEqual"
  | bangEqual => "BangEqual"
  | doubleAmpersand => "DoubleAmpersand"
  | doublePipe => "DoublePipe"
  | equal => "Equal"
  | comma => "Comma"
  | semicolon => "Semicolon"
  | identifier => "Identifier"
  | number => "Number"
  | stringLiteral => "StringLiteral"
  | eof => "Eof"
  | error => "Error"

/-- The type that a keyword names. -/
def type? : TokenKind → Option DataType
  | type t => some t
  | _ => none

/-- The kind is the keyword of a type. -/
def isType (k : TokenKind) : Bool := k.type?.isSome

/-- The keywords. -/
def keywords : List TokenKind :=
  [type .void, type .int, type .u8, type .s8, returnKey, continueKey, breakKey, ifKey, elseKey,
    whileKey, externKey]

/-- The marks of two characters. -/
def doubleMarks : List TokenKind :=
  [doubleEqual, bangEqual, doubleAmpersand, doublePipe, lessEqual, greaterEqual]

/-- The marks of one character. -/
def singleMarks : List TokenKind :=
  [lparen, rparen, lbrace, rbrace, plus, hyphen, star, slash, bang, less, greater, equal, comma,
    semicolon]

/-- All kinds, in the order of their listing. -/
def all : List TokenKind :=
  [type .void, type .int, type .u8, type .s8, returnKey, continueKey, breakKey, ifKey, elseKey,
    whileKey, externKey, lparen, rparen, lbrace, rbrace, plus, hyphen, star, slash, bang, less,
    greater, lessEqual, greaterEqual, doubleEqual, bangEqual, doubleAmpersand, doublePipe, equal,
    comma, semicolon, identifier, number, stringLiteral, eof, error]

theorem mem_all (k : TokenKind) : k ∈ all := by
  cases k with
  | type t => cases t <;> simp [all]
  | _ => simp [all]

end TokenKind

/-- What a token carries beside its kind. -/
inductive TokenValue where
  | none
  | text (text : String)
  | number (value : UInt64)
deriving DecidableEq, Inhabited

/-- The form of a value in a listing of tokens. -/
def TokenValue.listing : TokenValue → String
  | none => "None"
  | text s => "Str(" ++ Text.quoted s ++ ")"
  | number n => "Int(" ++ toString n.toNat ++ ")"

/-- A token and where it starts. -/
structure Token where
  kind : TokenKind
  span : Span
  value : TokenValue := .none
deriving DecidableEq, Inhabited

namespace Token

/-- The text that a token carries; a token without one counts as empty. -/
def string (t : Token) : String :=
  match t.value with
  | .text s => s
  | _ => ""

/-- The number that a token carries; a token without one counts as zero. -/
def integer (t : Token) : UInt64 :=
  match t.value with
  | .number n => n
  | _ => 0

/-- What is reported at the end of a token: its value, or its kind if it has none. -/
def report (t : Token) : String :=
  match t.value with
  | .none => t.kind.text
  | .text s => s
  | .number n => toString n.toNat

/-- The line of a token in a listing. -/
def listing (t : Token) : String :=
  t.span.text ++ " " ++ t.kind.title ++ " " ++ t.value.listing

end Token

end ProcLang

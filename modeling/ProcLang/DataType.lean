/-!
The types of the language: no value, a signed 64-bit integer, an unsigned and a signed byte.
-/

namespace ProcLang

/-- A type of the language. -/
inductive DataType where
  | void
  | int
  | u8
  | s8
deriving DecidableEq, Inhabited

namespace DataType

/-- The keyword of a type. -/
def name : DataType → String
  | void => "void"
  | int => "int"
  | u8 => "u8"
  | s8 => "s8"

/-- The bytes that a variable of the type takes up. -/
def size : DataType → Nat
  | void => 0
  | int => 8
  | u8 => 1
  | s8 => 1

/-- The type is one byte wide. -/
def isByte : DataType → Bool
  | u8 | s8 => true
  | void | int => false

/-- The type has negative values. -/
def isSigned : DataType → Bool
  | int | s8 => true
  | void | u8 => false

/-- The largest literal that a type of one byte takes; the other types take every literal. -/
def literalLimit? : DataType → Option UInt64
  | u8 => some 255
  | s8 => some 127
  | void | int => none

end DataType

end ProcLang

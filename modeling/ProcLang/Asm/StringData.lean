/-!
The bytes of a string in the data section.  A backslash before `n`, `0`, `t` or a backslash is an
escape for one byte, read from the left; any other character stands for its UTF-8 bytes.
-/

namespace ProcLang

/-- The bytes that the raw characters of a string stand for. -/
def expandEscapes : List Char → List UInt8
  | [] => []
  | '\\' :: 'n' :: cs => 10 :: expandEscapes cs
  | '\\' :: '0' :: cs => 0 :: expandEscapes cs
  | '\\' :: 't' :: cs => 9 :: expandEscapes cs
  | '\\' :: '\\' :: cs => 92 :: expandEscapes cs
  | c :: cs => String.utf8EncodeChar c ++ expandEscapes cs

/-- The operands of the directive that lays down a string: its bytes and a final zero. -/
def byteList (raw : String) : String :=
  ", ".intercalate ((expandEscapes raw.toList ++ [0]).map fun (b : UInt8) => toString b.toNat)

end ProcLang

/-!
The value of a number's digits.  Values are 64-bit words; a digit that would carry the value past
the largest word stops the reading.
-/

namespace ProcLang

/-- The first byte of a character's UTF-8 form. -/
def firstByte (c : Char) : UInt8 := (String.utf8EncodeChar c).headD 0

/-- Why digits have no value. -/
inductive NumberFault where
  | noDigits
  | unexpected (c : Char)
  | tooLarge (digits : String)
deriving DecidableEq, Inhabited

/-- The message of a fault.  A character is shown by its first byte, read as a code point. -/
def NumberFault.message : NumberFault → String
  | noDigits => "invalid number format: no digits"
  | unexpected c =>
    "invalid number format: unexpected '" ++ String.singleton (Char.ofNat (firstByte c).toNat)
      ++ "'"
  | tooLarge digits => "integer literal " ++ digits ++ " does not fit in 64 bits"

/-- The value of a decimal digit. -/
def digitValue (c : Char) : Nat := c.toNat - '0'.toNat

/-- The word that digits continue, read from the left; `digits` is the whole run. -/
def readDigits (digits : String) : UInt64 → List Char → Except NumberFault UInt64
  | value, [] => .ok value
  | value, c :: rest =>
    if c.isDigit then
      let next := 10 * value.toNat + digitValue c
      if next < UInt64.size then readDigits digits next.toUInt64 rest
      else .error (.tooLarge digits)
    else .error (.unexpected c)

/-- The value of a number: `digits` behind a count of leading zeros.  Zeros alone are worth 0. -/
def parseInteger (leadingZeros : Nat) (digits : String) : Except NumberFault UInt64 :=
  if digits.isEmpty then
    if leadingZeros = 0 then .error .noDigits else .ok 0
  else readDigits digits 0 digits.toList

end ProcLang

import ProcLang.Text.Printable

/-!
The characters that leave no trace where they are not supported: the property
Default_Ignorable_Code_Point.  Most of them are format characters or marks; four are letters, the
Hangul fillers.
-/

namespace ProcLang.Text

/-- The code points with the property Default_Ignorable_Code_Point. -/
def ignorableRuns : List Nat := [
  173, 1, 673, 1, 716, 1, 2882, 2, 1619, 2, 85, 5, 2043, 5, 26, 5, 49, 16, 4340, 1, 52379, 16,
  239, 1, 160, 1, 79, 9, 48295, 4, 5327, 8, 798341, 4096]

/-- The character is ignorable by default. -/
def isIgnorable (c : Char) : Bool := inRuns ignorableRuns c.toNat

end ProcLang.Text

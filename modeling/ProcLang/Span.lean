/-!
Positions in source text.  Lines and columns count from one; a column counts the bytes of the
UTF-8 form, so a character moves the column by the number of its bytes.
-/

namespace ProcLang

/-- A line and a column, both counted from one. -/
structure Position where
  line : Nat := 1
  column : Nat := 1
deriving DecidableEq, Inhabited

namespace Position

/-- The position behind a character. -/
def step (p : Position) (c : Char) : Position :=
  if c = '\n' then ⟨p.line + 1, 1⟩ else ⟨p.line, p.column + c.utf8Size⟩

/-- The position behind a text. -/
def past (p : Position) (cs : List Char) : Position := cs.foldl step p

@[simp] theorem past_nil (p : Position) : p.past [] = p := rfl

@[simp] theorem past_cons (p : Position) (c : Char) (cs : List Char) :
    p.past (c :: cs) = (p.step c).past cs := rfl

@[simp] theorem past_append (p : Position) (cs ds : List Char) :
    p.past (cs ++ ds) = (p.past cs).past ds := List.foldl_append

end Position

/-- A position in a named file. -/
structure Span where
  file : String
  line : Nat
  column : Nat
deriving DecidableEq, Inhabited

/-- A position in a file. -/
def Position.within (p : Position) (file : String) : Span := ⟨file, p.line, p.column⟩

/-- The text of a span, `file:line:column`. -/
def Span.text (s : Span) : String := s.file ++ ":" ++ toString s.line ++ ":" ++ toString s.column

end ProcLang

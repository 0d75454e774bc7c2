import ProcLang.Error

/-!
The lexeme at the head of a text that does not start with trivia.  Each lexeme is the longest that
starts there: a whole run of digits or of name characters, a string up to the next quote, a mark of
two characters before one of one.
-/

namespace ProcLang

/-- A character that a name starts with. -/
def isNameStart (c : Char) : Bool := c.isAlpha || c == '_'

/-- A character of a name. -/
def isNameChar (c : Char) : Bool := c.isAlphanum || c == '_'

/-- A token without its place: what it is, the text it takes up, and the text behind it. -/
structure Lexeme where
  kind : TokenKind
  value : TokenValue
  text : List Char
  rest : List Char

/-- A reading of the head of a text: the characters that are reported one after another while it
goes on, and the lexeme that comes of it. -/
structure Reading where
  word : List Char
  result : Except LexicalCause Lexeme

/-- A run of digits.  A letter or an underscore must not follow. -/
def readNumber (cs : List Char) : Reading :=
  let run := cs.takeWhile Char.isDigit
  let rest := cs.dropWhile Char.isDigit
  let zeros := run.takeWhile (· == '0')
  let digits := run.dropWhile (· == '0')
  { word := run
    result :=
      if rest.head?.any isNameStart then .error .numberRunsOn
      else
        match parseInteger zeros.length (String.ofList digits) with
        | .error fault => .error (.number fault)
        | .ok value => .ok ⟨.number, .number value, run, rest⟩ }

/-- A string, from behind its opening quote. -/
def readString (cs : List Char) : Reading :=
  let contents := cs.takeWhile (· != '"')
  { word := contents
    result :=
      match cs.dropWhile (· != '"') with
      | [] => .error .unterminatedString
      | quote :: rest =>
        .ok ⟨.stringLiteral, .text (String.ofList contents), '"' :: contents ++ [quote], rest⟩ }

/-- The keyword with a spelling. -/
def keyword? (name : String) : Option TokenKind :=
  TokenKind.keywords.find? (·.spelling? == some name)

/-- A run of name characters: a keyword or an identifier. -/
def readName (cs : List Char) : Reading :=
  let run := cs.takeWhile isNameChar
  let rest := cs.dropWhile isNameChar
  let name := String.ofList run
  { word := run
    result :=
      match keyword? name with
      | some kind => .ok ⟨kind, .none, run, rest⟩
      | none => .ok ⟨.identifier, .text name, run, rest⟩ }

/-- The mark with a spelling, among some marks. -/
def mark? (marks : List TokenKind) (cs : List Char) : Option TokenKind :=
  marks.find? fun k => k.spelling?.map String.toList == some cs

/-- A mark: one of two characters if there is one, else one of one. -/
def readMark (c : Char) (cs : List Char) : Reading :=
  { word := []
    result :=
      match mark? TokenKind.doubleMarks (c :: cs.take 1) with
      | some kind => .ok ⟨kind, .none, c :: cs.take 1, cs.drop 1⟩
      | none =>
        match mark? TokenKind.singleMarks [c] with
        | some kind => .ok ⟨kind, .none, [c], cs⟩
        | none => .error (.invalidCharacter c) }

/-- The reading of a text by its first character. -/
def readLexeme (c : Char) (cs : List Char) : Reading :=
  if c.isDigit then readNumber (c :: cs)
  else if c == '"' then readString cs
  else if isNameStart c then readName (c :: cs)
  else readMark c cs

/-- Some of the text was read, and what was read stands before the rest. -/
def Lexeme.Splits (l : Lexeme) (cs : List Char) : Prop := l.text ≠ [] ∧ l.text ++ l.rest = cs

theorem splits_of_readNumber {c : Char} {cs : List Char} {l : Lexeme} (hc : c.isDigit)
    (h : (readNumber (c :: cs)).result = .ok l) : l.Splits (c :: cs) := by
  simp only [readNumber] at h
  split at h
  · cases h
  · split at h
    · cases h
    · cases h
      exact ⟨by simp [hc], List.takeWhile_append_dropWhile⟩

theorem splits_of_readString {cs : List Char} {l : Lexeme}
    (h : (readString cs).result = .ok l) : l.Splits ('"' :: cs) := by
  simp only [readString] at h
  split at h
  · cases h
  · rename_i quote rest hd
    cases h
    refine ⟨by simp, ?_⟩
    have := List.takeWhile_append_dropWhile (p := (· != '"')) (l := cs)
    rw [hd] at this
    simpa using this

theorem splits_of_readName {c : Char} {cs : List Char} {l : Lexeme} (hc : isNameChar c)
    (h : (readName (c :: cs)).result = .ok l) : l.Splits (c :: cs) := by
  simp only [readName] at h
  split at h <;> cases h <;> exact ⟨by simp [hc], List.takeWhile_append_dropWhile⟩

theorem splits_of_readMark {c : Char} {cs : List Char} {l : Lexeme}
    (h : (readMark c cs).result = .ok l) : l.Splits (c :: cs) := by
  simp only [readMark] at h
  split at h
  · cases h
    exact ⟨by simp, congrArg (c :: ·) (List.take_append_drop 1 cs)⟩
  · split at h
    · cases h
      exact ⟨by simp, by simp⟩
    · cases h

theorem isNameChar_of_isNameStart {c : Char} (h : isNameStart c) : isNameChar c := by
  simp only [isNameStart, isNameChar, Char.isAlphanum, Bool.or_eq_true] at h ⊢
  rcases h with h | h
  · exact .inl (.inl h)
  · exact .inr h

/-- A lexeme and the text behind it are the text it was read from. -/
theorem splits_of_readLexeme {c : Char} {cs : List Char} {l : Lexeme}
    (h : (readLexeme c cs).result = .ok l) : l.Splits (c :: cs) := by
  unfold readLexeme at h
  split at h
  · rename_i hc
    exact splits_of_readNumber hc h
  · split at h
    · rename_i hc
      cases beq_iff_eq.mp hc
      exact splits_of_readString h
    · split at h
      · rename_i hc
        exact splits_of_readName (isNameChar_of_isNameStart hc) h
      · exact splits_of_readMark h

end ProcLang

/-!
What stands between tokens: blanks, comments to the end of the line, and block comments, which
nest.  Inside a block comment two slashes are passed over as a pair, so that a star behind them
does not open a further level.
-/

namespace ProcLang

/-- A blank: space, tab, newline, carriage return or form feed. -/
def isBlank (c : Char) : Bool :=
  c == ' ' || c == '\t' || c == '\n' || c == '\r' || c == '\x0c'

/-- The text of a block comment of which some levels are open, up to the end of the outermost, and
what follows it; nothing if the comment does not end. -/
def closeComment : Nat → List Char → Option (List Char × List Char)
  | 0, cs => some ([], cs)
  | _ + 1, [] => none
  | depth + 1, '/' :: '/' :: cs =>
    (closeComment (depth + 1) cs).map fun (body, rest) => ('/' :: '/' :: body, rest)
  | depth + 1, '/' :: '*' :: cs =>
    (closeComment (depth + 2) cs).map fun (body, rest) => ('/' :: '*' :: body, rest)
  | depth + 1, '*' :: '/' :: cs =>
    (closeComment depth cs).map fun (body, rest) => ('*' :: '/' :: body, rest)
  | depth + 1, c :: cs => (closeComment (depth + 1) cs).map fun (body, rest) => (c :: body, rest)

/-- A closed comment and what follows it are the text it was read from. -/
theorem closeComment_append {depth : Nat} {cs body rest : List Char}
    (h : closeComment depth cs = some (body, rest)) : body ++ rest = cs := by
  fun_induction closeComment depth cs generalizing body rest with
  | case1 => simp_all
  | case2 => simp at h
  | case3 _ _ ih | case4 _ _ ih | case5 _ _ ih | case6 _ _ _ _ _ _ ih =>
    obtain ⟨⟨b, r⟩, hb, heq⟩ := Option.map_eq_some_iff.mp h
    cases heq
    simp [ih hb]

/-- The text up to the end of the line. -/
def lineOf (cs : List Char) : List Char := cs.takeWhile (· != '\n')

/-- The text from the end of the line. -/
def afterLine (cs : List Char) : List Char := cs.dropWhile (· != '\n')

/-- The blanks and comments at the head of a text, and what follows them.  A block comment that
does not end is not passed over, so what follows starts with its opening. -/
def trivia (cs : List Char) : List Char × List Char :=
  match cs with
  | [] => ([], [])
  | '/' :: '/' :: line =>
    let (skipped, rest) := trivia (afterLine line)
    ('/' :: '/' :: lineOf line ++ skipped, rest)
  | '/' :: '*' :: inside =>
    match _h : closeComment 1 inside with
    | none => ([], '/' :: '*' :: inside)
    | some (body, after) =>
      let (skipped, rest) := trivia after
      ('/' :: '*' :: body ++ skipped, rest)
  | c :: after =>
    if isBlank c then
      let (skipped, rest) := trivia after
      (c :: skipped, rest)
    else ([], c :: after)
termination_by cs.length
decreasing_by
  · have := (List.dropWhile_sublist (l := line) (· != '\n')).length_le
    simp only [afterLine, List.length_cons]
    omega
  · have := congrArg List.length (closeComment_append _h)
    simp only [List.length_append, List.length_cons] at this ⊢
    omega
  · simp

/-- Trivia and what follows it are the text they were read from. -/
theorem trivia_append (cs : List Char) : (trivia cs).1 ++ (trivia cs).2 = cs := by
  fun_induction trivia cs with
  | case1 => rfl
  | case2 line skipped rest h ih =>
    rw [h] at ih
    have := List.takeWhile_append_dropWhile (p := (· != '\n')) (l := line)
    simp only [lineOf, afterLine] at ih ⊢
    simp [ih, this]
  | case3 => rfl
  | case4 inside body after hb skipped rest h ih =>
    rw [h] at ih
    simp [ih, closeComment_append hb]
  | case5 c after _ _ hc skipped rest h ih =>
    rw [h] at ih
    simpa using ih
  | case6 => rfl

end ProcLang

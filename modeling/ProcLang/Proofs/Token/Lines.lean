import ProcLang.Proofs.Token.Munch

/-!
Texts line by line.  Where a text is read to its end, a newline behind it ends its last lexeme or
comment and starts a new line, and nothing of what was read has a bearing on what follows: the rest
is read as a text of its own that stands further down.

No character of a lexeme is a newline, strings apart, and a string that was read is closed.  So what
stands behind a newline decides neither how long a lexeme is nor whether it is one.
-/

namespace ProcLang

/-! ### Further down -/

/-- The position a number of lines further down. -/
def Position.down (n : Nat) (p : Position) : Position := { p with line := p.line + n }

/-- The span a number of lines further down. -/
def Span.down (n : Nat) (s : Span) : Span := { s with line := s.line + n }

/-- The token a number of lines further down. -/
def Token.down (n : Nat) (t : Token) : Token := { t with span := t.span.down n }

/-- The error a number of lines further down. -/
def CompileError.down (n : Nat) : CompileError → CompileError
  | lexical s cause => lexical (s.down n) cause
  | grammar s cause => grammar (s.down n) cause
  | semantic s cause => semantic (s.map (Span.down n)) cause
  | resource cause => resource cause
  | cancelled => cancelled

/-- What becomes of a text that is read behind some tokens and a number of lines further down. -/
def continued (before : List Token) (n : Nat) :
    Except CompileError (List Token) → Except CompileError (List Token)
  | .ok tokens => .ok (before ++ tokens.map (Token.down n))
  | .error e => .error (e.down n)

theorem continued_nil_map (n : Nat) (t : Token) (result : Except CompileError (List Token)) :
    continued [] n (result.map (t :: ·)) = (continued [] n result).map (t.down n :: ·) := by
  cases result <;> rfl

namespace Position

theorem step_down (n : Nat) (p : Position) (c : Char) : (p.down n).step c = (p.step c).down n := by
  unfold step
  split
  · simp only [down, mk.injEq, and_true]
    omega
  · rfl

theorem past_down (n : Nat) (cs : List Char) :
    ∀ p : Position, (p.down n).past cs = (p.past cs).down n := by
  induction cs with
  | nil => intro p; rfl
  | cons c cs ih =>
    intro p
    rw [past_cons, past_cons, step_down, ih]

theorem line_past (cs : List Char) : ∀ p : Position, (p.past cs).line = p.line + cs.count '\n' := by
  induction cs with
  | nil => intro p; rfl
  | cons c cs ih =>
    intro p
    rw [past_cons, ih, step]
    by_cases hc : c = '\n'
    · rw [if_pos hc, hc, List.count_cons_self]
      show p.line + 1 + cs.count '\n' = p.line + (cs.count '\n' + 1)
      omega
    · rw [if_neg hc, List.count_cons_of_ne hc]

/-- Behind a text and a newline a line starts, as many lines down as there are newlines. -/
theorem step_past (cs : List Char) :
    (({} : Position).past cs).step '\n' = ({} : Position).down (1 + cs.count '\n') := by
  have hline := line_past cs {}
  simp only [step, if_pos, down, mk.injEq, and_true]
  rw [hline]
  show 1 + cs.count '\n' + 1 = 1 + (1 + cs.count '\n')
  omega

end Position

section Down

variable (file : String) (n : Nat)

/-- A token is read in the same way further down. -/
theorem scan_down (pos : Position) (cs : List Char) :
    (scan file (pos.down n) cs).result =
        ((scan file pos cs).result.map (Token.down n)).mapError (CompileError.down n) ∧
      (scan file (pos.down n) cs).next =
        (scan file pos cs).next.map (Prod.map (Position.down n) id) := by
  simp only [scan, Position.past_down]
  split
  · exact ⟨rfl, rfl⟩
  · exact ⟨rfl, rfl⟩
  · split
    · exact ⟨rfl, rfl⟩
    · exact ⟨rfl, rfl⟩

theorem scans_of_last {pos : Position} {cs : List Char} (h : (scan file pos cs).next = none) :
    scans file pos cs = [scan file pos cs] := by
  rw [scans]
  split
  · rfl
  · next heq => cases h.symm.trans heq

theorem scans_of_next {pos p : Position} {cs rest : List Char}
    (h : (scan file pos cs).next = some (p, rest)) :
    scans file pos cs = scan file pos cs :: scans file p rest := by
  rw [scans]
  split
  · next heq => cases h.symm.trans heq
  · next heq =>
    obtain ⟨rfl, rfl⟩ := Prod.mk.inj (Option.some.inj (h.symm.trans heq))
    rfl

/-- A text is read in the same way further down. -/
theorem tokensOf_scans_down (pos : Position) (cs : List Char) :
    tokensOf (scans file (pos.down n) cs) = continued [] n (tokensOf (scans file pos cs)) := by
  fun_induction scans file pos cs with
  | case1 pos cs first hnext =>
    obtain ⟨hresult, hnext'⟩ := scan_down file n pos cs
    rw [hnext] at hnext'
    rw [scans_of_last file hnext']
    cases hres : first.result with
    | ok t =>
      rw [hres] at hresult
      rw [tokensOf_ok hresult, tokensOf_ok hres]
      rfl
    | error e =>
      rw [hres] at hresult
      rw [tokensOf_error hresult, tokensOf_error hres]
      rfl
  | case2 pos cs first p rest hnext ih =>
    obtain ⟨hresult, hnext'⟩ := scan_down file n pos cs
    rw [hnext] at hnext'
    rw [scans_of_next file hnext']
    cases hres : first.result with
    | ok t =>
      rw [hres] at hresult
      rw [tokensOf_ok hresult, tokensOf_ok hres, continued_nil_map]
      exact congrArg _ ih
    | error e =>
      rw [hres] at hresult
      rw [tokensOf_error hresult, tokensOf_error hres]
      rfl

end Down

/-! ### Behind a newline -/

section Runs

variable {p : Char → Bool} {x : Char} (hx : p x = false) (cs ds : List Char)

include hx

/-- A run of characters of a class ends before one that is not in the class. -/
theorem takeWhile_append_stop : (cs ++ x :: ds).takeWhile p = cs.takeWhile p := by
  induction cs with
  | nil => simp [hx]
  | cons c cs ih => by_cases hc : p c <;> simp [hc, ih]

theorem dropWhile_append_stop : (cs ++ x :: ds).dropWhile p = cs.dropWhile p ++ x :: ds := by
  induction cs with
  | nil => simp [hx]
  | cons c cs ih => by_cases hc : p c <;> simp [hc, ih]

end Runs

/-- A comment that is closed stays so, whatever follows. -/
theorem closeComment_append_right {depth : Nat} {cs body rest : List Char} (ds : List Char)
    (h : closeComment depth cs = some (body, rest)) :
    closeComment depth (cs ++ ds) = some (body, rest ++ ds) := by
  fun_induction closeComment depth cs generalizing body rest with
  | case1 =>
    cases h
    simp [closeComment]
  | case2 => cases h
  | case3 _ _ ih | case4 _ _ ih | case5 _ _ ih =>
    obtain ⟨⟨b, r⟩, hb, heq⟩ := Option.map_eq_some_iff.mp h
    cases heq
    simp [closeComment, ih hb]
  | case6 depth c cs hslashes hdeeper hup ih =>
    obtain ⟨⟨b, r⟩, hb, heq⟩ := Option.map_eq_some_iff.mp h
    cases heq
    have hne : cs ≠ [] := by
      rintro rfl
      simp [closeComment] at hb
    obtain ⟨c', cs, rfl⟩ := List.exists_cons_of_ne_nil hne
    rw [List.cons_append, closeComment.eq_6, ih hb]
    · rfl
    · rintro t rfl htail
      exact hslashes cs rfl (by rw [(List.cons.inj htail).1])
    · rintro t rfl htail
      exact hdeeper cs rfl (by rw [(List.cons.inj htail).1])
    · rintro t rfl htail
      exact hup cs rfl (by rw [(List.cons.inj htail).1])

theorem trivia_line (line : List Char) :
    trivia ('/' :: '/' :: line) =
      ('/' :: '/' :: lineOf line ++ (trivia (afterLine line)).1, (trivia (afterLine line)).2) := by
  rw [trivia]

theorem trivia_block {inside body after : List Char} (h : closeComment 1 inside = some (body, after)) :
    trivia ('/' :: '*' :: inside) = ('/' :: '*' :: body ++ (trivia after).1, (trivia after).2) := by
  rw [trivia]
  split
  · next heq => cases h.symm.trans heq
  · next heq =>
    obtain ⟨rfl, rfl⟩ := Prod.mk.inj (Option.some.inj (h.symm.trans heq))
    rfl

theorem trivia_blank {c : Char} (after : List Char) (hc : isBlank c = true) :
    trivia (c :: after) = (c :: (trivia after).1, (trivia after).2) := by
  have hslash : c ≠ '/' := by
    rintro rfl
    exact absurd hc (by decide)
  rw [trivia.eq_4, if_pos hc]
  · rintro _ rfl _
    exact hslash rfl
  · rintro _ rfl _
    exact hslash rfl

theorem trivia_lexeme {c : Char} {after : List Char} (hc : isBlank c = false)
    (hslashes : ∀ t, c :: after ≠ '/' :: '/' :: t) (hopen : ∀ t, c :: after ≠ '/' :: '*' :: t) :
    trivia (c :: after) = ([], c :: after) := by
  rw [trivia.eq_4, if_neg (by simp [hc])]
  · rintro t rfl rfl
    exact hslashes t rfl
  · rintro t rfl rfl
    exact hopen t rfl

/-- Trivia leaves neither a blank nor a comment to the end of the line. -/
theorem starts_behind_trivia {cs after : List Char} {c : Char} (h : (trivia cs).2 = c :: after) :
    isBlank c = false ∧ ∀ t, c :: after ≠ '/' :: '/' :: t := by
  fun_induction trivia cs with
  | case1 => cases h
  | case2 line skipped rest heq ih =>
    rw [heq] at ih
    exact ih h
  | case3 inside hclose =>
    cases h
    exact ⟨by decide, fun t ht => by cases ht⟩
  | case4 inside body after' hclose skipped rest heq ih =>
    rw [heq] at ih
    exact ih h
  | case5 c' after' hslashes hopen hc skipped rest heq ih =>
    rw [heq] at ih
    exact ih h
  | case6 c' after' hslashes hopen hc =>
    cases h
    refine ⟨by simpa using hc, fun t ht => ?_⟩
    obtain ⟨rfl, rfl⟩ := List.cons.inj ht
    exact hslashes t rfl rfl

/-- The trivia of a text goes on behind a newline if it took the whole text. -/
theorem trivia_append_newline (cs ds : List Char) :
    trivia (cs ++ '\n' :: ds) = ((trivia cs).1 ++ (trivia ((trivia cs).2 ++ '\n' :: ds)).1,
      (trivia ((trivia cs).2 ++ '\n' :: ds)).2) := by
  fun_induction trivia cs with
  | case1 => rfl
  | case2 line skipped rest heq ih =>
    have hline : lineOf (line ++ '\n' :: ds) = lineOf line := takeWhile_append_stop (by decide) line ds
    have hafter : afterLine (line ++ '\n' :: ds) = afterLine line ++ '\n' :: ds :=
      dropWhile_append_stop (by decide) line ds
    rw [heq] at ih
    rw [List.cons_append, List.cons_append, trivia_line, hline, hafter, ih]
    simp
  | case3 inside hclose => rfl
  | case4 inside body after hclose skipped rest heq ih =>
    rw [heq] at ih
    rw [List.cons_append, List.cons_append, trivia_block (closeComment_append_right _ hclose), ih]
    simp
  | case5 c after hslashes hopen hc skipped rest heq ih =>
    rw [heq] at ih
    rw [List.cons_append, trivia_blank _ hc, ih]
    rfl
  | case6 c after hslashes hopen hc => rfl

/-- Trivia up to the end of a text goes on behind a newline. -/
theorem trivia_newline_of_nil {cs : List Char} (ds : List Char) (h : (trivia cs).2 = []) :
    trivia (cs ++ '\n' :: ds) = (cs ++ '\n' :: (trivia ds).1, (trivia ds).2) := by
  have hcs : (trivia cs).1 = cs := by
    have happ := trivia_append cs
    rwa [h, List.append_nil] at happ
  rw [trivia_append_newline, h, hcs, List.nil_append, trivia_blank ds (by decide)]

/-- A newline does not make a pair that opens a comment. -/
theorem not_pair_newline {c x y : Char} {after : List Char} (ds : List Char) (hy : y ≠ '\n')
    (h : ∀ t, c :: after ≠ x :: y :: t) (t : List Char) :
    c :: (after ++ '\n' :: ds) ≠ x :: y :: t := by
  intro ht
  cases after with
  | nil =>
    obtain ⟨-, ht⟩ := List.cons.inj ht
    exact hy (List.cons.inj ht).1.symm
  | cons c' after =>
    cases ht
    exact h after rfl

/-- Trivia before a lexeme ends there. -/
theorem trivia_newline_of_cons {cs after : List Char} {c : Char} (ds : List Char)
    (h : (trivia cs).2 = c :: after) (hopen : ∀ t, c :: after ≠ '/' :: '*' :: t) :
    trivia (cs ++ '\n' :: ds) = ((trivia cs).1, c :: (after ++ '\n' :: ds)) := by
  obtain ⟨hblank, hslashes⟩ := starts_behind_trivia h
  have hstop : trivia (c :: (after ++ '\n' :: ds)) = ([], c :: (after ++ '\n' :: ds)) :=
    trivia_lexeme hblank (not_pair_newline ds (by decide) hslashes)
      (not_pair_newline ds (by decide) hopen)
  rw [trivia_append_newline, h, List.cons_append, hstop, List.append_nil]

/-! ### Lexemes before a newline -/

/-- The lexeme with more text behind it. -/
def Lexeme.before (l : Lexeme) (more : List Char) : Lexeme := { l with rest := l.rest ++ more }

section Lexemes

variable {c : Char} {cs : List Char} {l : Lexeme} (ds : List Char)

theorem readNumber_newline (h : (readNumber cs).result = .ok l) :
    (readNumber (cs ++ '\n' :: ds)).result = .ok (l.before ('\n' :: ds)) := by
  have hhead : (cs.dropWhile Char.isDigit ++ '\n' :: ds).head?.any isNameStart =
      (cs.dropWhile Char.isDigit).head?.any isNameStart := by
    cases cs.dropWhile Char.isDigit with
    | nil =>
      show isNameStart '\n' = false
      decide
    | cons c rest => rfl
  have htake : (cs ++ '\n' :: ds).takeWhile Char.isDigit = cs.takeWhile Char.isDigit :=
    takeWhile_append_stop (by decide) cs ds
  have hdrop : (cs ++ '\n' :: ds).dropWhile Char.isDigit = cs.dropWhile Char.isDigit ++ '\n' :: ds :=
    dropWhile_append_stop (by decide) cs ds
  simp only [readNumber, htake, hdrop, hhead] at h ⊢
  split at h
  · cases h
  · next hruns =>
    rw [if_neg hruns]
    split at h
    · cases h
    · cases h
      rfl

theorem readString_newline (h : (readString cs).result = .ok l) :
    (readString (cs ++ '\n' :: ds)).result = .ok (l.before ('\n' :: ds)) := by
  simp only [readString] at h ⊢
  cases hd : cs.dropWhile (· != '"') with
  | nil =>
    rw [hd] at h
    cases h
  | cons q rest =>
    have hq : (q != '"') = false := by
      have := List.head?_dropWhile_not (· != '"') cs
      simpa [hd] using this
    rw [hd] at h
    cases h
    -- the string ends at its quote, with and without the newline
    have hcs : cs.takeWhile (· != '"') ++ q :: rest = cs := by
      rw [← hd, List.takeWhile_append_dropWhile]
    have htake : (cs ++ '\n' :: ds).takeWhile (· != '"') = cs.takeWhile (· != '"') := by
      rw [← hcs, List.append_assoc, List.cons_append,
        takeWhile_append_stop (p := (· != '"')) hq, takeWhile_append_stop (p := (· != '"')) hq]
    have hdrop : (cs ++ '\n' :: ds).dropWhile (· != '"') = q :: (rest ++ '\n' :: ds) := by
      rw [List.dropWhile_append, hd]
      rfl
    rw [htake, hdrop]
    rfl

theorem readName_newline (h : (readName cs).result = .ok l) :
    (readName (cs ++ '\n' :: ds)).result = .ok (l.before ('\n' :: ds)) := by
  have htake : (cs ++ '\n' :: ds).takeWhile isNameChar = cs.takeWhile isNameChar :=
    takeWhile_append_stop (by decide) cs ds
  have hdrop : (cs ++ '\n' :: ds).dropWhile isNameChar = cs.dropWhile isNameChar ++ '\n' :: ds :=
    dropWhile_append_stop (by decide) cs ds
  simp only [readName, htake, hdrop] at h ⊢
  split at h
  · cases h
    rfl
  · cases h
    rfl

theorem newline_not_mem_double : ∀ k ∈ TokenKind.doubleMarks, ∀ s ∈ k.spelling?, '\n' ∉ s.toList := by
  decide

theorem double?_one (c : Char) : mark? TokenKind.doubleMarks [c] = none := by
  cases hk : mark? TokenKind.doubleMarks [c] with
  | none => rfl
  | some k =>
    obtain ⟨hmem, s, hs, hspell⟩ := mark?_eq_some hk
    have hlen := (double_spelling k hmem s hs).1
    rw [hspell] at hlen
    cases hlen

theorem double?_newline (c : Char) : mark? TokenKind.doubleMarks [c, '\n'] = none := by
  cases hk : mark? TokenKind.doubleMarks [c, '\n'] with
  | none => rfl
  | some k =>
    obtain ⟨hmem, s, hs, hspell⟩ := mark?_eq_some hk
    have hno := newline_not_mem_double k hmem s hs
    rw [hspell] at hno
    exact absurd (List.mem_cons_of_mem c List.mem_cons_self) hno

theorem readMark_newline (h : (readMark c cs).result = .ok l) :
    (readMark c (cs ++ '\n' :: ds)).result = .ok (l.before ('\n' :: ds)) := by
  cases cs with
  | nil =>
    simp only [readMark, List.take_nil, double?_one] at h
    simp only [readMark, List.nil_append, List.take_succ_cons, List.take_zero, double?_newline]
    split at h
    · cases h
      rfl
    · cases h
  | cons c' cs =>
    simp only [readMark, List.cons_append, List.take_succ_cons, List.take_zero, List.drop_succ_cons,
      List.drop_zero] at h ⊢
    split at h
    · cases h
      rfl
    · split at h
      · cases h
        rfl
      · cases h

/-- A lexeme that is read before the end of a text is read before a newline. -/
theorem readLexeme_newline (h : (readLexeme c cs).result = .ok l) :
    (readLexeme c (cs ++ '\n' :: ds)).result = .ok (l.before ('\n' :: ds)) := by
  unfold readLexeme at h ⊢
  split_ifs at h ⊢
  · exact readNumber_newline ds h
  · exact readString_newline ds h
  · exact readName_newline ds h
  · exact readMark_newline ds h

end Lexemes

/-! ### Texts before a newline -/

section Texts

variable {file : String} {pos : Position} {cs : List Char} {t : Token} (ds : List Char)

/-- What a token is read from: the end of the text, or a lexeme. -/
theorem cases_of_scan (h : (scan file pos cs).result = .ok t) :
    ((trivia cs).2 = [] ∧ t.kind = .eof ∧ (scan file pos cs).next = none) ∨
      ∃ c rest l, (trivia cs).2 = c :: rest ∧ (∀ s, c :: rest ≠ '/' :: '*' :: s) ∧
        (readLexeme c rest).result = .ok l := by
  simp only [scan] at h
  split at h
  · next hnil =>
    cases h
    exact .inl ⟨hnil, rfl, by simp only [scan, hnil]⟩
  · cases h
  · next c rest hopen heq =>
    split at h
    · cases h
    · next l hl =>
      refine .inr ⟨c, rest, l, heq, fun s hs => ?_, hl⟩
      obtain ⟨rfl, rfl⟩ := List.cons.inj hs
      exact hopen s rfl rfl

theorem scan_of_lexeme (file : String) (pos : Position) {c : Char} {rest : List Char} {l : Lexeme}
    (h : (trivia cs).2 = c :: rest) (hopen : ∀ s, c :: rest ≠ '/' :: '*' :: s)
    (hl : (readLexeme c rest).result = .ok l) :
    (scan file pos cs).result = .ok ⟨l.kind, (pos.past (trivia cs).1).within file, l.value⟩ ∧
      (scan file pos cs).next = some (pos.past ((trivia cs).1 ++ l.text), l.rest) := by
  simp only [scan, h]
  split
  · next heq => cases heq
  · next s heq => exact absurd heq (hopen s)
  · next heq =>
    cases heq
    rw [hl, Position.past_append]
    exact ⟨rfl, rfl⟩

/-- Where a text ends, it goes on behind a newline. -/
theorem scan_newline_of_nil (h : (trivia cs).2 = []) :
    scan file pos (cs ++ '\n' :: ds) = scan file ((pos.past cs).step '\n') ds := by
  simp only [scan, trivia_newline_of_nil ds h, Position.past_append, Position.past_cons]

/-- A token before the end of a text is read before a newline. -/
theorem scan_newline_of_next {p : Position} {rest : List Char} (h : (scan file pos cs).result = .ok t)
    (hnext : (scan file pos cs).next = some (p, rest)) :
    p.past rest = pos.past cs ∧ (scan file pos (cs ++ '\n' :: ds)).result = .ok t ∧
      (scan file pos (cs ++ '\n' :: ds)).next = some (p, rest ++ '\n' :: ds) := by
  rcases cases_of_scan h with ⟨-, -, hnone⟩ | ⟨c, rest', l, hcons, hopen, hl⟩
  · cases hnext.symm.trans hnone
  · obtain ⟨hresult, hnext'⟩ := scan_of_lexeme file pos hcons hopen hl
    obtain ⟨rfl, rfl⟩ := Prod.mk.inj (Option.some.inj (hnext.symm.trans hnext'))
    obtain rfl := Except.ok.inj (h.symm.trans hresult)
    have hcs : (trivia cs).1 ++ (l.text ++ l.rest) = cs := by
      rw [(splits_of_readLexeme hl).2, ← hcons, trivia_append]
    have htrivia := trivia_newline_of_cons ds hcons hopen
    refine ⟨?_, ?_⟩
    · conv_rhs => rw [← hcs, ← List.append_assoc, Position.past_append]
    · have hcons' : (trivia (cs ++ '\n' :: ds)).2 = c :: (rest' ++ '\n' :: ds) := by rw [htrivia]
      have hscan := scan_of_lexeme file pos hcons' (not_pair_newline ds (by decide) hopen)
        (readLexeme_newline ds hl)
      rwa [htrivia] at hscan

/-- A text that is read to its end is read in the same way before a newline, and what stands behind the
newline as a text of its own. -/
theorem tokensOf_scans_newline (file : String) (pos : Position) (cs ds : List Char) :
    ∀ {tokens : List Token}, tokensOf (scans file pos cs) = .ok tokens →
      ∃ before stop, tokens = before ++ [stop] ∧ stop.kind = .eof ∧
        tokensOf (scans file pos (cs ++ '\n' :: ds)) =
          (tokensOf (scans file ((pos.past cs).step '\n') ds)).map (before ++ ·) := by
  fun_induction scans file pos cs with
  | case1 pos cs first =>
    rename_i hnext
    intro tokens h
    cases hres : first.result with
    | error e =>
      rw [tokensOf_error hres] at h
      cases h
    | ok t =>
      rw [tokensOf_ok hres] at h
      obtain rfl := Except.ok.inj h
      rcases cases_of_scan hres with ⟨hnil, hkind, -⟩ | ⟨c, rest, l, hcons, hopen, hl⟩
      · refine ⟨[], t, rfl, hkind, ?_⟩
        have hscans : scans file pos (cs ++ '\n' :: ds) = scans file ((pos.past cs).step '\n') ds := by
          rw [scans, scans.eq_1 file ((pos.past cs).step '\n'), scan_newline_of_nil ds hnil]
        rw [hscans]
        cases tokensOf (scans file ((pos.past cs).step '\n') ds) <;> rfl
      · obtain ⟨-, hnext'⟩ := scan_of_lexeme file pos hcons hopen hl
        cases hnext.symm.trans hnext'
  | case2 pos cs first p rest =>
    rename_i hnext ih
    intro tokens h
    cases hres : first.result with
    | error e =>
      rw [tokensOf_error hres] at h
      cases h
    | ok t =>
      rw [tokensOf_ok hres] at h
      cases hrest : tokensOf (scans file p rest) with
      | error e =>
        rw [hrest] at h
        cases h
      | ok tokens' =>
        rw [hrest] at h
        obtain rfl := Except.ok.inj h
        obtain ⟨before, stop, rfl, hkind, htokens⟩ := ih hrest
        obtain ⟨hpast, hresult, hnext'⟩ := scan_newline_of_next ds hres hnext
        refine ⟨t :: before, stop, rfl, hkind, ?_⟩
        rw [scans_of_next file hnext', tokensOf_ok hresult, htokens, hpast]
        cases tokensOf (scans file ((pos.past cs).step '\n') ds) <;> rfl

end Texts

/-- **Reading goes line by line.**  If a text is read to its end, then a text that has it up to a newline
is read as its tokens, without the end, and behind them the tokens of what follows the newline; these
are as many lines further down as there are newlines before them.  If what follows cannot be read, the
whole fails for the same cause, that many lines further down. -/
theorem tokenize_lines (file a b : String) {tokens : List Token} (h : tokenize file a = .ok tokens) :
    ∃ before stop, tokens = before ++ [stop] ∧ stop.kind = .eof ∧
      tokenize file (a ++ "\n" ++ b) =
        continued before (1 + a.toList.count '\n') (tokenize file b) := by
  obtain ⟨before, stop, htokens, hkind, hscans⟩ := tokensOf_scans_newline file {} a.toList b.toList h
  refine ⟨before, stop, htokens, hkind, ?_⟩
  have htext : (a ++ "\n" ++ b).toList = a.toList ++ '\n' :: b.toList := by simp
  unfold tokenize
  rw [htext, hscans, Position.step_past, tokensOf_scans_down]
  cases tokensOf (scans file {} b.toList) <;> rfl

/-- A slash at the end of a line and a comment at the end of the text: neither meets what follows. -/
theorem tokenize_lines_comment :
    tokenize "t.mc" "x /\n// c" = .ok [⟨.identifier, ⟨"t.mc", 1, 1⟩, .text "x"⟩,
      ⟨.slash, ⟨"t.mc", 1, 3⟩, .none⟩, ⟨.eof, ⟨"t.mc", 2, 5⟩, .none⟩] ∧
    tokenize "t.mc" ("x /\n// c" ++ "\n" ++ "/ 1") = .ok [⟨.identifier, ⟨"t.mc", 1, 1⟩, .text "x"⟩,
      ⟨.slash, ⟨"t.mc", 1, 3⟩, .none⟩, ⟨.slash, ⟨"t.mc", 3, 1⟩, .none⟩,
      ⟨.number, ⟨"t.mc", 3, 3⟩, .number 1⟩, ⟨.eof, ⟨"t.mc", 3, 4⟩, .none⟩] ∧
    tokenize "t.mc" ("x /\n// c" ++ "\n" ++ "/ \"") =
      .error (.lexical ⟨"t.mc", 3, 3⟩ .unterminatedString) := by
  have ha : tokenize "t.mc" "x /\n// c" = .ok [⟨.identifier, ⟨"t.mc", 1, 1⟩, .text "x"⟩,
      ⟨.slash, ⟨"t.mc", 1, 3⟩, .none⟩, ⟨.eof, ⟨"t.mc", 2, 5⟩, .none⟩] := by decide +kernel
  refine ⟨ha, ?_, ?_⟩
  · have hb : tokenize "t.mc" "/ 1" = .ok [⟨.slash, ⟨"t.mc", 1, 1⟩, .none⟩,
        ⟨.number, ⟨"t.mc", 1, 3⟩, .number 1⟩, ⟨.eof, ⟨"t.mc", 1, 4⟩, .none⟩] := by decide +kernel
    obtain ⟨before, stop, htokens, -, heq⟩ := tokenize_lines "t.mc" "x /\n// c" "/ 1" ha
    have hbefore := congrArg List.dropLast htokens
    rw [List.dropLast_concat] at hbefore
    rw [heq, ← hbefore, hb]
    rfl
  · have hb : tokenize "t.mc" "/ \"" = .error (.lexical ⟨"t.mc", 1, 3⟩ .unterminatedString) := by
      decide +kernel
    obtain ⟨before, stop, htokens, -, heq⟩ := tokenize_lines "t.mc" "x /\n// c" "/ \"" ha
    rw [heq, hb]
    rfl

end ProcLang

import ProcLang.Proofs.Token.Place
import ProcLang.Proofs.Token.Printing

/-!
Integer literals are exact.  Digits have the value they spell, if that is a word; otherwise they have no
value, whichever digit carries it too far.  So a run of digits in a source text is a number with the value
of the whole run, zeros in front included, or a failure at the place where the run starts.
-/

namespace ProcLang

open Lexis

/-! ### Words in front of a rest -/

/-- Names in front of what does not go on with them are told apart. -/
theorem name_unique {a b x y : List Char} (ha : ∀ c ∈ a, isNameChar c) (hb : ∀ c ∈ b, isNameChar c)
    (hx : ∀ c ∈ x.head?, ¬ isNameChar c) (hy : ∀ c ∈ y.head?, ¬ isNameChar c) (h : a ++ x = b ++ y) :
    a = b ∧ x = y := by
  obtain rfl := run_unique hb ha hx hy h
  exact ⟨rfl, List.append_cancel_left h⟩

/-- What stands in front of a character that is not in it, and behind it. -/
theorem split_unique {mark : Char} {a b x y : List Char} (ha : mark ∉ a) (hb : mark ∉ b)
    (h : a ++ mark :: x = b ++ mark :: y) : a = b ∧ x = y := by
  have heq := run_unique (q := (· ≠ mark)) (fun c hc h => hb (h ▸ hc)) (fun c hc h => ha (h ▸ hc))
    (by rintro c ⟨⟩; simp) (by rintro c ⟨⟩; simp) h
  rw [heq] at h
  exact ⟨heq, (List.cons.inj (List.append_cancel_left h)).2⟩

theorem natural_chars (n : Nat) : ∀ c ∈ (toString n).toList, c.isDigit := by
  intro c hc
  rw [Nat.toString_eq_ofList_toDigits, String.toList_ofList] at hc
  exact Nat.isDigit_of_mem_toDigits (by decide) (by decide) hc

theorem natural_inj {m n : Nat} (h : toString m = toString n) : m = n := by
  rw [← decimal_toString m, h, decimal_toString]

/-! ### The value of digits -/

theorem isDigit_of_readDigits {digits : String} {value v : UInt64} {cs : List Char}
    (h : readDigits digits value cs = .ok v) : ∀ c ∈ cs, c.isDigit := by
  induction cs generalizing value with
  | nil => simp
  | cons c cs ih =>
    simp only [readDigits] at h
    split at h
    next hc =>
      split at h
      · exact List.forall_mem_cons.mpr ⟨hc, ih h⟩
      · cases h
    · cases h

/-- Characters are read as a word exactly if they are digits that spell it. -/
theorem readDigits_eq_ok_iff {digits : String} {v : UInt64} {cs : List Char} :
    readDigits digits 0 cs = .ok v ↔
      (∀ c ∈ cs, c.isDigit) ∧ Nat.ofDigitChars 10 cs 0 = v.toNat := by
  constructor
  · intro h
    have hdigits := isDigit_of_readDigits h
    rw [readDigits_eq hdigits, decimal_utf8 hdigits] at h
    split at h
    next hlt =>
      obtain rfl := Except.ok.inj h
      exact ⟨hdigits, (UInt64.toNat_ofNat_of_lt' hlt).symm⟩
    · cases h
  · rintro ⟨hdigits, hvalue⟩
    rw [readDigits_eq hdigits, decimal_utf8 hdigits, UInt64.toNat_zero, hvalue,
      if_pos v.toNat_lt_size, UInt64.ofNat_toNat]

/-- What has a value: zeros alone, and digits that spell a word. -/
theorem parseInteger_eq_ok_iff {zeros : Nat} {digits : String} {v : UInt64} :
    parseInteger zeros digits = .ok v ↔
      digits = "" ∧ 0 < zeros ∧ v = 0 ∨
      digits ≠ "" ∧ (∀ c ∈ digits.toList, c.isDigit) ∧
        Nat.ofDigitChars 10 digits.toList 0 = v.toNat := by
  unfold parseInteger
  by_cases hempty : digits = ""
  · subst hempty
    by_cases hzeros : zeros = 0
    · simp [hzeros]
    · have hpos := Nat.pos_of_ne_zero hzeros
      have hempty : "".isEmpty = true := rfl
      simp only [hempty, if_true, if_neg hzeros, hpos, true_and, ne_eq, not_true, false_and, or_false,
        Except.ok.injEq]
      exact eq_comm
  · have hfalse : digits.isEmpty = false := by simpa using hempty
    simp [hfalse, hempty, readDigits_eq_ok_iff]

/-! ### A run of digits in a text -/

namespace Lexis

/-- A text is read apart into pieces and trivia behind them, up to a place where a lexeme is to be read. -/
structure Comes (before : List UInt8) (pieces : List Piece) (trivia rest : List UInt8) : Prop where
  text_eq : before = joined pieces trivia
  fit : Fit pieces (trivia ++ rest)
  trivia : Trivia rest trivia

theorem joined_append (pieces : List Piece) (left more : List UInt8) :
    joined pieces (left ++ more) = joined pieces left ++ more := by
  induction pieces with
  | nil => rfl
  | cons p pieces ih =>
    change p.trivia ++ (p.lexeme ++ joined pieces (left ++ more)) =
      p.trivia ++ (p.lexeme ++ joined pieces left) ++ more
    rw [ih, List.append_assoc, List.append_assoc]

/-- Pieces in front of a text that is read apart. -/
theorem Reads.append {text last rest : List UInt8} {pieces more : List Piece}
    (hfit : Fit pieces text) (h : Reads text more last rest) :
    Reads (joined pieces text) (pieces ++ more) last rest := by
  induction pieces with
  | nil => exact h
  | cons p pieces ih => exact (ih hfit.2).cons hfit.1

/-- What is wrong with a run of digits that no name goes on behind. -/
theorem Offends.tooLarge_of_run {b : UInt8} {run more : List UInt8} {cause : LexicalCause}
    {digits : String} (h : Offends (b :: run ++ more) cause) (hrun : ∀ x ∈ b :: run, isDigitByte x)
    (hmore : ∀ x ∈ more.head?, ¬ isNameByte x)
    (hdigits : bytesOf digits = (b :: run).dropWhile (· == 0x30)) :
    cause = .number (.tooLarge digits) := by
  have hb := hrun b List.mem_cons_self
  have hstop : ∀ x ∈ more.head?, ¬ isDigitByte x := fun x hx hd => hmore x hx (by simp [isNameByte, hd])
  generalize htext : b :: run ++ more = text at h
  cases h with
  | comment _ | string _ =>
    obtain ⟨rfl, -⟩ := List.cons.inj htext
    exact absurd hb (by decide)
  | @runsOn b' x run' more' hrun' hx =>
    have hx' : ∀ y ∈ (x :: more').head?, ¬ isDigitByte y := by
      rintro y ⟨⟩ hd
      exact not_nameStart_of_digit hd hx
    have heq := run_unique hrun' hrun hstop hx' htext
    rw [heq] at htext
    rw [List.append_cancel_left htext] at hmore
    exact absurd (by simp [isNameByte, hx]) (hmore x rfl)
  | @tooLarge b' run' more' digits' hrun' hmore' _ hdigits' =>
    have hstop' : ∀ x ∈ more'.head?, ¬ isDigitByte x :=
      fun x hx hd => hmore' x hx (by simp [isNameByte, hd])
    rw [← run_unique hrun' hrun hstop hstop' htext, ← hdigits] at hdigits'
    rw [bytesOf_inj.mp hdigits']
  | stray _ _ hnone =>
    exact absurd (htext ▸ List.prefix_append _ _) (hnone _ (.number hrun))

end Lexis

section Runs

variable {file : String} {run after : List Char}

/-- The digits of a run behind the zeros in front. -/
def significant (run : List Char) : String := String.ofList (run.dropWhile (· == '0'))

/-- The reading of a run of digits that no name goes on behind. -/
theorem readNumber_run (hne : run ≠ []) (hrun : ∀ c ∈ run, c.isDigit)
    (hafter : ∀ c ∈ after.head?, ¬ isNameChar c) :
    (readNumber (run ++ after)).result =
      if Nat.ofDigitChars 10 run 0 < UInt64.size then
        .ok ⟨.number, .number (UInt64.ofNat (Nat.ofDigitChars 10 run 0)), run, after⟩
      else .error (.number (.tooLarge (significant run))) := by
  have hclass : ∀ c ∈ after.head?, c.isDigit = false ∧ isNameStart c = false := by
    intro c hc
    have hname := hafter c hc
    simp only [isNameChar, Char.isAlphanum, Bool.or_eq_true, not_or] at hname
    simp [isNameStart, hname]
  have hdigit : after.takeWhile Char.isDigit = [] ∧ after.dropWhile Char.isDigit = after := by
    cases after with
    | nil => exact ⟨rfl, rfl⟩
    | cons c after => simp [(hclass c rfl).1]
  have hname : ¬ after.head?.any isNameStart := by
    cases after with
    | nil => simp
    | cons c after => simp [(hclass c rfl).2]
  have htake : (run ++ after).takeWhile Char.isDigit = run := by
    rw [List.takeWhile_append_of_pos hrun, hdigit.1, List.append_nil]
  have hdrop : (run ++ after).dropWhile Char.isDigit = after := by
    rw [List.dropWhile_append_of_pos hrun, hdigit.2]
  rw [readNumber_result (by rwa [htake]), htake, hdrop, if_neg hname, decimal, decimal_utf8 hrun]
  rfl

theorem tokensAt_append (before : List UInt8) (pieces more : List Piece) :
    tokensAt file before (pieces ++ more) =
      tokensAt file before pieces ++ tokensAt file (before ++ joined pieces []) more := by
  induction pieces generalizing before with
  | nil => simp [tokensAt, joined]
  | cons p pieces ih => simp [tokensAt, joined, ih]

/-- A run of digits is a piece of the text if its value is a word. -/
theorem fits_run {trivia : List UInt8} (hne : run ≠ []) (hrun : ∀ c ∈ run, c.isDigit)
    (hafter : ∀ c ∈ after.head?, ¬ isNameChar c) (htrivia : Trivia (utf8 run ++ utf8 after) trivia)
    (hvalue : Nat.ofDigitChars 10 run 0 < UInt64.size) :
    Piece.Fits ⟨trivia, utf8 run, .number, .number (UInt64.ofNat (Nat.ofDigitChars 10 run 0))⟩
      (utf8 after) := by
  obtain ⟨c, cs, rfl⟩ := List.exists_cons_of_ne_nil hne
  have hc := hrun c List.mem_cons_self
  have hmunch : (readNumber (c :: (cs ++ after))).Munches (c :: (cs ++ after)) := munches_readNumber hc
  unfold Reading.Munches at hmunch
  rw [← List.cons_append, readNumber_run hne hrun hafter, if_pos hvalue] at hmunch
  refine ⟨htrivia, ?_, hmunch.means, hmunch.longest, hmunch.apart⟩
  rw [(ascii_of_isDigit hc).utf8_cons]
  exact not_opensTrivia_of_digit (by rw [mirrors_isDigit c _ (ascii_of_isDigit hc).ofNat_mem_encode, hc])

/-- A run of digits cannot be read if its value is no word. -/
theorem offends_run (hne : run ≠ []) (hrun : ∀ c ∈ run, c.isDigit)
    (hafter : ∀ c ∈ after.head?, ¬ isNameChar c) (hvalue : UInt64.size ≤ Nat.ofDigitChars 10 run 0) :
    Offends (utf8 (run ++ after)) (.number (.tooLarge (significant run))) := by
  obtain ⟨c, cs, rfl⟩ := List.exists_cons_of_ne_nil hne
  have hmunch : (readNumber (c :: (cs ++ after))).Munches (c :: (cs ++ after)) :=
    munches_readNumber (hrun c List.mem_cons_self)
  unfold Reading.Munches at hmunch
  rwa [← List.cons_append, readNumber_run hne hrun hafter, if_neg (Nat.not_lt.mpr hvalue)] at hmunch

theorem cause_of_run {cause : LexicalCause} (hne : run ≠ []) (hrun : ∀ c ∈ run, c.isDigit)
    (hafter : ∀ c ∈ after.head?, ¬ isNameChar c) (h : Offends (utf8 (run ++ after)) cause) :
    cause = .number (.tooLarge (significant run)) := by
  have hdigits := mirrors_isDigit.mem_utf8 hrun
  have hmore : ∀ b ∈ (utf8 after).head?, ¬ isNameByte b := by
    intro b hb
    obtain ⟨c, hc, hname⟩ := mirrors_isNameChar.head? hb
    rw [hname]
    exact hafter c hc
  have hzeros : bytesOf (significant run) = (utf8 run).dropWhile (· == 0x30) := by
    rw [significant, bytesOf_ofList]
    exact (mirrors_eq (x := '0') (by decide)).utf8_dropWhile run
  rw [utf8_append] at h
  obtain ⟨c, cs, rfl⟩ := List.exists_cons_of_ne_nil hne
  rw [(ascii_of_isDigit (hrun c List.mem_cons_self)).utf8_cons] at hdigits hzeros h
  exact h.tooLarge_of_run hdigits hmore hzeros

end Runs

section Sources

variable {file before run after : String} {pieces : List Piece} {trivia : List UInt8}

theorem utf8_source (h : Comes (bytesOf before) pieces trivia (bytesOf (run ++ after))) :
    utf8 (before ++ run ++ after).toList = joined pieces (trivia ++ bytesOf (run ++ after)) := by
  rw [joined_append, ← h.text_eq, ← bytesOf_append, ← bytesOf_eq, String.append_assoc]

/-- A run of digits whose value is a word is read as a number. -/
theorem drain_of_run (h : Comes (bytesOf before) pieces trivia (bytesOf (run ++ after)))
    (hne : run.toList ≠ []) (hrun : ∀ c ∈ run.toList, c.isDigit)
    (hafter : ∀ c ∈ after.toList.head?, ¬ isNameChar c)
    (hvalue : Nat.ofDigitChars 10 run.toList 0 < UInt64.size) :
    ∃ others, (TokenStream.ofSource file (before ++ run ++ after)).drain.1 = tokensAt file [] pieces ++
      ⟨.number, (locate (bytesOf before)).within file,
        .number (UInt64.ofNat (Nat.ofDigitChars 10 run.toList 0))⟩ :: others := by
  have hbytes : bytesOf (run ++ after) = utf8 run.toList ++ utf8 after.toList := by
    rw [bytesOf_append, bytesOf_eq, bytesOf_eq]
  have hplace : joined pieces [] ++ trivia = bytesOf before := by
    rw [← joined_append, List.nil_append, h.text_eq]
  obtain ⟨pieces', _, _, hreads, final, hcollect, -⟩ :=
    placed_scans file [] (before ++ run ++ after).toList
  obtain ⟨more, _, _, hmore, -⟩ := placed_scans file [] after.toList
  rw [utf8_source h, hbytes] at hreads
  -- the run is a piece, so the text is read apart with it behind the pieces in front
  have hpiece := fits_run hne hrun hafter (hbytes ▸ h.trivia) hvalue
  obtain ⟨rfl, -, -⟩ := hreads.unique (Reads.append (hbytes ▸ h.fit) (hmore.cons hpiece))
  refine ⟨tokensAt file (bytesOf before ++ utf8 run.toList) more ++ [final], hcollect.trans ?_⟩
  rw [tokensAt_append, List.append_assoc, tokensAt, List.nil_append, hplace, List.cons_append]

/-- A run of digits whose value is no word ends the reading. -/
theorem tokenize_of_run (h : Comes (bytesOf before) pieces trivia (bytesOf (run ++ after)))
    (hne : run.toList ≠ []) (hrun : ∀ c ∈ run.toList, c.isDigit)
    (hafter : ∀ c ∈ after.toList.head?, ¬ isNameChar c)
    (hvalue : UInt64.size ≤ Nat.ofDigitChars 10 run.toList 0) :
    tokenize file (before ++ run ++ after) = .error (.lexical
      ((locate (bytesOf before)).within file) (.number (.tooLarge (significant run.toList)))) := by
  have hbytes : bytesOf (run ++ after) = utf8 (run.toList ++ after.toList) := by
    rw [bytesOf_eq, String.toList_append]
  obtain ⟨pieces', _, rest, hreads, _, _, hend⟩ :=
    placed_scans file [] (before ++ run ++ after).toList
  rw [utf8_source h, hbytes] at hreads
  have hoff := offends_run hne hrun hafter hvalue
  obtain ⟨rfl, rfl, rfl⟩ := hreads.unique ⟨rfl, hbytes ▸ h.fit, hbytes ▸ h.trivia, .inr ⟨_, hoff⟩⟩
  rcases hend with ⟨hnil, -⟩ | ⟨cause, hcause, hsome, -⟩
  · obtain ⟨c, cs, hcs⟩ := List.exists_cons_of_ne_nil hne
    rw [hcs, List.cons_append, utf8_cons] at hnil
    exact absurd (List.append_eq_nil_iff.mp hnil).1 (encode_ne_nil c)
  · rw [← cause_of_run hne hrun hafter hcause, h.text_eq]
    exact tokensOf_of_collect_some hsome

end Sources

/-- **Integer literals are exact.**  Digits behind some zeros have a value if they are none and there are
zeros, which is 0, or if they are digits that spell a word, which is the value.  In a source text, where a
lexeme is to be read, a run of digits that neither a digit nor a name goes on behind is a token: a number,
in the place where the run starts, with the value of the whole run.  If that is no word, the reading of the
text fails in this place. -/
theorem integer_literals :
    (∀ (zeros : Nat) (digits : String) (v : UInt64), parseInteger zeros digits = .ok v ↔
      digits = "" ∧ 0 < zeros ∧ v = 0 ∨
      digits ≠ "" ∧ (∀ c ∈ digits.toList, c.isDigit) ∧
        Nat.ofDigitChars 10 digits.toList 0 = v.toNat) ∧
    ∀ (file before run after : String) (pieces : List Piece) (trivia : List UInt8),
      Comes (bytesOf before) pieces trivia (bytesOf (run ++ after)) → run ≠ "" →
      (∀ c ∈ run.toList, c.isDigit) → (∀ c ∈ after.toList.head?, ¬ isNameChar c) →
      (Nat.ofDigitChars 10 run.toList 0 < UInt64.size → ∃ v others,
        v.toNat = Nat.ofDigitChars 10 run.toList 0 ∧
        (TokenStream.ofSource file (before ++ run ++ after)).drain.1 = tokensAt file [] pieces ++
          ⟨.number, (locate (bytesOf before)).within file, .number v⟩ :: others) ∧
      (UInt64.size ≤ Nat.ofDigitChars 10 run.toList 0 →
        tokenize file (before ++ run ++ after) = .error (.lexical
          ((locate (bytesOf before)).within file) (.number (.tooLarge (significant run.toList))))) := by
  refine ⟨fun _ _ _ => parseInteger_eq_ok_iff, ?_⟩
  intro file before run after pieces trivia hcomes hne hrun hafter
  have hne' : run.toList ≠ [] := by simpa using hne
  refine ⟨fun hvalue => ?_, tokenize_of_run hcomes hne' hrun hafter⟩
  obtain ⟨others, hdrain⟩ := @drain_of_run file _ _ _ _ _ hcomes hne' hrun hafter hvalue
  exact ⟨_, others, UInt64.toNat_ofNat_of_lt' hvalue, hdrain⟩

/-- Behind a name and a blank, the largest word with zeros in front is read, and the next number is not. -/
theorem integer_literals_largest :
    (∃ v others, v.toNat = 18446744073709551615 ∧
      (TokenStream.ofSource "t.mc" ("x " ++ "0018446744073709551615" ++ ";")).drain.1 =
        [⟨.identifier, ⟨"t.mc", 1, 1⟩, .text "x"⟩] ++ ⟨.number, ⟨"t.mc", 1, 3⟩, .number v⟩ :: others) ∧
    tokenize "t.mc" ("x " ++ "0018446744073709551616" ++ ";") =
      .error (.lexical ⟨"t.mc", 1, 3⟩ (.number (.tooLarge "18446744073709551616"))) := by
  have hproper : Token.Proper ⟨.identifier, default, .text "x"⟩ :=
    .identifier rfl rfl ⟨⟨'x', rfl, by decide⟩, List.all_eq_true.mp (by decide), by decide⟩
  have hcomes : ∀ rest,
      Comes (bytesOf "x ") [Token.piece [] ⟨.identifier, default, .text "x"⟩] [space] rest := by
    intro rest
    refine ⟨by decide, ⟨hproper.fits (by simp) fun b hb => ?_, trivial⟩, .blank (by decide) .nil⟩
    obtain rfl := Option.some.inj hb
    decide
  have hstop : ∀ c ∈ ";".toList.head?, ¬ isNameChar c := by
    rintro c ⟨⟩
    decide
  constructor
  · exact (integer_literals.2 "t.mc" "x " "0018446744073709551615" ";" _ _ (hcomes _) (by decide)
      (List.all_eq_true.mp (by decide)) hstop).1 (by decide)
  · exact (integer_literals.2 "t.mc" "x " "0018446744073709551616" ";" _ _ (hcomes _) (by decide)
      (List.all_eq_true.mp (by decide)) hstop).2 (by decide)

end ProcLang

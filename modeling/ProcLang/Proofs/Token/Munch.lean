import ProcLang.Token.Stream
import ProcLang.Proofs.Token.Trivia

/-!
Reading a source text loses nothing: its bytes are the trivia and the lexemes of the tokens, one
behind the other, and each token is the longest lexeme at its place.  A text that cannot be read is
read apart in the same way up to the place where no lexeme can stand.
-/

namespace ProcLang

open Lexis

/-! ### Numbers -/

theorem le_foldl_shift (n : Nat) (run : List UInt8) : n ≤ run.foldl shift n := by
  induction run generalizing n with
  | nil => exact Nat.le_refl _
  | cons b run ih =>
    refine Nat.le_trans ?_ (ih _)
    unfold shift
    omega

theorem shift_digit (n : Nat) {c : Char} (h : c.isDigit) :
    shift n (UInt8.ofNat c.toNat) = 10 * n + digitValue c := by
  have hlt : c.toNat < 128 := ascii_of_isDigit h
  have h0 : '0'.toNat = 0x30 := rfl
  unfold shift digitValue
  rw [UInt8.toNat_ofNat', h0]
  omega

/-- Digits are read as the number they spell, as long as it is a word. -/
theorem readDigits_eq {digits : String} {value : UInt64} {cs : List Char}
    (h : ∀ c ∈ cs, c.isDigit) :
    readDigits digits value cs =
      if (utf8 cs).foldl shift value.toNat < UInt64.size
      then .ok (UInt64.ofNat ((utf8 cs).foldl shift value.toNat))
      else .error (.tooLarge digits) := by
  induction cs generalizing value with
  | nil => simp [readDigits, value.toNat_lt_size]
  | cons c cs ih =>
    have hc := h c List.mem_cons_self
    have hcs := fun x hx => h x (List.mem_cons_of_mem c hx)
    have hfold : (utf8 (c :: cs)).foldl shift value.toNat
        = (utf8 cs).foldl shift (10 * value.toNat + digitValue c) := by
      rw [utf8_cons, (ascii_of_isDigit hc).encode, List.singleton_append, List.foldl_cons,
        shift_digit _ hc]
    simp only [readDigits, hc, if_true, hfold]
    split
    · rename_i hlt
      have hnat : (10 * value.toNat + digitValue c).toUInt64.toNat
          = 10 * value.toNat + digitValue c := UInt64.toNat_ofNat_of_lt' hlt
      rw [ih hcs, hnat]
    · rename_i hge
      have hle := le_foldl_shift (10 * value.toNat + digitValue c) (utf8 cs)
      rw [if_neg (by omega)]

theorem foldl_shift_zeros {cs : List Char} (h : ∀ c ∈ cs, c = '0') :
    (utf8 cs).foldl shift 0 = 0 := by
  induction cs with
  | nil => rfl
  | cons c cs ih =>
    cases h c List.mem_cons_self
    exact ih fun x hx => h x (List.mem_cons_of_mem _ hx)

/-- A run of digits has the value it spells, if that is a word; zeros before it change nothing. -/
theorem parseInteger_eq {run : List Char} (hne : run ≠ []) (h : ∀ c ∈ run, c.isDigit) :
    parseInteger (run.takeWhile (· == '0')).length (String.ofList (run.dropWhile (· == '0'))) =
      if decimal (utf8 run) < UInt64.size then .ok (UInt64.ofNat (decimal (utf8 run)))
      else .error (.tooLarge (String.ofList (run.dropWhile (· == '0')))) := by
  have hrun := List.takeWhile_append_dropWhile (p := (· == '0')) (l := run)
  have hzeros : (utf8 (run.takeWhile (· == '0'))).foldl shift 0 = 0 :=
    foldl_shift_zeros fun c hc => by simpa using List.all_eq_true.mp List.all_takeWhile c hc
  have hdec : decimal (utf8 run) = (utf8 (run.dropWhile (· == '0'))).foldl shift 0 := by
    conv_lhs => rw [← hrun]
    rw [decimal, utf8_append, List.foldl_append, hzeros]
  have hdigits : ∀ c ∈ run.dropWhile (· == '0'), c.isDigit := fun c hc =>
    h c ((List.dropWhile_sublist _).subset hc)
  rw [hdec]
  unfold parseInteger
  cases hd : run.dropWhile (· == '0') with
  | nil =>
    rw [hd, List.append_nil] at hrun
    have hlen : (run.takeWhile (· == '0')).length ≠ 0 := by
      rw [hrun]
      simpa using hne
    simp [hlen, UInt64.size]
  | cons c cs =>
    rw [hd] at hdigits
    have hempty : (String.ofList (c :: cs)).isEmpty = false := by simp
    rw [hempty, String.toList_ofList, readDigits_eq hdigits]
    rfl

/-! ### Lexemes -/

/-- What is read as a lexeme is the longest one, with its meaning. -/
structure Lexeme.Munched (l : Lexeme) : Prop where
  means : Means (utf8 l.text) l.kind l.value
  longest : Longest (utf8 l.text) (utf8 l.rest)
  apart : l.kind = .number → ∀ b ∈ (utf8 l.rest).head?, ¬ isNameStartByte b

/-- A reading gives the lexeme at the head of a text, or says why none can stand there. -/
def Reading.Munches (reading : Reading) (cs : List Char) : Prop :=
  match reading.result with
  | .ok l => l.Munched
  | .error cause => Offends (utf8 cs) cause

theorem longest_run {q : UInt8 → Bool} {b : UInt8} {run more : List UInt8}
    (hq : ∀ m, IsLexeme (b :: m) → ∀ x ∈ b :: m, q x) (hmore : ∀ x ∈ more.head?, q x = false) :
    Longest (b :: run) more := by
  intro m hm hpre
  obtain ⟨b', t, rfl, -⟩ := hm.heads
  obtain ⟨rfl, -⟩ := List.cons_prefix_cons.mp hpre
  exact length_le_of_run (q := fun x => q x) (hq t hm) (fun x hx => by simp [hmore x hx]) hpre

/-- A number is refused if a name goes on behind it, or if its value is no word. -/
theorem readNumber_result {cs : List Char} (hne : cs.takeWhile Char.isDigit ≠ []) :
    (readNumber cs).result =
      if (cs.dropWhile Char.isDigit).head?.any isNameStart then .error .numberRunsOn
      else if decimal (utf8 (cs.takeWhile Char.isDigit)) < UInt64.size then
        .ok ⟨.number, .number (UInt64.ofNat (decimal (utf8 (cs.takeWhile Char.isDigit)))),
          cs.takeWhile Char.isDigit, cs.dropWhile Char.isDigit⟩
      else .error (.number (.tooLarge
        (String.ofList ((cs.takeWhile Char.isDigit).dropWhile (· == '0'))))) := by
  simp only [readNumber]
  rw [parseInteger_eq hne fun x hx => List.all_eq_true.mp List.all_takeWhile x hx]
  by_cases hsize : decimal (utf8 (cs.takeWhile Char.isDigit)) < UInt64.size
  · simp only [if_pos hsize]
  · simp only [if_neg hsize]

theorem head?_of_utf8 {cs : List Char} {q : UInt8 → Bool} {p : Char → Bool} (h : Mirrors q p)
    (hcs : ¬ cs.head?.any p) : ∀ b ∈ (utf8 cs).head?, ¬ q b := by
  intro b hb
  obtain ⟨c, hc, hqp⟩ := h.head? hb
  rw [hc] at hcs
  rwa [hqp]

theorem munches_readNumber {c : Char} {cs : List Char} (hc : c.isDigit) :
    (readNumber (c :: cs)).Munches (c :: cs) := by
  have hasc := ascii_of_isDigit hc
  have hrun : (c :: cs).takeWhile Char.isDigit = c :: cs.takeWhile Char.isDigit := by simp [hc]
  have hdigits := mirrors_isDigit.mem_takeWhile (c :: cs)
  have hmore := mirrors_isDigit.head?_dropWhile (c :: cs)
  have hbytes : utf8 (c :: cs) = UInt8.ofNat c.toNat :: utf8 (cs.takeWhile Char.isDigit)
      ++ utf8 ((c :: cs).dropWhile Char.isDigit) := by
    rw [← hasc.utf8_cons, ← hrun, ← utf8_append, List.takeWhile_append_dropWhile]
  unfold Reading.Munches
  rw [readNumber_result (by simp [hc]), hbytes]
  generalize (c :: cs).dropWhile Char.isDigit = rest at hmore ⊢
  rw [hrun, hasc.utf8_cons] at hdigits ⊢
  split_ifs with hname hsize
  · cases rest with
    | nil => simp at hname
    | cons x more =>
      have hstart : isNameStart x := by simpa using hname
      have hxasc := ascii_of_isNameStart hstart
      rw [hxasc.utf8_cons]
      refine .runsOn hdigits ?_
      rw [mirrors_isNameStart x _ hxasc.ofNat_mem_encode, hstart]
  · have hb := hdigits _ List.mem_cons_self
    refine ⟨?_, ?_, fun _ => head?_of_utf8 mirrors_isNameStart hname⟩
    · rw [hasc.utf8_cons]
      exact .number hdigits hsize
    · rw [hasc.utf8_cons]
      refine longest_run (fun m hm => ?_) hmore
      obtain ⟨_, _, hcons, hheads⟩ := hm.heads
      cases hcons
      exact hheads.1 hb
  · refine .tooLarge hdigits (fun x hx => ?_) (Nat.le_of_not_lt hsize) ?_
    · have hstart := head?_of_utf8 mirrors_isNameStart hname x hx
      simpa [isNameByte, hmore x hx] using hstart
    · have hzero := mirrors_eq (x := '0') (by decide)
      rw [bytesOf_ofList, hzero.utf8_dropWhile, hasc.utf8_cons]
      rfl

/-- A string ends at the next quote. -/
theorem longest_string {contents more : List UInt8} :
    Longest (quote :: (contents ++ [quote])) more := by
  intro m hm hpre
  obtain ⟨b, t, rfl, -, hquoted, -⟩ := hm.heads
  rw [List.cons_append, List.append_assoc, List.cons_prefix_cons] at hpre
  obtain ⟨contents', rfl, hnot⟩ := hquoted hpre.1
  have hpre' : contents' <+: contents ++ (quote :: more) := (List.prefix_append _ _).trans hpre.2
  have hle : contents'.length ≤ contents.length :=
    length_le_of_run (q := (· ≠ quote)) (fun x hx h => hnot (h ▸ hx)) (by simp) hpre'
  simpa using hle

theorem munches_readString (cs : List Char) : (readString cs).Munches ('"' :: cs) := by
  have hcs := List.takeWhile_append_dropWhile (p := (· != '"')) (l := cs)
  have hquote := mirrors_ne (x := '"') (by decide)
  have hnot : quote ∉ utf8 (cs.takeWhile (· != '"')) := fun hmem =>
    absurd (hquote.mem_takeWhile cs quote hmem) (by decide)
  simp only [Reading.Munches, readString]
  cases hd : cs.dropWhile (· != '"') with
  | nil =>
    rw [hd, List.append_nil] at hcs
    rw [hcs] at hnot
    exact .string hnot
  | cons q rest =>
    have hq : q = '"' := by
      have := List.head?_dropWhile_not (· != '"') cs
      simpa [hd] using this
    subst hq
    generalize cs.takeWhile (· != '"') = contents at hnot
    have hbytes : utf8 ('"' :: contents ++ ['"']) = quote :: (utf8 contents ++ [quote]) :=
      congrArg (quote :: ·) (utf8_append _ _)
    refine ⟨?_, ?_, by simp⟩
    · rw [hbytes, ← bytesOf_ofList contents]
      exact .string (by rwa [bytesOf_ofList])
    · rw [hbytes]
      exact longest_string

theorem munches_readName {c : Char} {cs : List Char} (hc : isNameStart c) :
    (readName (c :: cs)).Munches (c :: cs) := by
  have hasc := ascii_of_isNameStart hc
  have hrun : (c :: cs).takeWhile isNameChar = c :: cs.takeWhile isNameChar := by
    simp [isNameChar_of_isNameStart hc]
  have hnames := mirrors_isNameChar.mem_takeWhile (c :: cs)
  have hmore := mirrors_isNameChar.head?_dropWhile (c :: cs)
  have hb : isNameStartByte (UInt8.ofNat c.toNat) := by
    rw [mirrors_isNameStart c _ hasc.ofNat_mem_encode, hc]
  have hlongest : Longest (utf8 ((c :: cs).takeWhile isNameChar))
      (utf8 ((c :: cs).dropWhile isNameChar)) := by
    rw [hrun, hasc.utf8_cons]
    refine longest_run (fun m hm => ?_) hmore
    obtain ⟨_, _, hcons, hheads⟩ := hm.heads
    cases hcons
    exact hheads.2.2.1 hb
  simp only [Reading.Munches, readName]
  cases hk : keyword? (String.ofList ((c :: cs).takeWhile isNameChar)) with
  | some kind =>
    have hmem := List.mem_of_find?_eq_some hk
    have hspell := List.find?_some hk
    refine ⟨?_, hlongest, ?_⟩
    · rw [← bytesOf_ofList]
      exact .keyword hmem (by simpa using hspell)
    · rintro rfl
      exact absurd hmem (by decide)
  | none =>
    have hno := List.find?_eq_none.mp hk
    refine ⟨?_, hlongest, by simp⟩
    rw [← bytesOf_ofList]
    rw [hrun] at hno hnames ⊢
    rw [hasc.utf8_cons] at hnames
    refine .identifier (by rw [bytesOf_ofList, hasc.utf8_cons]) hb
      (fun x hx => hnames x (List.mem_cons_of_mem _ hx)) fun k hk => ?_
    simpa using hno k hk

theorem double_spelling : ∀ k ∈ TokenKind.doubleMarks, ∀ s ∈ k.spelling?,
    s.toList.length = 2 ∧ (bytesOf s).length = 2 ∧ s.toList.all (decide <| Ascii ·) := by
  decide

theorem single_spelling : ∀ k ∈ TokenKind.singleMarks, ∀ s ∈ k.spelling?,
    s.toList.length = 1 ∧ (bytesOf s).length = 1 ∧ s.toList.all (decide <| Ascii ·) := by
  decide

theorem mark?_eq_some {marks : List TokenKind} {cs : List Char} {k : TokenKind}
    (h : mark? marks cs = some k) : k ∈ marks ∧ ∃ s, k.spelling? = some s ∧ s.toList = cs := by
  have hspell : k.spelling?.map String.toList = some cs := by simpa using List.find?_some h
  obtain ⟨s, hs, hcs⟩ := Option.map_eq_some_iff.mp hspell
  exact ⟨List.mem_of_find?_eq_some h, s, hs, hcs⟩

theorem mark?_eq_none {marks : List TokenKind} {cs : List Char} (h : mark? marks cs = none)
    {k : TokenKind} (hk : k ∈ marks) {s : String} (hs : k.spelling? = some s) : s.toList ≠ cs := by
  intro hcs
  have hno := List.find?_eq_none.mp h k hk
  simp [hs, hcs] at hno

section Mark

variable {c : Char} {cs : List Char}

/-- Where a text starts as no other lexeme does, only marks can stand: those of two characters, and
those of one. -/
theorem mark_of_isLexeme {m : List UInt8} (hd : ¬ c.isDigit) (hq : c ≠ '"') (hn : ¬ isNameStart c)
    (hm : IsLexeme m) (hpre : m <+: utf8 (c :: cs)) :
    (∃ k, mark? TokenKind.doubleMarks (c :: cs.take 1) = some k) ∧ m.length = 2 ∨
    (∃ k, mark? TokenKind.singleMarks [c] = some k) ∧ m.length = 1 := by
  obtain ⟨b, t, rfl, -, -, -, hmark⟩ := hm.heads
  have hhead : (utf8 (c :: cs)).head? = some b := by
    obtain ⟨more, hmore⟩ := hpre
    rw [← hmore]
    rfl
  have hclass : ∀ {q : UInt8 → Bool} {p : Char → Bool}, Mirrors q p → ¬ p c → ¬ q b := by
    intro q p hqp hp
    exact head?_of_utf8 hqp (by simpa using hp) b hhead
  have hquote : b ≠ quote := by
    rintro rfl
    exact hq (by simpa using (head?_utf8 (x := '"') (by decide)).mp hhead)
  obtain ⟨k, hk, s, hs, hbytes⟩ := hmark (hclass mirrors_isDigit hd) hquote
    (hclass mirrors_isNameStart hn)
  obtain ⟨more, hmore⟩ := hpre
  rw [hbytes, bytesOf_eq] at hmore
  rcases List.mem_append.mp hk with hk | hk
  · obtain ⟨hlen, hlen', hascii⟩ := double_spelling k hk s hs
    obtain ⟨ds, hds, -⟩ := exists_of_utf8_eq (by simpa using hascii) hmore.symm
    have htake : (c :: cs).take 2 = s.toList := by rw [hds, List.take_left' hlen]
    refine .inl ⟨?_, by rw [hbytes, hlen']⟩
    rw [← Option.isSome_iff_exists, Option.isSome_iff_ne_none]
    exact fun hnone => mark?_eq_none hnone hk hs htake.symm
  · obtain ⟨hlen, hlen', hascii⟩ := single_spelling k hk s hs
    obtain ⟨ds, hds, -⟩ := exists_of_utf8_eq (by simpa using hascii) hmore.symm
    have htake : (c :: cs).take 1 = s.toList := by rw [hds, List.take_left' hlen]
    refine .inr ⟨?_, by rw [hbytes, hlen']⟩
    rw [← Option.isSome_iff_exists, Option.isSome_iff_ne_none]
    exact fun hnone => mark?_eq_none hnone hk hs htake.symm

theorem munches_readMark (hd : ¬ c.isDigit) (hq : c ≠ '"') (hn : ¬ isNameStart c)
    (hopen : ¬ OpensTrivia (utf8 (c :: cs))) : (readMark c cs).Munches (c :: cs) := by
  simp only [Reading.Munches, readMark]
  cases hdouble : mark? TokenKind.doubleMarks (c :: cs.take 1) with
  | some k =>
    obtain ⟨hk, s, hs, hcs⟩ := mark?_eq_some hdouble
    obtain ⟨-, hlen, -⟩ := double_spelling k hk s hs
    have hbytes : utf8 (c :: cs.take 1) = bytesOf s := by rw [bytesOf_eq, hcs]
    refine ⟨?_, fun m hm hpre => ?_, ?_⟩
    · rw [hbytes]
      exact .mark (List.mem_append_left _ hk) hs
    · rw [← utf8_append, List.cons_append, List.take_append_drop] at hpre
      rw [hbytes, hlen]
      rcases mark_of_isLexeme hd hq hn hm hpre with ⟨-, hm2⟩ | ⟨-, hm1⟩ <;> omega
    · rintro rfl
      exact absurd hk (by decide)
  | none =>
    cases hsingle : mark? TokenKind.singleMarks [c] with
    | some k =>
      obtain ⟨hk, s, hs, hcs⟩ := mark?_eq_some hsingle
      obtain ⟨-, hlen, -⟩ := single_spelling k hk s hs
      have hbytes : utf8 [c] = bytesOf s := by rw [bytesOf_eq, hcs]
      refine ⟨?_, fun m hm hpre => ?_, ?_⟩
      · rw [hbytes]
        exact .mark (List.mem_append_right _ hk) hs
      · have hpre' : m <+: utf8 (c :: cs) := by rwa [← utf8_append] at hpre
        rw [hbytes, hlen]
        rcases mark_of_isLexeme hd hq hn hm hpre' with ⟨⟨k, hk⟩, -⟩ | ⟨-, hm1⟩
        · rw [hdouble] at hk
          cases hk
        · exact Nat.le_of_eq hm1
      · rintro rfl
        exact absurd hk (by decide)
    | none =>
      refine .stray hopen hq fun m hm hpre => ?_
      rcases mark_of_isLexeme hd hq hn hm hpre with ⟨⟨k, hk⟩, -⟩ | ⟨⟨k, hk⟩, -⟩
      · rw [hdouble] at hk
        cases hk
      · rw [hsingle] at hk
        cases hk

end Mark

theorem munches_readLexeme {c : Char} {cs : List Char} (hopen : ¬ OpensTrivia (utf8 (c :: cs))) :
    (readLexeme c cs).Munches (c :: cs) := by
  unfold readLexeme
  split_ifs with hd hq hn
  · exact munches_readNumber hd
  · cases beq_iff_eq.mp hq
    exact munches_readString cs
  · exact munches_readName hn
  · exact munches_readMark hd (by simpa using hq) hn hopen

/-! ### Texts -/

/-- The reading of a text that starts at a position gives its tokens, or says where and why it
fails. -/
def Readable (file : String) (pos : Position) (cs : List Char) :
    Except CompileError (List Token) → Prop
  | .ok tokens => ∃ pieces last, Reads (utf8 cs) pieces last [] ∧
      tokens.map (fun t => (t.kind, t.value)) =
        pieces.map (fun p => (p.kind, p.value)) ++ [(.eof, .none)]
  | .error e => ∃ pieces last before behind cause, cs = before ++ behind ∧
      Reads (utf8 cs) pieces last (utf8 behind) ∧ Offends (utf8 behind) cause ∧
      e = .lexical ((pos.past before).within file) cause

/-- A piece in front of a text that is read apart. -/
theorem Lexis.Reads.cons {text last rest : List UInt8} {pieces : List Piece} {p : Piece}
    (h : Reads text pieces last rest) (hp : p.Fits text) :
    Reads (p.trivia ++ (p.lexeme ++ text)) (p :: pieces) last rest := by
  obtain ⟨rfl, hfit, hlast, hstops⟩ := h
  exact ⟨rfl, ⟨hp, hfit⟩, hlast, hstops⟩

/-- What the reading of one token comes to: the end of the text, a place where no lexeme can stand,
or a piece in front of the text it goes on with. -/
inductive Scan.Finds (s : Scan) (file : String) (pos : Position) (cs : List Char) : Prop
  | stop {token : Token} : s.result = .ok token → s.next = none → token.kind = .eof →
    token.value = .none → Trivia [] (utf8 cs) → Finds s file pos cs
  | fails {before behind : List Char} {cause : LexicalCause} :
    s.result = .error (.lexical ((pos.past before).within file) cause) → s.next = none →
    cs = before ++ behind → Trivia (utf8 behind) (utf8 before) → Offends (utf8 behind) cause →
    Finds s file pos cs
  | piece {token : Token} {skipped read more : List Char} :
    s.result = .ok token → s.next = some (pos.past (skipped ++ read), more) →
    Piece.Fits ⟨utf8 skipped, utf8 read, token.kind, token.value⟩ (utf8 more) →
    cs = skipped ++ (read ++ more) → Finds s file pos cs

theorem finds_scan (file : String) (pos : Position) (cs : List Char) :
    (scan file pos cs).Finds file pos cs := by
  obtain ⟨htrivia, hbehind⟩ := trivia_utf8 cs
  have hcs := trivia_append cs
  unfold scan
  generalize trivia cs = split at htrivia hbehind hcs ⊢
  obtain ⟨before, behind⟩ := split
  simp only at htrivia hbehind hcs ⊢
  subst hcs
  cases hbehind with
  | nothing =>
    refine .stop rfl rfl rfl rfl ?_
    simpa using htrivia
  | comment hun => exact .fails rfl rfl rfl htrivia (.comment hun)
  | @lexeme c rest hopen =>
    have hmunch := munches_readLexeme hopen
    unfold Reading.Munches at hmunch
    split
    · rename_i heq
      cases heq
    · rename_i heq
      cases heq
      exact absurd (.inr (.inr ⟨_, rfl⟩)) hopen
    · rename_i heq
      cases heq
      cases hres : (readLexeme c rest).result with
      | error cause =>
        rw [hres] at hmunch
        exact .fails rfl rfl rfl htrivia hmunch
      | ok l =>
        rw [hres] at hmunch
        obtain ⟨-, happ⟩ := splits_of_readLexeme hres
        have hbytes : utf8 (c :: rest) = utf8 l.text ++ utf8 l.rest := by rw [← happ, utf8_append]
        rw [hbytes] at hopen htrivia
        have hnext : some ((pos.past before).past l.text, l.rest)
            = some (pos.past (before ++ l.text), l.rest) := by rw [Position.past_append]
        refine .piece rfl hnext ?_ (by rw [happ])
        exact ⟨htrivia, hopen, hmunch.means, hmunch.longest, hmunch.apart⟩

theorem tokensOf_ok {s : Scan} {token : Token} (h : s.result = .ok token) (rest : List Scan) :
    tokensOf (s :: rest) = (tokensOf rest).map (token :: ·) := by
  obtain ⟨events, result, next⟩ := s
  cases h
  rfl

theorem tokensOf_error {s : Scan} {e : CompileError} (h : s.result = .error e) (rest : List Scan) :
    tokensOf (s :: rest) = .error e := by
  obtain ⟨events, result, next⟩ := s
  cases h
  rfl

/-- A token in front of what is read goes with a piece in front of the text. -/
theorem Readable.cons {file : String} {pos : Position} {skipped read more : List Char}
    {token : Token} {result : Except CompileError (List Token)}
    (h : Readable file (pos.past (skipped ++ read)) more result)
    (hp : Piece.Fits ⟨utf8 skipped, utf8 read, token.kind, token.value⟩ (utf8 more)) :
    Readable file pos (skipped ++ (read ++ more)) (result.map (token :: ·)) := by
  have hbytes : utf8 (skipped ++ (read ++ more)) = utf8 skipped ++ (utf8 read ++ utf8 more) := by
    simp
  cases result with
  | ok tokens =>
    obtain ⟨pieces, last, hreads, htokens⟩ := h
    refine ⟨⟨utf8 skipped, utf8 read, token.kind, token.value⟩ :: pieces, last, ?_, ?_⟩
    · rw [hbytes]
      exact hreads.cons hp
    · simp [htokens]
  | error e =>
    obtain ⟨pieces, last, before, behind, cause, rfl, hreads, hoff, rfl⟩ := h
    refine ⟨⟨utf8 skipped, utf8 read, token.kind, token.value⟩ :: pieces, last,
      skipped ++ read ++ before, behind, cause, by simp, ?_, hoff, by simp⟩
    rw [hbytes]
    exact hreads.cons hp

/-- Reading a text from any place reads it apart. -/
theorem readable_scans (file : String) (pos : Position) (cs : List Char) :
    Readable file pos cs (tokensOf (scans file pos cs)) := by
  fun_induction scans file pos cs with
  | case1 pos cs first hnext =>
    cases finds_scan file pos cs with
    | stop hres hnone hkind hvalue htrivia =>
      rw [tokensOf_ok hres]
      refine ⟨[], utf8 cs, ⟨by simp [joined], trivial, htrivia, .inl rfl⟩, ?_⟩
      simp [hkind, hvalue]
    | fails hres hnone hcs htrivia hoff =>
      rw [tokensOf_error hres]
      have hreads : Reads (utf8 cs) [] _ _ :=
        ⟨by rw [hcs, utf8_append]; rfl, trivial, htrivia, .inr ⟨_, hoff⟩⟩
      exact ⟨[], _, _, _, _, hcs, hreads, hoff, rfl⟩
    | piece hres hsome => cases hnext.symm.trans hsome
  | case2 pos cs first p rest hnext ih =>
    cases finds_scan file pos cs with
    | stop hres hnone | fails hres hnone => cases hnext.symm.trans hnone
    | piece hres hsome hfits hcs =>
      cases hnext.symm.trans hsome
      rw [tokensOf_ok hres, hcs]
      exact ih.cons hfits

/-- **Reading is lossless.**  If the tokens of a source text are read, its bytes are those of pieces
and of trivia behind them, and the tokens are those of the pieces and the end.  If the reading
fails, the bytes are read apart up to the place of the failure, and no lexeme can stand there, for
its cause.  In both cases there is no other way to read the bytes apart.  What a token is and
carries is settled by the bytes of its lexeme. -/
theorem tokenize_lossless (file source : String) :
    (∀ l k v k' v', Means l k v → Means l k' v' → k = k' ∧ v = v') ∧
    match tokenize file source with
    | .ok tokens => ∃ pieces last, Reads (bytesOf source) pieces last [] ∧
        tokens.map (fun t => (t.kind, t.value)) =
          pieces.map (fun p => (p.kind, p.value)) ++ [(.eof, .none)] ∧
        ∀ pieces' last' rest', Reads (bytesOf source) pieces' last' rest' →
          pieces' = pieces ∧ last' = last ∧ rest' = []
    | .error e => ∃ pieces last before behind cause, source.toList = before ++ behind ∧
        Reads (bytesOf source) pieces last (utf8 behind) ∧ Offends (utf8 behind) cause ∧
        e = .lexical ((Position.past {} before).within file) cause ∧
        ∀ pieces' last' rest', Reads (bytesOf source) pieces' last' rest' →
          pieces' = pieces ∧ last' = last ∧ rest' = utf8 behind := by
  refine ⟨fun _ _ _ _ _ hm hm' => hm.unique hm', ?_⟩
  have h := readable_scans file {} source.toList
  unfold tokenize
  rw [bytesOf_eq]
  cases hres : tokensOf (scans file {} source.toList) with
  | ok tokens =>
    rw [hres] at h
    obtain ⟨pieces, last, hreads, htokens⟩ := h
    exact ⟨pieces, last, hreads, htokens, fun _ _ _ h' => hreads.unique h'⟩
  | error e =>
    rw [hres] at h
    obtain ⟨pieces, last, before, behind, cause, hcs, hreads, hoff, he⟩ := h
    exact ⟨pieces, last, before, behind, cause, hcs, hreads, hoff, he,
      fun _ _ _ h' => hreads.unique h'⟩

end ProcLang

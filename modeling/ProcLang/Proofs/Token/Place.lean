import Mathlib.Data.List.DropRight
import ProcLang.Proofs.Token.Munch

/-!
The places of tokens.  A place is settled by the bytes in front of it: its line by the newlines among
them, its column by those behind the last newline.  The reading counts lines and columns one character
after another; what it has counted is the place of what it comes to, be it a token, the end of the text
or a place where no token can stand.  So the places of tokens grow strictly.
-/

namespace ProcLang

open Lexis

/-! ### The place behind some bytes -/

/-- The line and the column behind some bytes of a text. -/
def locate (before : List UInt8) : Position :=
  ⟨1 + before.count newline, 1 + (before.rtakeWhile (· != newline)).length⟩

/-- One place comes before another in the order of lines and columns. -/
def Span.Precedes (s s' : Span) : Prop := s.line < s'.line ∨ s.line = s'.line ∧ s.column < s'.column

section Locate

variable {before more : List UInt8}

theorem locate_newline : locate (before ++ [newline]) = ⟨(locate before).line + 1, 1⟩ := by
  simp [locate, List.rtakeWhile, Nat.add_assoc]

/-- Bytes without a newline move the column only, one by one. -/
theorem locate_append (h : newline ∉ more) :
    locate (before ++ more) = ⟨(locate before).line, (locate before).column + more.length⟩ := by
  have hall : ∀ b ∈ more.reverse, (b != newline) = true := by
    intro b hb
    rw [bne_iff_ne]
    rintro rfl
    exact h (List.mem_reverse.mp hb)
  have hcount : more.count newline = 0 := List.count_eq_zero.mpr h
  simp only [locate, List.rtakeWhile, List.count_append, hcount, List.reverse_append,
    List.takeWhile_append_of_pos hall, List.length_reverse, List.length_append, Position.mk.injEq]
  omega

/-- A place with more bytes in front of it comes later. -/
theorem precedes_locate {file : String} (hmore : more ≠ []) :
    ((locate before).within file).Precedes ((locate (before ++ more)).within file) := by
  by_cases h : newline ∈ more
  · have hcount := List.count_pos_iff.mpr h
    refine .inl ?_
    simp only [Position.within, locate, List.count_append]
    omega
  · have hlength := List.length_pos_iff.mpr hmore
    refine .inr ?_
    rw [locate_append h]
    exact ⟨rfl, Nat.lt_add_of_pos_right hlength⟩

/-- The reading counts rightly: a character moves a place over its bytes. -/
theorem step_locate (c : Char) :
    (locate before).step c = locate (before ++ String.utf8EncodeChar c) := by
  unfold Position.step
  split
  next hc =>
    have hencode : String.utf8EncodeChar c = [newline] := by
      subst hc
      decide
    rw [hencode, locate_newline]
  next hc =>
    have hnot : newline ∉ String.utf8EncodeChar c := fun hmem =>
      hc (eq_of_ofNat_mem_encode (x := '\n') (by decide) hmem)
    rw [locate_append hnot, String.length_utf8EncodeChar]

theorem past_locate (cs : List Char) : (locate before).past cs = locate (before ++ utf8 cs) := by
  induction cs generalizing before with
  | nil => simp
  | cons c cs ih => rw [Position.past_cons, step_locate, ih, utf8_cons, List.append_assoc]

end Locate

/-! ### Tokens in their places -/

/-- The tokens of pieces that stand behind some bytes, each in the place of its lexeme. -/
def tokensAt (file : String) (before : List UInt8) : List Piece → List Token
  | [] => []
  | p :: pieces => ⟨p.kind, (locate (before ++ p.trivia)).within file, p.value⟩ ::
      tokensAt file (before ++ p.trivia ++ p.lexeme) pieces

/-- The end of a text as a token, in the place behind some bytes. -/
def endAt (file : String) (before : List UInt8) : Token :=
  { kind := .eof, span := (locate before).within file }

/-- The failure of a reading in the place behind some bytes. -/
def failureAt (file : String) (before : List UInt8) (cause : LexicalCause) : CompileError :=
  .lexical ((locate before).within file) cause

/-- What is collected from a text that stands behind some bytes: the tokens of its pieces, then the end
of the text, or a failure where no lexeme can stand. -/
def Placed (file : String) (before : List UInt8) (cs : List Char)
    (collected : List Token × Option CompileError) : Prop :=
  ∃ pieces last rest, Reads (utf8 cs) pieces last rest ∧
    ∃ final, collected.1 = tokensAt file before pieces ++ [final] ∧
      (rest = [] ∧ final = endAt file (before ++ joined pieces last) ∧ collected.2 = none ∨
        ∃ cause, Offends rest cause ∧
          collected.2 = some (failureAt file (before ++ joined pieces last) cause) ∧
          final = TokenStream.failureToken (failureAt file (before ++ joined pieces last) cause))

section Scans

variable {file : String} {pos : Position} {before : List UInt8} {cs : List Char}

/-- A token stands behind the trivia. -/
theorem span_of_scan {token : Token} (h : (scan file pos cs).result = .ok token) :
    token.span = (pos.past (trivia cs).1).within file := by
  unfold scan at h
  generalize trivia cs = parts at h ⊢
  obtain ⟨skipped, behind⟩ := parts
  simp only at h ⊢
  split at h
  · cases h
    rfl
  · cases h
  · split at h
    · cases h
    · cases h
      rfl

theorem Behind.blocked (h : Behind cs) : Blocked (utf8 cs) := by
  cases h with
  | nothing => exact blocked_nil
  | comment hun => exact (Offends.comment hun).blocked
  | lexeme hopen => exact blocked_of_not_opensTrivia hopen

/-- Trivia at the head of a text is what the reading passes over, if it cannot go on. -/
theorem trivia_eq {skipped behind : List UInt8} (h : Trivia behind skipped) (hblocked : Blocked behind)
    (heq : utf8 cs = skipped ++ behind) : utf8 (trivia cs).1 = skipped := by
  obtain ⟨htrivia, hbehind⟩ := trivia_utf8 cs
  refine htrivia.unique hbehind.blocked h hblocked ?_
  rw [← heq, ← utf8_append, trivia_append]

theorem span_eq {token : Token} {skipped behind : List UInt8}
    (hscan : (scan file (locate before) cs).result = .ok token) (h : Trivia behind skipped)
    (hblocked : Blocked behind) (heq : utf8 cs = skipped ++ behind) :
    token.span = (locate (before ++ skipped)).within file := by
  rw [span_of_scan hscan, past_locate, trivia_eq h hblocked heq]

theorem collect_ok {s : Scan} {token : Token} (h : s.result = .ok token) (rest : List Scan) :
    TokenStream.collect (s :: rest) =
      (token :: (TokenStream.collect rest).1, (TokenStream.collect rest).2) := by
  obtain ⟨events, result, next⟩ := s
  cases h
  rfl

theorem collect_error {s : Scan} {e : CompileError} (h : s.result = .error e) (rest : List Scan) :
    TokenStream.collect (s :: rest) = ([TokenStream.failureToken e], some e) := by
  obtain ⟨events, result, next⟩ := s
  cases h
  rfl

/-- A piece in front of what is collected. -/
theorem Placed.cons {p : Piece} {more : List Char} {collected : List Token × Option CompileError}
    (h : Placed file (before ++ p.trivia ++ p.lexeme) more collected) (hp : p.Fits (utf8 more))
    (hcs : utf8 cs = p.trivia ++ (p.lexeme ++ utf8 more)) :
    Placed file before cs
      (⟨p.kind, (locate (before ++ p.trivia)).within file, p.value⟩ :: collected.1, collected.2) := by
  obtain ⟨pieces, last, rest, hreads, final, htokens, hend⟩ := h
  have hjoined : before ++ joined (p :: pieces) last =
      before ++ p.trivia ++ p.lexeme ++ joined pieces last := by
    simp [joined]
  refine ⟨p :: pieces, last, rest, hcs ▸ hreads.cons hp, final, ?_, ?_⟩
  · simp [htokens, tokensAt]
  · rwa [hjoined]

/-- What is collected from a text stands in its places. -/
theorem placed_scans (file : String) (before : List UInt8) (cs : List Char) :
    Placed file before cs (TokenStream.collect (scans file (locate before) cs)) := by
  generalize hpos : locate before = pos
  fun_induction scans file pos cs generalizing before with
  | case1 pos cs first hnext =>
    subst hpos
    cases finds_scan file (locate before) cs with
    | @stop token hres _ hkind hvalue htrivia =>
      have hspan := span_eq hres htrivia blocked_nil (List.append_nil _).symm
      rw [collect_ok hres]
      have hreads : Reads (utf8 cs) [] (utf8 cs) [] :=
        ⟨by simp [joined], trivial, htrivia, .inl rfl⟩
      refine ⟨[], utf8 cs, [], hreads, token, rfl, .inl ⟨rfl, ?_, rfl⟩⟩
      obtain ⟨kind, span, value⟩ := token
      subst hkind hvalue hspan
      rfl
    | @fails front behind cause hres _ hcs htrivia hoff =>
      rw [past_locate] at hres
      rw [collect_error hres]
      have hreads : Reads (utf8 cs) [] (utf8 front) (utf8 behind) :=
        ⟨by rw [hcs, utf8_append]; rfl, trivial, htrivia, .inr ⟨cause, hoff⟩⟩
      exact ⟨[], _, _, hreads, _, rfl, .inr ⟨cause, hoff, rfl, rfl⟩⟩
    | piece _ hsome => cases hnext.symm.trans hsome
  | case2 pos cs first p rest hnext ih =>
    subst hpos
    cases finds_scan file (locate before) cs with
    | stop _ hnone | fails _ hnone => cases hnext.symm.trans hnone
    | @piece token skipped read _ hres hsome hfits hcs =>
      cases hnext.symm.trans hsome
      have hbytes : utf8 cs = utf8 skipped ++ (utf8 read ++ utf8 rest) := by simp [hcs]
      have hspan := span_eq hres hfits.trivia (blocked_of_not_opensTrivia hfits.settled) hbytes
      have hplace : locate (before ++ utf8 skipped ++ utf8 read) =
          (locate before).past (skipped ++ read) := by
        rw [past_locate, utf8_append, List.append_assoc]
      rw [collect_ok hres]
      have h := (ih _ hplace).cons (p := ⟨utf8 skipped, utf8 read, token.kind, token.value⟩) hfits hbytes
      rwa [← hspan] at h

end Scans

/-! ### The order of places -/

section Order

variable {file : String} {before left : List UInt8} {pieces : List Piece}

theorem Lexis.Piece.Fits.lexeme_ne_nil {p : Piece} (h : p.Fits left) : p.lexeme ≠ [] := by
  obtain ⟨b, t, hlexeme, -⟩ := h.means.isLexeme.heads
  rw [hlexeme]
  exact List.cons_ne_nil b t

theorem span_of_mem_tokensAt {token : Token} (h : token ∈ tokensAt file before pieces) :
    ∃ more, token.span = (locate (before ++ more)).within file := by
  induction pieces generalizing before with
  | nil => cases h
  | cons p pieces ih =>
    rcases List.mem_cons.mp h with rfl | h
    · exact ⟨p.trivia, rfl⟩
    · obtain ⟨more, hspan⟩ := ih h
      exact ⟨p.trivia ++ (p.lexeme ++ more), by simpa using hspan⟩

/-- Tokens and what stands behind them are in the order of their places. -/
theorem pairwise_tokensAt {final : Token} {last : List UInt8} (hfit : Fit pieces left)
    (hfinal : final.span = (locate (before ++ joined pieces last)).within file) :
    (tokensAt file before pieces ++ [final]).Pairwise fun t t' => t.span.Precedes t'.span := by
  induction pieces generalizing before with
  | nil => exact List.pairwise_singleton _ _
  | cons p pieces ih =>
    have hfinal' : final.span =
        (locate (before ++ p.trivia ++ p.lexeme ++ joined pieces last)).within file := by
      simpa [joined] using hfinal
    refine List.pairwise_cons.mpr ⟨fun t ht => ?_, ih hfit.2 hfinal'⟩
    -- whatever comes later has the lexeme in front of it
    have hspan : ∃ more, t.span = (locate (before ++ p.trivia ++ (p.lexeme ++ more))).within file := by
      rcases List.mem_append.mp ht with ht | ht
      · obtain ⟨more, hspan⟩ := span_of_mem_tokensAt ht
        exact ⟨more, by simpa using hspan⟩
      · rw [List.mem_singleton.mp ht, hfinal']
        exact ⟨joined pieces last, by simp⟩
    obtain ⟨more, hspan⟩ := hspan
    rw [hspan]
    exact precedes_locate (List.append_ne_nil_of_left_ne_nil hfit.1.lexeme_ne_nil more)

end Order

/-! ### Source texts -/

/-- Tokens that are collected without a failure are those of the readings. -/
theorem tokensOf_of_collect_none {scans : List Scan} (h : (TokenStream.collect scans).2 = none) :
    tokensOf scans = .ok (TokenStream.collect scans).1 := by
  induction scans with
  | nil => rfl
  | cons s rest ih =>
    cases hres : s.result with
    | ok token =>
      rw [collect_ok hres] at h ⊢
      rw [tokensOf_ok hres, ih h]
      rfl
    | error e =>
      rw [collect_error hres] at h
      cases h

theorem tokensOf_of_collect_some {scans : List Scan} {e : CompileError}
    (h : (TokenStream.collect scans).2 = some e) : tokensOf scans = .error e := by
  induction scans with
  | nil => cases h
  | cons s rest ih =>
    cases hres : s.result with
    | ok token =>
      rw [collect_ok hres] at h
      rw [tokensOf_ok hres, ih h]
      rfl
    | error e' =>
      rw [collect_error hres] at h
      rw [tokensOf_error hres, Option.some.inj h]

/-- **Places are exact.**  The bytes of a source text are read apart into pieces, trivia behind them and a
rest.  The tokens are those of the pieces, each in the place that the bytes in front of its lexeme settle,
and one more in the place behind the last trivia.  That is the end, if nothing is left; otherwise what is
left cannot start with a lexeme or opens a comment that does not end, and the failure carries that place.
From token to token the places grow. -/
theorem places_exact (file source : String) :
    ∃ pieces last rest final, Reads (bytesOf source) pieces last rest ∧
      (TokenStream.ofSource file source).drain.1 = tokensAt file [] pieces ++ [final] ∧
      final.span = (locate (joined pieces last)).within file ∧
      (tokensAt file [] pieces ++ [final]).Pairwise (fun t t' => t.span.Precedes t'.span) ∧
      (rest = [] ∧ final.kind = .eof ∧ (TokenStream.ofSource file source).drain.2.failure = none ∧
          tokenize file source = .ok (tokensAt file [] pieces ++ [final]) ∨
        ∃ cause, Offends rest cause ∧ final.kind = .error ∧
          (TokenStream.ofSource file source).drain.2.failure = some (.lexical final.span cause) ∧
          tokenize file source = .error (.lexical final.span cause)) := by
  have hplaced : Placed file [] source.toList (TokenStream.collect (scans file {} source.toList)) :=
    placed_scans file [] source.toList
  obtain ⟨pieces, last, rest, hreads, final, hcollect, hend⟩ := hplaced
  rw [← bytesOf_eq] at hreads
  have hspan : final.span = (locate (joined pieces last)).within file := by
    rcases hend with ⟨-, rfl, -⟩ | ⟨cause, -, -, rfl⟩ <;> rfl
  refine ⟨pieces, last, rest, final, hreads, hcollect, hspan,
    pairwise_tokensAt hreads.fit hspan, ?_⟩
  rcases hend with ⟨hrest, rfl, hnone⟩ | ⟨cause, hoff, hsome, rfl⟩
  · refine .inl ⟨hrest, rfl, congrArg (·.orElse fun _ => none) hnone, ?_⟩
    rw [← hcollect]
    exact tokensOf_of_collect_none hnone
  · exact .inr ⟨cause, hoff, rfl, congrArg (·.orElse fun _ => none) hsome,
      tokensOf_of_collect_some hsome⟩

/-- Lines and columns count from one, and columns count bytes. -/
example : (tokenize "f" "a /*\n*/ \"é\" b").map (·.map fun t => (t.span.line, t.span.column)) =
    .ok [(1, 1), (2, 4), (2, 9), (2, 10)] := by
  decide +kernel

end ProcLang

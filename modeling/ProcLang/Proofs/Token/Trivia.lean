import ProcLang.Token.Lexeme
import ProcLang.Token.Trivia
import ProcLang.Proofs.Token.Lexis

/-!
The trivia at the head of a text, character by character, is the trivia of its bytes.  A comment
may hold characters of several bytes; none of these bytes is a slash or a star.
-/

namespace ProcLang

open Lexis

/-! ### Classes of characters -/

theorem ascii_of_isDigit {c : Char} (h : c.isDigit) : Ascii c := by
  simp only [Char.isDigit, Bool.and_eq_true, decide_eq_true_eq, UInt32.le_iff_toNat_le] at h
  have h9 : '9'.val.toNat = 57 := rfl
  have hc : c.toNat = c.val.toNat := rfl
  unfold Ascii
  omega

theorem ascii_of_isNameStart {c : Char} (h : isNameStart c) : Ascii c := by
  delta isNameStart Char.isAlpha Char.isUpper Char.isLower at h
  simp only [Bool.or_eq_true, Bool.and_eq_true, decide_eq_true_eq, beq_iff_eq,
    UInt32.le_iff_toNat_le] at h
  rcases h with h | rfl
  · have hZ : 'Z'.val.toNat = 90 := rfl
    have hz : 'z'.val.toNat = 122 := rfl
    have hc : c.toNat = c.val.toNat := rfl
    unfold Ascii
    omega
  · decide

theorem ascii_of_isBlank {c : Char} (h : isBlank c) : Ascii c := by
  simp only [isBlank, Bool.or_eq_true, beq_iff_eq] at h
  rcases h with (((rfl | rfl) | rfl) | rfl) | rfl <;> decide

theorem mirrors_isDigit : Mirrors isDigitByte Char.isDigit :=
  mirrors_of_ascii (by decide) (by decide) fun _ => ascii_of_isDigit

theorem mirrors_isNameStart : Mirrors isNameStartByte isNameStart :=
  mirrors_of_ascii (by decide) (by decide) fun _ => ascii_of_isNameStart

theorem mirrors_isBlank : Mirrors isBlankByte isBlank :=
  mirrors_of_ascii (by decide) (by decide) fun _ => ascii_of_isBlank

theorem mirrors_isNameChar : Mirrors isNameByte isNameChar := by
  intro c b hb
  rw [isNameByte, mirrors_isDigit c b hb, mirrors_isNameStart c b hb, isNameChar, isNameStart,
    Char.isAlphanum, Bool.or_left_comm, Bool.or_assoc]

/-! ### Comments -/

theorem inside_append {d : Nat} {bs t : List UInt8} (hbs : ∀ b ∈ bs, 128 ≤ b.toNat)
    (h : Inside (d + 1) t) : Inside (d + 1) (bs ++ t) := by
  induction bs with
  | nil => exact h
  | cons b bs ih =>
    have hb := hbs b List.mem_cons_self
    refine .other ?_ (ih fun x hx => hbs x (List.mem_cons_of_mem _ hx))
    rintro (⟨rfl, -⟩ | ⟨rfl, -⟩) <;> exact absurd hb (by decide)

/-- The first byte of a text is one below 128 if its first character is that one. -/
theorem head?_utf8 {x : Char} (hx : Ascii x) {cs : List Char} :
    (utf8 cs).head? = some (UInt8.ofNat x.toNat) ↔ cs.head? = some x := by
  constructor
  · intro h
    obtain ⟨c, hc, hq⟩ := (mirrors_ne hx).head? h
    have : c = x := by simpa using hq
    rw [hc, this]
  · intro h
    obtain ⟨cs, rfl⟩ := List.head?_eq_some_iff.mp h
    rw [utf8_cons, hx.encode]
    rfl

/-- A character and the next are a pair exactly if their bytes are. -/
theorem not_paired_utf8 {c : Char} {cs : List Char} (hc : Ascii c)
    (hslashes : ∀ t, c = '/' → cs = '/' :: t → False) (hdeeper : ∀ t, c = '/' → cs = '*' :: t → False)
    (hup : ∀ t, c = '*' → cs = '/' :: t → False) :
    ¬ Paired (UInt8.ofNat c.toNat) (utf8 cs).head? := by
  have hmem : UInt8.ofNat c.toNat ∈ String.utf8EncodeChar c := by
    rw [hc.encode]
    exact List.mem_cons_self
  rintro (⟨hb, hnext | hnext⟩ | ⟨hb, hnext⟩)
  · obtain ⟨t, ht⟩ := List.head?_eq_some_iff.mp ((head?_utf8 (x := '/') (by decide)).mp hnext)
    rw [hb] at hmem
    exact hslashes t (eq_of_ofNat_mem_encode (x := '/') (by decide) hmem) ht
  · obtain ⟨t, ht⟩ := List.head?_eq_some_iff.mp ((head?_utf8 (x := '*') (by decide)).mp hnext)
    rw [hb] at hmem
    exact hdeeper t (eq_of_ofNat_mem_encode (x := '/') (by decide) hmem) ht
  · obtain ⟨t, ht⟩ := List.head?_eq_some_iff.mp ((head?_utf8 (x := '/') (by decide)).mp hnext)
    rw [hb] at hmem
    exact hup t (eq_of_ofNat_mem_encode (x := '*') (by decide) hmem) ht

/-- What is passed over as the inside of a comment is the inside of one. -/
theorem inside_of_closeComment {d : Nat} {cs body rest : List Char}
    (h : closeComment d cs = some (body, rest)) : Inside d (utf8 body) := by
  fun_induction closeComment d cs generalizing body rest with
  | case1 =>
    cases h
    exact .closed
  | case2 => cases h
  | case3 d cs ih =>
    obtain ⟨⟨b, r⟩, hb, heq⟩ := Option.map_eq_some_iff.mp h
    cases heq
    exact .slashes (ih hb)
  | case4 d cs ih =>
    obtain ⟨⟨b, r⟩, hb, heq⟩ := Option.map_eq_some_iff.mp h
    cases heq
    exact .deeper (ih hb)
  | case5 d cs ih =>
    obtain ⟨⟨b, r⟩, hb, heq⟩ := Option.map_eq_some_iff.mp h
    cases heq
    exact .up (ih hb)
  | case6 d c cs hslashes hdeeper hup ih =>
    obtain ⟨⟨b, r⟩, hb, heq⟩ := Option.map_eq_some_iff.mp h
    cases heq
    have hin := ih hb
    by_cases hc : Ascii c
    · have hpair := not_paired_utf8 hc hslashes hdeeper hup
      rw [← closeComment_append hb, utf8_append, hin.head?_append] at hpair
      rw [utf8_cons, hc.encode]
      exact .other hpair hin
    · exact inside_append (fun x hx => le_of_mem_encode hc hx) hin

/-- Bytes that start with two below 128 come from a text that starts with their characters,
whatever other bytes they might stand behind. -/
theorem exists_of_pair {x y : Char} {bs more : List UInt8} {cs : List Char} (hx : Ascii x)
    (hy : Ascii y) (hbs : ∀ b ∈ bs, 128 ≤ b.toNat)
    (h : UInt8.ofNat x.toNat :: UInt8.ofNat y.toNat :: more = bs ++ utf8 cs) :
    ∃ ds, cs = x :: y :: ds ∧ utf8 ds = more := by
  cases bs with
  | nil =>
    have hxy : ∀ z ∈ [x, y], Ascii z := by simp [hx, hy]
    refine exists_of_utf8_eq hxy ?_
    rw [utf8_cons, utf8_cons, hx.encode, hy.encode]
    exact h.symm
  | cons b bs =>
    have hb := hbs b List.mem_cons_self
    have hlt : x.toNat < 128 := hx
    rw [← (List.cons.inj h).1, UInt8.toNat_ofNat'] at hb
    omega

/-- A text that starts with the inside of a comment is closed.  The inside may start behind some
bytes of a character that is not one byte. -/
theorem isSome_closeComment {d : Nat} {x y bs : List UInt8} {cs : List Char} (h : Inside d x)
    (hbs : ∀ b ∈ bs, 128 ≤ b.toNat) (heq : x ++ y = bs ++ utf8 cs) :
    (closeComment d cs).isSome := by
  induction h generalizing bs cs with
  | closed => simp [closeComment]
  | slashes ht ih =>
    obtain ⟨ds, rfl, hds⟩ := exists_of_pair (x := '/') (y := '/') (by decide) (by decide) hbs heq
    simpa [closeComment] using ih (List.forall_mem_nil _) hds.symm
  | deeper ht ih =>
    obtain ⟨ds, rfl, hds⟩ := exists_of_pair (x := '/') (y := '*') (by decide) (by decide) hbs heq
    simpa [closeComment] using ih (List.forall_mem_nil _) hds.symm
  | up ht ih =>
    obtain ⟨ds, rfl, hds⟩ := exists_of_pair (x := '*') (y := '/') (by decide) (by decide) hbs heq
    simpa [closeComment] using ih (List.forall_mem_nil _) hds.symm
  | @other d b t hb ht ih =>
    cases bs with
    | cons b' bs =>
      exact ih (fun z hz => hbs z (List.mem_cons_of_mem _ hz)) (List.cons.inj heq).2
    | nil =>
      cases cs with
      | nil => cases heq
      | cons c cs =>
        -- The other bytes of the character are passed over one by one.
        obtain ⟨b', bs, hc⟩ := List.exists_cons_of_ne_nil (encode_ne_nil c)
        rw [utf8_cons, hc, List.nil_append] at heq
        obtain ⟨rfl, htail⟩ := List.cons.inj heq
        have hstep : (closeComment (d + 1) cs).isSome := by
          refine ih (fun z hz => ?_) htail
          by_cases hasc : Ascii c
          · rw [hasc.encode] at hc
            cases hc
            cases hz
          · exact le_of_mem_encode hasc (hc ▸ List.mem_cons_of_mem _ hz)
        rw [ht.head?_append.symm.trans (congrArg List.head? htail)] at hb
        rw [closeComment.eq_6, Option.isSome_map]
        · exact hstep
        · rintro ds rfl rfl
          cases hc
          exact hb (paired_slashes _)
        · rintro ds rfl rfl
          cases hc
          exact hb (paired_deeper _)
        · rintro ds rfl rfl
          cases hc
          exact hb (paired_up _)

theorem unterminated_of_closeComment {cs : List Char} (h : closeComment 1 cs = none) :
    Unterminated (utf8 cs) := by
  rintro body hbody ⟨more, heq⟩
  have hsome := isSome_closeComment hbody (List.forall_mem_nil _) heq
  simp [h] at hsome

/-! ### Trivia -/

theorem opensTrivia_utf8 {c : Char} {cs : List Char} (h : OpensTrivia (utf8 (c :: cs))) :
    isBlank c ∨ (∃ ds, c :: cs = '/' :: '/' :: ds) ∨ ∃ ds, c :: cs = '/' :: '*' :: ds := by
  rcases h with ⟨b, hb, hblank⟩ | ⟨more, heq⟩ | ⟨more, heq⟩
  · obtain ⟨c', hc', hq⟩ := mirrors_isBlank.head? hb
    cases hc'
    exact .inl (hq ▸ hblank)
  · have heq' : slash :: slash :: more = [] ++ utf8 (c :: cs) := heq
    obtain ⟨ds, hds, -⟩ := exists_of_pair (x := '/') (y := '/') (by decide) (by decide)
      (List.forall_mem_nil _) heq'
    exact .inr (.inl ⟨ds, hds⟩)
  · have heq' : slash :: star :: more = [] ++ utf8 (c :: cs) := heq
    obtain ⟨ds, hds, -⟩ := exists_of_pair (x := '/') (y := '*') (by decide) (by decide)
      (List.forall_mem_nil _) heq'
    exact .inr (.inr ⟨ds, hds⟩)

/-- What can stand behind the trivia of a text. -/
inductive Behind : List Char → Prop
  | nothing : Behind []
  | comment {inside : List Char} : Unterminated (utf8 inside) → Behind ('/' :: '*' :: inside)
  | lexeme {c : Char} {cs : List Char} : ¬ OpensTrivia (utf8 (c :: cs)) → Behind (c :: cs)

theorem trivia_utf8 (cs : List Char) :
    Trivia (utf8 (trivia cs).2) (utf8 (trivia cs).1) ∧ Behind (trivia cs).2 := by
  fun_induction trivia cs with
  | case1 => exact ⟨.nil, .nothing⟩
  | case2 line skipped rest h ih =>
    rw [h] at ih
    refine ⟨?_, ih.2⟩
    have hnl := mirrors_ne (x := '\n') (by decide)
    have hbody : newline ∉ utf8 (lineOf line) := fun hmem =>
      absurd (hnl.mem_takeWhile line newline hmem) (by decide)
    have hend : ∀ b ∈ (utf8 skipped ++ utf8 rest).head?, b = newline := by
      have hafter : skipped ++ rest = afterLine line := by
        rw [← trivia_append (afterLine line), h]
      rw [← utf8_append, hafter]
      intro b hb
      simpa using hnl.head?_dropWhile line b hb
    have happ : utf8 ('/' :: '/' :: lineOf line ++ skipped)
        = slash :: slash :: (utf8 (lineOf line) ++ utf8 skipped) :=
      congrArg (slash :: slash :: ·) (utf8_append _ _)
    rw [happ]
    exact .line hbody hend ih.1
  | case3 inside h => exact ⟨.nil, .comment (unterminated_of_closeComment h)⟩
  | case4 inside body after hb skipped rest h ih =>
    rw [h] at ih
    refine ⟨?_, ih.2⟩
    have happ : utf8 ('/' :: '*' :: body ++ skipped) = slash :: star :: (utf8 body ++ utf8 skipped) :=
      congrArg (slash :: star :: ·) (utf8_append _ _)
    rw [happ]
    exact .block (inside_of_closeComment hb) ih.1
  | case5 c after _ _ hc skipped rest h ih =>
    rw [h] at ih
    refine ⟨?_, ih.2⟩
    have hasc := ascii_of_isBlank hc
    have hblank : isBlankByte (UInt8.ofNat c.toNat) := by
      rw [mirrors_isBlank c _ (by rw [hasc.encode]; exact List.mem_cons_self), hc]
    rw [utf8_cons, hasc.encode]
    exact .blank hblank ih.1
  | case6 c after hslashes hdeeper hc =>
    refine ⟨.nil, .lexeme fun hopen => ?_⟩
    rcases opensTrivia_utf8 hopen with hblank | ⟨ds, heq⟩ | ⟨ds, heq⟩
    · exact hc hblank
    · obtain ⟨rfl, rfl⟩ := List.cons.inj heq
      exact hslashes ds rfl rfl
    · obtain ⟨rfl, rfl⟩ := List.cons.inj heq
      exact hdeeper ds rfl rfl

end ProcLang

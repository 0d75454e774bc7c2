import ProcLang.Proofs.Token.Munch

/-!
Tokens written as text.  A keyword or a mark is written by its spelling, an identifier by its name, a
number by its digits and a string by its raw characters between quotes; one space stands between any
two tokens.  Reading undoes writing: whatever stands beside each other, and whatever a string holds, the
text is read as the tokens that were written.

A space ends every lexeme but a string, and a string ends at its quote, so each written token is the
longest lexeme at its place.  Since a text is read apart in one way only, these are the tokens read.
-/

namespace ProcLang

open Lexis

/-! ### Writing -/

/-- What a token is and carries, without its place. -/
def Token.content (t : Token) : TokenKind × TokenValue := (t.kind, t.value)

/-- The text of a token.  The end of a text is written as nothing. -/
def Token.written (t : Token) : String :=
  match t.kind.spelling? with
  | some s => s
  | none =>
    match t.value with
    | .none => ""
    | .number n => toString n.toNat
    | .text s => if t.kind = .stringLiteral then "\"" ++ s ++ "\"" else s

/-- The text of tokens, with one space between any two of them. -/
def written (tokens : List Token) : String := " ".intercalate (tokens.map Token.written)

/-- A letter or an underscore, then letters, digits and underscores; and no keyword. -/
structure IsIdentifier (name : String) : Prop where
  start : ∃ c ∈ name.toList.head?, isNameStart c
  all : ∀ c ∈ name.toList, isNameChar c
  free : ∀ k ∈ TokenKind.keywords, k.spelling? ≠ some name

/-- A token that carries what its kind asks for: a keyword or a mark, an identifier with a name, a number,
or a string without a quote. -/
inductive Token.Proper (t : Token) : Prop
  | fixed {s : String} : t.kind.spelling? = some s → t.value = .none → Proper t
  | identifier {name : String} : t.kind = .identifier → t.value = .text name → IsIdentifier name →
    Proper t
  | number {n : UInt64} : t.kind = .number → t.value = .number n → Proper t
  | string {raw : String} : t.kind = .stringLiteral → t.value = .text raw → '"' ∉ raw.toList →
    Proper t

/-! ### The meaning of a written token -/

theorem decimal_utf8 {cs : List Char} (h : ∀ c ∈ cs, c.isDigit) (n : Nat) :
    (utf8 cs).foldl shift n = Nat.ofDigitChars 10 cs n := by
  induction cs generalizing n with
  | nil => rfl
  | cons c cs ih =>
    have hc := h c List.mem_cons_self
    rw [(ascii_of_isDigit hc).utf8_cons, List.foldl_cons, shift_digit n hc, Nat.ofDigitChars_cons,
      ih fun x hx => h x (List.mem_cons_of_mem c hx)]
    rfl

/-- The digits of a number spell it. -/
theorem decimal_toString (n : Nat) : decimal (bytesOf (toString n)) = n := by
  have hdigits : ∀ c ∈ Nat.toDigits 10 n, c.isDigit := fun c hc =>
    Nat.isDigit_of_mem_toDigits (by decide) (by decide) hc
  rw [Nat.toString_eq_ofList_toDigits, bytesOf_ofList, decimal, decimal_utf8 hdigits,
    Nat.ofDigitChars_toDigits (by decide) (by decide)]

theorem means_toString (n : UInt64) : Means (bytesOf (toString n.toNat)) .number (.number n) := by
  have hdec := decimal_toString n.toNat
  have hdigits : ∀ b ∈ bytesOf (toString n.toNat), isDigitByte b := by
    rw [Nat.toString_eq_ofList_toDigits, bytesOf_ofList]
    exact mirrors_isDigit.mem_utf8 fun c hc =>
      Nat.isDigit_of_mem_toDigits (by decide) (by decide) hc
  cases hbytes : bytesOf (toString n.toNat) with
  | nil =>
    rw [bytesOf_eq, Nat.toString_eq_ofList_toDigits, String.toList_ofList] at hbytes
    obtain ⟨c, cs, hcs⟩ := List.exists_cons_of_ne_nil (@Nat.toDigits_ne_nil n.toNat 10)
    rw [hcs, utf8_cons] at hbytes
    exact absurd (List.append_eq_nil_iff.mp hbytes).1 (encode_ne_nil c)
  | cons b run =>
    rw [hbytes] at hdec hdigits
    have hmeans := Means.number hdigits (by rw [hdec]; exact n.toNat_lt_size)
    rwa [hdec, UInt64.ofNat_toNat] at hmeans

theorem mem_fixedKinds : ∀ k ∈ TokenKind.all, k.spelling?.isSome = true → k ∈ fixedKinds := by
  decide

theorem means_spelling {k : TokenKind} {s : String} (h : k.spelling? = some s) :
    Means (bytesOf s) k .none := by
  have hfixed := mem_fixedKinds k (TokenKind.mem_all k) (by simp [h])
  rcases List.mem_append.mp hfixed with hk | hk
  · exact .keyword hk h
  · exact .mark hk h

theorem means_identifier {name : String} (h : IsIdentifier name) :
    Means (bytesOf name) .identifier (.text name) := by
  obtain ⟨⟨c, hc, hstart⟩, hall, hfree⟩ := h
  obtain ⟨cs, hcs⟩ := List.head?_eq_some_iff.mp hc
  have hasc := ascii_of_isNameStart hstart
  have hbytes : bytesOf name = UInt8.ofNat c.toNat :: utf8 cs := by
    rw [bytesOf_eq, hcs, hasc.utf8_cons]
  refine .identifier hbytes ?_ ?_ hfree
  · rw [mirrors_isNameStart c _ hasc.ofNat_mem_encode, hstart]
  · refine mirrors_isNameChar.mem_utf8 fun x hx => hall x ?_
    rw [hcs]
    exact List.mem_cons_of_mem c hx

theorem quote_mem_iff {raw : String} : quote ∈ bytesOf raw ↔ '"' ∈ raw.toList := by
  rw [bytesOf_eq, utf8, List.mem_flatMap]
  constructor
  · rintro ⟨c, hc, hmem⟩
    exact eq_of_ofNat_mem_encode (x := '"') (by decide) hmem ▸ hc
  · exact fun h => ⟨'"', h, by decide⟩

/-- A written token is a lexeme that means it. -/
theorem Token.Proper.means {t : Token} (h : t.Proper) : Means (bytesOf t.written) t.kind t.value := by
  obtain ⟨k, span, v⟩ := t
  cases h with
  | fixed hs hv =>
    cases hv
    simp only [written, hs]
    exact means_spelling hs
  | identifier hk hv hname =>
    cases hk
    cases hv
    exact means_identifier hname
  | @number n hk hv =>
    cases hk
    cases hv
    exact means_toString n
  | @string raw hk hv hq =>
    cases hk
    cases hv
    have hbytes : bytesOf ("\"" ++ raw ++ "\"") = quote :: (bytesOf raw ++ [quote]) := by
      rw [bytesOf_append, bytesOf_append]
      rfl
    change Means (bytesOf ("\"" ++ raw ++ "\"")) .stringLiteral (.text raw)
    rw [hbytes]
    exact .string fun hmem => hq (quote_mem_iff.mp hmem)

/-! ### A lexeme in front of a blank -/

theorem not_blank_of_nameByte {b : UInt8} (h : isNameByte b) : ¬ isBlankByte b := by
  intro hblank
  simp only [isBlankByte, Bool.or_eq_true, beq_iff_eq] at hblank
  rcases hblank with (((rfl | rfl) | rfl) | rfl) | rfl <;> exact absurd h (by decide)

theorem mark_not_blank : ∀ k ∈ TokenKind.doubleMarks ++ TokenKind.singleMarks, ∀ s ∈ k.spelling?,
    (bytesOf s).all (!isBlankByte ·) = true := by
  decide

/-- Only a division starts as a comment does. -/
theorem mark_slash : ∀ k ∈ TokenKind.doubleMarks ++ TokenKind.singleMarks, ∀ s ∈ k.spelling?,
    (bytesOf s).head? = some slash → bytesOf s = [slash] := by
  decide

/-- There is no blank in a lexeme that is no string. -/
theorem Lexis.Heads.not_blank {b : UInt8} {t : List UInt8} (h : Heads b t) (hq : b ≠ quote) :
    ∀ x ∈ b :: t, ¬ isBlankByte x := by
  obtain ⟨hdigit, -, hname, hmark⟩ := h
  intro x hx
  by_cases hd : isDigitByte b
  · exact not_blank_of_nameByte (by simp [isNameByte, hdigit hd x hx])
  · by_cases hn : isNameStartByte b
    · exact not_blank_of_nameByte (hname hn x hx)
    · obtain ⟨k, hk, s, hs, hbytes⟩ := hmark hd hq hn
      have hblank := List.all_eq_true.mp (mark_not_blank k hk s hs) x (hbytes ▸ hx)
      simpa using hblank

section Blank

variable {l more : List UInt8}

theorem longest_of_blank (hl : IsLexeme l) (hmore : ∀ b ∈ more.head?, isBlankByte b) :
    Longest l more := by
  obtain ⟨b, t, rfl, hheads⟩ := hl.heads
  by_cases hq : b = quote
  · obtain ⟨contents, rfl, -⟩ := hheads.2.1 hq
    rw [hq]
    exact longest_string
  · intro m hm hpre
    obtain ⟨b', t', rfl, hheads'⟩ := hm.heads
    obtain ⟨rfl, -⟩ := List.cons_prefix_cons.mp hpre
    exact length_le_of_run (hheads'.not_blank hq) (fun x hx h => h (hmore x hx)) hpre

theorem settled_of_blank (hl : IsLexeme l) (hmore : ∀ b ∈ more.head?, isBlankByte b) :
    ¬ OpensTrivia (l ++ more) := by
  obtain ⟨b, t, rfl, hheads⟩ := hl.heads
  by_cases hq : b = quote
  · subst hq
    exact not_opensTrivia_of_head (by decide) (by decide)
  · have hblank := hheads.not_blank hq b List.mem_cons_self
    by_cases hs : b = slash
    · subst hs
      obtain ⟨k, hk, s, hspell, hbytes⟩ := hheads.2.2.2 (by decide) (by decide) (by decide)
      have hone := mark_slash k hk s hspell (by rw [← hbytes]; rfl)
      rw [← hbytes] at hone
      obtain rfl := (List.cons.inj hone).2
      -- behind a division stands a blank or nothing, so it opens no comment
      have hpair : ∀ x, ¬ isBlankByte x → ¬ [slash, x] <+: [slash] ++ more := by
        intro x hx hpre
        obtain ⟨rest, hrest⟩ := (List.cons_prefix_cons.mp hpre).2
        have hhead : more.head? = some x := (congrArg List.head? hrest).symm
        exact hx (hmore x hhead)
      rintro (⟨x, hx, h⟩ | h | h)
      · cases hx
        exact hblank h
      · exact hpair slash (by decide) h
      · exact hpair star (by decide) h
    · exact not_opensTrivia_of_head hblank hs

end Blank

/-! ### Written tokens as pieces -/

abbrev space : UInt8 := 0x20

theorem blank_space : ∀ b ∈ [space], isBlankByte b := List.all_eq_true.mp (by decide)

/-- A written token as a piece of a text. -/
def Token.piece (trivia : List UInt8) (t : Token) : Piece := ⟨trivia, bytesOf t.written, t.kind, t.value⟩

theorem Token.Proper.fits {t : Token} (h : t.Proper) {trivia more : List UInt8}
    (htrivia : ∀ b ∈ trivia, isBlankByte b) (hmore : ∀ b ∈ more.head?, isBlankByte b) :
    (t.piece trivia).Fits more where
  trivia := by
    change Trivia (bytesOf t.written ++ more) trivia
    induction trivia with
    | nil => exact .nil
    | cons b trivia ih =>
      exact .blank (htrivia b List.mem_cons_self) (ih fun x hx => htrivia x (List.mem_cons_of_mem b hx))
  settled := settled_of_blank h.means.isLexeme hmore
  means := h.means
  longest := longest_of_blank h.means.isLexeme hmore
  apart := fun _ b hb hname => not_blank_of_nameByte (by simp [isNameByte, hname]) (hmore b hb)

/-- The bytes of tokens with a space before each of them. -/
def spaced (tokens : List Token) : List UInt8 := tokens.flatMap fun t => space :: bytesOf t.written

theorem spaced_cons (t : Token) (tokens : List Token) :
    spaced (t :: tokens) = space :: (bytesOf t.written ++ spaced tokens) := rfl

theorem joined_pieces (tokens : List Token) (left : List UInt8) :
    joined (tokens.map (·.piece [space])) left = spaced tokens ++ left := by
  induction tokens with
  | nil => rfl
  | cons t tokens ih =>
    simp only [List.map_cons, joined, List.foldr_cons] at ih ⊢
    rw [ih, spaced_cons, List.cons_append, List.append_assoc]
    rfl

theorem head?_spaced (tokens : List Token) {left : List UInt8} (hleft : ∀ b ∈ left, isBlankByte b) :
    ∀ b ∈ (spaced tokens ++ left).head?, isBlankByte b := by
  intro b hb
  cases tokens with
  | nil => exact hleft b (List.mem_of_mem_head? hb)
  | cons t tokens =>
    cases hb
    decide

theorem fit_pieces {tokens : List Token} (h : ∀ t ∈ tokens, t.Proper) {left : List UInt8}
    (hleft : ∀ b ∈ left, isBlankByte b) : Fit (tokens.map (·.piece [space])) left := by
  induction tokens with
  | nil => trivial
  | cons t tokens ih =>
    refine ⟨?_, ih fun x hx => h x (List.mem_cons_of_mem t hx)⟩
    rw [joined_pieces]
    exact (h t List.mem_cons_self).fits blank_space (head?_spaced tokens hleft)

theorem bytesOf_written (t : Token) (tokens : List Token) :
    bytesOf (written (t :: tokens)) = bytesOf t.written ++ spaced tokens := by
  induction tokens generalizing t with
  | nil => simp [written, spaced]
  | cons t' tokens ih =>
    have hcons : written (t :: t' :: tokens) = t.written ++ " " ++ written (t' :: tokens) := by
      simp [written]
    rw [hcons, bytesOf_append, bytesOf_append, ih t', spaced_cons, List.append_assoc]
    rfl

/-- A written text with blanks behind it is read apart into the written tokens. -/
theorem reads_written {tokens : List Token} (h : ∀ t ∈ tokens, t.Proper) {left : List UInt8}
    (hleft : ∀ b ∈ left, isBlankByte b) :
    ∃ pieces, Reads (bytesOf (written tokens) ++ left) pieces left [] ∧
      pieces.map (fun p => (p.kind, p.value)) = tokens.map Token.content := by
  have hlast : Trivia [] left := by
    induction left with
    | nil => exact .nil
    | cons b left ih =>
      exact .blank (hleft b List.mem_cons_self) (ih fun x hx => hleft x (List.mem_cons_of_mem b hx))
  cases tokens with
  | nil => exact ⟨[], ⟨by simp [joined, written, bytesOf_eq], trivial, hlast, .inl rfl⟩, rfl⟩
  | cons t tokens =>
    have htokens : ∀ x ∈ tokens, x.Proper := fun x hx => h x (List.mem_cons_of_mem t hx)
    have hfirst : (t.piece []).Fits (spaced tokens ++ left) :=
      (h t List.mem_cons_self).fits (by simp) (head?_spaced tokens hleft)
    have hrest : Reads (spaced tokens ++ left) (tokens.map (·.piece [space])) left [] := by
      refine ⟨?_, ?_, hlast, .inl rfl⟩
      · rw [List.append_nil, joined_pieces]
      · rw [List.append_nil]
        exact fit_pieces htokens hleft
    refine ⟨t.piece [] :: tokens.map (·.piece [space]), ?_, ?_⟩
    · rw [bytesOf_written, List.append_assoc]
      exact hrest.cons hfirst
    · simp [Token.piece, Token.content, Function.comp_def]

/-! ### Reading what was written -/

/-- There is an end of a text, and no place where no lexeme can stand, if it is read apart wholly. -/
theorem tokenize_of_reads {file text : String} {pieces : List Piece} {last : List UInt8}
    (h : Reads (bytesOf text) pieces last []) :
    ∃ tokens, tokenize file text = .ok tokens ∧
      tokens.map Token.content = pieces.map (fun p => (p.kind, p.value)) ++ [(.eof, .none)] := by
  have hread := readable_scans file {} text.toList
  rw [bytesOf_eq] at h
  unfold tokenize
  cases hres : tokensOf (scans file {} text.toList) with
  | ok tokens =>
    rw [hres] at hread
    obtain ⟨pieces', last', hreads, htokens⟩ := hread
    obtain ⟨rfl, -, -⟩ := h.unique hreads
    exact ⟨tokens, rfl, htokens⟩
  | error e =>
    rw [hres] at hread
    obtain ⟨pieces', last', before, behind, cause, -, hreads, hoff, -⟩ := hread
    obtain ⟨-, -, hnil⟩ := h.unique hreads
    rw [hnil] at hoff
    generalize hnone : ([] : List UInt8) = none at hoff
    cases hoff with
    | stray _ _ _ =>
      exact absurd (List.append_eq_nil_iff.mp hnone.symm).1 (encode_ne_nil _)
    | _ => cases hnone

/-- A lexeme means a token that can be written. -/
theorem proper_of_means {l : List UInt8} {t : Token} (h : Means l t.kind t.value) : t.Proper := by
  obtain ⟨k, span, v⟩ := t
  cases h with
  | number _ _ => exact .number rfl rfl
  | string hq => exact .string rfl rfl fun hmem => hq (quote_mem_iff.mpr hmem)
  | keyword _ hs | mark _ hs => exact .fixed hs rfl
  | @identifier name b run hbytes hb hrun hfree =>
    rw [bytesOf_eq] at hbytes
    have hhead : (utf8 name.toList).head? = some b := by rw [hbytes]; rfl
    obtain ⟨c, hc, hstart⟩ := mirrors_isNameStart.head? hhead
    have hall : ∀ x ∈ utf8 name.toList, isNameByte x := by
      rw [hbytes]
      intro x hx
      rcases List.mem_cons.mp hx with rfl | hx
      · simp [isNameByte, hb]
      · exact hrun x hx
    refine .identifier rfl rfl ⟨⟨c, hc, hstart ▸ hb⟩, fun x hx => ?_, hfree⟩
    obtain ⟨y, ys, hy⟩ := List.exists_cons_of_ne_nil (encode_ne_nil x)
    have hmem : y ∈ String.utf8EncodeChar x := by rw [hy]; exact List.mem_cons_self
    rw [← mirrors_isNameChar x y hmem]
    exact hall y (List.mem_flatMap.mpr ⟨x, hx, hmem⟩)

/-- The tokens of a text can be written, up to the end, which is the last of them. -/
theorem proper_of_tokenize {file source : String} {tokens : List Token}
    (h : tokenize file source = .ok tokens) :
    ∃ before stop, tokens = before ++ [stop] ∧ (∀ t ∈ before, t.Proper) ∧ stop.content = (.eof, .none) := by
  have hread := readable_scans file {} source.toList
  unfold tokenize at h
  rw [h] at hread
  obtain ⟨pieces, last, hreads, htokens⟩ := hread
  obtain ⟨before, behind, rfl, hbefore, hbehind⟩ := List.map_eq_append_iff.mp htokens
  obtain ⟨stop, rfl, hstop⟩ := List.map_eq_singleton_iff.mp hbehind
  refine ⟨before, stop, rfl, fun t ht => ?_, hstop⟩
  have hmem : t.content ∈ pieces.map fun p => (p.kind, p.value) := by
    rw [← hbefore]
    exact List.mem_map.mpr ⟨t, ht, rfl⟩
  obtain ⟨p, hp, hcontent⟩ := List.mem_map.mp hmem
  obtain ⟨hkind, hvalue⟩ := Prod.mk.inj hcontent
  have hfit : ∀ {pieces : List Piece} {left : List UInt8}, Fit pieces left → ∀ p ∈ pieces,
      Means p.lexeme p.kind p.value := by
    intro pieces left hfit
    induction pieces with
    | nil => exact fun p hp => absurd hp List.not_mem_nil
    | cons p pieces ih =>
      intro q hq
      rcases List.mem_cons.mp hq with rfl | hq
      · exact hfit.1.means
      · exact ih hfit.2 q hq
  have hmeans := hfit hreads.fit p hp
  rw [hkind, hvalue] at hmeans
  exact proper_of_means hmeans

/-- Tokens and an end are written, with a space before the end or without, and read again: they come
back in the same order, each of the same kind and with the same value. -/
def Rereads (file : String) (tokens : List Token) (stop : Token) : Prop :=
  ∀ text ∈ [written tokens, written (tokens ++ [stop])], ∃ again, tokenize file text = .ok again ∧
    again.map Token.content = (tokens ++ [stop]).map Token.content

theorem written_concat {t stop : Token} {tokens : List Token} (hstop : stop.content = (.eof, .none)) :
    bytesOf (written (t :: tokens ++ [stop])) = bytesOf (written (t :: tokens)) ++ [space] := by
  obtain ⟨hkind, hvalue⟩ := Prod.mk.inj hstop
  have hempty : stop.written = "" := by simp [Token.written, hkind, hvalue, TokenKind.spelling?]
  rw [List.cons_append, bytesOf_written, bytesOf_written, spaced, List.flatMap_append, ← spaced,
    List.append_assoc]
  simp [hempty, bytesOf_eq]

theorem rereads {file : String} {tokens : List Token} {stop : Token} (h : ∀ t ∈ tokens, t.Proper)
    (hstop : stop.content = (.eof, .none)) : Rereads file tokens stop := by
  have hreads : ∀ {text : String} {left : List UInt8}, (∀ b ∈ left, isBlankByte b) →
      bytesOf text = bytesOf (written tokens) ++ left → ∃ again, tokenize file text = .ok again ∧
        again.map Token.content = (tokens ++ [stop]).map Token.content := by
    intro text left hleft htext
    obtain ⟨pieces, hpieces, hcontent⟩ := reads_written h hleft
    rw [← htext] at hpieces
    obtain ⟨again, hagain, hmap⟩ := @tokenize_of_reads file text _ _ hpieces
    exact ⟨again, hagain, by rw [hmap, hcontent, List.map_append, List.map_singleton, hstop]⟩
  intro text htext
  rcases List.mem_cons.mp htext with rfl | htext
  · exact hreads (List.forall_mem_nil _) (List.append_nil _).symm
  · obtain rfl := List.mem_singleton.mp htext
    cases tokens with
    | nil =>
      refine hreads (List.forall_mem_nil _) ?_
      obtain ⟨hkind, hvalue⟩ := Prod.mk.inj hstop
      simp [written, Token.written, hkind, hvalue, TokenKind.spelling?]
    | cons t tokens => exact hreads blank_space (written_concat hstop)

/-- **Reading undoes writing.**  Proper tokens and an end, written and read again, come back as they
were.  So do the tokens of any text that can be read. -/
theorem tokenize_written (file : String) :
    (∀ tokens stop, (∀ t ∈ tokens, t.Proper) → stop.content = (.eof, .none) →
      Rereads file tokens stop) ∧
    ∀ file' source tokens, tokenize file' source = .ok tokens →
      ∃ before stop, tokens = before ++ [stop] ∧ Rereads file before stop := by
  refine ⟨fun tokens stop h hstop => rereads h hstop, fun file' source tokens h => ?_⟩
  obtain ⟨before, stop, htokens, hproper, hstop⟩ := proper_of_tokenize h
  exact ⟨before, stop, htokens, rereads hproper hstop⟩

/-- A division and a product in front of a string that looks like a comment. -/
theorem tokenize_written_comment :
    Rereads "t.mc"
      [⟨.slash, default, .none⟩, ⟨.star, default, .none⟩, ⟨.stringLiteral, default, .text "// /*\n\\"⟩,
        ⟨.identifier, default, .text "if_"⟩, ⟨.ifKey, default, .none⟩,
        ⟨.number, default, .number 18446744073709551615⟩]
      ⟨.eof, default, .none⟩ := by
  refine (tokenize_written "t.mc").1 _ _ (fun t ht => ?_) rfl
  simp only [List.mem_cons, List.not_mem_nil, or_false] at ht
  rcases ht with rfl | rfl | rfl | rfl | rfl | rfl
  · exact .fixed rfl rfl
  · exact .fixed rfl rfl
  · exact .string rfl rfl (by decide)
  · exact .identifier rfl rfl ⟨⟨'i', rfl, by decide⟩, List.all_eq_true.mp (by decide), by decide⟩
  · exact .fixed rfl rfl
  · exact .number rfl rfl

end ProcLang

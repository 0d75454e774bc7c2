import Mathlib.Data.List.DropRight
import ProcLang.Asm.StringData
import ProcLang.Proofs.Token.Utf8

/-!
The bytes of a string.  Every text can be written with escapes so that its own bytes come out.  The bytes of
two texts in a row are those of the first and those of the second, unless a backslash that no other is
paired with stands between them.  The operands of the directive are these bytes, in decimal, and a zero.

The bytes can be computed in another way: find the places of the escapes, each the first one behind the
last, and copy what stands between them.
-/

namespace ProcLang

/-! ### Escapes -/

/-- The byte that a backslash and a character stand for, if they are an escape. -/
def escape? : Char → Option UInt8
  | 'n' => some 10
  | '0' => some 0
  | 't' => some 9
  | '\\' => some 92
  | _ => none

/-- A character as it is written in a string to stand for itself. -/
def escaped (c : Char) : List Char :=
  if c = '\n' then ['\\', 'n']
  else if c = '\x00' then ['\\', '0']
  else if c = '\t' then ['\\', 't']
  else if c = '\\' then ['\\', '\\']
  else [c]

/-- The first character stands for itself: it does not start an escape. -/
def Verbatim (c : Char) (cs : List Char) : Prop := c = '\\' → ∀ x ∈ cs.head?, escape? x = none

theorem expandEscapes_escape {x : Char} {b : UInt8} (h : escape? x = some b) (cs : List Char) :
    expandEscapes ('\\' :: x :: cs) = b :: expandEscapes cs := by
  unfold escape? at h
  split at h <;> cases h <;> rfl

theorem expandEscapes_literal {c : Char} {cs : List Char} (h : Verbatim c cs) :
    expandEscapes (c :: cs) = String.utf8EncodeChar c ++ expandEscapes cs := by
  rw [expandEscapes]
  all_goals
    rintro cs' rfl rfl
    exact absurd (h rfl _ rfl) (by decide)

/-- A text is empty, or starts with an escape or with a character that stands for itself. -/
theorem escapeInduction {P : List Char → Prop} (nil : P [])
    (escape : ∀ x b cs, escape? x = some b → P cs → P ('\\' :: x :: cs))
    (literal : ∀ c cs, Verbatim c cs → P cs → P (c :: cs)) (cs : List Char) : P cs := by
  induction hn : cs.length using Nat.strongRecOn generalizing cs with
  | ind n ih =>
    subst hn
    cases cs with
    | nil => exact nil
    | cons c cs =>
      by_cases h : Verbatim c cs
      · exact literal c cs h (ih _ (Nat.lt_succ_self _) cs rfl)
      · simp only [Verbatim, not_forall] at h
        obtain ⟨rfl, x, hx, hsome⟩ := h
        obtain ⟨cs, rfl⟩ := List.head?_eq_some_iff.mp hx
        obtain ⟨b, hb⟩ := Option.ne_none_iff_exists'.mp hsome
        exact escape x b cs hb (ih cs.length (Nat.lt_add_of_pos_right Nat.two_pos) cs rfl)

theorem expandEscapes_escaped (c : Char) (cs : List Char) :
    expandEscapes (escaped c ++ cs) = String.utf8EncodeChar c ++ expandEscapes cs := by
  unfold escaped
  split_ifs with hn h0 ht hb
  · rw [hn]
    exact expandEscapes_escape rfl cs
  · rw [h0]
    exact expandEscapes_escape rfl cs
  · rw [ht]
    exact expandEscapes_escape rfl cs
  · rw [hb]
    exact expandEscapes_escape rfl cs
  · exact expandEscapes_literal fun h => absurd h hb

/-- Written with escapes, every text stands for its own bytes. -/
theorem expandEscapes_flatMap_escaped (cs : List Char) :
    expandEscapes (cs.flatMap escaped) = utf8 cs := by
  induction cs with
  | nil => rfl
  | cons c cs ih => rw [List.flatMap_cons, expandEscapes_escaped, ih, utf8_cons]

/-! ### Texts in a row -/

/-- The number of backslashes at the end of a text. -/
def trailing (cs : List Char) : Nat := (cs.rtakeWhile (· == '\\')).length

theorem trailing_le (cs : List Char) : trailing cs ≤ cs.length :=
  (List.rtakeWhile_suffix _ cs).length_le

theorem trailing_cons (c : Char) (cs : List Char) :
    trailing (c :: cs) = if trailing cs = cs.length ∧ c = '\\' then trailing cs + 1 else trailing cs := by
  unfold trailing List.rtakeWhile
  rw [List.reverse_cons, List.takeWhile_append]
  simp only [List.length_reverse]
  by_cases hall : (cs.reverse.takeWhile (· == '\\')).length = cs.length
  · by_cases hc : c = '\\'
    · simp [hall, hc]
    · simp [hall, hc]
  · simp [hall]

theorem expandEscapes_append {a : List Char} (b : List Char) (h : trailing a % 2 = 0) :
    expandEscapes (a ++ b) = expandEscapes a ++ expandEscapes b := by
  induction a using escapeInduction with
  | nil => rfl
  | escape x byte a hx ih =>
    -- the pair in front does not change the parity
    have hparity : trailing a % 2 = 0 := by
      have hle := trailing_le a
      simp only [trailing_cons, List.length_cons, and_true] at h
      by_cases hx : trailing a = a.length ∧ x = '\\'
      · rw [if_pos hx] at h
        split_ifs at h <;> omega
      · rw [if_neg hx] at h
        split_ifs at h <;> omega
    rw [List.cons_append, List.cons_append, expandEscapes_escape hx, expandEscapes_escape hx, ih hparity]
    rfl
  | literal c a hc ih =>
    have hrest : Verbatim c (a ++ b) ∧ trailing a % 2 = 0 := by
      rw [trailing_cons] at h
      cases a with
      | nil =>
        have hne : c ≠ '\\' := by
          rintro rfl
          simp [trailing] at h
        exact ⟨fun heq => absurd heq hne, rfl⟩
      | cons x a =>
        refine ⟨hc, ?_⟩
        split_ifs at h with hall
        · -- a backslash in front of backslashes only would start an escape
          obtain ⟨hlength, rfl⟩ := hall
          have hx : x = '\\' := by
            have hle := trailing_le a
            rw [trailing_cons, List.length_cons] at hlength
            split_ifs at hlength with hx
            · exact hx.2
            · omega
          exact absurd (hc rfl x rfl) (by rw [hx]; decide)
        · exact h
    rw [List.cons_append, expandEscapes_literal hrest.1, expandEscapes_literal hc, ih hrest.2,
      List.append_assoc]

/-! ### The operands -/

/-- A number in decimal digits, with blanks in front of them or without. -/
def decimal? (field : List Char) : Option Nat :=
  let digits := field.dropWhile (· == ' ')
  if digits ≠ [] ∧ digits.all Char.isDigit then some (Nat.ofDigitChars 10 digits 0) else none

/-- The numbers between the commas of a text. -/
def decimals (text : String) : List (Option Nat) := (text.toList.splitOn ',').map decimal?

theorem dropWhile_blank_toDigits (n : Nat) :
    (Nat.toDigits 10 n).dropWhile (· == ' ') = Nat.toDigits 10 n := by
  obtain ⟨c, cs, hcs⟩ := List.exists_cons_of_ne_nil (@Nat.toDigits_ne_nil n 10)
  have hc : c.isDigit = true :=
    Nat.isDigit_of_mem_toDigits (b := 10) (n := n) (by decide) (by decide) (by simp [hcs])
  rw [hcs, List.dropWhile_cons_of_neg]
  intro hblank
  rw [beq_iff_eq.mp hblank] at hc
  exact absurd hc (by decide)

theorem decimal?_toDigits (n : Nat) : decimal? (Nat.toDigits 10 n) = some n := by
  have hdigits : (Nat.toDigits 10 n).all Char.isDigit = true := List.all_eq_true.mpr fun c hc =>
    Nat.isDigit_of_mem_toDigits (by decide) (by decide) hc
  simp only [decimal?, dropWhile_blank_toDigits, hdigits, Nat.toDigits_ne_nil, ne_eq, not_false_iff,
    and_self, if_true, Nat.ofDigitChars_toDigits (by decide : 1 < 10) (by decide)]

theorem decimal?_blank (field : List Char) : decimal? (' ' :: field) = decimal? field := rfl

/-- A blank behind each comma belongs to the next field. -/
theorem intercalate_comma_blank (field : List Char) (fields : List (List Char)) :
    [',', ' '].intercalate (field :: fields) = [','].intercalate (field :: fields.map (' ' :: ·)) := by
  induction fields generalizing field with
  | nil => rfl
  | cons next fields ih =>
    rw [List.intercalate_cons_cons, ih, List.map_cons, List.intercalate_cons_cons]
    cases fields <;> simp [List.intercalate_cons_cons]

theorem decimals_byteList (raw : String) :
    decimals (byteList raw) = (expandEscapes raw.toList ++ [0]).map fun b : UInt8 => some b.toNat := by
  obtain ⟨b, bs, hbs⟩ := List.exists_cons_of_ne_nil (List.append_ne_nil_of_right_ne_nil
    (expandEscapes raw.toList) (List.cons_ne_nil (0 : UInt8) []))
  have htext : (byteList raw).toList = [','].intercalate
      (Nat.toDigits 10 b.toNat :: (bs.map fun b => ' ' :: Nat.toDigits 10 b.toNat)) := by
    unfold byteList
    rw [hbs, String.toList_intercalate, List.map_map, List.map_cons]
    have hcomma : ", ".toList = [',', ' '] := rfl
    rw [hcomma, intercalate_comma_blank, List.map_map]
    simp [Function.comp_def]
  have hfields : ∀ field ∈ Nat.toDigits 10 b.toNat :: (bs.map fun b => ' ' :: Nat.toDigits 10 b.toNat),
      ',' ∉ field := by
    have hdigits : ∀ n, ',' ∉ Nat.toDigits 10 n := fun n hmem =>
      absurd (Nat.isDigit_of_mem_toDigits (by decide) (by decide) hmem) (by decide)
    intro field hfield
    rcases List.mem_cons.mp hfield with rfl | hfield
    · exact hdigits _
    · obtain ⟨b, -, rfl⟩ := List.mem_map.mp hfield
      simp [hdigits]
  unfold decimals
  rw [htext, List.splitOn_intercalate _ hfields (List.cons_ne_nil _ _), hbs]
  simp [decimal?_toDigits, decimal?_blank]

/-! ### Copying between the escapes -/

/-- An escape starts at a place of some bytes: a backslash, and `n`, `0`, `t` or a backslash behind it. -/
def EscapeAt (bytes : List UInt8) (i : Nat) : Prop :=
  bytes[i]? = some 92 ∧ ∃ b ∈ bytes[i + 1]?, b ∈ [110, 48, 116, 92]

/-- The places of the escapes from some place on: the first one, and those behind it. -/
inductive Leftmost (bytes : List UInt8) : Nat → List Nat → Prop
  | none {last : Nat} : (∀ i, last ≤ i → ¬ EscapeAt bytes i) → Leftmost bytes last []
  | next {last start : Nat} {starts : List Nat} : last ≤ start → EscapeAt bytes start →
    (∀ i, last ≤ i → i < start → ¬ EscapeAt bytes i) → Leftmost bytes (start + 2) starts →
    Leftmost bytes last (start :: starts)

/-- The byte that an escape with a byte behind its backslash stands for. -/
def expandedByte (b : UInt8) : UInt8 := if b = 110 then 10 else if b = 48 then 0 else if b = 116 then 9 else 92

/-- The bytes from a place on, with the escapes at some places expanded and all else copied. -/
def expandAt (bytes : List UInt8) (last : Nat) : List Nat → List UInt8
  | [] => bytes.drop last
  | start :: starts => (bytes.drop last).take (start - last) ++
      expandedByte (bytes.getD (start + 1) 0) :: expandAt bytes (start + 2) starts

namespace Leftmost

variable {bytes : List UInt8} {last mid : Nat} {starts starts' : List Nat}

theorem unique (h : Leftmost bytes last starts) (h' : Leftmost bytes last starts') : starts = starts' := by
  induction h generalizing starts' with
  | none hnone =>
    cases h' with
    | none _ => rfl
    | next hle hat _ _ => exact absurd hat (hnone _ hle)
  | @next last start starts hle hat hfirst _ ih =>
    cases h' with
    | none hnone => exact absurd hat (hnone _ hle)
    | @next _ start' starts' hle' hat' hfirst' hrest' =>
      obtain rfl : start = start' := by
        rcases Nat.lt_trichotomy start start' with hlt | heq | hlt
        · exact absurd hat (hfirst' _ hle hlt)
        · exact heq
        · exact absurd hat' (hfirst _ hle' hlt)
      rw [ih hrest']

/-- Places without an escape can be passed over. -/
theorem extend (h : Leftmost bytes mid starts) (hmid : last ≤ mid)
    (hnone : ∀ i, last ≤ i → i < mid → ¬ EscapeAt bytes i) : Leftmost bytes last starts := by
  have hjoin : ∀ {P : Nat → Prop}, (∀ i, mid ≤ i → P i → ¬ EscapeAt bytes i) →
      ∀ i, last ≤ i → P i → ¬ EscapeAt bytes i := by
    intro P hlater i hi hP
    rcases Nat.lt_or_ge i mid with hlt | hge
    · exact hnone i hi hlt
    · exact hlater i hge hP
  cases h with
  | none hlater => exact .none fun i hi => hjoin (P := fun _ => True) (fun j hj _ => hlater j hj) i hi trivial
  | next hle hat hfirst hrest => exact .next (hmid.trans hle) hat (hjoin hfirst) hrest

/-- What is passed over is copied. -/
theorem expandAt_extend (h : Leftmost bytes mid starts) (hmid : last ≤ mid) :
    expandAt bytes last starts = (bytes.drop last).take (mid - last) ++ expandAt bytes mid starts := by
  have hdrop : bytes.drop mid = (bytes.drop last).drop (mid - last) := by
    rw [List.drop_drop, Nat.add_sub_cancel' hmid]
  cases h with
  | none _ => rw [expandAt, expandAt, hdrop, List.take_append_drop]
  | @next _ start starts hle _ _ _ =>
    have hsplit : start - last = (mid - last) + (start - mid) := by omega
    rw [expandAt, expandAt, hdrop, hsplit, List.take_add, List.append_assoc]

end Leftmost

theorem escape_byte {x : Char} {b : UInt8} (h : escape? x = some b) :
    ∃ code ∈ [(110 : UInt8), 48, 116, 92], String.utf8EncodeChar x = [code] ∧ expandedByte code = b := by
  unfold escape? at h
  split at h <;> cases h
  · exact ⟨110, by decide⟩
  · exact ⟨48, by decide⟩
  · exact ⟨116, by decide⟩
  · exact ⟨92, by decide⟩

/-- A byte that is the second one of an escape is a character of its own. -/
theorem escape?_of_head {cs : List Char} {b : UInt8} (hb : (utf8 cs).head? = some b)
    (hmem : b ∈ [(110 : UInt8), 48, 116, 92]) : ∃ x ∈ cs.head?, escape? x ≠ none := by
  obtain ⟨more, hmore⟩ := List.head?_eq_some_iff.mp hb
  obtain ⟨x, hx, hcode, hsome⟩ : ∃ x, Ascii x ∧ utf8 [x] = [b] ∧ escape? x ≠ none := by
    simp only [List.mem_cons, List.not_mem_nil, or_false] at hmem
    rcases hmem with rfl | rfl | rfl | rfl
    · exact ⟨'n', by decide⟩
    · exact ⟨'0', by decide⟩
    · exact ⟨'t', by decide⟩
    · exact ⟨'\\', by decide⟩
  have hascii : ∀ c ∈ [x], Ascii c := by simpa using hx
  obtain ⟨ds, rfl, -⟩ := exists_of_utf8_eq hascii (hmore.trans (by rw [hcode, List.singleton_append]))
  exact ⟨x, rfl, hsome⟩

/-- No escape starts within the bytes of a character that stands for itself. -/
theorem not_escapeAt_of_literal {c : Char} {cs : List Char} {front : List UInt8} (h : Verbatim c cs) {i : Nat}
    (hle : front.length ≤ i) (hlt : i < front.length + (String.utf8EncodeChar c).length) :
    ¬ EscapeAt (front ++ utf8 (c :: cs)) i := by
  rintro ⟨hfirst, b, hb, hmem⟩
  rw [List.getElem?_append_right hle, utf8_cons, List.getElem?_append_left (by omega)] at hfirst
  obtain rfl : c = '\\' := eq_of_ofNat_mem_encode (x := '\\') (by decide) (List.mem_of_getElem? hfirst)
  have hone : (String.utf8EncodeChar '\\').length = 1 := rfl
  obtain rfl : i = front.length := by omega
  have hzero : front.length + 1 - front.length - 1 = 0 := by omega
  rw [List.getElem?_append_right (by omega), utf8_cons, List.getElem?_append_right (by omega), hone, hzero,
    ← List.head?_eq_getElem?] at hb
  obtain ⟨x, hx, hsome⟩ := escape?_of_head hb hmem
  exact hsome (h rfl x hx)

/-- There are leftmost places of escapes, and expanding them gives the bytes of the string. -/
theorem exists_leftmost (cs : List Char) (front : List UInt8) :
    ∃ starts, Leftmost (front ++ utf8 cs) front.length starts ∧
      expandAt (front ++ utf8 cs) front.length starts = expandEscapes cs := by
  induction cs using escapeInduction generalizing front with
  | nil =>
    refine ⟨[], .none fun i hi hat => ?_, by simp [expandAt, expandEscapes]⟩
    have hnone : (front ++ utf8 [])[i]? = none := by simpa using hi
    cases hnone.symm.trans hat.1
  | escape x b cs hx ih =>
    obtain ⟨code, hmem, hencode, hb⟩ := escape_byte hx
    have hbytes : front ++ utf8 ('\\' :: x :: cs) = front ++ [92, code] ++ utf8 cs := by
      rw [utf8_cons, utf8_cons, hencode, List.append_assoc]
      rfl
    obtain ⟨starts, hstarts, hexpand⟩ := ih (front ++ [92, code])
    rw [List.length_append] at hstarts hexpand
    have hsecond : (front ++ [92, code] ++ utf8 cs)[front.length + 1]? = some code := by
      rw [List.append_assoc, List.getElem?_append_right (Nat.le_succ _)]
      simp
    rw [hbytes]
    refine ⟨front.length :: starts, .next (Nat.le_refl _) ⟨?_, code, hsecond, hmem⟩ ?_ hstarts, ?_⟩
    · rw [List.append_assoc, List.getElem?_append_right (Nat.le_refl _)]
      simp
    · intro i hi hlt
      omega
    · rw [expandAt, Nat.sub_self, List.take_zero, List.getD_eq_getElem?_getD, hsecond, Option.getD_some, hb]
      exact (congrArg (b :: ·) hexpand).trans (expandEscapes_escape hx cs).symm
  | literal c cs hc ih =>
    obtain ⟨starts, hstarts, hexpand⟩ := ih (front ++ String.utf8EncodeChar c)
    rw [List.append_assoc, ← utf8_cons, List.length_append] at hstarts hexpand
    have hle := Nat.le_add_right front.length (String.utf8EncodeChar c).length
    refine ⟨starts, hstarts.extend hle fun i => not_escapeAt_of_literal hc, ?_⟩
    rw [hstarts.expandAt_extend hle, hexpand, expandEscapes_literal hc, Nat.add_sub_cancel_left,
      List.drop_left, utf8_cons, List.take_left]

/-! ### Strings -/

/-- **The bytes of strings.**  Every text, written with escapes, stands for its own bytes.  Two texts in a row
stand for the bytes of the one and then of the other, if the first does not end in an odd number of
backslashes.  The numbers between the commas of the operands are the bytes of the string and one zero behind
them.  Finding the leftmost escapes, none of which share a byte, and copying what stands between them gives
the same bytes. -/
theorem string_data :
    (∀ s : String, expandEscapes (s.toList.flatMap escaped) = bytesOf s) ∧
    (∀ a b : String, trailing a.toList % 2 = 0 →
      expandEscapes (a ++ b).toList = expandEscapes a.toList ++ expandEscapes b.toList) ∧
    (∀ raw : String, decimals (byteList raw) =
      (expandEscapes raw.toList ++ [0]).map fun b : UInt8 => some b.toNat) ∧
    ∀ raw : String, (∃ starts, Leftmost (bytesOf raw) 0 starts) ∧
      ∀ starts, Leftmost (bytesOf raw) 0 starts →
        expandAt (bytesOf raw) 0 starts = expandEscapes raw.toList := by
  refine ⟨fun s => ?_, fun a b h => ?_, decimals_byteList, fun raw => ?_⟩
  · rw [expandEscapes_flatMap_escaped, bytesOf_eq]
  · rw [String.toList_append, expandEscapes_append _ h]
  · obtain ⟨starts, hstarts, hexpand⟩ := exists_leftmost raw.toList []
    rw [List.nil_append, ← bytesOf_eq] at hstarts hexpand
    exact ⟨⟨starts, hstarts⟩, fun starts' h => h.unique hstarts ▸ hexpand⟩

/-- Four backslashes and a letter are two pairs and the letter, and so are the pairs one after the other. -/
theorem string_data_backslashes :
    expandEscapes ("\\\\" ++ "\\\\n").toList = [92, 92, 110] ∧
    Leftmost (bytesOf "\\\\\\\\n") 0 [0, 2] ∧
    expandAt (bytesOf "\\\\\\\\n") 0 [0, 2] = expandEscapes "\\\\\\\\n".toList := by
  have hat : ∀ i, EscapeAt (bytesOf "\\\\\\\\n") i → i < 4 := by
    intro i hi
    have hlt := (List.getElem?_eq_some_iff.mp hi.1).1
    have hne : i ≠ 4 := by
      rintro rfl
      exact absurd hi.1 (by decide)
    have hlength : (bytesOf "\\\\\\\\n").length = 5 := by decide
    omega
  have hleftmost : Leftmost (bytesOf "\\\\\\\\n") 0 [0, 2] :=
    .next (Nat.le_refl _) ⟨by decide, 92, by decide⟩ (fun i _ h => by omega)
      (.next (Nat.le_refl _) ⟨by decide, 92, by decide⟩ (fun i h h' => by omega)
        (.none fun i hi h => absurd (hat i h) (by omega)))
  refine ⟨?_, hleftmost, (string_data.2.2.2 _).2 _ hleftmost⟩
  rw [string_data.2.1 "\\\\" "\\\\n" (by decide)]
  decide

end ProcLang

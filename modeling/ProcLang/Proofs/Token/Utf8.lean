import Mathlib.Data.List.Basic

/-!
The bytes of a text.  A character below 128 is one byte, its own number; every byte of any other
character is 128 or more.  So a text of such characters stands at the head of a text exactly if its
bytes stand at the head of the bytes, and a run of characters of a class is a run of bytes.
-/

namespace ProcLang

/-- The UTF-8 bytes of some characters. -/
def utf8 (cs : List Char) : List UInt8 := cs.flatMap String.utf8EncodeChar

/-- The UTF-8 bytes of a text. -/
def bytesOf (text : String) : List UInt8 := text.toUTF8.data.toList

@[simp] theorem utf8_nil : utf8 [] = [] := rfl

@[simp] theorem utf8_cons (c : Char) (cs : List Char) :
    utf8 (c :: cs) = String.utf8EncodeChar c ++ utf8 cs := rfl

@[simp] theorem utf8_append (cs ds : List Char) : utf8 (cs ++ ds) = utf8 cs ++ utf8 ds :=
  List.flatMap_append

theorem bytesOf_ofList (cs : List Char) : bytesOf (String.ofList cs) = utf8 cs := by
  simp [bytesOf, utf8, String.toUTF8, String.toByteArray_ofList, List.utf8Encode]

theorem bytesOf_eq (text : String) : bytesOf text = utf8 text.toList := by
  rw [← bytesOf_ofList, String.ofList_toList]

theorem bytesOf_append (s t : String) : bytesOf (s ++ t) = bytesOf s ++ bytesOf t := by
  rw [bytesOf_eq, bytesOf_eq, bytesOf_eq, String.toList_append, utf8_append]

theorem bytesOf_inj {s t : String} : bytesOf s = bytesOf t ↔ s = t := by
  refine ⟨fun h => ?_, congrArg bytesOf⟩
  exact String.toByteArray_inj.mp (ByteArray.ext (Array.toList_inj.mp h))

/-! ### The bytes of a character -/

/-- The character is one byte. -/
def Ascii (c : Char) : Prop := c.toNat < 128

instance : DecidablePred Ascii := fun c => inferInstanceAs (Decidable (c.toNat < 128))

theorem Ascii.encode {c : Char} (h : Ascii c) :
    String.utf8EncodeChar c = [UInt8.ofNat c.toNat] := by
  have h' : c.val.toNat ≤ 127 := Nat.le_of_lt_succ h
  simp only [String.utf8EncodeChar, h', if_true]
  rfl

theorem Ascii.utf8_cons {c : Char} (h : Ascii c) (cs : List Char) :
    utf8 (c :: cs) = UInt8.ofNat c.toNat :: utf8 cs := by
  rw [ProcLang.utf8_cons, h.encode, List.singleton_append]

theorem Ascii.ofNat_mem_encode {c : Char} (h : Ascii c) :
    UInt8.ofNat c.toNat ∈ String.utf8EncodeChar c := by
  rw [h.encode]
  exact List.mem_cons_self

theorem le_of_mem_encode {c : Char} (h : ¬ Ascii c) {b : UInt8}
    (hb : b ∈ String.utf8EncodeChar c) : 128 ≤ b.toNat := by
  have h' : ¬ c.val.toNat ≤ 127 := fun hc => h (Nat.lt_succ_of_le hc)
  simp only [String.utf8EncodeChar, h', if_false] at hb
  split at hb
  · simp only [List.mem_cons, List.not_mem_nil, or_false] at hb
    rcases hb with rfl | rfl <;> simp only [UInt8.toNat_ofNat'] <;> omega
  · split at hb
    · simp only [List.mem_cons, List.not_mem_nil, or_false] at hb
      rcases hb with rfl | rfl | rfl <;> simp only [UInt8.toNat_ofNat'] <;> omega
    · simp only [List.mem_cons, List.not_mem_nil, or_false] at hb
      rcases hb with rfl | rfl | rfl | rfl <;> simp only [UInt8.toNat_ofNat'] <;> omega

theorem encode_ne_nil (c : Char) : String.utf8EncodeChar c ≠ [] := by
  simp only [String.utf8EncodeChar]
  split
  · simp
  · split
    · simp
    · split <;> simp

/-- The characters below 128 are told apart by their bytes. -/
theorem eq_of_ofNat_mem_encode {c x : Char} (hx : Ascii x)
    (h : UInt8.ofNat x.toNat ∈ String.utf8EncodeChar c) : c = x := by
  have hx' : x.toNat < 128 := hx
  by_cases hc : Ascii c
  · have hc' : c.toNat < 128 := hc
    rw [hc.encode, List.mem_singleton] at h
    have := congrArg UInt8.toNat h
    simp only [UInt8.toNat_ofNat'] at this
    exact Char.toNat_inj.mp (by omega)
  · have := le_of_mem_encode hc h
    simp only [UInt8.toNat_ofNat'] at this
    omega

/-- Bytes that start with those of characters below 128 come from a text that starts with them. -/
theorem exists_of_utf8_eq {xs cs : List Char} {more : List UInt8} (hxs : ∀ x ∈ xs, Ascii x)
    (h : utf8 cs = utf8 xs ++ more) : ∃ ds, cs = xs ++ ds ∧ utf8 ds = more := by
  induction xs generalizing cs with
  | nil => exact ⟨cs, rfl, h⟩
  | cons x xs ih =>
    have hx := hxs x List.mem_cons_self
    rw [utf8_cons, hx.encode, List.singleton_append, List.cons_append] at h
    cases cs with
    | nil => simp at h
    | cons c cs =>
      have hmem : UInt8.ofNat x.toNat ∈ String.utf8EncodeChar c := by
        obtain ⟨b, bs, hb⟩ := List.exists_cons_of_ne_nil (encode_ne_nil c)
        rw [utf8_cons, hb] at h
        rw [hb, ← (List.cons.inj h).1]
        exact List.mem_cons_self
      cases eq_of_ofNat_mem_encode hx hmem
      rw [utf8_cons, hx.encode, List.singleton_append] at h
      obtain ⟨ds, rfl, hds⟩ := ih (fun y hy => hxs y (List.mem_cons_of_mem _ hy)) (List.cons.inj h).2
      exact ⟨ds, rfl, hds⟩

/-! ### Classes of characters and of bytes -/

/-- Every byte of a character is in the class of bytes if the character is in that of
characters, and none is otherwise. -/
def Mirrors (q : UInt8 → Bool) (p : Char → Bool) : Prop :=
  ∀ c, ∀ b ∈ String.utf8EncodeChar c, q b = p c

/-- Classes that agree below 128 and take in nothing from there on mirror each other. -/
theorem mirrors_of_ascii {q : UInt8 → Bool} {p : Char → Bool}
    (hlow : ∀ n < 128, q (UInt8.ofNat n) = p (Char.ofNat n))
    (hq : ∀ n < 128, q (UInt8.ofNat (128 + n)) = false) (hp : ∀ c, p c → Ascii c) :
    Mirrors q p := by
  intro c b hb
  by_cases hc : Ascii c
  · rw [hc.encode, List.mem_singleton] at hb
    rw [hb, hlow c.toNat hc, Char.ofNat_toNat]
  · have hle := le_of_mem_encode hc hb
    have hlt := b.toNat_lt
    have heq : b = UInt8.ofNat (128 + (b.toNat - 128)) := by
      rw [Nat.add_sub_cancel' hle, UInt8.ofNat_toNat]
    have hpc : p c = false := Bool.eq_false_iff.mpr fun h => hc (hp c h)
    rw [hpc, heq, hq _ (by omega)]

/-- A byte below 128 mirrors its own character. -/
theorem mirrors_eq {x : Char} (hx : Ascii x) :
    Mirrors (· == UInt8.ofNat x.toNat) (· == x) := by
  intro c b hb
  have hiff : b = UInt8.ofNat x.toNat ↔ c = x := by
    constructor
    · rintro rfl
      exact eq_of_ofNat_mem_encode hx hb
    · rintro rfl
      rwa [hx.encode, List.mem_singleton] at hb
  exact decide_eq_decide.mpr hiff

theorem mirrors_ne {x : Char} (hx : Ascii x) :
    Mirrors (· != UInt8.ofNat x.toNat) (· != x) := fun c b hb => congrArg not (mirrors_eq hx c b hb)

namespace Mirrors

variable {q : UInt8 → Bool} {p : Char → Bool}

theorem mem_utf8 (h : Mirrors q p) {cs : List Char} (hcs : ∀ c ∈ cs, p c) :
    ∀ b ∈ utf8 cs, q b := by
  intro b hb
  obtain ⟨c, hc, hbc⟩ := List.mem_flatMap.mp hb
  rw [h c b hbc, hcs c hc]

/-- The first byte is in the class as the first character is. -/
theorem head? (h : Mirrors q p) {cs : List Char} {b : UInt8} (hb : (utf8 cs).head? = some b) :
    ∃ c, cs.head? = some c ∧ q b = p c := by
  cases cs with
  | nil => simp at hb
  | cons c cs =>
    obtain ⟨x, xs, hx⟩ := List.exists_cons_of_ne_nil (encode_ne_nil c)
    rw [utf8_cons, hx, List.cons_append, List.head?_cons] at hb
    exact ⟨c, rfl, h c b (by rw [hx, Option.some.inj hb]; exact List.mem_cons_self)⟩

/-- A run of characters of the class is a run of bytes of it. -/
theorem mem_takeWhile (h : Mirrors q p) (cs : List Char) : ∀ b ∈ utf8 (cs.takeWhile p), q b :=
  h.mem_utf8 fun _ hc => List.all_eq_true.mp List.all_takeWhile _ hc

/-- What stands behind a run does not go on with it. -/
theorem head?_dropWhile (h : Mirrors q p) (cs : List Char) :
    ∀ b ∈ (utf8 (cs.dropWhile p)).head?, q b = false := by
  intro b hb
  obtain ⟨c, hc, hqp⟩ := h.head? hb
  have := List.head?_dropWhile_not p cs
  rw [hc] at this
  rw [hqp]
  simpa using this

theorem utf8_dropWhile (h : Mirrors q p) (cs : List Char) :
    utf8 (cs.dropWhile p) = (utf8 cs).dropWhile q := by
  have hcs := List.takeWhile_append_dropWhile (p := p) (l := cs)
  have hstop := h.head?_dropWhile cs
  conv_rhs => rw [← hcs, utf8_append, List.dropWhile_append_of_pos (h.mem_takeWhile cs)]
  cases hrest : utf8 (cs.dropWhile p) with
  | nil => rfl
  | cons b rest =>
    rw [hrest] at hstop
    rw [List.dropWhile_cons, hstop b rfl]
    rfl

end Mirrors

end ProcLang

import Mathlib.Algebra.Ring.Int.Defs
import Mathlib.Algebra.Ring.Nat
import ProcLang.Proofs.Stage
import ProcLang.Generation.Expression

/-!
Machine words: the values of types in a whole word, the flags that a comparison sets, and division.

A word stands for a signed number.  A byte sits in a word at full width, extended with zeros or with
its sign, and every operation on bytes is the one on words, cut to a byte again.
-/

namespace ProcLang

/-- The content of a register. -/
abbrev Word := BitVec 64

/-- The word for a truth value. -/
def Word.ofTruth (b : Bool) : Word := if b then 1 else 0

/-! ### Values of types -/

/-- The value of a type that the low bits of a word stand for: a byte is cut off and extended, with
zeros or with its sign. -/
def DataType.normalize : DataType → Word → Word
  | .u8, w => (w.setWidth 8).setWidth 64
  | .s8, w => (w.setWidth 8).signExtend 64
  | .int, w | .void, w => w

/-- Only the low byte matters for a byte. -/
theorem DataType.normalize_congr {type : DataType} (htype : type.isByte = true) {v w : Word}
    (h : v.setWidth 8 = w.setWidth 8) : type.normalize v = type.normalize w := by
  cases type with
  | u8 => exact congrArg (BitVec.setWidth 64) h
  | s8 => exact congrArg (BitVec.signExtend 64) h
  | int => cases htype
  | void => cases htype

/-- A literal that a byte takes is its own value there. -/
theorem DataType.normalize_literal {type : DataType} {value : UInt64}
    (h : type.literalLimit?.any (· < value) = false) :
    type.normalize value.toBitVec = value.toBitVec := by
  cases type with
  | int => rfl
  | void => rfl
  | u8 =>
    have hle : value.toBitVec.toNat ≤ 255 := by
      simpa [literalLimit?, UInt64.lt_iff_toNat_lt] using h
    refine BitVec.eq_of_toNat_eq ?_
    simp only [normalize, BitVec.toNat_setWidth]
    omega
  | s8 =>
    have hle : value.toBitVec.toNat ≤ 127 := by
      simpa [literalLimit?, UInt64.lt_iff_toNat_lt] using h
    refine BitVec.eq_of_toNat_eq ?_
    have hmsb : (value.toBitVec.setWidth 8).msb = false := by
      rw [BitVec.msb_eq_false_iff_two_mul_lt, BitVec.toNat_setWidth]
      omega
    simp only [normalize, BitVec.signExtend_eq_setWidth_of_msb_false hmsb, BitVec.toNat_setWidth]
    omega

/-! ### Comparisons -/

/-- The flags: the result is zero, it is negative, it does not fit as a signed number. -/
structure Flags where
  zero : Bool
  sign : Bool
  overflow : Bool
deriving DecidableEq

/-- The flags of the difference of two numbers. -/
def Flags.ofSub {n : Nat} (a b : BitVec n) : Flags :=
  ⟨a == b, (a - b).msb, BitVec.ssubOverflow a b⟩

/-- What the flags say about a condition. -/
def Condition.holds : Condition → Flags → Bool
  | .e, flags => flags.zero
  | .ne, flags => !flags.zero
  | .l, flags => flags.sign != flags.overflow
  | .le, flags => flags.zero || flags.sign != flags.overflow
  | .g, flags => !flags.zero && flags.sign == flags.overflow
  | .ge, flags => flags.sign == flags.overflow

/-- The truth of a comparison of two signed numbers. -/
def Comparison.apply : Comparison → Word → Word → Bool
  | .equal, a, b => a == b
  | .notEqual, a, b => a != b
  | .less, a, b => a.toInt < b.toInt
  | .lessEqual, a, b => a.toInt ≤ b.toInt
  | .greater, a, b => b.toInt < a.toInt
  | .greaterEqual, a, b => b.toInt ≤ a.toInt

/-- Sign and overflow of a difference tell which number is smaller. -/
theorem Flags.sign_ne_overflow (a b : Word) :
    ((Flags.ofSub a b).sign != (Flags.ofSub a b).overflow) = decide (a.toInt < b.toInt) := by
  have ha := @BitVec.le_two_mul_toInt 64 a
  have ha' := @BitVec.two_mul_toInt_lt 64 a
  have hb := @BitVec.le_two_mul_toInt 64 b
  have hb' := @BitVec.two_mul_toInt_lt 64 b
  have hsign : (ofSub a b).sign = decide ((a.toInt - b.toInt).bmod (2 ^ 64) < 0) := by
    rw [ofSub, BitVec.msb_eq_toInt, BitVec.toInt_sub]
  have hover : (ofSub a b).overflow =
      decide (2 ^ 63 ≤ a.toInt - b.toInt ∨ a.toInt - b.toInt < -2 ^ 63) := by
    rw [ofSub, BitVec.ssubOverflow, Bool.decide_or]
  have hne : ∀ {p q r : Prop} [Decidable p] [Decidable q] [Decidable r], (¬(p ↔ q) ↔ r) →
      (decide p != decide q) = decide r := by
    intro p q r _ _ _ h
    rw [Bool.eq_iff_iff, bne_iff_ne, ne_eq, decide_eq_decide, decide_eq_true_eq]
    exact h
  rw [hsign, hover]
  refine hne ?_
  rw [Int.bmod_def]
  split <;> omega

theorem Comparison.holds_condition (op : Comparison) (a b : Word) :
    op.condition.holds (Flags.ofSub a b) = op.apply a b := by
  have hlt := Flags.sign_ne_overflow a b
  have heq : (Flags.ofSub a b).zero = decide (a.toInt = b.toInt) := by
    simp [Flags.ofSub, BitVec.toInt_inj, Bool.beq_eq_decide_eq]
  have hge : ((Flags.ofSub a b).sign == (Flags.ofSub a b).overflow) = !decide (a.toInt < b.toInt) := by
    rw [← hlt, bne, Bool.not_not]
  cases op with
  | equal => rfl
  | notEqual => rfl
  | less => exact hlt
  | lessEqual =>
    simp only [Comparison.condition, Condition.holds, Comparison.apply, heq, hlt]
    rw [← Bool.decide_or]
    exact decide_eq_decide.mpr (by omega)
  | greater =>
    simp only [Comparison.condition, Condition.holds, Comparison.apply, heq, hge, ← decide_not]
    rw [← Bool.decide_and]
    exact decide_eq_decide.mpr (by omega)
  | greaterEqual =>
    simp only [Comparison.condition, Condition.holds, Comparison.apply, hge, ← decide_not]
    exact decide_eq_decide.mpr (by omega)

/-! ### Division -/

/-- The quotient and the remainder of a number of two words, the high one first; the quotient is cut
toward zero.  There is none if the divisor is zero or the quotient takes more than a word. -/
def Word.divide (high low divisor : Word) : Option (Word × Word) :=
  let dividend := high.toInt * 2 ^ 64 + low.toNat
  let quotient := dividend.tdiv divisor.toInt
  if divisor ≠ 0 ∧ -2 ^ 63 ≤ quotient ∧ quotient < 2 ^ 63 then
    some (BitVec.ofInt 64 quotient, BitVec.ofInt 64 (dividend.tmod divisor.toInt))
  else none

/-- The word above a word that extends it with its sign. -/
def Word.signWord (w : Word) : Word := if w.msb then BitVec.allOnes 64 else 0

/-- A word that is extended with its sign stays the same number. -/
theorem Word.toInt_signWord (w : Word) : (signWord w).toInt * 2 ^ 64 + w.toNat = w.toInt := by
  rw [BitVec.toInt_eq_msb_cond w, signWord]
  cases w.msb
  · simp
  · simp
    omega

/-- Division of a word by another that gives a word. -/
theorem Word.divide_signWord {a b : Word} (hb : b ≠ 0)
    (h : a ≠ BitVec.intMin 64 ∨ b ≠ -1) :
    ∃ rest, divide (signWord a) a b = some (a.sdiv b, rest) := by
  have hquot : (a.sdiv b).toInt = a.toInt.tdiv b.toInt := BitVec.toInt_sdiv_of_ne_or_ne a b h
  have hlow := @BitVec.le_two_mul_toInt 64 (a.sdiv b)
  have hhigh := @BitVec.two_mul_toInt_lt 64 (a.sdiv b)
  refine ⟨BitVec.ofInt 64 (a.toInt.tmod b.toInt), ?_⟩
  unfold divide
  simp only [toInt_signWord]
  rw [← hquot, if_pos ⟨hb, by omega, by omega⟩, BitVec.ofInt_toInt]

end ProcLang

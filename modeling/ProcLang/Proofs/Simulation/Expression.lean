import ProcLang.Proofs.Machine.Run
import ProcLang.Proofs.Meaning

/-!
The code of an expression computes its value.

The code keeps every register in use, `rbp`, `rsp` and the memory from `rsp` on; only the stack below
is used as scratch space.  What it finds in the variables therefore stays there while it runs.
-/

namespace ProcLang

/-! ### Room on the stack -/

/-- The bytes by which an instruction moves the stack down. -/
def Instr.reserved : Instr → Nat
  | .push _ => 8
  | .alu .sub .quad (.reg .rsp) (.imm bytes) => bytes.toNat
  | _ => 0

/-- The bytes that code may need on the stack, whatever way is taken through it. -/
def stackNeed (code : List Instr) : Nat := (code.map Instr.reserved).sum

@[simp] theorem stackNeed_nil : stackNeed [] = 0 := rfl

@[simp] theorem stackNeed_cons (i : Instr) (c : List Instr) :
    stackNeed (i :: c) = i.reserved + stackNeed c := List.sum_cons

@[simp] theorem stackNeed_append (c₁ c₂ : List Instr) :
    stackNeed (c₁ ++ c₂) = stackNeed c₁ + stackNeed c₂ := by
  simp [stackNeed]

namespace Machine.Returned

variable {m m₁ m₂ : Machine}

theorem refl (m : Machine) : m.Returned m := ⟨rfl, rfl, fun _ _ => rfl⟩

theorem trans (h₁ : m.Returned m₁) (h₂ : m₁.Returned m₂) : m.Returned m₂ where
  rbp := h₂.rbp.trans h₁.rbp
  rsp := h₂.rsp.trans h₁.rsp
  mem a ha := (h₂.mem a (h₁.rsp ▸ ha)).trans (h₁.mem a ha)

theorem set {r : Register} (hr : r ∈ Register.allocatable) (w : Word) : m.Returned (m.set r w) where
  rbp := regs_set_of_ne _ _ _ (by rintro rfl; exact absurd hr (by decide))
  rsp := regs_set_of_ne _ _ _ (by rintro rfl; exact absurd hr (by decide))
  mem _ _ := rfl

end Machine.Returned

namespace Generation.Used

/-- Only registers that can be allocated are in use. -/
def Sound (used : Used) : Prop := ∀ r, used r = true → r ∈ Register.allocatable

variable {used : Used} {r q : Register}

theorem add_self (used : Used) (r : Register) : used.add r r = true := by simp [add]

theorem le_add (h : used q = true) : used.add r q = true := by simp [add, h]

theorem add_eq_true : used.add r q = true ↔ q = r ∨ used q = true := by simp [add]

theorem Sound.add (h : used.Sound) (hr : r ∈ Register.allocatable) : (used.add r).Sound := by
  intro q hq
  rcases add_eq_true.mp hq with rfl | hq
  · exact hr
  · exact h q hq

theorem Free.of_add (h : (used.add r).Free q) : used.Free q := by
  have hq : q ≠ r ∧ used q = false := by simpa [Used.add] using h.2
  exact ⟨h.1, hq.2⟩

theorem Free.ne (h : used.Free r) (hq : used q = true) : q ≠ r := by
  rintro rfl
  rw [h.2] at hq
  cases hq

end Generation.Used

/-! ### What code keeps -/

open Generation (Used)

namespace Machine

/-- The registers in use are kept, and so is what a call keeps. -/
structure Preserves (used : Used) (m m' : Machine) : Prop extends m.Returned m' where
  regs : ∀ q, used q = true → m'.regs q = m.regs q

/-- A word comes into a register; the other registers in use are kept. -/
structure Gives (used : Used) (r : Register) (w : Word) (m m' : Machine) : Prop
    extends m.Returned m' where
  result : m'.regs r = w
  others : ∀ q, used q = true → q ≠ r → m'.regs q = m.regs q

variable {used used' : Used} {m m₁ m₂ : Machine} {r : Register} {w : Word}

theorem Preserves.refl (used : Used) (m : Machine) : Preserves used m m := ⟨.refl m, fun _ _ => rfl⟩

theorem Preserves.trans (h₁ : Preserves used m m₁) (h₂ : Preserves used m₁ m₂) : Preserves used m m₂ :=
  ⟨h₁.toReturned.trans h₂.toReturned, fun q hq => (h₂.regs q hq).trans (h₁.regs q hq)⟩

theorem Preserves.mono (h : Preserves used' m m₁) (hle : ∀ q, used q = true → used' q = true) :
    Preserves used m m₁ :=
  ⟨h.toReturned, fun q hq => h.regs q (hle q hq)⟩

/-- The register of the result was free, so everything in use is kept. -/
theorem Gives.keeps (h : Gives used r w m m₁) (hr : used.Free r) : Preserves used m m₁ :=
  ⟨h.toReturned, fun q hq => h.others q hq (hr.ne hq)⟩

theorem Gives.mono (h : Gives used' r w m m₁) (hle : ∀ q, used q = true → used' q = true) :
    Gives used r w m m₁ :=
  ⟨h.toReturned, h.result, fun q hq => h.others q (hle q hq)⟩

theorem Gives.set (hr : r ∈ Register.allocatable) : Gives used r w m (m.set r w) :=
  ⟨.set hr w, regs_set_self _ _ _, fun _ _ hq => regs_set_of_ne _ _ _ hq⟩

/-- The flags do not matter. -/
theorem Gives.withFlags {flags : Option Flags} (h : Gives used r w m m₁) :
    Gives used r w m (m₁.withFlags flags) :=
  ⟨⟨h.rbp, h.rsp, h.mem⟩, h.result, h.others⟩

theorem Gives.of_withFlags {flags : Option Flags} (h : Gives used r w (m.withFlags flags) m₁) :
    Gives used r w m m₁ :=
  ⟨⟨h.rbp, h.rsp, h.mem⟩, h.result, h.others⟩

theorem Preserves.withFlags {flags : Option Flags} (h : Preserves used m m₁) :
    Preserves used m (m₁.withFlags flags) :=
  ⟨⟨h.rbp, h.rsp, h.mem⟩, h.regs⟩

/-- A further result in the same register. -/
theorem Gives.again {v : Word} (h₁ : Gives used r v m m₁) (h₂ : Gives used r w m₁ m₂) :
    Gives used r w m m₂ :=
  ⟨h₁.toReturned.trans h₂.toReturned, h₂.result, fun q hq hne =>
    (h₂.others q hq hne).trans (h₁.others q hq hne)⟩

/-- A result behind another piece of code. -/
theorem Preserves.gives (h₁ : Preserves used m m₁) (h₂ : Gives used r w m₁ m₂) : Gives used r w m m₂ :=
  ⟨h₁.toReturned.trans h₂.toReturned, h₂.result, fun q hq hne =>
    (h₂.others q hq hne).trans (h₁.regs q hq)⟩

end Machine

/-- The labels of the constants have the addresses of the strings. -/
abbrev Image.Holds (P : Image) (pool : List String) (strings : String → Word) : Prop :=
  ∀ {i raw}, pool[i]? = some raw → P.labels (ConstantPool.label i) = strings raw

namespace Generation

open Machine (Preserves Gives)

/-! ### Operators -/

section Operators

variable {P : Image} {used : Used} {m : Machine} {r q : Register}

theorem exec_copy (labels : String → Word) (m : Machine) (dst src : Register) :
    m.exec labels (copyInstr dst src) = some (m.set dst (m.regs src)) := by
  simp [copyInstr, Machine.exec, Machine.read, Machine.write, Width.insert]

theorem exec_cmp (labels : String → Word) (m : Machine) (a b : Register) :
    m.exec labels (.cmp .quad (.reg a) (.reg b)) =
      some (m.withFlags (some (.ofSub (m.regs a) (m.regs b)))) := by
  simp [Machine.exec, Machine.read, Width.bits]

theorem exec_cmp_zero (labels : String → Word) (m : Machine) (r : Register) :
    m.exec labels (.cmp .quad (.reg r) (.imm 0)) =
      some (m.withFlags (some (.ofSub (m.regs r) 0))) := by
  simp [Machine.exec, Machine.read, Width.bits]

/-- A result behind another piece of code. -/
theorem straight_behind {c : List Instr} {m₁ : Machine} {w : Word} (hkeeps : Preserves used m m₁)
    (h : P.Straight c m₁ (Gives used r w m₁)) : P.Straight c m₁ (Gives used r w m) :=
  h.mono fun _ hm => hkeeps.gives hm

theorem setWidth_cut_byte (w : Word) : (Width.byte.cut w).setWidth 8 = w.setWidth 8 := by
  simp [Width.cut, Width.bits]

theorem straight_extend (used : Used) (hr : r ∈ Register.allocatable) (type : DataType) :
    P.Straight (extendCode r type) m (Gives used r (type.normalize (m.regs r)) m) := by
  cases type with
  | u8 => exact .one rfl (.set hr)
  | s8 =>
    refine .one rfl ?_
    show Gives used r _ m (m.set r (((Width.byte.cut (m.regs r)).setWidth 8).signExtend 64))
    rw [setWidth_cut_byte]
    exact .set hr
  | int | void => exact .nil ⟨.refl m, rfl, fun _ _ _ => rfl⟩

theorem straight_truth (hr : r ∈ Register.allocatable) {flags : Flags} (hflags : m.flags = some flags)
    (condition : Condition) :
    P.Straight (truthCode condition r) m (Gives used r (.ofTruth (condition.holds flags)) m) := by
  have hset : m.exec P.labels (.setcc condition r) = some (m.set r
      (Width.byte.insert (m.regs r) (.ofTruth (condition.holds flags)))) := by
    simp [Machine.exec, hflags, Machine.write]
  refine .cons hset (.one rfl ?_)
  have hbyte : Width.byte.cut (Width.byte.insert (m.regs r) (.ofTruth (condition.holds flags))) =
      .ofTruth (condition.holds flags) := by
    show BitVec.setWidth 64 (BitVec.setWidth 8 _) = _
    rw [Width.setWidth_insert_byte]
    cases condition.holds flags <;> rfl
  refine ⟨?_, ?_, fun q hq hne => ?_⟩
  · exact (Machine.Returned.set hr _).trans (.set hr _)
  · rw [Machine.regs_set_self, Machine.read, Machine.regs_set_self, hbyte]
  · rw [Machine.regs_set_of_ne _ _ _ hne, Machine.regs_set_of_ne _ _ _ hne]

/-- The truth of a register, from a comparison with zero. -/
theorem straight_nonzero (used : Used) (hr : r ∈ Register.allocatable) (src : Register) :
    P.Straight (nonzeroCode r src) m (Gives used r (.ofTruth (m.regs src != 0)) m) :=
  .cons (exec_cmp_zero _ _ _) ((straight_truth hr rfl .ne).mono fun _ h => h.of_withFlags)

theorem straight_unary (hr : r ∈ Register.allocatable) (op : UnaryOp) :
    P.Straight (unaryCode op r) m (Gives used r (Meaning.unary op (m.regs r)) m) := by
  cases op with
  | plus => exact .nil ⟨.refl m, rfl, fun _ _ _ => rfl⟩
  | not =>
    exact .cons (exec_cmp_zero _ _ _) ((straight_truth hr rfl .e).mono fun _ h => h.of_withFlags)
  | negate =>
    have hneg : m.exec P.labels (.neg .quad (.reg r)) =
        some ((m.set r (-m.regs r)).withFlags (some (Flags.ofSub 0 (m.regs r)))) := by
      simp [Machine.exec, Machine.read, Machine.write, Width.insert, Width.bits]
    exact .one hneg (Gives.set hr).withFlags

/-! ### Division -/

/-- The division itself changes `rax` and `rdx` only. -/
theorem straight_quotient {dividend : Register} {divisor : Operand} {b w : Word}
    (hdivisor : ∀ m' : Machine, (∀ r, r ≠ .rax → r ≠ .rdx → m'.regs r = m.regs r) → m'.mem = m.mem →
      m'.read P.labels .quad divisor = b)
    (hw : Meaning.arith .div (m.regs dividend) b = some w) :
    P.Straight (quotientCode dividend divisor) m fun m' =>
      m'.regs .rax = w ∧ (∀ r, r ≠ .rax → r ≠ .rdx → m'.regs r = m.regs r) ∧ m'.mem = m.mem := by
  rw [Meaning.arith] at hw
  split_ifs at hw with hfail
  obtain ⟨hb, hmin⟩ := not_or.mp hfail
  obtain rfl := Option.some.inj hw
  obtain ⟨rest, hdivide⟩ := Word.divide_signWord hb (not_and_or.mp hmin)
  have hread := hdivisor ((m.set .rax (m.regs dividend)).set .rdx (m.regs dividend).signWord)
    (fun r hrax hrdx => by simp [hrax, hrdx]) rfl
  have hidiv : ((m.set .rax (m.regs dividend)).set .rdx (m.regs dividend).signWord).exec P.labels
      (.idiv .quad divisor) = some ((((m.set .rax (m.regs dividend)).set .rdx
        (m.regs dividend).signWord).set .rax ((m.regs dividend).sdiv b)).set .rdx rest
          |>.withFlags none) := by
    simp only [Machine.exec, hread]
    simp [hdivide]
  refine .cons (exec_copy _ _ _ _) (.cons rfl (.one hidiv ⟨by simp, fun r hrax hrdx => ?_, rfl⟩))
  simp [hrax, hrdx]

theorem ne_of_allocatable (hr : r ∈ Register.allocatable) : r ≠ .rax ∧ r ≠ .rbp ∧ r ≠ .rsp := by
  revert hr
  cases r <;> decide

section Divisor

variable {rhs : Register} {labels : String → Word} (hused : used.Sound) (hrhs : used rhs = true)
include hused hrhs

/-- The divisor where `rdx` was pushed: it is looked up there if it is `rdx`. -/
theorem read_divisor_pushed (m' : Machine)
    (hregs : ∀ r, r ≠ .rax → r ≠ .rdx → m'.regs r = (m.pushed (m.regs .rdx)).regs r)
    (hmem : m'.mem = (m.pushed (m.regs .rdx)).mem) :
    m'.read labels .quad (if rhs == .rdx then .mem .rsp 0 else .reg rhs) = m.regs rhs := by
  split_ifs with hr
  · rw [beq_iff_eq.mp hr, Machine.read, hregs .rsp (by decide) (by decide), hmem, Int.add_zero]
    exact Machine.load_pushed
  · obtain ⟨hrax, -, hrsp⟩ := ne_of_allocatable (hused rhs hrhs)
    have hne : rhs ≠ .rdx := fun h => hr (beq_iff_eq.mpr h)
    rw [Machine.read, Width.cut_quad, hregs rhs hrax hne, Machine.regs_pushed_of_ne hrsp]

theorem read_divisor (hne : rhs ≠ .rdx) (m' : Machine)
    (hregs : ∀ r, r ≠ .rax → r ≠ .rdx → m'.regs r = m.regs r) (_ : m'.mem = m.mem) :
    m'.read labels .quad (.reg rhs) = m.regs rhs := by
  rw [Machine.read, Width.cut_quad, hregs rhs (ne_of_allocatable (hused rhs hrhs)).1 hne]

end Divisor

/-- Division by way of `rax` and `rdx`: what is in use of them is kept on the stack. -/
theorem straight_divide {lhs rhs : Register} {w : Word} (hused : used.Sound) (hlhs : used lhs = true)
    (hrhs : used rhs = true) (hw : Meaning.arith .div (m.regs lhs) (m.regs rhs) = some w)
    (hroom : stackNeed (divideCode used lhs rhs) ≤ (m.regs .rsp).toNat) :
    P.Straight (divideCode used lhs rhs) m (Gives used lhs w m) := by
  obtain ⟨hlhsRax, hlhsRbp, hlhsRsp⟩ := ne_of_allocatable (hused lhs hlhs)
  by_cases hrdx : used .rdx = true
  · rw [divideCode, if_pos hrdx] at hroom ⊢
    -- `rdx` is in use: it is pushed, and the divisor is looked up there if it is `rdx`
    have h8 : 8 ≤ (m.regs .rsp).toNat := by
      simp only [List.cons_append, stackNeed_cons, Instr.reserved] at hroom
      omega
    have hlhs₁ : (m.pushed (m.regs .rdx)).regs lhs = m.regs lhs := Machine.regs_pushed_of_ne hlhsRsp
    have hread := @read_divisor_pushed used m rhs P.labels hused hrhs
    refine .cons rfl ((straight_quotient hread (hlhs₁ ▸ hw)).append fun m₂ h₂ => ?_)
    obtain ⟨hrax, hregs, hmem⟩ := h₂
    have hsp : m₂.regs .rsp = m.regs .rsp - 8 := hregs _ (by decide) (by decide)
    have hpop : m₂.mem.load (m₂.regs .rsp).toNat 8 = m.regs .rdx := by
      rw [hmem, hsp]
      exact Machine.load_pushed
    refine .cons rfl (.one (exec_copy _ _ _ _) ⟨⟨?_, ?_, fun a ha => ?_⟩, ?_, fun q hq hne => ?_⟩)
    · rw [Machine.regs_set_of_ne _ _ _ hlhsRbp.symm]
      exact hregs _ (by decide) (by decide)
    · rw [Machine.regs_set_of_ne _ _ _ hlhsRsp.symm]
      rw [Machine.regs_set_of_ne _ _ _ (by decide), Machine.regs_set_self, hsp, BitVec.sub_add_cancel]
    · show m₂.mem a = m.mem a
      rw [hmem, Machine.mem_pushed h8 ha]
    · simp [hrax]
    · rw [Machine.regs_set_of_ne _ _ _ hne]
      by_cases hqd : q = .rdx
      · subst hqd
        rw [Machine.regs_set_self, hpop]
      · obtain ⟨hqRax, -, hqRsp⟩ := ne_of_allocatable (hused q hq)
        rw [Machine.regs_set_of_ne _ _ _ hqd, Machine.regs_set_of_ne _ _ _ hqRsp, hregs q hqRax hqd,
          Machine.regs_pushed_of_ne hqRsp]
  · rw [divideCode, if_neg hrdx]
    have hrdx : ∀ q, used q = true → q ≠ .rdx := fun q hq hqd => hrdx (hqd ▸ hq)
    have hread := @read_divisor used m rhs P.labels hused hrhs (hrdx rhs hrhs)
    refine (straight_quotient hread hw).append fun m₂ h₂ => ?_
    obtain ⟨hrax, hregs₂, hmem₂⟩ := h₂
    refine .one (exec_copy _ _ _ _) ⟨⟨?_, ?_, ?_⟩, ?_, ?_⟩
    · rw [Machine.regs_set_of_ne _ _ _ hlhsRbp.symm, hregs₂ .rbp (by decide) (by decide)]
    · rw [Machine.regs_set_of_ne _ _ _ hlhsRsp.symm, hregs₂ .rsp (by decide) (by decide)]
    · intro a _
      rw [Machine.mem_set, hmem₂]
    · rw [Machine.regs_set_self, hrax]
    · intro q hq hne
      rw [Machine.regs_set_of_ne _ _ _ hne, hregs₂ q (ne_of_allocatable (hused q hq)).1 (hrdx q hq)]

theorem straight_alu (hr : r ∈ Register.allocatable) (op : AluOp) (q : Register) :
    P.Straight [.alu op .quad (.reg r) (.reg q)] m
      (Gives used r (op.apply (m.regs r) (m.regs q)) m) := by
  have hexec : m.exec P.labels (.alu op .quad (.reg r) (.reg q)) = some ((m.set r
      (op.apply (m.regs r) (m.regs q))).withFlags (op.flags (m.regs r) (m.regs q))) := by
    simp [Machine.exec, Machine.read, Machine.write, Width.insert, Width.bits]
  exact .one hexec (Gives.set hr).withFlags

theorem straight_arith {lhs rhs : Register} {w : Word} {op : ArithOp} (hused : used.Sound)
    (hlhs : used lhs = true) (hrhs : used rhs = true)
    (hw : Meaning.arith op (m.regs lhs) (m.regs rhs) = some w)
    (hroom : stackNeed (arithCode used op lhs rhs) ≤ (m.regs .rsp).toNat) :
    P.Straight (arithCode used op lhs rhs) m (Gives used lhs w m) := by
  cases op with
  | add => exact Option.some.inj hw ▸ straight_alu (hused lhs hlhs) .add rhs
  | sub => exact Option.some.inj hw ▸ straight_alu (hused lhs hlhs) .sub rhs
  | mul => exact Option.some.inj hw ▸ straight_alu (hused lhs hlhs) .mul rhs
  | div => exact straight_divide hused hlhs hrhs hw hroom

theorem straight_compare {lhs : Register} (hlhs : lhs ∈ Register.allocatable) (op : Comparison)
    (rhs : Register) :
    P.Straight (.cmp .quad (.reg lhs) (.reg rhs) :: truthCode op.condition lhs) m
      (Gives used lhs (.ofTruth (op.apply (m.regs lhs) (m.regs rhs))) m) := by
  rw [← op.holds_condition]
  exact .cons (exec_cmp _ _ _ _) ((straight_truth hlhs rfl _).mono fun _ h => h.of_withFlags)

end Operators

/-! ### Variables -/

section Variables

variable {P : Image} {used used' : Used} {m m' : Machine} {r q : Register}

/-- The value in a place: in a register, or in a frame some links out from `rbp`. -/
def contents (m : Machine) (place : Place) : Word :=
  match place.access with
  | .register r => m.regs r
  | .frame out offset =>
    place.type.normalize
      (m.mem.load ((m.mem.follow out (m.regs .rbp)).toNat + offset) place.type.size)

/-- The operand of a variable that was reached from a machine: its register, or its offset from a
register with the pointer to its frame. -/
def Aims (m : Machine) (access : Access) (m' : Machine) (o : Operand) : Prop :=
  match access with
  | .register r => o = .reg r
  | .frame out offset =>
    ∃ base, o = .mem base offset ∧ m'.regs base = m.mem.follow out (m.regs .rbp)

theorem exec_follow (labels : String → Word) (m : Machine) (q base : Register) :
    m.exec labels (.mov .quad (.reg q) (.mem base 0)) =
      some (m.set q (m.mem.load (m.regs base).toNat 8)) := by
  simp [Machine.exec, Machine.read, Machine.write, Width.insert, Width.bytes]

theorem straight_follow : ∀ (n : Nat) (m : Machine),
    P.Straight (List.replicate n (.mov .quad (.reg q) (.mem q 0))) m
      (· = m.set q (m.mem.follow n (m.regs q)))
  | 0, m => .nil (by simp [Memory.follow])
  | n + 1, m => .cons (exec_follow _ _ _ _) ((straight_follow n _).mono fun m' hm' => by
      rw [hm']
      simp [Memory.follow])

theorem straight_outward (q : Register) (further : Nat) :
    P.Straight (outward q further) m (· = m.set q (m.mem.follow (further + 1) (m.regs .rbp))) :=
  .cons (exec_follow _ _ _ _) ((straight_follow further _).mono fun m' hm' => by
    rw [hm']
    simp [Memory.follow])

/-- The way to a variable changes a free register at most. -/
theorem Reach.straight {access : Access} {code : List Instr} {o : Operand}
    (h : Reach used access code o) :
    P.Straight code m fun m' => Preserves used m m' ∧ m'.mem = m.mem ∧ Aims m access m' o := by
  cases h with
  | register _ => exact .nil ⟨.refl used m, rfl, rfl⟩
  | here => exact .nil ⟨.refl used m, rfl, .rbp, rfl, rfl⟩
  | outer hq =>
    refine (straight_outward _ _).mono fun m' hm' => ?_
    subst hm'
    exact ⟨(Gives.set hq.1).keeps hq, rfl, _, rfl, Machine.regs_set_self _ _ _⟩

theorem exec_fetch_reg (labels : String → Word) (m : Machine) (type : DataType) (dst src : Register) :
    m.exec labels (fetch type dst (.reg src)) = some (m.set dst (type.normalize (m.regs src))) := by
  cases type with
  | u8 => rfl
  | s8 =>
    show some (m.set dst (((Width.byte.cut (m.regs src)).setWidth 8).signExtend 64)) = _
    rw [setWidth_cut_byte]
    rfl
  | int | void => exact exec_copy _ _ _ _

theorem exec_fetch_mem (labels : String → Word) (m : Machine) {type : DataType} (htype : type ≠ .void)
    (dst base : Register) (offset : Int) :
    m.exec labels (fetch type dst (.mem base offset)) = some (m.set dst
      (type.normalize (m.mem.load ((m.regs base).toNat + offset) type.size))) := by
  cases type with
  | void => exact absurd rfl htype
  | int => simp [fetch, Machine.exec, Machine.read, Machine.write, Width.insert, Width.bytes,
      DataType.normalize, DataType.size]
  | u8 =>
    simp only [fetch, Machine.exec, Machine.read, Width.bytes, DataType.normalize, DataType.size]
    rw [Memory.setWidth_load Nat.one_pos, Memory.load_one]
  | s8 => rfl

/-- A variable that was reached is loaded. -/
theorem Reach.load {place : Place} {code : List Instr} {src : Operand}
    (h : Reach (used.add r) place.access code src) (hr : used.Free r) (htype : place.type ≠ .void) :
    P.Straight (code ++ [loadInstr place r src]) m (Gives used r (contents m place) m) := by
  refine h.straight.append fun m₁ ⟨hkeeps, hmem, haims⟩ => ?_
  have hkeeps' : Preserves used m m₁ := hkeeps.mono fun _ => Used.le_add
  obtain ⟨type, access⟩ := place
  cases access with
  | register q =>
    obtain rfl : src = .reg q := haims
    have hq : m₁.regs q = m.regs q := by
      cases h with
      | register hq => exact hkeeps.regs q hq
    refine .one (exec_copy _ _ _ _) (hkeeps'.gives ?_)
    rw [hq]
    exact .set hr.1
  | frame out offset =>
    obtain ⟨base, rfl, hbase⟩ := haims
    refine .one (exec_fetch_mem _ _ htype _ _ _) (hkeeps'.gives ?_)
    rw [hbase, hmem]
    exact .set hr.1

/-- The variables that code can name have the values of an environment in the machine, and keep them
while everything in use is kept. -/
structure Sees (used : Used) (look : String → Option Place) (env : Meaning.Env) (m : Machine) :
    Prop where
  typed : ∀ {name place}, look name = some place →
    ∃ x, env.find? name = some x ∧ x.type = place.type ∧ place.type ≠ .void
  value : ∀ {m'}, Preserves used m m' → ∀ {name place x w}, look name = some place →
    env.find? name = some x → x.value = some w → contents m' place = w

theorem Sees.keeps {look : String → Option Place} {env : Meaning.Env} (h : Sees used look env m)
    (hkeeps : Preserves used m m') (hle : ∀ q, used q = true → used' q = true) :
    Sees used' look env m' :=
  ⟨h.typed, fun hkeeps' => h.value (hkeeps.trans (hkeeps'.mono hle))⟩

end Variables

/-! ### Expressions -/

section Expressions

variable {pool : List String} {look : String → Option Place} {strings : String → Word}
  {env : Meaning.Env} {used : Used} {e : Expr} {context type : DataType} {n n' : Nat}
  {code : List Instr} {r : Register}

theorem arithType_eq (t₁ t₂ : DataType) : Meaning.arithType t₁ t₂ = t₁.arith t₂ := by
  cases t₁ <;> cases t₂ <;> rfl

/-- The type that code is written for is the type of the value; a byte that is asked for is taken for
a literal only, where it makes no difference. -/
theorem ExprCode.type_eq (h : ExprCode pool look used e context n code r type n')
    (htyped : ∀ {name place}, look name = some place →
      ∃ x, env.find? name = some x ∧ x.type = place.type ∧ place.type ≠ .void)
    (hcontext : context.isByte = false) : type = Meaning.typeOf env e := by
  induction h with
  | byte hbyte => rw [hcontext] at hbyte; cases hbyte
  | word => rfl
  | string => rfl
  | var hlook =>
    obtain ⟨x, hx, htype, -⟩ := htyped hlook
    rw [Meaning.typeOf, hx, ← htype]
    rfl
  | @unary _ _ op _ _ _ _ _ _ _ _ _ _ ih =>
    cases op with
    | plus => exact ih hcontext
    | negate => rfl
    | not => rfl
  | @eager _ _ op _ _ _ _ _ _ _ _ _ _ _ _ _ _ _ _ ih₁ ih₂ =>
    cases op with
    | inl op => rw [eagerType, ih₁ rfl, ih₂ rfl, ← arithType_eq]; rfl
    | inr op => rfl
  | logic => rfl

theorem ExprCode.free (h : ExprCode pool look used e context n code r type n') : used.Free r := by
  cases h with
  | byte _ _ hr | word _ hr | string _ hr | var _ hr _ => exact hr
  | unary _ hdst | eager _ hdst _ | logic _ hdst _ => exact hdst.of_add

/-- The left operand of a logical operator decides as its truth does. -/
theorem holds_decided (op : LogicOp) (a : Word) :
    op.decided.holds (Flags.ofSub (Word.ofTruth (a != 0)) 0) = Meaning.decides op a := by
  by_cases ha : a = 0
  · subst ha
    cases op <;> rfl
  · have hne : (a != 0) = true := bne_iff_ne.mpr ha
    have heq : (a == 0) = false := beq_eq_false_iff_ne.mpr ha
    cases op with
    | and => rw [hne, Meaning.decides, heq]; rfl
    | or => rw [hne, Meaning.decides, hne]; rfl

variable {P : Image}

/-- The value of an operator that needs both operands. -/
def eagerValue (op : ArithOp ⊕ Comparison) (type : DataType) (a b : Word) : Option Word :=
  match op with
  | .inl op => (Meaning.arith op a b).map type.normalize
  | .inr op => some (.ofTruth (op.apply a b))

theorem eval_eager {tag : Tag} {op : ArithOp ⊕ Comparison} {l r : Expr} {v : Word}
    (h : Meaning.eval strings env (.binary tag (eagerOp op) l r) = some v) :
    ∃ a b, Meaning.eval strings env l = some a ∧ Meaning.eval strings env r = some b ∧
      eagerValue op (Meaning.arithType (Meaning.typeOf env l) (Meaning.typeOf env r)) a b = some v := by
  cases op with
  | inl op | inr op =>
    obtain ⟨a, ha, h⟩ := Option.bind_eq_some_iff.mp h
    obtain ⟨b, hb, h⟩ := Option.bind_eq_some_iff.mp h
    exact ⟨a, b, ha, hb, h⟩

theorem straight_eager {op : ArithOp ⊕ Comparison} {lhs rhs : Register} {v : Word} {m : Machine}
    (hused : used.Sound) (hlhs : used lhs = true) (hrhs : used rhs = true)
    (hv : eagerValue op type (m.regs lhs) (m.regs rhs) = some v)
    (hroom : stackNeed (eagerCode used op lhs rhs type) ≤ (m.regs .rsp).toNat) :
    P.Straight (eagerCode used op lhs rhs type) m (Gives used lhs v m) := by
  cases op with
  | inl op =>
    obtain ⟨w, hw, rfl⟩ := Option.map_eq_some_iff.mp hv
    rw [eagerCode, stackNeed_append] at hroom
    refine (straight_arith hused hlhs hrhs hw (by omega)).append fun m₁ hm₁ => ?_
    refine (straight_extend used (hused lhs hlhs) type).mono fun m₂ hm₂ => ?_
    rw [hm₁.result] at hm₂
    exact hm₁.again hm₂
  | inr op =>
    obtain rfl := Option.some.inj hv
    exact straight_compare (hused lhs hlhs) op rhs

/-- The value of an expression, copied to a register of its own. -/
theorem straight_copied {c rest : List Instr} {m : Machine} {a : Word} {dst : Register}
    {Q : Machine → Prop} (h : P.Straight c m (Gives used r a m)) (hr : used.Free r)
    (hdst : (used.add r).Free dst)
    (hrest : ∀ m₁, Preserves used m m₁ → m₁.regs dst = a → P.Straight rest m₁ Q) :
    P.Straight (c ++ copyInstr dst r :: rest) m Q := by
  refine h.append fun m₁ hm₁ => .cons (exec_copy _ _ _ _) (hrest _ ?_ ?_)
  · exact (hm₁.keeps hr).trans ((Gives.set hdst.1).keeps hdst.of_add)
  · rw [Machine.regs_set_self, hm₁.result]

theorem straight_byte {value : UInt64} {m : Machine}
    (hlimit : context.literalLimit?.any (· < value) = false) (hbyte : context.isByte = true)
    (hr : used.Free r) :
    P.Straight (.mov .byte (.reg r) (.imm (signedWord value)) :: extendCode r context) m
      (Gives used r value.toBitVec m) := by
  have hword : BitVec.ofInt 64 (signedWord value) = value.toBitVec := BitVec.ofInt_toInt
  have hmov : m.exec P.labels (.mov .byte (.reg r) (.imm (signedWord value))) =
      some (m.set r (Width.byte.insert (m.regs r) (Width.byte.cut value.toBitVec))) := by
    rw [← hword]
    rfl
  have hvalue : context.normalize (Width.byte.insert (m.regs r) (Width.byte.cut value.toBitVec)) =
      value.toBitVec := by
    refine Eq.trans (DataType.normalize_congr hbyte ?_) (context.normalize_literal hlimit)
    rw [Width.setWidth_insert_byte, setWidth_cut_byte]
  refine .cons hmov (straight_behind ((Gives.set hr.1).keeps hr) ?_)
  refine (straight_extend used hr.1 context).mono fun m₁ hm₁ => ?_
  rwa [Machine.regs_set_self, hvalue] at hm₁

/-- The code of an expression brings its value into a free register, and keeps what is in use. -/
theorem ExprCode.straight (hunique : P.Unique) (hpool : P.Holds pool strings)
    (h : ExprCode pool look used e context n code r type n') :
    ∀ {m : Machine} {v : Word}, used.Sound → Sees used look env m →
      Meaning.eval strings env e = some v → stackNeed code ≤ (m.regs .rsp).toNat →
      P.Straight code m (Gives used r v m) := by
  induction h with
  | byte hbyte hlimit hr =>
    intro m v hused hsees hv hroom
    obtain rfl := Option.some.inj hv
    exact straight_byte hlimit hbyte hr
  | @word _ _ value _ _ r _ hr =>
    intro m v hused hsees hv hroom
    obtain rfl := Option.some.inj hv
    have hword : BitVec.ofInt 64 (signedWord value) = value.toBitVec := BitVec.ofInt_toInt
    have hmov : m.exec P.labels (.mov .quad (.reg r) (.imm (signedWord value))) =
        some (m.set r value.toBitVec) := by
      simp [Machine.exec, Machine.read, Machine.write, Width.insert, hword]
    exact .one hmov (.set hr.1)
  | @string _ _ raw _ _ r index hindex hr =>
    intro m v hused hsees hv hroom
    obtain rfl := Option.some.inj hv
    have hlea : m.exec P.labels (.lea r (.data (ConstantPool.label index))) =
        some (m.set r (strings raw)) := by
      simp [Machine.exec, Machine.address?, hpool hindex]
    exact .one hlea (.set hr.1)
  | var hlook hr hreach =>
    intro m v hused hsees hv hroom
    obtain ⟨x, hx, hvalue⟩ := Option.bind_eq_some_iff.mp hv
    obtain ⟨x', hx', -, htype⟩ := hsees.typed hlook
    rw [← hsees.value (.refl _ m) hlook hx hvalue]
    exact hreach.load hr htype
  | @unary used _ op _ _ _ _ r _ _ dst hcode hdst ih =>
    intro m v hused hsees hv hroom
    obtain ⟨a, ha, rfl⟩ := Option.map_eq_some_iff.mp hv
    rw [stackNeed_append] at hroom
    refine straight_copied (ih hused hsees ha (by omega)) hcode.free hdst fun m₁ hkeeps hm₁ => ?_
    rw [← hm₁]
    exact straight_behind hkeeps (straight_unary hdst.1 op)
  | @eager used _ op l r _ _ _ _ c₁ c₂ r₁ r₂ t₁ t₂ dst hcode₁ hdst hcode₂ ih₁ ih₂ =>
    intro m v hused hsees hv hroom
    obtain ⟨a, b, ha, hb, hop⟩ := eval_eager hv
    rw [← hcode₁.type_eq hsees.typed rfl, ← hcode₂.type_eq hsees.typed rfl, arithType_eq] at hop
    rw [List.append_assoc, stackNeed_append, List.cons_append, stackNeed_cons, stackNeed_append]
      at hroom
    rw [List.append_assoc, List.cons_append]
    refine straight_copied (ih₁ hused hsees ha (by omega)) hcode₁.free hdst fun m₁ hkeeps hm₁ => ?_
    have hused' : ((used.add r₁).add dst).Sound := (hused.add hcode₁.free.1).add hdst.1
    have hsees' : Sees ((used.add r₁).add dst) look env m₁ :=
      hsees.keeps hkeeps fun q hq => Used.le_add (Used.le_add hq)
    have hsp : m₁.regs .rsp = m.regs .rsp := hkeeps.rsp
    refine (ih₂ hused' hsees' hb (by rw [hsp]; omega)).append fun m₂ hm₂ => ?_
    have hkeeps₂ := hm₂.keeps hcode₂.free
    have hdst₂ : m₂.regs dst = a := (hkeeps₂.regs dst (Used.add_self _ _)).trans hm₁
    have hkeeps' : Preserves used m m₂ :=
      hkeeps.trans (hkeeps₂.mono fun q hq => Used.le_add (Used.le_add hq))
    have hsp₂ : m₂.regs .rsp = m.regs .rsp := hkeeps'.rsp
    rw [← hdst₂, ← hm₂.result] at hop
    refine straight_behind hkeeps' ((straight_eager (hused'.add hcode₂.free.1)
      (Used.le_add (Used.add_self _ _)) (Used.add_self _ _) hop (by rw [hsp₂]; omega)).mono
        fun _ hm => hm.mono fun q hq => Used.le_add (Used.le_add (Used.le_add hq)))
  | @logic used _ op l r _ n _ _ c₁ c₂ r₁ r₂ t₁ t₂ dst hcode₁ hdst hcode₂ ih₁ ih₂ =>
    intro m v hused hsees hv hroom
    obtain ⟨a, ha, hrest⟩ := Option.bind_eq_some_iff.mp hv
    simp only [stackNeed_append, stackNeed_cons] at hroom
    have hcode : c₁ ++ nonzeroCode dst r₁ ++ .cmp .quad (.reg dst) (.imm 0) ::
        .jcc op.decided ⟨n, op.labelName⟩ :: c₂ ++ nonzeroCode dst r₂ ++ [.label ⟨n, op.labelName⟩] =
        c₁ ++ (nonzeroCode dst r₁ ++ .cmp .quad (.reg dst) (.imm 0) ::
          (.jcc op.decided ⟨n, op.labelName⟩ :: (c₂ ++ nonzeroCode dst r₂) ++
            [.label ⟨n, op.labelName⟩])) := by simp
    rw [hcode]
    refine (ih₁ hused hsees ha (by omega)).append fun m₁ hm₁ => ?_
    have hkeeps₁ := hm₁.keeps hcode₁.free
    refine (straight_nonzero used hdst.1 r₁).append fun m₂ hm₂ => ?_
    have hkeeps₂ := hkeeps₁.trans (hm₂.keeps hdst.of_add)
    have htruth : m₂.regs dst = .ofTruth (a != 0) := by rw [hm₂.result, hm₁.result]
    refine .cons (exec_cmp_zero _ _ _) (.skip hunique rfl (fun hc => ?_) fun hc => ?_)
    · rw [htruth, holds_decided] at hc
      rw [if_pos hc] at hrest
      rw [← Option.some.inj hrest, ← hm₁.result]
      exact (hkeeps₁.gives hm₂).withFlags
    · rw [htruth, holds_decided] at hc
      rw [if_neg (by simp [hc])] at hrest
      obtain ⟨b, hb, hv⟩ := Option.bind_eq_some_iff.mp hrest
      have hkeeps₃ : Preserves used m (m₂.withFlags (some (.ofSub (m₂.regs dst) 0))) := hkeeps₂.withFlags
      refine (ih₂ (hused.add hdst.1) (hsees.keeps hkeeps₃ fun _ => Used.le_add) hb
        (by rw [hkeeps₃.rsp]; omega)).append fun m₄ hm₄ => ?_
      have hkeeps₄ := hkeeps₃.trans ((hm₄.keeps hcode₂.free).mono fun _ => Used.le_add)
      rw [← Option.some.inj hv, ← hm₄.result]
      exact straight_behind hkeeps₄ (straight_nonzero used hdst.1 r₂)

end Expressions

end Generation

end ProcLang

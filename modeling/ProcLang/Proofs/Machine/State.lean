import ProcLang.Proofs.Machine.Word

/-!
The machine: registers of 64 bits that wrap around, flags, and a memory of bytes.

An address is the number in a register and a displacement, and does not wrap.  A byte register keeps
the rest of its register, and a register of 32 bits clears it.  `Machine.exec` is what an instruction
does that neither jumps nor calls; it does nothing that is not defined, such as a division by zero or
a look at flags that an instruction left open.
-/

namespace ProcLang

/-! ### Memory -/

/-- The bytes of the memory. -/
abbrev Memory := Int → BitVec 8

namespace Memory

/-- The word in a number of bytes from an address on, the lowest byte first. -/
def load (mem : Memory) (a : Int) : Nat → Word
  | 0 => 0
  | n + 1 => (mem a).setWidth 64 ||| load mem (a + 1) n <<< 8

/-- The memory with the lowest bytes of a word from an address on. -/
def store (mem : Memory) (a : Int) (n : Nat) (w : Word) : Memory := fun b =>
  if a ≤ b ∧ b < a + n then (w >>> (8 * (b - a).toNat)).setWidth 8 else mem b

variable {mem mem' : Memory} {a b : Int} {n k : Nat} {w : Word}

theorem load_congr : ∀ {n : Nat} {a : Int}, (∀ b, a ≤ b → b < a + n → mem' b = mem b) →
    mem'.load a n = mem.load a n
  | 0, _, _ => rfl
  | n + 1, a, h => by
    rw [load, load, h a (by omega) (by omega), load_congr fun b hb hb' => h b (by omega) (by omega)]

theorem store_of_outside (h : b < a ∨ a + n ≤ b) : mem.store a n w b = mem b :=
  if_neg (by omega)

theorem getLsbD_load : ∀ {n : Nat} {a : Int} {i : Nat}, i < 64 →
    (mem.load a n).getLsbD i = (decide (i < 8 * n) && (mem (a + (i / 8 : Nat))).getLsbD (i % 8))
  | 0, _, i, _ => by simp [load]
  | n + 1, a, i, hi => by
    rw [load, BitVec.getLsbD_or, BitVec.getLsbD_setWidth, BitVec.getLsbD_shiftLeft]
    by_cases h8 : i < 8
    · have hdiv : i / 8 = 0 := by omega
      have hmod : i % 8 = i := by omega
      have hlt : i < 8 * (n + 1) := by omega
      simp [h8, hdiv, hmod, hi, hlt]
    · have hbyte : (mem a).getLsbD i = false := BitVec.getLsbD_of_ge _ _ (by omega)
      have hmod : (i - 8) % 8 = i % 8 := by omega
      have hdiv : a + 1 + ((i - 8) / 8 : Nat) = a + (i / 8 : Nat) := by omega
      have hlt : (i - 8 < 8 * n) = (i < 8 * (n + 1)) := propext (by omega)
      rw [getLsbD_load (by omega), hdiv, hmod]
      simp [h8, hbyte, hlt, hi]

/-- What was stored is loaded again. -/
theorem getLsbD_load_store {i : Nat} (hi : i < 64) (hn : i < 8 * n) :
    ((mem.store a n w).load a n).getLsbD i = w.getLsbD i := by
  have hshift : 8 * (a + (i / 8 : Nat) - a).toNat + i % 8 = i := by omega
  have hmod : i % 8 < 8 := by omega
  rw [getLsbD_load hi, store, if_pos (by omega), BitVec.getLsbD_setWidth, BitVec.getLsbD_ushiftRight,
    hshift]
  simp [hn, hmod]

theorem load_store_eight : (mem.store a 8 w).load a 8 = w :=
  BitVec.eq_of_getLsbD_eq fun _ hi => getLsbD_load_store hi (by omega)

/-- The low byte of what is loaded is the byte at the address. -/
theorem setWidth_load (hn : 0 < n) : (mem.load a n).setWidth 8 = mem a := by
  refine BitVec.eq_of_getLsbD_eq fun i hi => ?_
  have hdiv : i / 8 = 0 := by omega
  have hmod : i % 8 = i := by omega
  have hlt : i < 8 * n := by omega
  rw [BitVec.getLsbD_setWidth, getLsbD_load (by omega)]
  simp [hdiv, hmod, hlt, hi]

theorem load_one : mem.load a 1 = (mem a).setWidth 64 := by simp [load]

/-- Follow a number of links from a pointer. -/
def follow (mem : Memory) : Nat → Word → Word
  | 0, p => p
  | n + 1, p => follow mem n (mem.load p.toNat 8)

end Memory

/-! ### Registers -/

namespace Width

/-- The number of bits at a width. -/
def bits : Width → Nat
  | byte => 8
  | long => 32
  | quad => 64

/-- The number of bytes at a width. -/
def bytes : Width → Nat
  | byte => 1
  | long => 4
  | quad => 8

/-- The low part of a word. -/
def cut (width : Width) (w : Word) : Word := (w.setWidth width.bits).setWidth 64

@[simp] theorem cut_quad (w : Word) : quad.cut w = w := by simp [cut, bits]

/-- A word with another low part: a byte leaves the rest alone, 32 bits clear it. -/
def insert (width : Width) (old new : Word) : Word :=
  match width with
  | byte => old >>> 8 <<< 8 ||| byte.cut new
  | long => long.cut new
  | quad => new

theorem setWidth_insert_byte (old new : Word) :
    (byte.insert old new).setWidth 8 = new.setWidth 8 := by
  refine BitVec.eq_of_getLsbD_eq fun i hi => ?_
  have hi' : i < 64 := by omega
  simp [insert, cut, bits, hi, hi']

end Width

/-- Registers, flags and memory.  There are no flags where an instruction leaves them open. -/
structure Machine where
  regs : Register → Word
  flags : Option Flags
  mem : Memory

/-- The result of an operation. -/
def AluOp.apply : AluOp → Word → Word → Word
  | add, a, b => a + b
  | sub, a, b => a - b
  | mul, a, b => a * b
  | xor, a, b => a ^^^ b

/-- The flags behind an operation; a product leaves them open. -/
def AluOp.flags {n : Nat} : AluOp → BitVec n → BitVec n → Option Flags
  | add, a, b => some ⟨a + b == 0, (a + b).msb, BitVec.saddOverflow a b⟩
  | sub, a, b => some (Flags.ofSub a b)
  | mul, _, _ => none
  | xor, a, b => some ⟨a ^^^ b == 0, (a ^^^ b).msb, false⟩

namespace Machine

/-- The machine with another word in a register. -/
def set (m : Machine) (r : Register) (w : Word) : Machine :=
  { m with regs := fun q => if q = r then w else m.regs q }

section Set

variable (m : Machine) (r : Register) (w : Word)

@[simp] theorem regs_set_self : (m.set r w).regs r = w := if_pos rfl

@[simp] theorem regs_set_of_ne {q : Register} (h : q ≠ r) : (m.set r w).regs q = m.regs q := if_neg h

@[simp] theorem mem_set : (m.set r w).mem = m.mem := rfl

@[simp] theorem flags_set : (m.set r w).flags = m.flags := rfl

@[simp] theorem set_regs : m.set r (m.regs r) = m := by
  have hregs : (fun q => if q = r then m.regs r else m.regs q) = m.regs := by
    funext q
    by_cases h : q = r <;> simp [h]
  rw [set, hregs]

@[simp] theorem set_set (v : Word) : (m.set r v).set r w = m.set r w := by
  simp only [set, mk.injEq, and_self, and_true]
  funext q
  by_cases h : q = r <;> simp [h]

end Set

/-- The machine with other flags. -/
def withFlags (m : Machine) (flags : Option Flags) : Machine := { m with flags := flags }

section WithFlags

variable (m : Machine) (flags : Option Flags)

@[simp] theorem regs_withFlags : (m.withFlags flags).regs = m.regs := rfl

@[simp] theorem mem_withFlags : (m.withFlags flags).mem = m.mem := rfl

@[simp] theorem flags_withFlags : (m.withFlags flags).flags = flags := rfl

end WithFlags

/-- The machine with a word pushed. -/
def pushed (m : Machine) (w : Word) : Machine :=
  { m.set .rsp (m.regs .rsp - 8) with mem := m.mem.store (m.regs .rsp - 8).toNat 8 w }

section Pushed

variable {m : Machine} {w : Word}

@[simp] theorem rsp_pushed : (m.pushed w).regs .rsp = m.regs .rsp - 8 := rfl

theorem regs_pushed_of_ne {r : Register} (h : r ≠ .rsp) : (m.pushed w).regs r = m.regs r := if_neg h

theorem toNat_rsp_pushed (h : 8 ≤ (m.regs .rsp).toNat) :
    ((m.pushed w).regs .rsp).toNat = (m.regs .rsp).toNat - 8 :=
  BitVec.toNat_sub_of_le h

theorem mem_pushed (h : 8 ≤ (m.regs .rsp).toNat) {a : Int} (ha : (m.regs .rsp).toNat ≤ a) :
    (m.pushed w).mem a = m.mem a := by
  have hsp : (m.regs .rsp - 8).toNat = (m.regs .rsp).toNat - 8 := toNat_rsp_pushed (w := w) h
  exact Memory.store_of_outside (by omega)

theorem load_pushed : (m.pushed w).mem.load ((m.pushed w).regs .rsp).toNat 8 = w :=
  Memory.load_store_eight

end Pushed

/-! ### Operands -/

variable (labels : String → Word) (m : Machine)

/-- The address of an operand in memory; the strings are where their labels are. -/
def address? : Operand → Option Int
  | .mem base displacement => some ((m.regs base).toNat + displacement)
  | .data label => some (labels label).toNat
  | .imm _ | .reg _ => none

/-- The word that an operand stands for at a width. -/
def read (width : Width) : Operand → Word
  | .imm n => width.cut (BitVec.ofInt 64 n)
  | .reg r => width.cut (m.regs r)
  | .mem base displacement => m.mem.load ((m.regs base).toNat + displacement) width.bytes
  | .data label => m.mem.load (labels label).toNat width.bytes

/-- The machine with a word put into an operand at a width. -/
def write (width : Width) (w : Word) : Operand → Option Machine
  | .imm _ => none
  | .reg r => some (m.set r (width.insert (m.regs r) w))
  | .mem base displacement =>
    some { m with mem := m.mem.store ((m.regs base).toNat + displacement) width.bytes w }
  | .data label => some { m with mem := m.mem.store (labels label).toNat width.bytes w }

/-! ### Instructions -/

/-- What an instruction does; a jump, a call or a return does nothing by itself. -/
def exec : Instr → Option Machine
  | .mov width dst src => m.write labels width (m.read labels width src) dst
  | .movzx dst src => some (m.set dst (m.read labels .byte src))
  | .movsx dst src => some (m.set dst (((m.read labels .byte src).setWidth 8).signExtend 64))
  | .lea dst src => (m.address? labels src).map fun a => m.set dst (BitVec.ofInt 64 a)
  | .neg width dst =>
    let a := m.read labels width dst
    (m.write labels width (-a) dst).map
      (·.withFlags (some (Flags.ofSub 0 (a.setWidth width.bits))))
  | .alu op width dst src =>
    let a := m.read labels width dst
    let b := m.read labels width src
    (m.write labels width (op.apply a b) dst).map
      (·.withFlags (op.flags (a.setWidth width.bits) (b.setWidth width.bits)))
  | .cmp width dst src =>
    let a := (m.read labels width dst).setWidth width.bits
    some (m.withFlags (some (Flags.ofSub a ((m.read labels width src).setWidth width.bits))))
  | .test width dst src =>
    let both := (m.read labels width dst &&& m.read labels width src).setWidth width.bits
    some (m.withFlags (some ⟨both == 0, both.msb, false⟩))
  | .cqo => some (m.set .rdx (m.regs .rax).signWord)
  | .idiv .quad divisor =>
    (Word.divide (m.regs .rdx) (m.regs .rax) (m.read labels .quad divisor)).map
      fun (quotient, remainder) => ((m.set .rax quotient).set .rdx remainder).withFlags none
  | .idiv _ _ => none
  | .setcc condition dst =>
    m.flags.bind fun flags => m.write labels .byte (.ofTruth (condition.holds flags)) (.reg dst)
  | .push r => some (m.pushed (m.regs r))
  | .pop r =>
    some ((m.set .rsp (m.regs .rsp + 8)).set r (m.mem.load (m.regs .rsp).toNat 8))
  | .label _ | .comment _ | .global _ | .symbol _ => some m
  | .jmp _ | .jcc .. | .call _ | .ret => none

end Machine

end ProcLang

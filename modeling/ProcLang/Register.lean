import ProcLang.Table

/-!
The registers of the machine and the handles of computed values.  Eight registers can be allocated;
they are tried, saved and listed in one fixed order, the file order.
-/

namespace ProcLang

/-- The width at which a register or an operand is used. -/
inductive Width where
  | byte
  | long
  | quad
deriving DecidableEq, Inhabited

/-- A register. -/
inductive Register where
  | rax
  | rcx
  | rdx
  | rdi
  | rsi
  | r8
  | r9
  | r10
  | r11
  | rbp
  | rsp
deriving DecidableEq, Inhabited

namespace Register

/-- The name of a register at a width. -/
def nameAt : Register → Width → String
  | rax, .byte => "al"
  | rcx, .byte => "cl"
  | rdx, .byte => "dl"
  | rdi, .byte => "dil"
  | rsi, .byte => "sil"
  | r8, .byte => "r8b"
  | r9, .byte => "r9b"
  | r10, .byte => "r10b"
  | r11, .byte => "r11b"
  | rbp, .byte => "bpl"
  | rsp, .byte => "spl"
  | rax, .long => "eax"
  | rcx, .long => "ecx"
  | rdx, .long => "edx"
  | rdi, .long => "edi"
  | rsi, .long => "esi"
  | r8, .long => "r8d"
  | r9, .long => "r9d"
  | r10, .long => "r10d"
  | r11, .long => "r11d"
  | rbp, .long => "ebp"
  | rsp, .long => "esp"
  | rax, .quad => "rax"
  | rcx, .quad => "rcx"
  | rdx, .quad => "rdx"
  | rdi, .quad => "rdi"
  | rsi, .quad => "rsi"
  | r8, .quad => "r8"
  | r9, .quad => "r9"
  | r10, .quad => "r10"
  | r11, .quad => "r11"
  | rbp, .quad => "rbp"
  | rsp, .quad => "rsp"

/-- The name of the whole register. -/
def name (r : Register) : String := r.nameAt .quad

/-- All registers. -/
def all : List Register := [rax, rcx, rdx, rdi, rsi, r8, r9, r10, r11, rbp, rsp]

/-- The registers that can be allocated, in file order.  A call may change all of them. -/
def allocatable : List Register := [rdi, rsi, rdx, rcx, r8, r9, r10, r11]

/-- The registers of the first arguments of a call, in their order. -/
def arguments : List Register := [rdi, rsi, rdx, rcx, r8, r9]

/-- The place of a register in file order, those that cannot be allocated last. -/
def rank : Register → Nat
  | rdi => 0
  | rsi => 1
  | rdx => 2
  | rcx => 3
  | r8 => 4
  | r9 => 5
  | r10 => 6
  | r11 => 7
  | rax => 8
  | rbp => 9
  | rsp => 10

theorem rank_inj : ∀ {r s : Register}, r.rank = s.rank → r = s := by
  intro r s h
  cases r <;> cases s <;> first | rfl | cases h

instance : Ord Register := ⟨compareOn rank⟩

instance : Std.TransOrd Register := inferInstanceAs (Std.TransCmp (compareOn rank))

instance : Std.LawfulEqOrd Register where
  eq_of_compare h := rank_inj (Nat.compare_eq_eq.mp h)

end Register

/-- The handle of a computed value, wherever the value lives. -/
structure Location where
  number : Nat
deriving DecidableEq, Inhabited

namespace Location

/-- The text of a location, `L` and its number. -/
def text (l : Location) : String := "L" ++ toString l.number

instance : Ord Location := ⟨compareOn number⟩

instance : Std.TransOrd Location := inferInstanceAs (Std.TransCmp (compareOn number))

instance : Std.LawfulEqOrd Location where
  eq_of_compare {a b} h := by
    cases a
    cases b
    exact congrArg mk (Nat.compare_eq_eq.mp h)

end Location

end ProcLang

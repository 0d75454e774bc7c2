import ProcLang.Register

/-!
Assembler programs: the instructions that the compiler writes, the labels they jump to, and the
strings they refer to.
-/

namespace ProcLang

/-- A numbered jump target. -/
structure Label where
  id : Nat
  name : String
deriving DecidableEq, Inhabited

/-- The text of a label; the point in front makes it local to its procedure. -/
def Label.text (l : Label) : String := ".L" ++ toString l.id ++ "_" ++ l.name

/-- An operand of an instruction. -/
inductive Operand where
  /-- A number. -/
  | imm (value : Int)
  /-- A register, at the width of the instruction. -/
  | reg (register : Register)
  /-- The memory at a register and a displacement. -/
  | mem (base : Register) (displacement : Int)
  /-- The memory at the label of a string. -/
  | data (label : String)
deriving DecidableEq, Inhabited

/-- What the last comparison must have found: equal, not equal, and the signed orders. -/
inductive Condition where
  | e
  | ne
  | l
  | le
  | g
  | ge
deriving DecidableEq, Inhabited

/-- An operation on the value of its destination. -/
inductive AluOp where
  | add
  | sub
  | mul
  | xor
deriving DecidableEq, Inhabited

/-- An instruction, or a line between instructions. -/
inductive Instr where
  | mov (width : Width) (dst src : Operand)
  /-- Extend a byte to the whole register, with zeros. -/
  | movzx (dst : Register) (src : Operand)
  /-- Extend a byte to the whole register, with its sign. -/
  | movsx (dst : Register) (src : Operand)
  | lea (dst : Register) (src : Operand)
  | neg (width : Width) (dst : Operand)
  | alu (op : AluOp) (width : Width) (dst src : Operand)
  /-- Set the flags by the destination less the source. -/
  | cmp (width : Width) (dst src : Operand)
  | test (width : Width) (dst src : Operand)
  /-- Extend `rax` into `rdx` with its sign, ahead of a division. -/
  | cqo
  /-- Divide `rdx:rax`; the quotient goes to `rax`, the remainder to `rdx`. -/
  | idiv (width : Width) (divisor : Operand)
  /-- Set the low byte of a register to 0 or 1 by the flags. -/
  | setcc (condition : Condition) (dst : Register)
  | jmp (target : Label)
  | jcc (condition : Condition) (target : Label)
  | label (label : Label)
  | call (name : String)
  | push (register : Register)
  | pop (register : Register)
  | ret
  | comment (text : String)
  | global (name : String)
  /-- The entry point of a procedure. -/
  | symbol (name : String)
deriving DecidableEq, Inhabited

/-- The instruction is a comment. -/
def Instr.isComment : Instr → Bool
  | comment _ => true
  | _ => false

/-- The strings of a program, each once, in the order of their first use. -/
structure ConstantPool where
  strings : List String := []
deriving DecidableEq, Inhabited

namespace ConstantPool

/-- The label of the string at a place of the pool. -/
def label (index : Nat) : String := "str_" ++ toString index

/-- The label of a string, and the pool that has it. -/
def intern (pool : ConstantPool) (value : String) : String × ConstantPool :=
  match pool.strings.idxOf? value with
  | some index => (label index, pool)
  | none => (label pool.strings.length, ⟨pool.strings ++ [value]⟩)

/-- The labels with their strings. -/
def entries (pool : ConstantPool) : List (String × String) :=
  pool.strings.mapIdx fun index value => (label index, value)

end ConstantPool

/-- An assembler program. -/
structure Program where
  /-- The name of the source file. -/
  source : String
  externs : List String := []
  code : List Instr := []
  constants : ConstantPool := {}
deriving DecidableEq, Inhabited

end ProcLang

import ProcLang.Asm
import ProcLang.Asm.StringData

/-!
The text of an assembler program.  A program has three parts in fixed order: the names it imports,
its instructions, and its strings.  Instructions are indented; labels and names are not.
-/

namespace ProcLang

/-- What the printed program and the generated code contain beside the necessary. -/
structure Options where
  /-- Write comments between the instructions. -/
  comments : Bool := true
  /-- Check the register file after every statement. -/
  checkRegisters : Bool := true
deriving DecidableEq, Inhabited

/-- A number with its sign, also if it is not negative. -/
def signed (n : Int) : String := if n < 0 then toString n else "+" ++ toString n

/-- The word for the size of an operand in memory. -/
def Width.keyword : Width → String
  | byte => "byte"
  | long => "dword"
  | quad => "qword"

namespace Operand

/-- An operand without its size: an address in brackets, a register or a number. -/
def address : Operand → String
  | mem base displacement =>
    if displacement = 0 then "[" ++ base.name ++ "]"
    else "[" ++ base.name ++ signed displacement ++ "]"
  | data label => "[rel " ++ label ++ "]"
  | imm n => toString n
  | reg r => r.name

/-- An operand at a width. -/
def text (width : Width) : Operand → String
  | imm n => toString n
  | reg r => r.nameAt width
  | mem base displacement => width.keyword ++ " " ++ (mem base displacement).address
  | data label => width.keyword ++ " " ++ (data label).address

end Operand

/-- The suffix of an instruction that depends on a condition. -/
def Condition.suffix : Condition → String
  | e => "e"
  | ne => "ne"
  | l => "l"
  | le => "le"
  | g => "g"
  | ge => "ge"

/-- The word for an operation. -/
def AluOp.mnemonic : AluOp → String
  | add => "add"
  | sub => "sub"
  | mul => "imul"
  | xor => "xor"

namespace Instr

/-- Two operands at a width, the destination first. -/
def operands (width : Width) (dst src : Operand) : String :=
  dst.text width ++ ", " ++ src.text width

/-- The text of an instruction, without indentation. -/
def text : Instr → String
  | mov w dst src => "mov " ++ operands w dst src
  | movzx dst src => "movzx " ++ dst.nameAt .long ++ ", " ++ src.text .byte
  | movsx dst src => "movsx " ++ dst.nameAt .quad ++ ", " ++ src.text .byte
  | lea dst src => "lea " ++ dst.nameAt .quad ++ ", " ++ src.address
  | neg w dst => "neg " ++ dst.text w
  | alu op w dst src => op.mnemonic ++ " " ++ operands w dst src
  | cmp w dst src => "cmp " ++ operands w dst src
  | test w dst src => "test " ++ operands w dst src
  | cqo => "cqo"
  | idiv w divisor => "idiv " ++ divisor.text w
  | setcc c dst => "set" ++ c.suffix ++ " " ++ dst.nameAt .byte
  | jmp target => "jmp " ++ target.text
  | jcc c target => "j" ++ c.suffix ++ " " ++ target.text
  | label l => l.text ++ ":"
  | call name => "call " ++ name
  | push r => "push " ++ r.name
  | pop r => "pop " ++ r.name
  | ret => "ret"
  | comment text => "; " ++ text
  | global name => "global " ++ name
  | symbol name => name ++ ":"

/-- The line of an instruction in a program: a label or a name starts the line, the rest is
indented, and a comment is written only if comments are wanted. -/
def line (options : Options) : Instr → String
  | comment text => if options.comments then "    ; " ++ text ++ "\n" else ""
  | global name => (global name).text ++ "\n"
  | symbol name => (symbol name).text ++ "\n"
  | label l => (label l).text ++ "\n"
  | other => "    " ++ other.text ++ "\n"

end Instr

/-- The text of a program. -/
def Program.text (options : Options) (p : Program) : String :=
  "; minic output for " ++ p.source ++ "\n"
    ++ String.join (p.externs.map fun name => "extern " ++ name ++ "\n")
    ++ "\nsection .text\n"
    ++ String.join (p.code.map (Instr.line options))
    ++ "\nsection .data\n"
    ++ String.join (p.constants.entries.map fun (label, value) =>
        label ++ ": db " ++ byteList value ++ "\n")

end ProcLang

import ProcLang.Asm.Printer
import ProcLang.Event
import ProcLang.Register.File
import ProcLang.Scope
import ProcLang.Stage

/-!
The state of code generation and its steps.  Instructions and reports are marks of one run, in the
order in which they arise; the register file, the scopes and what is known of the expressions are
its state.
-/

namespace ProcLang

/-- What becomes known of an expression: the handle of its value and its type. -/
structure Annotation where
  location : Location
  type : DataType
deriving DecidableEq, Inhabited

namespace Generation

/-- The state of code generation. -/
structure State where
  registers : RegisterFile := {}
  scopes : ScopeStack := []
  /-- The imported names, each once, in the order of their declaration. -/
  externs : List String := []
  constants : ConstantPool := {}
  nextLocation : Nat := 0
  nextLabel : Nat := 0
  /-- The bytes on the stack since the procedure was called, its return address included. -/
  stackDepth : Nat := 0
  annotations : Table NodeId Annotation := .empty
deriving Inhabited

/-- A mark of code generation. -/
inductive Mark where
  | event (event : Event)
  | instr (instr : Instr)
deriving DecidableEq, Inhabited

/-- The report of a mark. -/
def Mark.event? : Mark → Option Event
  | event e => some e
  | instr _ => none

/-- The instruction of a mark. -/
def Mark.instr? : Mark → Option Instr
  | event _ => none
  | instr i => some i

end Generation

/-- A part of code generation. -/
abbrev Gen (α : Type) := Stage Generation.Mark Generation.State α

namespace Generation

/-! ### Marks and errors -/

/-- Write an instruction. -/
def emit (i : Instr) : Gen Unit := Stage.mark (.instr i)

/-- Report an event. -/
def notify (e : Event) : Gen Unit := Stage.mark (.event e)

/-- Write a comment, if comments are wanted. -/
def comment (options : Options) (text : String) : Gen Unit :=
  if options.comments then emit (.comment text) else pure ()

/-- Report the start or the end of a node. -/
def nodeEvent (happening : Happening) (tag : Tag) (kind : NodeKind) : Gen Unit :=
  notify
    { mode := .codegen
      happening := happening
      span := some tag.span
      node := some tag.id
      text := some kind.name }

/-- Report what happens to a register. -/
def registerEvent (happening : Happening) (r : Register) (l : Location) : Gen Unit :=
  notify { mode := .codegen, happening := happening, register := some r, location := some l }

/-- End with an error at a node. -/
def refuse {α : Type} (tag : Tag) (cause : SemanticCause) : Gen α :=
  Stage.fail (.semantic (some tag.span) cause)

/-- A value that was found, or an error at a node. -/
def orRefuse {α : Type} (tag : Tag) : Except SemanticCause α → Gen α
  | .ok a => pure a
  | .error cause => refuse tag cause

/-- A value that was found, or an error without a place. -/
def orFail {α : Type} : Except SemanticCause α → Gen α
  | .ok a => pure a
  | .error cause => Stage.fail (.semantic none cause)

/-- A value that was found, or an error about the registers. -/
def orLack {α : Type} : Except ResourceCause α → Gen α
  | .ok a => pure a
  | .error cause => Stage.fail (.resource cause)

/-! ### Handles, labels and names -/

/-- A handle that was never used. -/
def freshLocation : Gen Location := do
  let s ← Stage.get
  Stage.modify fun s => { s with nextLocation := s.nextLocation + 1 }
  return ⟨s.nextLocation⟩

/-- A label with a number that was never used. -/
def freshLabel (name : String) : Gen Label := do
  let s ← Stage.get
  Stage.modify fun s => { s with nextLabel := s.nextLabel + 1 }
  return ⟨s.nextLabel, name⟩

/-- Change the bytes on the stack. -/
def setDepth (f : Nat → Nat) : Gen Unit :=
  Stage.modify fun s => { s with stackDepth := f s.stackDepth }

/-- Change the innermost scope. -/
def modifyScope (f : Scope → Scope) : Gen Unit := do
  let s ← Stage.get
  let scopes ← orFail (s.scopes.modifyCurrent f)
  Stage.modify fun s => { s with scopes := scopes }

/-- The innermost scope. -/
def currentScope : Gen Scope := do
  let s ← Stage.get
  orFail s.scopes.current

/-- Put down what is known of an expression. -/
def annotate (id : NodeId) (location : Location) (type : DataType) : Gen Unit :=
  Stage.modify fun s => { s with annotations := s.annotations.insert id ⟨location, type⟩ }

/-! ### Registers -/

/-- Take a new register file. -/
def setRegisters (f : RegisterFile) : Gen Unit :=
  Stage.modify fun s => { s with registers := f }

/-- The register of a value, a free one if it has none yet. -/
def registerFor (l : Location) : Gen Register := do
  let s ← Stage.get
  let ((r, fresh), f) ← orLack (s.registers.allocate l)
  setRegisters f
  if fresh then registerEvent .registerSet r l
  return r

/-- The register of a value, which must have one. -/
def registerOf (l : Location) : Gen Register := do
  let s ← Stage.get
  Stage.ofOption (.resource (.notInRegister l)) (s.registers.registerOf? l)

/-- Bind a parameter to the register in which it comes. -/
def claimParameter (r : Register) (l : Location) : Gen Unit := do
  let s ← Stage.get
  let f ← orLack (s.registers.claim r l true)
  setRegisters f
  registerEvent .parameterSet r l

/-- Forget a value. -/
def release (l : Location) : Gen Unit := do
  let s ← Stage.get
  let (freed, f) := s.registers.release l
  setRegisters f
  match freed with
  | some r => registerEvent .registerCleared r l
  | none => return ()

/-- Give the value in a register another handle. -/
def swap (r : Register) (old new : Location) : Gen Unit := do
  let s ← Stage.get
  let f ← orLack (s.registers.swap r old new)
  setRegisters f

/-- Copy one register to another. -/
def copy (dst src : Register) : Gen Unit := emit (.mov .quad (.reg dst) (.reg src))

/-- Move the value of one register to another, which is free. -/
def relocate (source target : Register) : Gen Unit := do
  copy target source
  let s ← Stage.get
  let (l, f) ← orLack (s.registers.relocate source target)
  setRegisters f
  registerEvent .registerCleared source l
  registerEvent .registerSet target l

/-! ### Frames -/

/-- Open a frame. -/
def prologue : Gen Unit := do
  emit (.push .rbp)
  copy .rbp .rsp

/-- Close a frame. -/
def epilogue : Gen Unit := do
  copy .rsp .rbp
  emit (.pop .rbp)

/-- Move the stack pointer. -/
def adjustStack (op : AluOp) (bytes : Nat) : Gen Unit :=
  emit (.alu op .quad (.reg .rsp) (.imm bytes))

/-- Extend the low byte of a register to the whole register, as the type asks. -/
def extend (r : Register) : DataType → Gen Unit
  | .u8 => emit (.movzx r (.reg r))
  | .s8 => emit (.movsx r (.reg r))
  | .void | .int => return ()

end Generation

end ProcLang

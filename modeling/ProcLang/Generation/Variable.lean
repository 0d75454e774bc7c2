import ProcLang.Generation.State

/-!
Access to variables.  A variable on the stack lives in the frame of the block that declares it; the
frames of the blocks around are reached by way of the saved frame pointers.
-/

namespace ProcLang.Generation

/-- The variable that a name means at a node. -/
def lookup (tag : Tag) (name : String) : Gen Variable := do
  let s ← Stage.get
  match s.scopes.findVariable? name with
  | some v => return v
  | none => refuse tag (.undeclaredVariable name)

/-- Go out over a number of further frames. -/
def hop (r : Register) : Nat → Gen Unit
  | 0 => return ()
  | frames + 1 => do
    emit (.mov .quad (.reg r) (.mem r 0))
    hop r frames

/-- The memory of a variable on the stack, and the handle of the frame pointer that it is reached
by, if that takes a register.  Whoever asks for it frees the handle. -/
def addressOf (v : Variable) (offset : Int) : Gen (Operand × Option Location) := do
  let s ← Stage.get
  match s.scopes.stackHeight - v.stackHeight with
  | 0 => return (.mem .rbp offset, none)
  | further + 1 => do
    let frame ← freshLocation
    let r ← registerFor frame
    emit (.mov .quad (.reg r) (.mem .rbp 0))
    hop r further
    return (.mem r offset, some frame)

/-- Free a handle, if there is one. -/
def releaseIf : Option Location → Gen Unit
  | some l => release l
  | none => return ()

/-- Load a variable into a register, at the full width. -/
def loadVariable (v : Variable) (dst : Register) : Gen Unit :=
  match v.storage with
  | .register location => do
    let src ← registerOf location
    copy dst src
  | .stack offset => do
    let (src, frame) ← addressOf v offset
    match v.type with
    | .u8 => emit (.movzx dst src)
    | .s8 => emit (.movsx dst src)
    | .int | .void => emit (.mov .quad (.reg dst) src)
    releaseIf frame

/-- Store a register in a variable, cut to the variable's type. -/
def storeVariable (v : Variable) (src : Register) : Gen Unit :=
  match v.storage with
  | .register location => do
    let dst ← registerOf location
    match v.type with
    | .u8 => emit (.movzx dst (.reg src))
    | .s8 => emit (.movsx dst (.reg src))
    | .int | .void => copy dst src
  | .stack offset => do
    let (dst, frame) ← addressOf v offset
    emit (.mov (if v.type.isByte then .byte else .quad) dst (.reg src))
    releaseIf frame

end ProcLang.Generation

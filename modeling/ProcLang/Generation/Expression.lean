import ProcLang.Generation.Variable

/-!
Code for expressions.  The value of an expression comes into a register that was free; all other
registers in use keep their values.  An operator works on a copy of its left operand, and the copy
then goes by the handle of the whole expression.
-/

namespace ProcLang

/-! ### Operators and types -/

/-- The type for which the operand of an operator is meant. -/
def UnaryOp.operandContext (op : UnaryOp) (context : DataType) : DataType :=
  match op with
  | .plus => context
  | .negate | .not => .int

/-- The condition under which a comparison holds. -/
def Comparison.condition : Comparison → Condition
  | .equal => .e
  | .notEqual => .ne
  | .less => .l
  | .lessEqual => .le
  | .greater => .g
  | .greaterEqual => .ge

/-- The type of arithmetic: two bytes of one type give a byte of that type, all else an integer. -/
def DataType.arith (lhs rhs : DataType) : DataType := if lhs = rhs ∧ lhs.isByte then lhs else .int

/-- The name of the label behind a logical operator. -/
def LogicOp.labelName : LogicOp → String
  | .and => "and_end"
  | .or => "or_end"

/-- The condition under which the left operand decides. -/
def LogicOp.decided : LogicOp → Condition
  | .and => .e
  | .or => .ne

namespace Generation

/-! ### Literals and variables -/

/-- The number that a 64-bit word stands for as a signed number. -/
def signedWord (value : UInt64) : Int := value.toBitVec.toInt

/-- Work on a node of an expression: it gets a handle, and its type is put down with it. -/
def expressionNode (tag : Tag) (kind : NodeKind) (work : Location → Gen DataType) :
    Gen (Location × DataType) := do
  nodeEvent .nodeStart tag kind
  let location ← freshLocation
  let type ← work location
  annotate tag.id location type
  nodeEvent .nodeEnd tag kind
  return (location, type)

/-- A number, at the width of the type it is meant for. -/
def integerLiteral (tag : Tag) (value : UInt64) (context : DataType) (location : Location) :
    Gen DataType :=
  if context.literalLimit?.any (· < value) then refuse tag (.literalTooLarge value context)
  else do
    let r ← registerFor location
    if context.isByte then
      emit (.mov .byte (.reg r) (.imm (signedWord value)))
      extend r context
      return context
    else
      emit (.mov .quad (.reg r) (.imm (signedWord value)))
      return .int

/-- The label of a string among the constants. -/
def internString (raw : String) : Gen String := do
  let s ← Stage.get
  let (label, pool) := s.constants.intern raw
  Stage.modify fun s => { s with constants := pool }
  return label

/-- A string: the address of its constant. -/
def stringLiteral (raw : String) (location : Location) : Gen DataType := do
  let label ← internString raw
  let r ← registerFor location
  emit (.lea r (.data label))
  return .int

/-- The value of a variable. -/
def variableValue (tag : Tag) (name : String) (location : Location) : Gen DataType := do
  let v ← lookup tag name
  let r ← registerFor location
  loadVariable v r
  return v.type

/-! ### Operators -/

/-- A value in a register of its own that is a copy of another. -/
def copyOf (l : Location) : Gen (Location × Register) := do
  let src ← registerOf l
  let duplicate ← freshLocation
  let dst ← registerFor duplicate
  copy dst src
  return (duplicate, dst)

/-- Set a register to 1 if the last comparison found the condition, else to 0. -/
def setTruth (condition : Condition) (r : Register) : Gen Unit := do
  emit (.setcc condition r)
  extend r .u8

/-- The code of an operator before its operand, and the type of its value. -/
def applyUnary (op : UnaryOp) (r : Register) (type : DataType) : Gen DataType :=
  match op with
  | .plus => return type
  | .negate => do
    emit (.neg .quad (.reg r))
    return .int
  | .not => do
    emit (.cmp .quad (.reg r) (.imm 0))
    setTruth .e r
    return .int

/-- Divide through `rax` and `rdx`; every register in use but the dividend's keeps its value. -/
def divide (dividend divisor : Register) : Gen Unit := do
  let s ← Stage.get
  let saved := !s.registers.isFree .rdx
  if saved then
    emit (.push .rdx)
    setDepth (· + 8)
  copy .rax dividend
  emit .cqo
  emit (.idiv .quad (if saved && divisor == .rdx then .mem .rsp 0 else .reg divisor))
  if saved then
    emit (.pop .rdx)
    setDepth (· - 8)
  copy dividend .rax

/-- The code of an operator of arithmetic on the register of its left operand. -/
def applyArith (op : ArithOp) (lhs rhs : Register) : Gen Unit :=
  match op with
  | .add => emit (.alu .add .quad (.reg lhs) (.reg rhs))
  | .sub => emit (.alu .sub .quad (.reg lhs) (.reg rhs))
  | .mul => emit (.alu .mul .quad (.reg lhs) (.reg rhs))
  | .div => divide lhs rhs

/-- The code of an operator that needs both operands, and the type of its value. -/
def applyEager (op : ArithOp ⊕ Comparison) (lhs rhs : Register) (lhsType rhsType : DataType) :
    Gen DataType :=
  match op with
  | .inl op => do
    applyArith op lhs rhs
    extend lhs (lhsType.arith rhsType)
    return lhsType.arith rhsType
  | .inr op => do
    emit (.cmp .quad (.reg lhs) (.reg rhs))
    setTruth (op.condition) lhs
    return .int

/-- An operator that needs both operands. -/
def eager (op : ArithOp ⊕ Comparison) (lhs rhs : Gen (Location × DataType)) (location : Location) :
    Gen DataType := do
  let (left, leftType) ← lhs
  let (duplicate, _) ← copyOf left
  let (right, rightType) ← rhs
  let rightRegister ← registerOf right
  let register ← registerOf duplicate
  let type ← applyEager op register rightRegister leftType rightType
  release left
  release right
  swap register duplicate location
  return type

/-- Set a register to the truth of a value: 0 if it is zero, else 1. -/
def truthOf (value : Location) (dst : Register) : Gen Unit := do
  let r ← registerOf value
  emit (.cmp .quad (.reg r) (.imm 0))
  setTruth .ne dst

/-- A logical operator: the right operand is passed over if the left one decides. -/
def shortCircuit (op : LogicOp) (lhs rhs : Gen (Location × DataType)) (location : Location) :
    Gen DataType := do
  let behind ← freshLabel (op.labelName)
  let (left, _) ← lhs
  let truth ← freshLocation
  let register ← registerFor truth
  truthOf left register
  release left
  emit (.cmp .quad (.reg register) (.imm 0))
  emit (.jcc (op.decided) behind)
  let (right, _) ← rhs
  truthOf right register
  release right
  emit (.label behind)
  swap register truth location
  return .int

/-! ### Expressions -/

/-- Code for an expression, whose value is meant for a type. -/
def expression : Expr → DataType → Gen (Location × DataType)
  | .literal tag (.integer value), context =>
    expressionNode tag .literal (integerLiteral tag value context)
  | .literal tag (.string raw), _ => expressionNode tag .literal (stringLiteral raw)
  | .var tag name, _ => expressionNode tag .var (variableValue tag name)
  | .unary tag op operand, context =>
    expressionNode tag .unary fun location => do
      let (value, type) ← expression operand (op.operandContext context)
      let (duplicate, register) ← copyOf value
      let result ← applyUnary op register type
      release value
      swap register duplicate location
      return result
  | .binary tag (.arith op) lhs rhs, _ =>
    expressionNode tag .binary (eager (.inl op) (expression lhs .int) (expression rhs .int))
  | .binary tag (.compare op) lhs rhs, _ =>
    expressionNode tag .binary (eager (.inr op) (expression lhs .int) (expression rhs .int))
  | .binary tag (.logic op) lhs rhs, _ =>
    expressionNode tag .binary (shortCircuit op (expression lhs .int) (expression rhs .int))
  | .misplaced tag kind, _ =>
    expressionNode tag kind fun _ => refuse tag (.notExpression kind)

end Generation

end ProcLang

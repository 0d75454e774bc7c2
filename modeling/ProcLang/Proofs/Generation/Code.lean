import ProcLang.Generation.Program
import ProcLang.Proofs.Register.Parameters

/-!
The code of expressions and statements, described without the run that writes it.

`ExprCode` and `StmtCode` relate a piece of syntax to the instructions it is turned into.  What a run
decides by its state stands here as data: the registers in use, how a name is reached, the scopes
around, and the numbers of the labels, which go up from `n` to `n'`.  A choice that a run makes freely,
such as the register of a value, is any choice here that keeps to the rule (the register was free).

The code of a statement comes with an account of its instructions: the scopes that each of them stands
in, the statement that a store belongs to, and the bytes on the stack at calls.
-/

namespace ProcLang

/-- An instruction is a call. -/
def Instr.isCall : Instr → Bool
  | .call _ => true
  | _ => false

namespace Generation

/-! ### Registers and places -/

/-- Which registers are in use. -/
abbrev Used := Register → Bool

/-- The register can be allocated and is not in use. -/
def Used.Free (used : Used) (r : Register) : Prop := r ∈ Register.allocatable ∧ used r = false

/-- One more register in use. -/
def Used.add (used : Used) (r : Register) : Used := fun q => q == r || used q

/-- How a variable is reached: in a register, or in a frame a number of frames out. -/
inductive Access where
  | register (register : Register)
  | frame (out : Nat) (offset : Int)
deriving DecidableEq

/-- What a name stands for. -/
structure Place where
  type : DataType
  access : Access
deriving DecidableEq

/-- What a name stands for in some scopes, with the parameters where a file has them. -/
def view (scopes : ScopeStack) (f : RegisterFile) (name : String) : Option Place :=
  (scopes.findVariable? name).bind fun v =>
    match v.storage with
    | .stack offset => some ⟨v.type, .frame (scopes.stackHeight - v.stackHeight) offset⟩
    | .register l => (f.registerOf? l).map fun r => ⟨v.type, .register r⟩

/-- Copy one register to another. -/
def copyInstr (dst src : Register) : Instr := .mov .quad (.reg dst) (.reg src)

/-- Go to the frame around, and out over further ones. -/
def outward (q : Register) (further : Nat) : List Instr :=
  .mov .quad (.reg q) (.mem .rbp 0) :: List.replicate further (.mov .quad (.reg q) (.mem q 0))

/-- The code that makes a variable an operand.  Frames further out are reached by a free register. -/
inductive Reach (used : Used) : Access → List Instr → Operand → Prop
  | register {r} : used r = true → Reach used (.register r) [] (.reg r)
  | here {offset} : Reach used (.frame 0 offset) [] (.mem .rbp offset)
  | outer {q further offset} :
      used.Free q → Reach used (.frame (further + 1) offset) (outward q further) (.mem q offset)

/-- Take a value of a type from an operand to the whole register. -/
def fetch (type : DataType) (dst : Register) (src : Operand) : Instr :=
  match type with
  | .u8 => .movzx dst src
  | .s8 => .movsx dst src
  | .int | .void => .mov .quad (.reg dst) src

/-- Load a variable that was reached; a parameter in a register is at full width already. -/
def loadInstr (place : Place) (dst : Register) (src : Operand) : Instr :=
  match place.access with
  | .register _ => .mov .quad (.reg dst) src
  | .frame .. => fetch place.type dst src

/-- Store a register in a variable that was reached, cut to the variable's type. -/
def storeInstr (place : Place) (dst : Operand) (src : Register) : Instr :=
  match place.access with
  | .register r => fetch place.type r (.reg src)
  | .frame .. => .mov (if place.type.isByte then .byte else .quad) dst (.reg src)

/-! ### Operators -/

/-- Extend the low byte of a register, as a type asks. -/
def extendCode (r : Register) : DataType → List Instr
  | .u8 => [.movzx r (.reg r)]
  | .s8 => [.movsx r (.reg r)]
  | .void | .int => []

/-- Set a register to the truth of a condition. -/
def truthCode (condition : Condition) (r : Register) : List Instr :=
  [.setcc condition r, .movzx r (.reg r)]

/-- The code of an operator before its operand. -/
def unaryCode (op : UnaryOp) (r : Register) : List Instr :=
  match op with
  | .plus => []
  | .negate => [.neg .quad (.reg r)]
  | .not => .cmp .quad (.reg r) (.imm 0) :: truthCode .e r

/-- The type of an operator's value before an operand of a type. -/
def unaryType (op : UnaryOp) (type : DataType) : DataType :=
  match op with
  | .plus => type
  | .negate | .not => .int

/-- The division itself, by an operand. -/
def quotientCode (dividend : Register) (divisor : Operand) : List Instr :=
  [copyInstr .rax dividend, .cqo, .idiv .quad divisor]

/-- Divide one register by another; `rdx` is saved if it is in use. -/
def divideCode (used : Used) (dividend divisor : Register) : List Instr :=
  if used .rdx then
    .push .rdx :: quotientCode dividend (if divisor == .rdx then .mem .rsp 0 else .reg divisor) ++
      [.pop .rdx, copyInstr dividend .rax]
  else quotientCode dividend (.reg divisor) ++ [copyInstr dividend .rax]

/-- The code of an operator of arithmetic. -/
def arithCode (used : Used) (op : ArithOp) (lhs rhs : Register) : List Instr :=
  match op with
  | .add => [.alu .add .quad (.reg lhs) (.reg rhs)]
  | .sub => [.alu .sub .quad (.reg lhs) (.reg rhs)]
  | .mul => [.alu .mul .quad (.reg lhs) (.reg rhs)]
  | .div => divideCode used lhs rhs

/-- The code of an operator that needs both operands. -/
def eagerCode (used : Used) (op : ArithOp ⊕ Comparison) (lhs rhs : Register) (type : DataType) :
    List Instr :=
  match op with
  | .inl op => arithCode used op lhs rhs ++ extendCode lhs type
  | .inr op => .cmp .quad (.reg lhs) (.reg rhs) :: truthCode op.condition lhs

/-- The type of the value of such an operator. -/
def eagerType (op : ArithOp ⊕ Comparison) (lhs rhs : DataType) : DataType :=
  match op with
  | .inl _ => lhs.arith rhs
  | .inr _ => .int

/-- The operator as it stands in a tree. -/
def eagerOp : ArithOp ⊕ Comparison → BinaryOp
  | .inl op => .arith op
  | .inr op => .compare op

/-- Set a register to the truth of another. -/
def nonzeroCode (dst src : Register) : List Instr :=
  .cmp .quad (.reg src) (.imm 0) :: truthCode .ne dst

/-! ### Expressions -/

/-- `ExprCode pool look used e context n code r type n'`: the code of `e`, meant for the type
`context`, brings a value of `type` into the free register `r`. -/
inductive ExprCode (pool : List String) (look : String → Option Place) :
    Used → Expr → DataType → Nat → List Instr → Register → DataType → Nat → Prop
  | byte {used tag value context n r} : context.isByte = true →
      context.literalLimit?.any (· < value) = false → used.Free r →
      ExprCode pool look used (.literal tag (.integer value)) context n
        (.mov .byte (.reg r) (.imm (signedWord value)) :: extendCode r context) r context n
  | word {used tag value context n r} : context.isByte = false → used.Free r →
      ExprCode pool look used (.literal tag (.integer value)) context n
        [.mov .quad (.reg r) (.imm (signedWord value))] r .int n
  | string {used tag raw context n r index} : pool[index]? = some raw → used.Free r →
      ExprCode pool look used (.literal tag (.string raw)) context n
        [.lea r (.data (ConstantPool.label index))] r .int n
  | var {used tag name context n r place code src} : look name = some place → used.Free r →
      Reach (used.add r) place.access code src →
      ExprCode pool look used (.var tag name) context n (code ++ [loadInstr place r src]) r
        place.type n
  | unary {used tag op e context n code r type n' dst} :
      ExprCode pool look used e (op.operandContext context) n code r type n' →
      (used.add r).Free dst →
      ExprCode pool look used (.unary tag op e) context n
        (code ++ copyInstr dst r :: unaryCode op dst) dst (unaryType op type) n'
  | eager {used tag op lhs rhs context n₁ n₂ n₃ c₁ c₂ r₁ r₂ t₁ t₂ dst} :
      ExprCode pool look used lhs .int n₁ c₁ r₁ t₁ n₂ →
      (used.add r₁).Free dst →
      ExprCode pool look ((used.add r₁).add dst) rhs .int n₂ c₂ r₂ t₂ n₃ →
      ExprCode pool look used (.binary tag (eagerOp op) lhs rhs) context n₁
        (c₁ ++ copyInstr dst r₁ :: c₂ ++
          eagerCode (((used.add r₁).add dst).add r₂) op dst r₂ (t₁.arith t₂))
        dst (eagerType op t₁ t₂) n₃
  | logic {used tag op lhs rhs context n n₂ n₃ c₁ c₂ r₁ r₂ t₁ t₂ dst} :
      ExprCode pool look used lhs .int (n + 1) c₁ r₁ t₁ n₂ →
      (used.add r₁).Free dst →
      ExprCode pool look (used.add dst) rhs .int n₂ c₂ r₂ t₂ n₃ →
      ExprCode pool look used (.binary tag (.logic op) lhs rhs) context n
        (c₁ ++ nonzeroCode dst r₁ ++
          .cmp .quad (.reg dst) (.imm 0) :: .jcc op.decided ⟨n, op.labelName⟩ ::
          c₂ ++ nonzeroCode dst r₂ ++ [.label ⟨n, op.labelName⟩])
        dst .int n₃

/-! ### Calls -/

/-- Code for expressions one after another; the values stay in their registers. -/
inductive ArgsCode (pool : List String) (look : String → Option Place) :
    Used → List (Expr × DataType) → Nat → List Instr → List Register → Nat → Prop
  | nil {used n} : ArgsCode pool look used [] n [] [] n
  | cons {used e context rest n₁ n₂ n₃ c₁ c₂ r type rs} :
      ExprCode pool look used e context n₁ c₁ r type n₂ →
      ArgsCode pool look (used.add r) rest n₂ c₂ rs n₃ →
      ArgsCode pool look used ((e, context) :: rest) n₁ (c₁ ++ c₂) (r :: rs) n₃

/-- Which value is in which register. -/
abbrev Holding := Register → Option Location

namespace Holding

/-- A value put into a register. -/
def put (h : Holding) (r : Register) (l : Location) : Holding :=
  fun q => if q = r then some l else h q

/-- Values put into registers one after another. -/
def putAll (h : Holding) : List (Register × Location) → Holding
  | [] => h
  | (r, l) :: rest => putAll (h.put r l) rest

/-- A value moved from one register to another. -/
def move (h : Holding) (dst src : Register) : Holding :=
  fun q => if q = dst then h src else if q = src then none else h q

/-- Some values forgotten. -/
def forget (h : Holding) (ls : List Location) : Holding :=
  fun q => (h q).filter fun l => !ls.contains l

/-- The registers that hold something. -/
def used (h : Holding) : Used := fun r => (h r).isSome

end Holding

/-- Moves between registers, each into one that holds nothing. -/
inductive Moves : Holding → List (Register × Register) → Holding → Prop
  | nil {h} : Moves h [] h
  | cons {h dst src rest h'} : dst ∈ Register.allocatable → h dst = none →
      Moves (h.move dst src) rest h' → Moves h ((dst, src) :: rest) h'

/-- The instructions of moves. -/
def moveCode (moves : List (Register × Register)) : List Instr :=
  moves.map fun (dst, src) => copyInstr dst src

/-- Move the stack pointer. -/
def adjustInstr (op : AluOp) (bytes : Nat) : Instr := .alu op .quad (.reg .rsp) (.imm bytes)

/-- Set `rax` to 0. -/
def clearInstr : Instr := .alu .xor .long (.reg .rax) (.reg .rax)

/-- A call with registers saved around it, at a depth of the stack. -/
def savedCallCode (depth : Nat) (saved : List Register) (name : String) : List Instr :=
  let padded := (depth + 8 * saved.length) % 16 != 0
  saved.map .push ++ (if padded then [adjustInstr .sub 8] else []) ++ .call name ::
    (if padded then [adjustInstr .add 8] else []) ++ saved.reverse.map .pop

/-- The bytes on the stack at such a call: the saved registers and, if needed, those that align it. -/
def savedCallDepth (depth : Nat) (saved : List Register) : Nat :=
  let bytes := depth + 8 * saved.length
  if bytes % 16 != 0 then bytes + 8 else bytes

/-- The code of a call from a file that holds some values: the arguments are moved into the argument
registers, and everything that was there before is back in its register in the end. -/
structure CallCode (pool : List String) (look : String → Option Place) (h : Holding) (depth : Nat)
    (name : String) (args : List (Expr × DataType)) (n : Nat) (code : List Instr) (n' bytes : Nat) :
    Prop where
  few : args.length ≤ Register.arguments.length
  parts : ∃ (c : List Instr) (rs : List Register) (ls : List Location)
      (there back : List (Register × Register)) (h' : Holding),
    ArgsCode pool look h.used args n c rs n' ∧ ls.length = rs.length ∧ ls.Nodup ∧
    (∀ r, ∀ l ∈ ls, h r ≠ some l) ∧ Moves (h.putAll (rs.zip ls)) there h' ∧
    ((Register.arguments.take ls.length).map h' = ls.map some) ∧ Moves (h'.forget ls) back h ∧
    bytes = savedCallDepth depth (Register.allocatable.filter h'.used) ∧
    code = c ++ moveCode there ++ clearInstr ::
      savedCallCode depth (Register.allocatable.filter h'.used) name ++ moveCode back

/-! ### Parts of statements -/

/-- A comment, if comments are wanted. -/
def note (options : Options) (text : String) : List Instr :=
  if options.comments then [.comment text] else []

/-- The code of storing the value of an expression in a place. -/
def AssignCode (pool : List String) (look : String → Option Place) (used : Used) (place : Place)
    (value : Expr) (n : Nat) (code : List Instr) (n' : Nat) : Prop :=
  ∃ c r type way dst, ExprCode pool look used value place.type n c r type n' ∧
    Reach (used.add r) place.access way dst ∧ code = c ++ way ++ [storeInstr place dst r]

/-- The code of going to a label if a condition is zero. -/
def SkipCode (pool : List String) (look : String → Option Place) (used : Used) (condition : Expr)
    (target : Label) (n : Nat) (code : List Instr) (n' : Nat) : Prop :=
  ∃ c r type dst, ExprCode pool look used condition .int n c r type n' ∧ (used.add r).Free dst ∧
    code = c ++ [copyInstr dst r, .test .quad (.reg dst) (.reg dst), .jcc .e target]

/-- Open a frame and reserve some bytes. -/
def openCode (reserved : Nat) : List Instr :=
  .push .rbp :: copyInstr .rbp .rsp :: if reserved > 0 then [adjustInstr .sub reserved] else []

/-- Close a frame. -/
def epilogueCode : List Instr := [copyInstr .rsp .rbp, .pop .rbp]

/-- Close a number of frames. -/
def epiloguesCode (count : Nat) : List Instr := (List.replicate count epilogueCode).flatten

/-- A frame around some code. -/
def framed (reserved : Nat) (body : List Instr) : List Instr :=
  openCode reserved ++ body ++ epilogueCode

/-- The bytes on the stack in some scopes, those of the return address included. -/
def depth : ScopeStack → Nat
  | [] => 8
  | scope :: outer => if scope.kind = .entry then 8 else 8 + scope.localBytes + depth outer

/-- The scope of a block within others. -/
def innerScope (kind : ScopeKind) (scopes : ScopeStack) (body : List Stmt) : Scope :=
  { kind := kind, stackHeight := scopes.stackHeight + 1 : Scope }.layOut (Stmt.declarations body)

/-- The scope of the body of a loop. -/
def loopScope (scopes : ScopeStack) (body : List Stmt) (start behind : Label) : Scope :=
  { innerScope .loop scopes body with startLabel := some start, endLabel := some behind }

/-- The variable that a declaration makes in a scope. -/
def declaredVariable (scope : Scope) (tag : Tag) (name : String) (type : DataType) : Variable :=
  ⟨name, type, .stack ((scope.layout.get? tag.id).getD 0), scope.stackHeight⟩

/-- The scopes behind a statement. -/
def scopesAfter (st : Stmt) : ScopeStack → ScopeStack
  | [] => []
  | scope :: outer =>
    match st with
    | .declaration tag name type _ => scope.declare (declaredVariable scope tag name type) :: outer
    | .procedure _ signature _ => scope.declareProcedure signature.procedure :: outer
    | _ => scope :: outer

/-- A new name changes neither the frames nor the labels. -/
theorem scopesAfter_cases (st : Stmt) (scope : Scope) (outer : ScopeStack) :
    ∃ scope', scopesAfter st (scope :: outer) = scope' :: outer ∧ scope'.kind = scope.kind ∧
      scope'.localBytes = scope.localBytes ∧ scope'.startLabel = scope.startLabel ∧
      scope'.endLabel = scope.endLabel := by
  cases st <;> exact ⟨_, rfl, rfl, rfl, rfl, rfl⟩

theorem scopesAfter_eq {st : Stmt} {scopes : ScopeStack}
    (h : st.kind ≠ .declaration ∧ st.kind ≠ .procedure) : scopesAfter st scopes = scopes := by
  cases scopes with
  | nil => rfl
  | cons scope outer =>
    cases st with
    | declaration => exact absurd rfl h.1
    | procedure => exact absurd rfl h.2
    | _ => rfl

theorem drop_scopesAfter {st : Stmt} {scopes : ScopeStack} {k : Nat} :
    (scopesAfter st scopes).drop (k + 1) = scopes.drop (k + 1) := by
  cases scopes with
  | nil => rfl
  | cons scope outer => cases st <;> rfl

theorem depth_scopesAfter {st : Stmt} {scopes : ScopeStack} :
    depth (scopesAfter st scopes) = depth scopes := by
  cases scopes with
  | nil => rfl
  | cons scope outer => cases st <;> rfl

/-- The type that a return is meant for. -/
def returnType (scopes : ScopeStack) : DataType :=
  (scopes.procedureScope?.bind (·.returns)).getD .int

/-! ### Accounts -/

/-- What is known of an instruction by its place in the program: the scopes around it, the declaration or
assignment that it belongs to and, if it is a call, the bytes on the stack. -/
structure Spot where
  scopes : ScopeStack
  own : Option Stmt := none
  bytes : Option Nat := none

/-- The spot of an instruction.  The bytes on the stack are on record for calls only. -/
def Spot.of (spot : Spot) (i : Instr) : Spot :=
  { spot with bytes := if i.isCall then spot.bytes else none }

/-- All instructions of some code in one place. -/
def spots (spot : Spot) (code : List Instr) : List Spot := code.map spot.of

/-- A frame around some code.  When it is closed, it has no variables any more. -/
def framedSpots (scopes : ScopeStack) (reserved : Nat) (ls : List Spot) : List Spot :=
  spots { scopes } (openCode reserved) ++ ls ++ spots { scopes } epilogueCode

/-- A jump, when a number of frames are closed. -/
def jumpSpots (target : Label) : ScopeStack → Nat → List Spot
  | scopes, 0 => spots { scopes } [.jmp target]
  | scopes, crossed + 1 =>
    spots { scopes := scopes.drop 1 } epilogueCode ++ jumpSpots target (scopes.drop 1) crossed

/-- The bytes on the stack at calls, in order. -/
def depthsOf (ls : List Spot) : List Nat := ls.filterMap Spot.bytes

@[simp] theorem depthsOf_append {ls ls' : List Spot} :
    depthsOf (ls ++ ls') = depthsOf ls ++ depthsOf ls' := List.filterMap_append

@[simp] theorem depthsOf_spots {scopes : ScopeStack} {own : Option Stmt} {code : List Instr} :
    depthsOf (spots { scopes, own } code) = [] := by
  simp [depthsOf, spots, Spot.of]

@[simp] theorem depthsOf_framedSpots {scopes : ScopeStack} {reserved : Nat} {ls : List Spot} :
    depthsOf (framedSpots scopes reserved ls) = depthsOf ls := by
  simp [framedSpots]

@[simp] theorem depthsOf_jumpSpots {target : Label} : ∀ {crossed : Nat} {scopes : ScopeStack},
    depthsOf (jumpSpots target scopes crossed) = []
  | 0, _ => depthsOf_spots
  | crossed + 1, _ => by simp [jumpSpots, depthsOf_jumpSpots]

/-! ### Statements -/

mutual

/-- `StmtCode options pool f scopes st n code n' ls`: the code of a statement of a procedure whose
parameters are in the registers as the file `f` has them, with the account `ls`. -/
inductive StmtCode (options : Options) (pool : List String) (f : RegisterFile) :
    ScopeStack → Stmt → Nat → List Instr → Nat → List Spot → Prop
  | block {scopes tag body n c n' ls} :
      StmtsCode options pool f (innerScope .plain scopes body :: scopes) body n c n' ls →
      StmtCode options pool f scopes (.block tag body) n
        (note options "block" ++ framed (innerScope .plain scopes body).localBytes c) n'
        (spots { scopes } (note options "block") ++
          framedSpots scopes (innerScope .plain scopes body).localBytes ls)
  | procedure {scopes tag signature n} :
      StmtCode options pool f scopes (.procedure tag signature none) n [] n []
  | call {scopes tag name args p n c n' bytes} :
      scopes.findProcedure? name = some p → p.params.length = args.length →
      CallCode pool (view scopes f) f.locationIn? (depth scopes) name
        (args.zip (p.params.map (·.1))) n c n' bytes →
      StmtCode options pool f scopes (.call tag name args) n
        (note options ("call " ++ name) ++ c) n'
        (spots { scopes, bytes := some bytes } (note options ("call " ++ name) ++ c))
  | declaration {scope outer tag name type init offset n c n'} :
      scope.layout.get? tag.id = some offset →
      (match init with
        | none => c = [] ∧ n' = n
        | some value => AssignCode pool (view (scope :: outer) f) f.slots.contains
            ⟨type, .frame 0 offset⟩ value n c n') →
      StmtCode options pool f (scope :: outer) (.declaration tag name type init) n
        (note options (type.name ++ " " ++ name ++ " @ rbp" ++ signed offset) ++ c) n'
        (spots { scopes := scope :: outer, own := some (.declaration tag name type init) }
          (note options (type.name ++ " " ++ name ++ " @ rbp" ++ signed offset) ++ c))
  | assignment {scopes tag name value place n c n'} : view scopes f name = some place →
      AssignCode pool (view scopes f) f.slots.contains place value n c n' →
      StmtCode options pool f scopes (.assignment tag name value) n
        (note options (name ++ " = ...") ++ c) n'
        (spots { scopes, own := some (.assignment tag name value) } (note options (name ++ " = ...") ++ c))
  | branch {scopes tag condition thenTag thenBody c₁ c₂ n n₂ n₃ ls} :
      SkipCode pool (view scopes f) f.slots.contains condition ⟨n + 1, "if_end"⟩ (n + 2) c₁ n₂ →
      StmtsCode options pool f (innerScope .plain scopes thenBody :: scopes) thenBody n₂ c₂ n₃ ls →
      StmtCode options pool f scopes (.branch tag condition (.block thenTag thenBody) none) n
        (note options "if" ++ c₁ ++ framed (innerScope .plain scopes thenBody).localBytes c₂ ++
          [.label ⟨n + 1, "if_end"⟩]) n₃
        (spots { scopes } (note options "if" ++ c₁) ++
          framedSpots scopes (innerScope .plain scopes thenBody).localBytes ls ++
          spots { scopes } [.label ⟨n + 1, "if_end"⟩])
  | branchElse {scopes tag condition thenTag thenBody elseBranch c₁ c₂ c₃ n n₂ n₃ n₄ ls₁ ls₂} :
      SkipCode pool (view scopes f) f.slots.contains condition ⟨n, "if_else"⟩ (n + 2) c₁ n₂ →
      StmtsCode options pool f (innerScope .plain scopes thenBody :: scopes) thenBody n₂ c₂ n₃ ls₁ →
      ElseCode options pool f scopes elseBranch n₃ c₃ n₄ ls₂ →
      StmtCode options pool f scopes
        (.branch tag condition (.block thenTag thenBody) (some elseBranch)) n
        (note options "if" ++ c₁ ++ framed (innerScope .plain scopes thenBody).localBytes c₂ ++
          .jmp ⟨n + 1, "if_end"⟩ :: .label ⟨n, "if_else"⟩ :: c₃ ++ [.label ⟨n + 1, "if_end"⟩]) n₄
        (spots { scopes } (note options "if" ++ c₁) ++
          framedSpots scopes (innerScope .plain scopes thenBody).localBytes ls₁ ++
          spots { scopes } [.jmp ⟨n + 1, "if_end"⟩, .label ⟨n, "if_else"⟩] ++ ls₂ ++
          spots { scopes } [.label ⟨n + 1, "if_end"⟩])
  | loop {scopes tag condition bodyTag body head start behind exit scope c₁ c₂ n n₂ n₃ ls} :
      head = ⟨n, "while_head"⟩ → start = ⟨n + 1, "while_continue"⟩ →
      behind = ⟨n + 2, "while_break"⟩ → exit = ⟨n + 3, "while_exit"⟩ →
      scope = loopScope scopes body start behind →
      SkipCode pool (view scopes f) f.slots.contains condition exit (n + 4) c₁ n₂ →
      StmtsCode options pool f (scope :: scopes) body n₂ c₂ n₃ ls →
      StmtCode options pool f scopes (.loop tag condition (.block bodyTag body)) n
        (note options "while" ++ .label head :: c₁ ++ openCode scope.localBytes ++ c₂ ++
          .label start :: epilogueCode ++ .jmp head :: .label behind :: epilogueCode ++
          [.label exit]) n₃
        (spots { scopes } (note options "while" ++ .label head :: c₁ ++ openCode scope.localBytes) ++ ls ++
          spots { scopes } (.label start :: epilogueCode ++ .jmp head :: .label behind :: epilogueCode ++
            [.label exit]))
  | continueLoop {scopes tag crossed target n} :
      scopes.jumpTarget .continueLoop = .ok (crossed, target) →
      StmtCode options pool f scopes (.continueLoop tag) n
        (epiloguesCode crossed ++ [.jmp target]) n (jumpSpots target scopes crossed)
  | breakLoop {scopes tag crossed target n} :
      scopes.jumpTarget .breakLoop = .ok (crossed, target) →
      StmtCode options pool f scopes (.breakLoop tag) n
        (epiloguesCode crossed ++ [.jmp target]) n (jumpSpots target scopes crossed)
  | giveBack {scopes tag crossed target n} :
      scopes.jumpTarget .giveBack = .ok (crossed, target) →
      StmtCode options pool f scopes (.giveBack tag none) n
        (epiloguesCode crossed ++ [.jmp target]) n (jumpSpots target scopes crossed)
  | giveBackValue {scopes tag value crossed target c r type n n'} :
      scopes.jumpTarget .giveBack = .ok (crossed, target) → returnType scopes ≠ .void →
      ExprCode pool (view scopes f) f.slots.contains value (returnType scopes) n c r type n' →
      StmtCode options pool f scopes (.giveBack tag (some value)) n
        (c ++ copyInstr .rax r :: epiloguesCode crossed ++ [.jmp target]) n'
        (spots { scopes } (c ++ [copyInstr .rax r]) ++ jumpSpots target scopes crossed)

/-- The code of what stands behind `else`: a block has no comment there. -/
inductive ElseCode (options : Options) (pool : List String) (f : RegisterFile) :
    ScopeStack → Stmt → Nat → List Instr → Nat → List Spot → Prop
  | block {scopes tag body n c n' ls} :
      StmtsCode options pool f (innerScope .plain scopes body :: scopes) body n c n' ls →
      ElseCode options pool f scopes (.block tag body) n
        (framed (innerScope .plain scopes body).localBytes c) n'
        (framedSpots scopes (innerScope .plain scopes body).localBytes ls)
  | branch {scopes tag condition thenBranch elseBranch n c n' ls} :
      StmtCode options pool f scopes (.branch tag condition thenBranch elseBranch) n c n' ls →
      ElseCode options pool f scopes (.branch tag condition thenBranch elseBranch) n c n' ls

/-- The code of statements one after another. -/
inductive StmtsCode (options : Options) (pool : List String) (f : RegisterFile) :
    ScopeStack → List Stmt → Nat → List Instr → Nat → List Spot → Prop
  | nil {scopes n} : StmtsCode options pool f scopes [] n [] n []
  | cons {scopes st rest n₁ c₁ n₂ c₂ n₃ ls₁ ls₂} : StmtCode options pool f scopes st n₁ c₁ n₂ ls₁ →
      StmtsCode options pool f (scopesAfter st scopes) rest n₂ c₂ n₃ ls₂ →
      StmtsCode options pool f scopes (st :: rest) n₁ (c₁ ++ c₂) n₃ (ls₁ ++ ls₂)

end

/-! ### Programs -/

/-- The scope with parameters; those that come in registers have handles from `first` on. -/
def bindScope (first : Nat) : List (String × DataType × ParameterClass) → Scope → Scope
  | [], scope => scope
  | (name, type, .register _) :: rest, scope =>
    bindScope (first + 1) rest
      (scope.declare ⟨name, type, .register ⟨first⟩, scope.stackHeight⟩)
  | (name, type, .stack index) :: rest, scope =>
    bindScope first rest
      (scope.declare ⟨name, type, .stack (16 + 8 * index), scope.stackHeight⟩)

/-- The scope of the body of a procedure, without its parameters. -/
def procedureScope (scopes : ScopeStack) (signature : Signature) (body : List Stmt)
    (behind : Label) : Scope :=
  { innerScope .procedure scopes body with
    endLabel := some behind
    returns := some signature.returns }

/-- The code of a procedure with a body, in the scopes of the program. -/
def ProcedureCode (options : Options) (pool : List String) (scopes : ScopeStack)
    (signature : Signature) (body : List Stmt) (n : Nat) (code : List Instr) (n' : Nat)
    (ls : List Spot) : Prop :=
  ∃ first f c ls', f.HoldsParameters first signature.params.length ∧
    StmtsCode options pool f
      (bindScope first signature.bindings
        (procedureScope scopes signature body ⟨n, signature.name ++ "_return"⟩) :: scopes)
      body (n + 1) c n' ls' ∧
    code = .symbol signature.name ::
      openCode (innerScope .procedure scopes body).localBytes ++ c ++
      clearInstr :: .label ⟨n, signature.name ++ "_return"⟩ :: epilogueCode ++ [.ret] ∧
    ls = spots { scopes } (.symbol signature.name ::
        openCode (innerScope .procedure scopes body).localBytes) ++ ls' ++
      spots { scopes } (clearInstr :: .label ⟨n, signature.name ++ "_return"⟩ :: epilogueCode ++ [.ret])

/-- The code of the procedures of a program, in order. -/
inductive ProgramCode (options : Options) (pool : List String) :
    ScopeStack → List Stmt → Nat → List Instr → Nat → List Spot → Prop
  | nil {scopes n} : ProgramCode options pool scopes [] n [] n []
  | external {scopes tag signature rest n c n' ls} :
      ProgramCode options pool (scopesAfter (.procedure tag signature none) scopes) rest n c n' ls →
      ProgramCode options pool scopes (.procedure tag signature none :: rest) n c n' ls
  | procedure {scopes tag signature bodyTag body rest n₁ c₁ n₂ c₂ n₃ ls₁ ls₂} :
      signature.external = false →
      ProcedureCode options pool (scopesAfter (.procedure tag signature none) scopes) signature body
        n₁ c₁ n₂ ls₁ →
      ProgramCode options pool (scopesAfter (.procedure tag signature none) scopes) rest n₂ c₂ n₃
        ls₂ →
      ProgramCode options pool scopes
        (.procedure tag signature (some (.block bodyTag body)) :: rest) n₁
        (.global signature.name :: c₁ ++ c₂) n₃
        (spots { scopes } [.global signature.name] ++ ls₁ ++ ls₂)

/-! ### Code without calls -/

/-- There is no call in the code. -/
def CallFree (c : List Instr) : Prop := ∀ name, .call name ∉ c

section CallFree

variable {i : Instr} {c c' : List Instr} {pool : List String} {look : String → Option Place}
  {used : Used}

@[simp] theorem callFree_nil : CallFree [] := by simp [CallFree]

@[simp] theorem callFree_cons : CallFree (i :: c) ↔ (∀ name, i ≠ .call name) ∧ CallFree c := by
  simp only [CallFree, List.mem_cons, not_or, forall_and]
  exact and_congr_left fun _ => forall_congr' fun name => ne_comm

@[simp] theorem callFree_append : CallFree (c ++ c') ↔ CallFree c ∧ CallFree c' := by
  simp only [CallFree, List.mem_append, not_or, forall_and]

theorem callFree_of_forall (h : ∀ i ∈ c, ∀ name, i ≠ .call name) : CallFree c :=
  fun name hmem => h _ hmem name rfl

@[simp] theorem callFree_extendCode {r : Register} {type : DataType} :
    CallFree (extendCode r type) := by
  cases type <;> simp [extendCode]

@[simp] theorem callFree_truthCode {condition : Condition} {r : Register} :
    CallFree (truthCode condition r) := by
  simp [truthCode]

@[simp] theorem callFree_unaryCode {op : UnaryOp} {r : Register} : CallFree (unaryCode op r) := by
  cases op <;> simp [unaryCode]

@[simp] theorem callFree_eagerCode {op : ArithOp ⊕ Comparison} {lhs rhs : Register}
    {type : DataType} : CallFree (eagerCode used op lhs rhs type) := by
  have hdivide : CallFree (divideCode used lhs rhs) := by
    unfold divideCode
    split <;> simp [quotientCode, copyInstr]
  rcases op with (_ | _ | _ | _) | _ <;> simp [eagerCode, arithCode, hdivide]

theorem Reach.callFree {access : Access} {src : Operand} (h : Reach used access c src) :
    CallFree c := by
  cases h with
  | register _ => simp
  | here => simp
  | outer _ =>
    refine callFree_cons.mpr ⟨fun _ => nofun, callFree_of_forall fun i hi => ?_⟩
    obtain ⟨-, rfl⟩ := List.mem_replicate.mp hi
    exact fun _ => nofun

theorem callFree_fetch {type : DataType} {r : Register} {src : Operand} :
    CallFree [fetch type r src] := by
  cases type <;> simp [fetch]

theorem ExprCode.callFree {e : Expr} {context type : DataType} {n n' : Nat} {r : Register}
    (h : ExprCode pool look used e context n c r type n') : CallFree c := by
  induction h with
  | byte => simp
  | word => simp
  | string => simp
  | var _ _ hway =>
    refine callFree_append.mpr ⟨hway.callFree, ?_⟩
    unfold loadInstr
    split
    · simp
    · exact callFree_fetch
  | unary _ _ ih => simpa [copyInstr] using ih
  | eager _ _ _ ih₁ ih₂ => simpa [copyInstr] using ⟨ih₁, ih₂⟩
  | logic _ _ _ ih₁ ih₂ => simpa [nonzeroCode] using ⟨ih₁, ih₂⟩

theorem ArgsCode.callFree {args : List (Expr × DataType)} {n n' : Nat} {rs : List Register}
    (h : ArgsCode pool look used args n c rs n') : CallFree c := by
  induction h with
  | nil => simp
  | cons he _ ih => exact callFree_append.mpr ⟨he.callFree, ih⟩

theorem callFree_moveCode {moves : List (Register × Register)} : CallFree (moveCode moves) := by
  refine callFree_of_forall fun i hi => ?_
  obtain ⟨p, -, rfl⟩ := List.mem_map.mp hi
  exact fun _ => nofun

theorem AssignCode.callFree {place : Place} {value : Expr} {n n' : Nat}
    (h : AssignCode pool look used place value n c n') : CallFree c := by
  obtain ⟨c, r, type, way, dst, hc, hway, rfl⟩ := h
  refine callFree_append.mpr ⟨callFree_append.mpr ⟨hc.callFree, hway.callFree⟩, ?_⟩
  unfold storeInstr
  split
  · exact callFree_fetch
  · simp

theorem SkipCode.callFree {condition : Expr} {target : Label} {n n' : Nat}
    (h : SkipCode pool look used condition target n c n') : CallFree c := by
  obtain ⟨c, r, type, dst, hc, -, rfl⟩ := h
  simpa [copyInstr] using hc.callFree

@[simp] theorem callFree_note {options : Options} {text : String} :
    CallFree (note options text) := by
  unfold note
  split <;> simp

@[simp] theorem callFree_epilogueCode : CallFree epilogueCode := by
  simp [epilogueCode, copyInstr]

theorem callFree_epiloguesCode {count : Nat} : CallFree (epiloguesCode count) := by
  refine callFree_of_forall fun i hi => ?_
  obtain ⟨c, hc, hi⟩ := List.mem_flatten.mp hi
  obtain ⟨-, rfl⟩ := List.mem_replicate.mp hc
  rintro name rfl
  exact callFree_epilogueCode name hi

@[simp] theorem callFree_openCode {reserved : Nat} : CallFree (openCode reserved) := by
  unfold openCode
  split <;> simp [copyInstr, adjustInstr]

theorem CallFree.countP_isCall (h : CallFree c) : c.countP Instr.isCall = 0 := by
  refine List.countP_eq_zero.mpr fun i hi hcall => ?_
  cases i with
  | call name => exact h name hi
  | _ => cases hcall

theorem countP_savedCallCode (depth : Nat) (saved : List Register) (name : String) :
    (savedCallCode depth saved name).countP Instr.isCall = 1 := by
  have hpush : ∀ rs : List Register, (rs.map Instr.push).countP Instr.isCall = 0 := fun rs => by
    simp [List.countP_map, List.countP_eq_zero, Instr.isCall]
  have hpop : ∀ rs : List Register, (rs.map Instr.pop).countP Instr.isCall = 0 := fun rs => by
    simp [List.countP_map, List.countP_eq_zero, Instr.isCall]
  unfold savedCallCode
  rw [List.countP_append, List.countP_append, List.countP_append, hpush, hpop,
    List.countP_cons_of_pos rfl]
  split <;> rfl

theorem CallCode.countP_isCall {h : Holding} {depth n n' bytes : Nat} {name : String}
    {args : List (Expr × DataType)} (hc : CallCode pool look h depth name args n c n' bytes) :
    c.countP Instr.isCall = 1 := by
  obtain ⟨-, c, rs, ls, there, back, h', hargs, -, -, -, -, -, -, -, rfl⟩ := hc
  have hclear : CallFree [clearInstr] := by simp [clearInstr]
  rw [List.countP_append, List.countP_append, List.countP_append, ← List.singleton_append,
    List.countP_append, hargs.callFree.countP_isCall, callFree_moveCode.countP_isCall,
    callFree_moveCode.countP_isCall, hclear.countP_isCall, countP_savedCallCode]

/-- A call is on record once. -/
theorem CallCode.record {h : Holding} {depth n n' bytes : Nat} {name text : String}
    {args : List (Expr × DataType)} {scopes : ScopeStack} {options : Options}
    (hc : CallCode pool look h depth name args n c n' bytes) :
    depthsOf (spots { scopes, bytes := some bytes } (note options text ++ c)) = [bytes] := by
  have hall : ∀ code, depthsOf (spots { scopes, bytes := some bytes } code) =
      List.replicate (code.countP Instr.isCall) bytes := by
    intro code
    induction code with
    | nil => rfl
    | cons i code ih =>
      rw [depthsOf, spots] at ih ⊢
      cases hi : i.isCall <;> simp [Spot.of, hi, ih, List.replicate_succ]
  rw [hall, List.countP_append, callFree_note.countP_isCall, hc.countP_isCall]
  rfl

end CallFree

end Generation

end ProcLang

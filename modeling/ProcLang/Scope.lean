import ProcLang.Asm
import ProcLang.Error

/-!
The scopes of a program point.  Every block has a scope with its names, the frame offsets of its
variables and the labels that jumps out of it go to.  Scopes form a stack, the innermost first.
-/

namespace ProcLang

/-- How a parameter is passed. -/
inductive ParameterClass where
  /-- In a register. -/
  | register (register : Register)
  /-- On the stack, at an index among the parameters there. -/
  | stack (index : Nat)
deriving DecidableEq, Inhabited

/-- The class of the parameter at a place: the first ones go in the argument registers. -/
def parameterClass (place : Nat) : ParameterClass :=
  match Register.arguments[place]? with
  | some r => .register r
  | none => .stack (place - Register.arguments.length)

/-- The classes of parameters. -/
def classifyParameters (types : List DataType) : List ParameterClass :=
  types.mapIdx fun place _ => parameterClass place

/-- A procedure that can be called. -/
structure Procedure where
  name : String
  returns : DataType
  params : List (DataType × ParameterClass)
  external : Bool
deriving DecidableEq, Inhabited

/-- Where a variable lives. -/
inductive Storage where
  /-- In the frame of its block, at an offset from the frame pointer. -/
  | stack (offset : Int)
  /-- In a register, as a parameter. -/
  | register (location : Location)
deriving DecidableEq, Inhabited

/-- A variable that can be used. -/
structure Variable where
  name : String
  type : DataType
  storage : Storage
  /-- The stack height of the block that declares it. -/
  stackHeight : Nat
deriving DecidableEq, Inhabited

/-- What a scope is the scope of. -/
inductive ScopeKind where
  /-- The program; it has no frame. -/
  | entry
  /-- The body of a procedure; a return goes to its end. -/
  | procedure
  /-- The body of a loop; continue goes to its start label, break to its end label. -/
  | loop
  | plain
deriving DecidableEq, Inhabited

/-- The scope of a block. -/
structure Scope where
  kind : ScopeKind
  stackHeight : Nat
  vars : Table String Variable := .empty
  procedures : Table String Procedure := .empty
  /-- The frame offsets of the declarations directly in the block. -/
  layout : Table NodeId Int := .empty
  localBytes : Nat := 0
  startLabel : Option Label := none
  endLabel : Option Label := none
  returns : Option DataType := none
deriving DecidableEq, Inhabited

/-- Set the offsets of declarations, one below the other, from a count of bytes in use; the last
count comes with them. -/
def layOutFrom (used : Nat) (layout : Table NodeId Int) :
    List (NodeId × DataType) → Nat × Table NodeId Int
  | [] => (used, layout)
  | (id, type) :: rest =>
    layOutFrom (used + type.size) (layout.insert id (-((used + type.size : Nat) : Int))) rest

/-- A number of bytes rounded up to a multiple of 16. -/
def alignUp (bytes : Nat) : Nat := (bytes + 15) / 16 * 16

namespace Scope

/-- The scope with frame offsets for some declarations and the bytes reserved for them. -/
def layOut (s : Scope) (decls : List (NodeId × DataType)) : Scope :=
  let (used, layout) := layOutFrom 0 s.layout decls
  { s with layout := layout, localBytes := alignUp used }

/-- The scope with a variable; one of the same name gives way. -/
def declare (s : Scope) (v : Variable) : Scope :=
  { s with vars := s.vars.insert v.name v }

/-- The scope with a procedure; one of the same name gives way. -/
def declareProcedure (s : Scope) (p : Procedure) : Scope :=
  { s with procedures := s.procedures.insert p.name p }

end Scope

/-- The scopes around a program point, the innermost first. -/
abbrev ScopeStack := List Scope

namespace ScopeStack

/-- The innermost scope. -/
def current (scopes : ScopeStack) : Except SemanticCause Scope :=
  match scopes with
  | [] => .error .noEnclosingBlock
  | scope :: _ => .ok scope

/-- The scopes with a change of the innermost one. -/
def modifyCurrent (f : Scope → Scope) : ScopeStack → Except SemanticCause ScopeStack
  | [] => .error .noEnclosingBlock
  | scope :: rest => .ok (f scope :: rest)

/-- The stack height of the innermost scope. -/
def stackHeight : ScopeStack → Nat
  | [] => 0
  | scope :: _ => scope.stackHeight

/-- The variable that a name means here. -/
def findVariable? (scopes : ScopeStack) (name : String) : Option Variable :=
  scopes.findSome? (·.vars.get? name)

/-- The procedure that a name means here. -/
def findProcedure? (scopes : ScopeStack) (name : String) : Option Procedure :=
  scopes.findSome? (·.procedures.get? name)

/-- The scope of the procedure around this point. -/
def procedureScope? (scopes : ScopeStack) : Option Scope :=
  scopes.find? (·.kind == .procedure)

/-- What a scope does with a jump from inside. -/
inductive Passage where
  /-- The jump ends here, at a label if the scope has one. -/
  | target (label : Option Label)
  /-- The jump must not leave the scope. -/
  | stop
  /-- The jump goes on outwards. -/
  | pass

/-- What a scope does with a jump: continue and break end at a loop and must not leave a procedure,
a return ends at a procedure, and no jump leaves the program. -/
def passage (jump : Jump) (scope : Scope) : Passage :=
  match jump, scope.kind with
  | .continueLoop, .loop => .target scope.startLabel
  | .breakLoop, .loop => .target scope.endLabel
  | .giveBack, .procedure => .target scope.endLabel
  | .continueLoop, .procedure => .stop
  | .breakLoop, .procedure => .stop
  | _, .entry => .stop
  | _, .plain => .pass
  | .giveBack, .loop => .pass

/-- The number of frames that a jump leaves, counted on from `crossed`, and its label. -/
def jumpTargetFrom (jump : Jump) (crossed : Nat) :
    ScopeStack → Except SemanticCause (Nat × Label)
  | [] => .error (.misplacedJump jump)
  | scope :: rest =>
    match passage jump scope with
    | .target (some label) => .ok (crossed, label)
    | .target none => .error .noJumpLabel
    | .stop => .error (.misplacedJump jump)
    | .pass => jumpTargetFrom jump (crossed + 1) rest

/-- The number of frames that a jump leaves, and its label. -/
def jumpTarget (scopes : ScopeStack) (jump : Jump) : Except SemanticCause (Nat × Label) :=
  jumpTargetFrom jump 0 scopes

end ScopeStack

end ProcLang

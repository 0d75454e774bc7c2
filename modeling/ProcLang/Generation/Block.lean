import ProcLang.Generation.Call

/-!
The frame of a block.  Every block but the program has a frame of its own, with the variables that
are declared directly in it; what the block is the body of decides how its code ends.
-/

namespace ProcLang

namespace Generation

/-- What a block is the body of. -/
inductive Role where
  /-- The program. -/
  | entry
  /-- A procedure. -/
  | procedure (name : String) (returns : DataType)
      (params : List (String × DataType × ParameterClass))
  /-- A loop, with the labels of its head and of continue and break. -/
  | loop (head start behind : Label)
  /-- Nothing else. -/
  | plain
deriving DecidableEq, Inhabited

/-- The kind of scope that a role makes. -/
def Role.scopeKind : Role → ScopeKind
  | entry => .entry
  | procedure .. => .procedure
  | loop .. => .loop
  | plain => .plain

end Generation

/-- The variables that statements declare directly. -/
def Stmt.declarations (stmts : List Stmt) : List (NodeId × DataType) :=
  stmts.filterMap fun
    | .declaration tag _ type _ => some (tag.id, type)
    | _ => none

namespace Generation

/-- The scope of a block in a role, with a label where its end is jumped to. -/
def scopeFor (role : Role) (stmts : List Stmt) : Gen Scope := do
  let s ← Stage.get
  let height := if role = .entry then 0 else s.scopes.stackHeight + 1
  let scope := { kind := role.scopeKind, stackHeight := height : Scope }.layOut
    (Stmt.declarations stmts)
  match role with
  | .procedure name returns _ => do
    let behind ← freshLabel (name ++ "_return")
    return { scope with endLabel := some behind, returns := some returns }
  | .loop _ start behind =>
    return { scope with startLabel := some start, endLabel := some behind }
  | .entry | .plain => return scope

/-- Open the frame of a block and reserve its bytes. -/
def openFrame (role : Role) (reserved : Nat) : Gen Unit := do
  if role ≠ .entry then
    prologue
    setDepth (· + 8)
  if reserved > 0 then
    adjustStack .sub reserved
    setDepth (· + reserved)

/-- Bind parameters in the innermost scope; those that come in registers have handles. -/
def bindParameters (height : Nat) :
    List (String × DataType × ParameterClass) → Gen (List Location)
  | [] => return []
  | (name, type, .register r) :: rest => do
    let location ← freshLocation
    claimParameter r location
    modifyScope (·.declare ⟨name, type, .register location, height⟩)
    let locations ← bindParameters height rest
    return location :: locations
  | (name, type, .stack index) :: rest => do
    modifyScope (·.declare ⟨name, type, .stack (16 + 8 * index), height⟩)
    bindParameters height rest

/-- The parameters of a role. -/
def Role.params : Role → List (String × DataType × ParameterClass)
  | procedure _ _ params => params
  | entry | loop .. | plain => []

/-- Write a label, if there is one. -/
def labelIf : Option Label → Gen Unit
  | some label => emit (.label label)
  | none => return ()

/-- Close the frame of a block, and what its role asks for behind it.  A procedure that comes to its
end returns 0. -/
def closeFrame (role : Role) (scope : Scope) (parameters : List Location) : Gen Unit :=
  match role with
  | .entry => if scope.localBytes > 0 then adjustStack .add scope.localBytes else return ()
  | .plain => epilogue
  | .loop head start behind => do
    emit (.label start)
    epilogue
    emit (.jmp head)
    emit (.label behind)
    epilogue
  | .procedure .. => do
    emit (.alu .xor .long (.reg .rax) (.reg .rax))
    labelIf scope.endLabel
    epilogue
    emit .ret
    Stage.forEach release parameters

/-- Code for a block around the code of its statements. -/
def block (role : Role) (tag : Tag) (stmts : List Stmt) (body : Gen Unit) : Gen Unit := do
  nodeEvent .nodeStart tag .block
  let scope ← scopeFor role stmts
  let s ← Stage.get
  openFrame role scope.localBytes
  Stage.modify fun s => { s with scopes := scope :: s.scopes }
  let parameters ← bindParameters scope.stackHeight role.params
  body
  closeFrame role scope parameters
  setDepth fun _ => s.stackDepth
  Stage.modify fun s => { s with scopes := s.scopes.drop 1 }
  nodeEvent .nodeEnd tag .block

end Generation

end ProcLang

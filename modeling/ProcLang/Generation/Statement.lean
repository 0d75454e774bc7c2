import ProcLang.Generation.Block

/-!
Code for statements.  A jump closes the frame of every block that it leaves on its way to the block
that has its label.
-/

namespace ProcLang

namespace Signature

/-- How the parameters are passed. -/
def classes (s : Signature) : List ParameterClass := classifyParameters (s.params.map (·.type))

/-- The procedure as its callers see it. -/
def procedure (s : Signature) : Procedure :=
  { name := s.name
    returns := s.returns
    params := (s.params.map (·.type)).zip s.classes
    external := s.external }

/-- The parameters as the body sees them. -/
def bindings (s : Signature) : List (String × DataType × ParameterClass) :=
  (s.params.zip s.classes).map fun (p, c) => (p.name, p.type, c)

end Signature

namespace Generation

/-- Work on a statement between the reports of its start and its end. -/
def statementNode (tag : Tag) (kind : NodeKind) (work : Gen Unit) : Gen Unit := do
  nodeEvent .nodeStart tag kind
  work
  nodeEvent .nodeEnd tag kind

/-! ### Variables -/

/-- Compute a value and store it in a variable. -/
def assign (v : Variable) (value : Expr) : Gen Unit := do
  let (location, _) ← expression value v.type
  let r ← registerOf location
  storeVariable v r
  release location

/-- Code for a declaration; the variable counts from behind its value. -/
def declaration (options : Options) (tag : Tag) (name : String) (type : DataType)
    (init : Option Expr) : Gen Unit := do
  let scope ← currentScope
  match scope.layout.get? tag.id with
  | none => refuse tag (.noStackSlot name)
  | some offset => do
    let v : Variable := ⟨name, type, .stack offset, scope.stackHeight⟩
    comment options (type.name ++ " " ++ name ++ " @ rbp" ++ signed offset)
    match init with
    | some value => assign v value
    | none => pure ()
    modifyScope (·.declare v)

/-- Code for an assignment. -/
def assignment (options : Options) (tag : Tag) (name : String) (value : Expr) : Gen Unit := do
  let v ← lookup tag name
  comment options (name ++ " = ...")
  assign v value

/-! ### Jumps -/

/-- Close a number of frames. -/
def epilogues : Nat → Gen Unit
  | 0 => return ()
  | count + 1 => do
    epilogue
    epilogues count

/-- Code for a jump out of blocks. -/
def jump (tag : Tag) (kind : Jump) : Gen Unit := do
  let s ← Stage.get
  let (crossed, target) ← orRefuse tag (s.scopes.jumpTarget kind)
  epilogues crossed
  emit (.jmp target)

/-- Compute the value of a procedure. -/
def returnValue (tag : Tag) (returns : DataType) (value : Expr) : Gen Unit :=
  if returns = .void then refuse tag .voidReturnsValue
  else do
    let (location, _) ← expression value returns
    let r ← registerOf location
    copy .rax r
    release location

/-- Code for a return. -/
def giveBack (tag : Tag) (value : Option Expr) : Gen Unit := do
  let s ← Stage.get
  let returns := (s.scopes.procedureScope?.bind (·.returns)).getD .int
  match value with
  | some e => returnValue tag returns e
  | none => pure ()
  jump tag .giveBack

/-! ### Conditions -/

/-- Compare a value with zero, and forget it. -/
def testZero (l : Location) : Gen Unit := do
  let (duplicate, r) ← copyOf l
  emit (.test .quad (.reg r) (.reg r))
  release l
  release duplicate

/-- Go to a label if a condition is zero. -/
def skipUnless (condition : Expr) (target : Label) : Gen Unit := do
  let (location, _) ← expression condition .int
  testZero location
  emit (.jcc .e target)

/-- Code for a branch around the code of its two sides. -/
def branch (options : Options) (condition : Expr) (thenCode : Gen Unit)
    (elseCode : Option (Gen Unit)) : Gen Unit := do
  let otherwise ← freshLabel "if_else"
  let behind ← freshLabel "if_end"
  comment options "if"
  skipUnless condition (if elseCode.isSome then otherwise else behind)
  thenCode
  match elseCode with
  | some code => do
    emit (.jmp behind)
    emit (.label otherwise)
    code
  | none => pure ()
  emit (.label behind)

/-- Code for a loop around the code of its body, which depends on the loop's labels. -/
def loop (options : Options) (condition : Expr) (body : Role → Gen Unit) : Gen Unit := do
  let head ← freshLabel "while_head"
  let start ← freshLabel "while_continue"
  let behind ← freshLabel "while_break"
  let exit ← freshLabel "while_exit"
  comment options "while"
  emit (.label head)
  skipUnless condition exit
  body (.loop head start behind)
  emit (.label exit)

/-! ### Procedures -/

/-- Import a name, once. -/
def addExtern (name : String) : Gen Unit :=
  Stage.modify fun s =>
    if s.externs.contains name then s else { s with externs := s.externs ++ [name] }

/-- Code for a procedure around the code of its body.  It is in scope in its own body. -/
def procedure (tag : Tag) (signature : Signature) (body : Option (Role → Gen Unit)) :
    Gen Unit := do
  modifyScope (·.declareProcedure signature.procedure)
  if signature.external then addExtern signature.name
  else
    match body with
    | none => refuse tag (.noBody signature.name)
    | some code => do
      let scope ← currentScope
      if scope.kind = .entry then
        emit (.global signature.name)
        emit (.symbol signature.name)
        setDepth fun _ => 8
        code (.procedure signature.name signature.returns signature.bindings)
        setDepth fun _ => 0
      else refuse tag (.nestedProcedure signature.name)

/-! ### Statements -/

/-- Check the register file, if that is wanted. -/
def checkRegisters (options : Options) : Gen Unit :=
  if options.checkRegisters then do
    let s ← Stage.get
    orLack s.registers.check
  else return ()

mutual

/-- Code for a statement. -/
def statement (options : Options) : Stmt → Gen Unit
  | .block tag body =>
    statementNode tag .block do
      comment options "block"
      block .plain tag body (statements options body)
  | .procedure tag signature none =>
    statementNode tag .procedure (procedure tag signature none)
  | .procedure tag signature (some body) =>
    statementNode tag .procedure (procedure tag signature (some (blockOf options body)))
  | .call tag name args => statementNode tag .call (call options tag name args)
  | .declaration tag name type init =>
    statementNode tag .declaration (declaration options tag name type init)
  | .assignment tag name value =>
    statementNode tag .assignment (assignment options tag name value)
  | .branch tag condition thenBranch none =>
    statementNode tag .branch (branch options condition (blockOf options thenBranch .plain) none)
  | .branch tag condition thenBranch (some (.block elseTag body)) =>
    statementNode tag .branch
      (branch options condition (blockOf options thenBranch .plain)
        (some (block .plain elseTag body (statements options body))))
  | .branch tag condition thenBranch (some elseBranch) =>
    statementNode tag .branch
      (branch options condition (blockOf options thenBranch .plain)
        (some (statement options elseBranch)))
  | .loop tag condition body =>
    statementNode tag .loop (loop options condition (blockOf options body))
  | .continueLoop tag => statementNode tag .continueLoop (jump tag .continueLoop)
  | .breakLoop tag => statementNode tag .breakLoop (jump tag .breakLoop)
  | .giveBack tag value => statementNode tag .giveBack (giveBack tag value)
  | .expression e => statementNode e.tag e.kind (refuse e.tag (.notStatement e.kind))

/-- Code for the statements of a block. -/
def statements (options : Options) : List Stmt → Gen Unit
  | [] => return ()
  | first :: rest => do
    statement options first
    checkRegisters options
    statements options rest

/-- Code for a statement that must be a block, in a role. -/
def blockOf (options : Options) : Stmt → Role → Gen Unit
  | .block tag body, role => block role tag body (statements options body)
  | other, _ => do
    nodeEvent .nodeStart other.tag other.kind
    refuse other.tag (.notBlock other.kind)

end

end Generation

end ProcLang

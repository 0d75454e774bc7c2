import ProcLang.Generation.Expression

/-!
Code for calls.  The arguments are computed, moved into the argument registers one after another,
and every register in use is saved around the call.  Values that stood in the way are moved to
registers that are free, and parameters come home afterwards.
-/

namespace ProcLang.Generation

/-- The argument registers of a procedure whose parameters all go in registers. -/
def argumentTargets (tag : Tag) (name : String) :
    Nat → List (DataType × ParameterClass) → Gen (List Register)
  | _, [] => return []
  | number, (_, .register r) :: rest => do
    let targets ← argumentTargets tag name (number + 1) rest
    return r :: targets
  | number, (_, .stack _) :: _ => refuse tag (.stackArgument number name)

/-- Compute arguments, each for the type of its parameter. -/
def argumentValues : List (Expr × DataType) → Gen (List Location)
  | [] => return []
  | (arg, type) :: rest => do
    let (location, _) ← expression arg type
    let locations ← argumentValues rest
    return location :: locations

/-- A free register, of those that are not to be avoided if there is one. -/
def spareRegister (avoid lastly : List Register) : Gen Register := do
  let s ← Stage.get
  match s.registers.firstFreeExcept? avoid with
  | some r => return r
  | none => Stage.ofOption (.resource .noRegister) (s.registers.firstFreeExcept? lastly)

/-- Move an argument into its register; a value that stands there gives way. -/
def placeArgument (targets : List Register) (location : Location) (target : Register) :
    Gen Unit := do
  let current ← registerOf location
  if current = target then return ()
  else
    let s ← Stage.get
    if !s.registers.isFree target then
      let spare ← spareRegister targets []
      relocate target spare
    let current ← registerOf location
    relocate current target

/-- Save registers, the first at the bottom. -/
def pushAll : List Register → Gen Unit
  | [] => return ()
  | r :: rest => do
    emit (.push r)
    setDepth (· + 8)
    pushAll rest

/-- Restore registers, the first from the top. -/
def popAll : List Register → Gen Unit
  | [] => return ()
  | r :: rest => do
    emit (.pop r)
    setDepth (· - 8)
    popAll rest

/-- Move one parameter that is not at home, or make room for one. -/
def bringHome (displaced : List (Location × Register × Register)) (blocked : Register) :
    Gen Unit := do
  let s ← Stage.get
  match displaced.find? fun (_, _, home) => s.registers.isFree home with
  | some (_, current, home) => relocate current home
  | none => do
    let spare ← spareRegister Register.arguments [blocked]
    relocate blocked spare

/-- Move parameters home, in at most a number of moves. -/
def restoreWithin : Nat → Gen Unit
  | 0 => return ()
  | moves + 1 => do
    let s ← Stage.get
    match s.registers.displaced with
    | [] => return ()
    | (l, current, home) :: rest => do
      bringHome ((l, current, home) :: rest) home
      restoreWithin moves

/-- Move every parameter home.  Each takes a move, and another one where it has to make room. -/
def restoreParameters : Gen Unit := do
  let s ← Stage.get
  restoreWithin (2 * s.registers.displaced.length)

/-- The call itself: registers in use are saved, and the stack is aligned to 16 bytes. -/
def callSaved (name : String) : Gen Unit := do
  let s ← Stage.get
  let saved := s.registers.occupied
  pushAll saved
  let s ← Stage.get
  let padded := s.stackDepth % 16 != 0
  if padded then
    adjustStack .sub 8
    setDepth (· + 8)
  emit (.call name)
  if padded then
    adjustStack .add 8
    setDepth (· - 8)
  popAll saved.reverse

/-- The procedure that a call means, which must take as many arguments. -/
def callee (tag : Tag) (name : String) (count : Nat) : Gen Procedure := do
  let s ← Stage.get
  match s.scopes.findProcedure? name with
  | none => refuse tag (.undeclaredProcedure name)
  | some p =>
    if p.params.length = count then return p
    else refuse tag (.argumentCount name p.params.length count)

/-- Code for a call. -/
def call (options : Options) (tag : Tag) (name : String) (args : List Expr) : Gen Unit := do
  let p ← callee tag name args.length
  let targets ← argumentTargets tag name 1 p.params
  comment options ("call " ++ name)
  let locations ← argumentValues (args.zip (p.params.map (·.1)))
  Stage.forEach (fun (location, target) => placeArgument targets location target)
    (locations.zip targets)
  emit (.alu .xor .long (.reg .rax) (.reg .rax))
  callSaved name
  Stage.forEach release locations
  restoreParameters

end ProcLang.Generation

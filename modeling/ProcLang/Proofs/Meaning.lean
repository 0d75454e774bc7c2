import ProcLang.Proofs.Machine.Word

/-!
The meaning of a procedure, read off its tree.

Values are words, and arithmetic on them wraps around.  A variable of a byte type keeps a byte: a value
is cut to it when it is stored and extended when it is used.  Blocks have variables of their own; a
variable has no value before one is stored.  Called procedures change nothing here, so a call is only
put down, with its arguments.

`exec` runs a statement, with a bound on the depth of the run.  There is no result where the bound is
too small, where a variable without a value is used, and where a division fails.
-/

namespace ProcLang.Meaning

/-! ### Variables -/

/-- A variable of a block. -/
structure Local where
  name : String
  type : DataType
  value : Option Word

/-- The variables of the blocks around, the innermost block first. -/
abbrev Env := List (List Local)

namespace Env

/-- The variable that a name means. -/
def find? (env : Env) (name : String) : Option Local :=
  env.findSome? fun vars => vars.find? (·.name == name)

/-- Store a value in a variable, cut to its type. -/
def assign (name : String) (w : Word) : Env → Option Env
  | [] => none
  | vars :: outer =>
    if vars.any (·.name == name) then
      some (vars.map (fun x =>
        if x.name = name then { x with value := some (x.type.normalize w) } else x) :: outer)
    else (assign name w outer).map (vars :: ·)

/-- One more variable in the innermost block. -/
def declare (x : Local) : Env → Env
  | [] => []
  | vars :: outer => (x :: vars) :: outer

end Env

/-! ### Operators -/

/-- The value of an operator before its operand. -/
def unary : UnaryOp → Word → Word
  | .plus, a => a
  | .negate, a => -a
  | .not, a => .ofTruth (a == 0)

/-- The value of arithmetic.  Division cuts toward zero; it fails by zero, and where the quotient
is too large. -/
def arith : ArithOp → Word → Word → Option Word
  | .add, a, b => some (a + b)
  | .sub, a, b => some (a - b)
  | .mul, a, b => some (a * b)
  | .div, a, b => if b = 0 ∨ a = BitVec.intMin 64 ∧ b = -1 then none else some (a.sdiv b)

/-- The type of arithmetic: two bytes of one type give such a byte again. -/
def arithType : DataType → DataType → DataType
  | .u8, .u8 => .u8
  | .s8, .s8 => .s8
  | _, _ => .int

/-- The left operand decides, and the right one is not evaluated. -/
def decides : LogicOp → Word → Bool
  | .and, a => a == 0
  | .or, a => a != 0

/-! ### Expressions -/

/-- The type of the value of an expression. -/
def typeOf (env : Env) : Expr → DataType
  | .var _ name => ((env.find? name).map (·.type)).getD .int
  | .unary _ .plus e => typeOf env e
  | .binary _ (.arith _) l r => arithType (typeOf env l) (typeOf env r)
  | .literal .. | .unary .. | .binary .. | .misplaced .. => .int

/-- The value of an expression, with the addresses of strings. -/
def eval (strings : String → Word) (env : Env) : Expr → Option Word
  | .literal _ (.integer value) => some value.toBitVec
  | .literal _ (.string raw) => some (strings raw)
  | .var _ name => (env.find? name).bind (·.value)
  | .unary _ op e => (eval strings env e).map (unary op)
  | .binary _ (.arith op) l r => do
    let a ← eval strings env l
    let b ← eval strings env r
    (arith op a b).map (arithType (typeOf env l) (typeOf env r)).normalize
  | .binary _ (.compare op) l r => do
    let a ← eval strings env l
    let b ← eval strings env r
    return .ofTruth (op.apply a b)
  | .binary _ (.logic op) l r => do
    let a ← eval strings env l
    if decides op a then return .ofTruth (a != 0)
    let b ← eval strings env r
    return .ofTruth (b != 0)
  | .misplaced .. => none

/-! ### Statements -/

/-- How a statement ends. -/
inductive Flow where
  | next
  | continueLoop
  | breakLoop
  | giveBack (value : Option Word)
deriving DecidableEq

/-- A call with its arguments. -/
structure Call where
  name : String
  args : List Word
deriving DecidableEq

/-- The end of a run: the variables, how it ended, and the calls it made. -/
structure Done where
  env : Env
  flow : Flow
  calls : List Call

/-- A run behind which nothing was called. -/
def quiet (env : Env) (flow : Flow) : Done := ⟨env, flow, []⟩

/-- A run behind some calls. -/
def Done.behind (calls : List Call) (d : Done) : Done := { d with calls := calls ++ d.calls }

mutual

/-- Run a statement. -/
def exec (strings : String → Word) : Nat → Env → Stmt → Option Done
  | 0, _, _ => none
  | _ + 1, env, .procedure _ _ none => some (quiet env .next)
  | _ + 1, _, .procedure _ _ (some _) => none
  | _ + 1, _, .expression _ => none
  | fuel + 1, env, .block _ body => do
    let d ← execAll strings fuel ([] :: env) body
    return { d with env := d.env.tail }
  | _ + 1, env, .call _ name args => do
    let values ← args.mapM (eval strings env)
    return ⟨env, .next, [⟨name, values⟩]⟩
  | _ + 1, env, .declaration _ name type none =>
    some (quiet (env.declare ⟨name, type, none⟩) .next)
  | _ + 1, env, .declaration _ name type (some init) => do
    let w ← eval strings env init
    return quiet (env.declare ⟨name, type, some (type.normalize w)⟩) .next
  | _ + 1, env, .assignment _ name value => do
    let w ← eval strings env value
    let env' ← env.assign name w
    return quiet env' .next
  | fuel + 1, env, .branch _ condition thenBranch elseBranch => do
    let w ← eval strings env condition
    if w ≠ 0 then exec strings fuel env thenBranch
    else
      match elseBranch with
      | none => return quiet env .next
      | some st => exec strings fuel env st
  | fuel + 1, env, .loop tag condition body => do
    let w ← eval strings env condition
    if w = 0 then return quiet env .next
    let d ← exec strings fuel env body
    match d.flow with
    | .next | .continueLoop =>
      let d' ← exec strings fuel d.env (.loop tag condition body)
      return d'.behind d.calls
    | .breakLoop => return { d with flow := .next }
    | .giveBack _ => return d
  | _ + 1, env, .continueLoop _ => some (quiet env .continueLoop)
  | _ + 1, env, .breakLoop _ => some (quiet env .breakLoop)
  | _ + 1, env, .giveBack _ none => some (quiet env (.giveBack none))
  | _ + 1, env, .giveBack _ (some value) => do
    let w ← eval strings env value
    return quiet env (.giveBack (some w))

/-- Run statements one after another. -/
def execAll (strings : String → Word) : Nat → Env → List Stmt → Option Done
  | 0, _, _ => none
  | _ + 1, env, [] => some (quiet env .next)
  | fuel + 1, env, st :: rest => do
    let d ← exec strings fuel env st
    match d.flow with
    | .next =>
      let d' ← execAll strings fuel d.env rest
      return d'.behind d.calls
    | _ => return d

end

/-! ### Procedures -/

/-- The variables of a procedure that was called with some words: its parameters. -/
def parameters (signature : Signature) (args : List Word) : List Local :=
  signature.params.zipWith (fun p w => ⟨p.name, p.type, some (p.type.normalize w)⟩) args

/-- Run a procedure: the value that it gives back, if it gives back one, and its calls.  The end of
the body gives back 0. -/
def run (strings : String → Word) (fuel : Nat) (signature : Signature) (body : List Stmt)
    (args : List Word) : Option (Option Word × List Call) := do
  let d ← execAll strings fuel [parameters signature args] body
  match d.flow with
  | .next => return (some 0, d.calls)
  | .giveBack value => return (value, d.calls)
  | .continueLoop | .breakLoop => none

end ProcLang.Meaning

import ProcLang.Generation.Block
import ProcLang.Parsing.State

/-!
Well-formed programs: every name is declared where it is used, a name is declared once in a block,
jumps stand in loops, the parts of a statement are of the sort that belongs there, and the
declarations of a block have numbers of their own.  The names in scope are those of the blocks
around, the innermost first.
-/

namespace ProcLang

/-- The operands are expressions, and their variables are in scope. -/
def Expr.WellFormed (names : List NameScope) : Expr → Prop
  | .literal .. => True
  | .var _ name => ∃ n ∈ names, name ∈ n.vars
  | .unary _ _ e => e.WellFormed names
  | .binary _ _ l r => l.WellFormed names ∧ r.WellFormed names
  | .misplaced .. => False

namespace Stmt

/-- The names of a block behind a statement of it. -/
def declare : Stmt → NameScope → NameScope
  | .declaration _ name _ _, n => { n with vars := name :: n.vars }
  | .procedure _ signature _, n => { n with procedures := signature.name :: n.procedures }
  | _, n => n

/-- The names in scope behind a statement. -/
def declareIn (st : Stmt) : List NameScope → List NameScope
  | [] => []
  | n :: outer => st.declare n :: outer

mutual

/-- A statement of a procedure is well-formed where some names are in scope, in a loop or not. -/
def WellFormed (inLoop : Bool) (names : List NameScope) : Stmt → Prop
  | .block _ body =>
    ((declarations body).map Prod.fst).Nodup ∧ AllWellFormed inLoop ({} :: names) body
  | .procedure _ signature body => signature.external = true ∧ body = none
  | .call _ name args => (∃ n ∈ names, name ∈ n.procedures) ∧ ∀ e ∈ args, e.WellFormed names
  | .declaration _ name type init =>
    type ≠ .void ∧ name ∉ (names.headD {}).vars ∧ ∀ e ∈ init, e.WellFormed names
  | .assignment _ name value => (∃ n ∈ names, name ∈ n.vars) ∧ value.WellFormed names
  | .branch _ condition thenBranch none =>
    condition.WellFormed names ∧ thenBranch.kind = .block ∧ thenBranch.WellFormed inLoop names
  | .branch _ condition thenBranch (some elseBranch) =>
    condition.WellFormed names ∧ (thenBranch.kind = .block ∧ thenBranch.WellFormed inLoop names) ∧
      (elseBranch.kind = .block ∨ elseBranch.kind = .branch) ∧ elseBranch.WellFormed inLoop names
  | .loop _ condition body =>
    condition.WellFormed names ∧ body.kind = .block ∧ body.WellFormed true names
  | .continueLoop _ => inLoop = true
  | .breakLoop _ => inLoop = true
  | .giveBack _ value => ∀ e ∈ value, e.WellFormed names
  | .expression _ => False

/-- Statements one after another are well-formed. -/
def AllWellFormed (inLoop : Bool) (names : List NameScope) : List Stmt → Prop
  | [] => True
  | first :: rest =>
    first.WellFormed inLoop names ∧ AllWellFormed inLoop (first.declareIn names) rest

end

/-- The body of a procedure is well-formed; its parameters are declared in its own block. -/
def BodyWellFormed (outer : List NameScope) (signature : Signature) (body : List Stmt) : Prop :=
  ((declarations body).map Prod.fst).Nodup ∧
    AllWellFormed false ({ vars := signature.params.map (·.name) } :: outer) body

/-- A procedure of a program is well-formed where some procedures are declared; none of them has its
name. -/
def ProcedureWellFormed (names : List NameScope) : Stmt → Prop
  | .procedure _ signature none =>
    signature.external = true ∧ signature.name ∉ (names.headD {}).procedures
  | .procedure tag signature (some (.block _ body)) =>
    signature.external = false ∧ signature.name ∉ (names.headD {}).procedures ∧
      (∀ p ∈ signature.params, p.type ≠ .void) ∧ (signature.params.map (·.name)).Nodup ∧
      BodyWellFormed ((procedure tag signature none).declareIn names) signature body
  | _ => False

/-- Procedures one after another are well-formed. -/
def ProceduresWellFormed (names : List NameScope) : List Stmt → Prop
  | [] => True
  | first :: rest =>
    first.ProcedureWellFormed names ∧ ProceduresWellFormed (first.declareIn names) rest

end Stmt

/-- A program is a block of well-formed procedures. -/
def Ast.WellFormed (ast : Ast) : Prop :=
  ∃ tag body, ast.root = some (.block tag body) ∧ Stmt.ProceduresWellFormed [{}] body

end ProcLang

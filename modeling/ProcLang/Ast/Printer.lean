import ProcLang.Ast

/-!
The printed form of a program.  Expressions are written operator first in parentheses, on one line;
a statement takes a line, and the statements of a block are indented by two blanks.
-/

namespace ProcLang

/-- An expression on one line. -/
def Expr.render : Expr → String
  | .literal _ (.integer n) => toString n.toNat
  | .literal _ (.string raw) => "\"" ++ raw ++ "\""
  | .var _ name => name
  | .unary _ op e => "(" ++ op.sign ++ " " ++ e.render ++ ")"
  | .binary _ op l r => "(" ++ op.sign ++ " " ++ l.render ++ " " ++ r.render ++ ")"
  | .misplaced _ kind => "<" ++ kind.name ++ ">"

/-- A parameter as it is declared. -/
def Parameter.render (p : Parameter) : String := p.type.name ++ " " ++ p.name

/-- A procedure as it is declared. -/
def Signature.render (s : Signature) : String :=
  (if s.external then "extern " else "") ++ s.returns.name ++ " " ++ s.name ++ "("
    ++ ", ".intercalate (s.params.map Parameter.render) ++ ")"

/-- The blanks before a line. -/
def indentation (depth : Nat) : String := String.ofList (List.replicate (2 * depth) ' ')

/-- A line of the printed form. -/
def line (depth : Nat) (text : String) : String := indentation depth ++ text ++ "\n"

mutual

/-- The lines of a statement. -/
def Stmt.render (depth : Nat) : Stmt → String
  | .block _ body => line depth "\x7b" ++ Stmt.renderAll (depth + 1) body ++ line depth "\x7d"
  | .procedure _ signature body => line depth signature.render ++ Stmt.renderBody depth body
  | .call _ name args =>
    line depth ("(call " ++ name ++ " " ++ " ".intercalate (args.map Expr.render) ++ ")")
  | .declaration _ name type none => line depth ("(let " ++ type.name ++ " " ++ name ++ ")")
  | .declaration _ name type (some init) =>
    line depth ("(let " ++ type.name ++ " " ++ name ++ " " ++ init.render ++ ")")
  | .assignment _ name value => line depth ("(set " ++ name ++ " " ++ value.render ++ ")")
  | .branch _ c t e =>
    line depth ("(if " ++ c.render) ++ Stmt.render (depth + 1) t ++ Stmt.renderElse depth e
      ++ line depth ")"
  | .loop _ c body =>
    line depth ("(while " ++ c.render) ++ Stmt.render (depth + 1) body ++ line depth ")"
  | .continueLoop _ => line depth "(continue)"
  | .breakLoop _ => line depth "(break)"
  | .giveBack _ none => line depth "(return)"
  | .giveBack _ (some value) => line depth ("(return " ++ value.render ++ ")")
  | .expression e => line depth e.render

/-- The lines of the statements of a block. -/
def Stmt.renderAll (depth : Nat) : List Stmt → String
  | [] => ""
  | s :: rest => Stmt.render depth s ++ Stmt.renderAll depth rest

/-- The lines of a procedure's body. -/
def Stmt.renderBody (depth : Nat) : Option Stmt → String
  | none => ""
  | some body => Stmt.render depth body

/-- The lines of the other branch. -/
def Stmt.renderElse (depth : Nat) : Option Stmt → String
  | none => ""
  | some other => line depth "else" ++ Stmt.render (depth + 1) other

end

end ProcLang

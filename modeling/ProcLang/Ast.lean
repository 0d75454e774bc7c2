import ProcLang.DataType
import ProcLang.Span

/-!
Programs as trees.  Every node carries a number and the span where it starts.  An `Ast` lists the
nodes of a program in the order in which they were made, so a node's number is its place in the
list and the nodes below it have smaller numbers.

A tree may put a node where its sort does not belong: a statement in the place of an expression
(`Expr.misplaced`) or an expression in the place of a statement (`Stmt.expression`).  Such a tree
can be printed; code generation refuses it.
-/

namespace ProcLang

/-- The number of a node, its place among the nodes of its program. -/
abbrev NodeId := Nat

/-- The number of a node and where it starts. -/
structure Tag where
  id : NodeId
  span : Span
deriving DecidableEq, Inhabited

/-- What a node is. -/
inductive NodeKind where
  | block
  | procedure
  | call
  | declaration
  | assignment
  | branch
  | loop
  | continueLoop
  | breakLoop
  | giveBack
  | binary
  | unary
  | literal
  | var
deriving DecidableEq, Inhabited

/-- The word for a kind of node. -/
def NodeKind.name : NodeKind → String
  | block => "block"
  | procedure => "procedure"
  | call => "call"
  | declaration => "declaration"
  | assignment => "assignment"
  | branch => "if"
  | loop => "while"
  | continueLoop => "continue"
  | breakLoop => "break"
  | giveBack => "return"
  | binary => "binary"
  | unary => "unary"
  | literal => "literal"
  | var => "variable"

/-! ### Expressions -/

/-- An operator before its operand. -/
inductive UnaryOp where
  | plus
  | negate
  | not
deriving DecidableEq, Inhabited

/-- An operator of arithmetic. -/
inductive ArithOp where
  | add
  | sub
  | mul
  | div
deriving DecidableEq, Inhabited

/-- A comparison of two signed numbers. -/
inductive Comparison where
  | equal
  | notEqual
  | less
  | lessEqual
  | greater
  | greaterEqual
deriving DecidableEq, Inhabited

/-- A logical operator; its right operand is evaluated only if the left one leaves it open. -/
inductive LogicOp where
  | and
  | or
deriving DecidableEq, Inhabited

/-- An operator between two operands. -/
inductive BinaryOp where
  | arith (op : ArithOp)
  | compare (op : Comparison)
  | logic (op : LogicOp)
deriving DecidableEq, Inhabited

/-- The sign of an operator before its operand. -/
def UnaryOp.sign : UnaryOp → String
  | plus => "+"
  | negate => "-"
  | not => "!"

/-- The sign of an operator between two operands. -/
def BinaryOp.sign : BinaryOp → String
  | arith .add => "+"
  | arith .sub => "-"
  | arith .mul => "*"
  | arith .div => "/"
  | compare .equal => "=="
  | compare .notEqual => "!="
  | compare .less => "<"
  | compare .lessEqual => "<="
  | compare .greater => ">"
  | compare .greaterEqual => ">="
  | logic .and => "&&"
  | logic .or => "||"

/-- A literal: a number, or the raw characters between two quotes. -/
inductive Literal where
  | integer (value : UInt64)
  | string (raw : String)
deriving DecidableEq, Inhabited

/-- An expression. -/
inductive Expr where
  | literal (tag : Tag) (value : Literal)
  | var (tag : Tag) (name : String)
  | unary (tag : Tag) (op : UnaryOp) (operand : Expr)
  | binary (tag : Tag) (op : BinaryOp) (lhs rhs : Expr)
  | misplaced (tag : Tag) (kind : NodeKind)
deriving DecidableEq, Inhabited

namespace Expr

/-- The tag of an expression. -/
def tag : Expr → Tag
  | literal t _ | var t _ | unary t _ _ | binary t _ _ _ | misplaced t _ => t

/-- The kind of an expression. -/
def kind : Expr → NodeKind
  | literal .. => .literal
  | var .. => .var
  | unary .. => .unary
  | binary .. => .binary
  | misplaced _ k => k

/-- The numbers of the operands, in source order. -/
def children : Expr → List NodeId
  | unary _ _ e => [e.tag.id]
  | binary _ _ l r => [l.tag.id, r.tag.id]
  | literal .. | var .. | misplaced .. => []

end Expr

/-! ### Statements -/

/-- A parameter of a procedure. -/
structure Parameter where
  name : String
  type : DataType
  span : Span
deriving DecidableEq, Inhabited

/-- What a procedure declaration says before the body. -/
structure Signature where
  name : String
  returns : DataType
  params : List Parameter
  external : Bool
deriving DecidableEq, Inhabited

/-- A statement. -/
inductive Stmt where
  | block (tag : Tag) (body : List Stmt)
  | procedure (tag : Tag) (signature : Signature) (body : Option Stmt)
  | call (tag : Tag) (name : String) (args : List Expr)
  | declaration (tag : Tag) (name : String) (type : DataType) (init : Option Expr)
  | assignment (tag : Tag) (name : String) (value : Expr)
  | branch (tag : Tag) (condition : Expr) (thenBranch : Stmt) (elseBranch : Option Stmt)
  | loop (tag : Tag) (condition : Expr) (body : Stmt)
  | continueLoop (tag : Tag)
  | breakLoop (tag : Tag)
  | giveBack (tag : Tag) (value : Option Expr)
  | expression (value : Expr)
deriving Inhabited

namespace Stmt

/-- The tag of a statement. -/
def tag : Stmt → Tag
  | block t _ | procedure t _ _ | call t _ _ | declaration t _ _ _ | assignment t _ _
  | branch t _ _ _ | loop t _ _ | continueLoop t | breakLoop t | giveBack t _ => t
  | expression e => e.tag

/-- The kind of a statement. -/
def kind : Stmt → NodeKind
  | block .. => .block
  | procedure .. => .procedure
  | call .. => .call
  | declaration .. => .declaration
  | assignment .. => .assignment
  | branch .. => .branch
  | loop .. => .loop
  | continueLoop _ => .continueLoop
  | breakLoop _ => .breakLoop
  | giveBack .. => .giveBack
  | expression e => e.kind

/-- The numbers of the nodes directly below, in source order. -/
def children : Stmt → List NodeId
  | block _ body => body.map (·.tag.id)
  | procedure _ _ body => body.toList.map (·.tag.id)
  | call _ _ args => args.map (·.tag.id)
  | declaration _ _ _ init => init.toList.map (·.tag.id)
  | assignment _ _ value => [value.tag.id]
  | branch _ c t e => c.tag.id :: t.tag.id :: e.toList.map (·.tag.id)
  | loop _ c body => [c.tag.id, body.tag.id]
  | continueLoop _ | breakLoop _ => []
  | giveBack _ value => value.toList.map (·.tag.id)
  | expression e => e.children

end Stmt

/-! ### Programs -/

/-- A node of a program. -/
inductive Node where
  | expr (expr : Expr)
  | stmt (stmt : Stmt)
deriving Inhabited

namespace Node

/-- The tag of a node. -/
def tag : Node → Tag
  | expr e => e.tag
  | stmt s => s.tag

/-- The kind of a node. -/
def kind : Node → NodeKind
  | expr e => e.kind
  | stmt s => s.kind

/-- The numbers of the nodes directly below, in source order. -/
def children : Node → List NodeId
  | expr e => e.children
  | stmt s => s.children

/-- The node read as an expression. -/
def toExpr : Node → Expr
  | expr e => e
  | stmt s => .misplaced s.tag s.kind

/-- The node read as a statement. -/
def toStmt : Node → Stmt
  | expr e => .expression e
  | stmt s => s

end Node

/-- The nodes of a program in the order in which they were made, and the program itself. -/
structure Ast where
  nodes : Array Node := #[]
  root : Option Stmt := none
deriving Inhabited

namespace Ast

/-- The number of the next node. -/
def size (ast : Ast) : NodeId := ast.nodes.size

/-- The program with one more node. -/
def push (ast : Ast) (node : Node) : Ast := { ast with nodes := ast.nodes.push node }

/-- The parent of a node: the last made of the nodes that it is directly below. -/
def parent? (ast : Ast) (id : NodeId) : Option NodeId :=
  (ast.nodes.toList.reverse.find? (·.children.contains id)).map (·.tag.id)

end Ast

end ProcLang

import ProcLang.Parsing.State
import ProcLang.Proofs.Ast.WellFormed

/-!
The language.  A program is a sequence of tokens that derives from a context-free grammar, such that
the tree of the derivation keeps some rules.  The grammar gives the trees with any tags, since the
number of a node and its place say nothing about the tokens; the rules are those on names, on void
and on jumps.
-/

namespace ProcLang

/-! ### Operators -/

/-- How tightly an operator between two operands binds; 0 is the loosest. -/
def BinaryOp.level : BinaryOp → Nat
  | .logic .or => 0
  | .logic .and => 1
  | .compare .equal | .compare .notEqual => 2
  | .compare .less | .compare .lessEqual | .compare .greater | .compare .greaterEqual => 3
  | .arith .add | .arith .sub => 4
  | .arith .mul | .arith .div => 5

/-- The token of an operator between two operands. -/
def BinaryOp.token : BinaryOp → TokenKind
  | .logic .or => .doublePipe
  | .logic .and => .doubleAmpersand
  | .compare .equal => .doubleEqual
  | .compare .notEqual => .bangEqual
  | .compare .less => .less
  | .compare .lessEqual => .lessEqual
  | .compare .greater => .greater
  | .compare .greaterEqual => .greaterEqual
  | .arith .add => .plus
  | .arith .sub => .hyphen
  | .arith .mul => .star
  | .arith .div => .slash

/-- The token of an operator before its operand. -/
def UnaryOp.token : UnaryOp → TokenKind
  | .plus => .plus
  | .negate => .hyphen
  | .not => .bang

/-- The level of the operators before an operand, behind all levels of those between two. -/
abbrev unaryLevel : Nat := 6

/-- An expression without what its tags say. -/
def Expr.bare : Expr → Expr
  | .literal _ value => .literal default value
  | .var _ name => .var default name
  | .unary _ op e => .unary default op e.bare
  | .binary _ op l r => .binary default op l.bare r.bare
  | .misplaced _ kind => .misplaced default kind

namespace Grammar

/-! ### The grammar -/

/-- Expressions of a level.  Operators between two operands group to the left. -/
inductive Expression : Nat → List Token → Expr → Prop
  | binary {k : Nat} {ts us : List Token} {t : Token} {op : BinaryOp} {l r : Expr} {tag : Tag} :
    op.level = k → t.kind = op.token → Expression k ts l → Expression (k + 1) us r →
    Expression k (ts ++ t :: us) (.binary tag op l r)
  | tighter {k : Nat} {ts : List Token} {e : Expr} : k < unaryLevel → Expression (k + 1) ts e →
    Expression k ts e
  | unary {ts : List Token} {t : Token} {op : UnaryOp} {e : Expr} {tag : Tag} :
    t.kind = op.token → Expression unaryLevel ts e →
    Expression unaryLevel (t :: ts) (.unary tag op e)
  | number {t : Token} {tag : Tag} : t.kind = .number →
    Expression unaryLevel [t] (.literal tag (.integer t.integer))
  | string {t : Token} {tag : Tag} : t.kind = .stringLiteral →
    Expression unaryLevel [t] (.literal tag (.string t.string))
  | name {t : Token} {tag : Tag} : t.kind = .identifier →
    Expression unaryLevel [t] (.var tag t.string)
  | parentheses {l r : Token} {ts : List Token} {e : Expr} : l.kind = .lparen → Expression 0 ts e →
    r.kind = .rparen → Expression unaryLevel (l :: ts ++ [r]) e

section Lists

variable {α : Type} (Item : List Token → α → Prop)

/-- Items one behind the other. -/
inductive Sequence : List Token → List α → Prop
  | nil : Sequence [] []
  | cons {ts us : List Token} {a : α} {as : List α} : Item ts a → Sequence us as →
    Sequence (ts ++ us) (a :: as)

/-- Items with a comma between any two of them; there is at least one. -/
inductive Separated : List Token → List α → Prop
  | last {ts : List Token} {a : α} : Item ts a → Separated ts [a]
  | more {ts us : List Token} {c : Token} {a : α} {as : List α} : Item ts a → c.kind = .comma →
    Separated us as → Separated (ts ++ c :: us) (a :: as)

/-- Items with commas, or none, in parentheses. -/
inductive Listed : List Token → List α → Prop
  | none {l r : Token} : l.kind = .lparen → r.kind = .rparen → Listed [l, r] []
  | some {l r : Token} {ts : List Token} {as : List α} : l.kind = .lparen → Separated Item ts as →
    r.kind = .rparen → Listed (l :: ts ++ [r]) as

end Lists

/-- A type and a name. -/
inductive ParameterOf : List Token → Parameter → Prop
  | mk {t n : Token} {type : DataType} : t.kind = .type type → n.kind = .identifier →
    ParameterOf [t, n] ⟨n.string, type, n.span⟩

/-- What a procedure declaration says before the body. -/
inductive SignatureOf (external : Bool) : List Token → Signature → Prop
  | mk {t n : Token} {type : DataType} {ts : List Token} {params : List Parameter} :
    t.kind = .type type → n.kind = .identifier → Listed ParameterOf ts params →
    SignatureOf external (t :: n :: ts) ⟨n.string, type, params, external⟩

/-- An expression in parentheses, behind `if` or `while`. -/
inductive Test : List Token → Expr → Prop
  | mk {l r : Token} {ts : List Token} {e : Expr} : l.kind = .lparen → Expression 0 ts e →
    r.kind = .rparen → Test (l :: ts ++ [r]) e

section Blocks

variable (Item : List Token → Stmt → Prop)

/-- Statements in braces. -/
inductive Block : List Token → Stmt → Prop
  | mk {l r : Token} {ts : List Token} {body : List Stmt} {tag : Tag} : l.kind = .lbrace →
    Sequence Item ts body → r.kind = .rbrace → Block (l :: ts ++ [r]) (.block tag body)

/-- A branch without `else`, with a block behind it, or with a further branch behind it. -/
inductive Branch : List Token → Stmt → Prop
  | alone {i : Token} {ts us : List Token} {c : Expr} {st : Stmt} {tag : Tag} : i.kind = .ifKey →
    Test ts c → Block Item us st → Branch (i :: ts ++ us) (.branch tag c st none)
  | otherwise {i o : Token} {ts us vs : List Token} {c : Expr} {st other : Stmt} {tag : Tag} :
    i.kind = .ifKey → Test ts c → Block Item us st → o.kind = .elseKey → Block Item vs other →
    Branch (i :: ts ++ us ++ o :: vs) (.branch tag c st (some other))
  | chained {i o : Token} {ts us vs : List Token} {c : Expr} {st other : Stmt} {tag : Tag} :
    i.kind = .ifKey → Test ts c → Block Item us st → o.kind = .elseKey → Branch vs other →
    Branch (i :: ts ++ us ++ o :: vs) (.branch tag c st (some other))

end Blocks

/-- A procedure without a body. -/
inductive External : List Token → Stmt → Prop
  | mk {k s : Token} {ts : List Token} {signature : Signature} {tag : Tag} : k.kind = .externKey →
    SignatureOf true ts signature → s.kind = .semicolon →
    External (k :: ts ++ [s]) (.procedure tag signature none)

/-- Statements. -/
inductive Statement : List Token → Stmt → Prop
  | block {ts : List Token} {st : Stmt} : Block Statement ts st → Statement ts st
  | branch {ts : List Token} {st : Stmt} : Branch Statement ts st → Statement ts st
  | loop {w : Token} {ts us : List Token} {c : Expr} {body : Stmt} {tag : Tag} :
    w.kind = .whileKey → Test ts c → Block Statement us body →
    Statement (w :: ts ++ us) (.loop tag c body)
  | continueLoop {k s : Token} {tag : Tag} : k.kind = .continueKey → s.kind = .semicolon →
    Statement [k, s] (.continueLoop tag)
  | breakLoop {k s : Token} {tag : Tag} : k.kind = .breakKey → s.kind = .semicolon →
    Statement [k, s] (.breakLoop tag)
  | leave {k s : Token} {tag : Tag} : k.kind = .returnKey → s.kind = .semicolon →
    Statement [k, s] (.giveBack tag none)
  | giveBack {k s : Token} {ts : List Token} {e : Expr} {tag : Tag} : k.kind = .returnKey →
    Expression 0 ts e → s.kind = .semicolon → Statement (k :: ts ++ [s]) (.giveBack tag (some e))
  | external {ts : List Token} {st : Stmt} : External ts st → Statement ts st
  | declaration {t n s : Token} {type : DataType} {tag : Tag} : t.kind = .type type →
    n.kind = .identifier → s.kind = .semicolon →
    Statement [t, n, s] (.declaration tag n.string type none)
  | initialised {t n q s : Token} {type : DataType} {ts : List Token} {e : Expr} {tag : Tag} :
    t.kind = .type type → n.kind = .identifier → q.kind = .equal → Expression 0 ts e →
    s.kind = .semicolon →
    Statement (t :: n :: q :: ts ++ [s]) (.declaration tag n.string type (some e))
  | call {n s : Token} {ts : List Token} {args : List Expr} {tag : Tag} : n.kind = .identifier →
    Listed (Expression 0) ts args → s.kind = .semicolon →
    Statement (n :: ts ++ [s]) (.call tag n.string args)
  | assignment {n q s : Token} {ts : List Token} {e : Expr} {tag : Tag} : n.kind = .identifier →
    q.kind = .equal → Expression 0 ts e → s.kind = .semicolon →
    Statement (n :: q :: ts ++ [s]) (.assignment tag n.string e)

/-- Procedures: without a body, or with a block for it. -/
inductive Procedure : List Token → Stmt → Prop
  | external {ts : List Token} {st : Stmt} : External ts st → Procedure ts st
  | defined {ts us : List Token} {signature : Signature} {body : Stmt} {tag : Tag} :
    SignatureOf false ts signature → Block Statement us body →
    Procedure (ts ++ us) (.procedure tag signature (some body))

end Grammar

/-! ### The rules -/

/-- No parameter is void, and no two have one name. -/
def Signature.Lawful (s : Signature) : Prop :=
  (∀ p ∈ s.params, p.type ≠ .void) ∧ (s.params.map (·.name)).Nodup

namespace Stmt

/-- The name of a procedure is new in its block, and its parameters keep the rules. -/
def Introduces (names : List NameScope) (signature : Signature) : Prop :=
  signature.Lawful ∧ signature.name ∉ (names.headD {}).procedures

mutual

/-- A statement keeps the rules where some names are declared, in a loop or not. -/
def Lawful (inLoop : Bool) (names : List NameScope) : Stmt → Prop
  | .block _ body => AllLawful inLoop ({} :: names) body
  | .procedure _ signature _ => Introduces names signature
  | .call _ name args => (∃ n ∈ names, name ∈ n.procedures) ∧ ∀ e ∈ args, e.WellFormed names
  | .declaration _ name type init =>
    type ≠ .void ∧ name ∉ (names.headD {}).vars ∧ ∀ e ∈ init, e.WellFormed names
  | .assignment _ name value => (∃ n ∈ names, name ∈ n.vars) ∧ value.WellFormed names
  | .branch _ condition thenBranch none =>
    condition.WellFormed names ∧ thenBranch.Lawful inLoop names
  | .branch _ condition thenBranch (some elseBranch) =>
    condition.WellFormed names ∧ thenBranch.Lawful inLoop names ∧ elseBranch.Lawful inLoop names
  | .loop _ condition body => condition.WellFormed names ∧ body.Lawful true names
  | .continueLoop _ => inLoop = true
  | .breakLoop _ => inLoop = true
  | .giveBack _ value => ∀ e ∈ value, e.WellFormed names
  | .expression _ => False

/-- Statements one behind the other keep the rules; each sees the names that those before it
declare. -/
def AllLawful (inLoop : Bool) (names : List NameScope) : List Stmt → Prop
  | [] => True
  | first :: rest => first.Lawful inLoop names ∧ AllLawful inLoop (first.declareIn names) rest

end

/-- A procedure of a program keeps the rules.  Its body sees its own name, and its parameters are
declared in the block of the body. -/
def ProcedureLawful (names : List NameScope) : Stmt → Prop
  | .procedure _ signature none => Introduces names signature
  | .procedure tag signature (some (.block _ body)) =>
    Introduces names signature ∧
      AllLawful false ({ vars := signature.params.map (·.name) } ::
        (procedure tag signature none).declareIn names) body
  | _ => False

/-- Procedures one behind the other keep the rules. -/
def ProceduresLawful (names : List NameScope) : List Stmt → Prop
  | [] => True
  | first :: rest => first.ProcedureLawful names ∧ ProceduresLawful (first.declareIn names) rest

end Stmt

/-- Tokens are a program of the language. -/
def IsProgram (tokens : List Token) : Prop :=
  ∃ body, Grammar.Sequence Grammar.Procedure tokens body ∧ Stmt.ProceduresLawful [{}] body

end ProcLang

import ProcLang.Proofs.Ast.PostOrder
import ProcLang.Proofs.Bytes.Statement

/-!
The types of the expressions of a program, as they are read off the program.

Every expression is meant for a type: that of the variable it is stored in, of the parameter it is an
argument for or of the procedure it is the value of; a condition is meant for an integer.  Only unary
plus hands this on to its operand.  An `Occurrence` is an expression with the types of the variables at
its place and the type it is meant for, and `HasType` tells its type.  The occurrences of a program are
its expression nodes, each once and in their order.
-/

namespace ProcLang

/-! ### Types -/

/-- An expression at its place in a program: the types of the variables there, and the type that the
value is meant for. -/
structure Occurrence where
  vars : String → DataType
  context : DataType
  expr : Expr

/-- An expression that is meant for a type has a type, where the variables have types. -/
inductive HasType (vars : String → DataType) : DataType → Expr → DataType → Prop
  | byteLiteral {context : DataType} {tag : Tag} {value : UInt64} : context = .u8 ∨ context = .s8 →
    HasType vars context (.literal tag (.integer value)) context
  | wordLiteral {context : DataType} {tag : Tag} {value : UInt64} : ¬ (context = .u8 ∨ context = .s8) →
    HasType vars context (.literal tag (.integer value)) .int
  | string {context : DataType} {tag : Tag} {raw : String} :
    HasType vars context (.literal tag (.string raw)) .int
  | var {context : DataType} {tag : Tag} {name : String} :
    HasType vars context (.var tag name) (vars name)
  | plus {context type : DataType} {tag : Tag} {e : Expr} : HasType vars context e type →
    HasType vars context (.unary tag .plus e) type
  | negate {context : DataType} {tag : Tag} {e : Expr} : HasType vars context (.unary tag .negate e) .int
  | not {context : DataType} {tag : Tag} {e : Expr} : HasType vars context (.unary tag .not e) .int
  | byteArith {context type : DataType} {tag : Tag} {op : ArithOp} {l r : Expr} :
    HasType vars .int l type → HasType vars .int r type → type = .u8 ∨ type = .s8 →
    HasType vars context (.binary tag (.arith op) l r) type
  | wordArith {context t₁ t₂ : DataType} {tag : Tag} {op : ArithOp} {l r : Expr} :
    HasType vars .int l t₁ → HasType vars .int r t₂ → ¬ (t₁ = t₂ ∧ (t₁ = .u8 ∨ t₁ = .s8)) →
    HasType vars context (.binary tag (.arith op) l r) .int
  | compare {context : DataType} {tag : Tag} {op : Comparison} {l r : Expr} :
    HasType vars context (.binary tag (.compare op) l r) .int
  | logic {context : DataType} {tag : Tag} {op : LogicOp} {l r : Expr} :
    HasType vars context (.binary tag (.logic op) l r) .int

/-- An expression has at most one type. -/
theorem HasType.unique {vars : String → DataType} {context t t' : DataType} {e : Expr}
    (h : HasType vars context e t) (h' : HasType vars context e t') : t = t' := by
  induction h generalizing t' with
  | byteLiteral hbyte =>
    cases h' with
    | byteLiteral => rfl
    | wordLiteral hword => exact absurd hbyte hword
  | wordLiteral hword =>
    cases h' with
    | byteLiteral hbyte => exact absurd hbyte hword
    | wordLiteral => rfl
  | plus _ ih =>
    cases h' with
    | plus h' => exact ih h'
  | byteArith _ _ hbyte ihl ihr =>
    cases h' with
    | byteArith hl => exact ihl hl
    | wordArith hl hr hword =>
      obtain rfl := ihl hl
      obtain rfl := ihr hr
      exact absurd ⟨rfl, hbyte⟩ hword
  | wordArith _ _ hword ihl ihr =>
    cases h' with
    | byteArith hl hr hbyte =>
      obtain rfl := ihl hl
      obtain rfl := ihr hr
      exact absurd ⟨rfl, hbyte⟩ hword
    | wordArith => rfl
  | string | var | negate | not | compare | logic => cases h'; rfl

section Rules

variable {vars : String → DataType} {context t₁ t₂ type : DataType} {tag : Tag} {l r e : Expr}

theorem DataType.isByte_iff : type.isByte = true ↔ type = .u8 ∨ type = .s8 := by
  cases type <;> simp [DataType.isByte]

theorem hasType_integer {value : UInt64} : HasType vars context (.literal tag (.integer value))
    (if context.isByte then context else .int) := by
  split_ifs with h
  · exact .byteLiteral (DataType.isByte_iff.mp h)
  · exact .wordLiteral fun hbyte => h (DataType.isByte_iff.mpr hbyte)

theorem hasType_unary {op : UnaryOp} (h : HasType vars (op.operandContext context) e type) :
    HasType vars context (.unary tag op e) (if op = .plus then type else .int) := by
  cases op with
  | plus => exact .plus h
  | negate => exact .negate
  | not => exact .not

theorem hasType_arith {op : ArithOp} (hl : HasType vars .int l t₁) (hr : HasType vars .int r t₂) :
    HasType vars context (.binary tag (.arith op) l r) (t₁.arith t₂) := by
  unfold DataType.arith
  split_ifs with h
  · obtain ⟨rfl, hbyte⟩ := h
    exact .byteArith hl hr (DataType.isByte_iff.mp hbyte)
  · exact .wordArith hl hr fun hbyte => h ⟨hbyte.1, DataType.isByte_iff.mpr hbyte.2⟩

end Rules

/-! ### Occurrences -/

namespace Expr

/-- The expressions below an expression that is meant for a type, in post-order. -/
def inside (vars : String → DataType) : DataType → Expr → List Occurrence
  | context, .unary _ op e =>
    let inner := if op = .plus then context else .int
    e.inside vars inner ++ [⟨vars, inner, e⟩]
  | _, .binary _ _ l r =>
    l.inside vars .int ++ ⟨vars, .int, l⟩ :: (r.inside vars .int ++ [⟨vars, .int, r⟩])
  | _, .literal .. | _, .var .. | _, .misplaced .. => []

/-- An expression that is meant for a type and those below it, in post-order. -/
def occurrences (vars : String → DataType) (context : DataType) (e : Expr) : List Occurrence :=
  e.inside vars context ++ [⟨vars, context, e⟩]

/-- Arguments for parameters of some types, with the expressions below them. -/
def arguments (vars : String → DataType) : List Expr → List DataType → List Occurrence
  | [], _ => []
  | e :: rest, types => e.occurrences vars (types.headD .int) ++ arguments vars rest types.tail

end Expr

namespace Stmt

mutual

/-- The expressions in a statement of a procedure whose value has a type, in post-order. -/
def occurrences (T : Typing) (returns : DataType) : Stmt → List Occurrence
  | .block _ body => occurrencesOf T returns body
  | .procedure _ _ none => []
  | .procedure tag signature (some body) =>
    body.occurrences ((T.after (.procedure tag signature none)).enter signature) signature.returns
  | .call _ name args => Expr.arguments T.vars args (T.params name)
  | .declaration _ _ _ none => []
  | .declaration _ _ type (some init) => init.occurrences T.vars type
  | .assignment _ name value => value.occurrences T.vars (T.vars name)
  | .branch _ condition thenBranch none =>
    condition.occurrences T.vars .int ++ thenBranch.occurrences T returns
  | .branch _ condition thenBranch (some elseBranch) =>
    condition.occurrences T.vars .int ++ (thenBranch.occurrences T returns ++
      elseBranch.occurrences T returns)
  | .loop _ condition body => condition.occurrences T.vars .int ++ body.occurrences T returns
  | .continueLoop _ | .breakLoop _ => []
  | .giveBack _ none => []
  | .giveBack _ (some value) => value.occurrences T.vars returns
  | .expression e => e.inside T.vars .int

/-- The expressions in statements, in post-order; a declaration counts from behind it to the end of its
block. -/
def occurrencesOf (T : Typing) (returns : DataType) : List Stmt → List Occurrence
  | [] => []
  | first :: rest => first.occurrences T returns ++ occurrencesOf (T.after first) returns rest

end

end Stmt

/-- The names before a program. -/
def Typing.none : Typing := ⟨fun _ => .int, fun _ => []⟩

/-- The expressions of a program, in post-order. -/
def Ast.occurrences (ast : Ast) : List Occurrence :=
  (ast.root.map (·.occurrences .none .int)).getD []

/-! ### The expression nodes of a program -/

/-- The expression of a node. -/
def Node.expr? : Node → Option Expr
  | expr e => some e
  | stmt _ => none

namespace Node.PostOrder

variable {vars : String → DataType} {T : Typing} {returns : DataType} {l : List Node}

theorem filterMap_cons_expr {e : Expr} {xs : List Node} (h : PostOrder (.expr e :: xs) l) :
    ∃ below later, PostOrder e.subnodes below ∧ PostOrder xs later ∧
      l.filterMap expr? = below.filterMap expr? ++ e :: later.filterMap expr? := by
  cases h with
  | @cons _ _ below later hbelow hlater =>
    exact ⟨below, later, hbelow, hlater, by simp [expr?]⟩

theorem filterMap_cons_stmt {st : Stmt} {xs : List Node} (h : PostOrder (.stmt st :: xs) l) :
    ∃ below later, PostOrder st.subnodes below ∧ PostOrder xs later ∧
      l.filterMap expr? = below.filterMap expr? ++ later.filterMap expr? := by
  cases h with
  | @cons _ _ below later hbelow hlater =>
    refine ⟨below, later, hbelow, hlater, ?_⟩
    rw [List.filterMap_append, List.filterMap_cons_none rfl]

theorem filterMap_nil (h : PostOrder [] l) : l.filterMap expr? = [] := by
  cases h
  rfl

theorem exprs_inside (e : Expr) : ∀ (context : DataType) {l : List Node}, PostOrder e.subnodes l →
    l.filterMap expr? = (e.inside vars context).map (·.expr) := by
  induction e with
  | literal | var | misplaced => exact fun _ _ h => filterMap_nil h
  | unary tag op e ih =>
    intro context l h
    obtain ⟨below, later, hbelow, hlater, hl⟩ := filterMap_cons_expr h
    rw [hl, ih _ hbelow, filterMap_nil hlater, Expr.inside, List.map_append]
    rfl
  | binary tag op lhs rhs ihl ihr =>
    intro context l h
    obtain ⟨below, later, hbelow, hlater, hl⟩ := filterMap_cons_expr h
    obtain ⟨below', later', hbelow', hlater', hl'⟩ := filterMap_cons_expr hlater
    rw [hl, hl', ihl .int hbelow, ihr .int hbelow', filterMap_nil hlater', Expr.inside]
    simp only [List.map_append, List.map_cons, List.map_nil]

/-- An expression, and what comes behind it. -/
theorem exprs_cons {e : Expr} {xs : List Node} (context : DataType)
    (h : PostOrder (.expr e :: xs) l) : ∃ later, PostOrder xs later ∧
      l.filterMap expr? = (e.occurrences vars context).map (·.expr) ++ later.filterMap expr? := by
  obtain ⟨below, later, hbelow, hlater, hl⟩ := filterMap_cons_expr h
  refine ⟨later, hlater, ?_⟩
  rw [hl, exprs_inside e context hbelow, Expr.occurrences, List.map_append, List.append_assoc]
  rfl

theorem exprs_arguments : ∀ (args : List Expr) (types : List DataType) {l : List Node},
    PostOrder (args.map .expr) l → l.filterMap expr? = (Expr.arguments vars args types).map (·.expr)
  | [], _, _, h => filterMap_nil h
  | e :: rest, types, _, h => by
    obtain ⟨later, hlater, hl⟩ := exprs_cons (types.headD .int) h
    rw [hl, exprs_arguments rest types.tail hlater, Expr.arguments, List.map_append]

mutual

theorem exprs_stmt : ∀ (st : Stmt) (T : Typing) (returns : DataType) {l : List Node},
    PostOrder st.subnodes l → l.filterMap expr? = (st.occurrences T returns).map (·.expr)
  | .block _ body, T, returns, _, h => exprs_stmts body T returns h
  | .procedure _ _ none, _, _, _, h => filterMap_nil h
  | .procedure _ _ (some body), T, returns, _, h => by
    obtain ⟨below, later, hbelow, hlater, hl⟩ := filterMap_cons_stmt h
    rw [hl, exprs_stmt body _ _ hbelow, filterMap_nil hlater, List.append_nil, Stmt.occurrences]
  | .call _ name args, T, returns, _, h => exprs_arguments args (T.params name) h
  | .declaration _ _ _ none, _, _, _, h => filterMap_nil h
  | .declaration _ _ type (some init), T, returns, _, h => by
    obtain ⟨later, hlater, hl⟩ := exprs_cons type h
    rw [hl, filterMap_nil hlater, List.append_nil, Stmt.occurrences]
  | .assignment _ name value, T, returns, _, h => by
    obtain ⟨later, hlater, hl⟩ := exprs_cons (T.vars name) h
    rw [hl, filterMap_nil hlater, List.append_nil, Stmt.occurrences]
  | .branch _ condition thenBranch none, T, returns, _, h => by
    obtain ⟨later, hlater, hl⟩ := exprs_cons .int h
    obtain ⟨below, later', hbelow, hlater', hl'⟩ := filterMap_cons_stmt hlater
    rw [hl, hl', exprs_stmt thenBranch T returns hbelow, filterMap_nil hlater', List.append_nil,
      Stmt.occurrences, List.map_append]
  | .branch _ condition thenBranch (some elseBranch), T, returns, _, h => by
    obtain ⟨later, hlater, hl⟩ := exprs_cons .int h
    obtain ⟨below, later', hbelow, hlater', hl'⟩ := filterMap_cons_stmt hlater
    obtain ⟨below₂, later₂, hbelow₂, hlater₂, hl₂⟩ := filterMap_cons_stmt hlater'
    rw [hl, hl', hl₂, exprs_stmt thenBranch T returns hbelow, exprs_stmt elseBranch T returns hbelow₂,
      filterMap_nil hlater₂, List.append_nil, Stmt.occurrences, List.map_append, List.map_append]
  | .loop _ condition body, T, returns, _, h => by
    obtain ⟨later, hlater, hl⟩ := exprs_cons .int h
    obtain ⟨below, later', hbelow, hlater', hl'⟩ := filterMap_cons_stmt hlater
    rw [hl, hl', exprs_stmt body T returns hbelow, filterMap_nil hlater', List.append_nil,
      Stmt.occurrences, List.map_append]
  | .continueLoop _, _, _, _, h => filterMap_nil h
  | .breakLoop _, _, _, _, h => filterMap_nil h
  | .giveBack _ none, _, _, _, h => filterMap_nil h
  | .giveBack _ (some value), T, returns, _, h => by
    obtain ⟨later, hlater, hl⟩ := exprs_cons returns h
    rw [hl, filterMap_nil hlater, List.append_nil, Stmt.occurrences]
  | .expression e, _, _, _, h => exprs_inside e .int h

theorem exprs_stmts : ∀ (body : List Stmt) (T : Typing) (returns : DataType) {l : List Node},
    PostOrder (body.map .stmt) l →
      l.filterMap expr? = (Stmt.occurrencesOf T returns body).map (·.expr)
  | [], _, _, _, h => filterMap_nil h
  | first :: rest, T, returns, _, h => by
    obtain ⟨below, later, hbelow, hlater, hl⟩ := filterMap_cons_stmt h
    rw [hl, exprs_stmt first T returns hbelow, exprs_stmts rest (T.after first) returns hlater,
      Stmt.occurrencesOf, List.map_append]

end

end Node.PostOrder

/-- The occurrences of a program are its expression nodes, in their order. -/
theorem Ast.Postordered.exprs_eq {ast : Ast} {root : Stmt} (h : ast.Postordered root) :
    ast.occurrences.map (·.expr) = ast.nodes.toList.filterMap Node.expr? := by
  obtain ⟨below, later, hbelow, hlater, hl⟩ := h.order.filterMap_cons_stmt
  rw [hl, Node.PostOrder.exprs_stmt root .none .int hbelow, hlater.filterMap_nil, List.append_nil,
    Ast.occurrences, h.root_eq]
  rfl

theorem Ast.Postordered.mem_occurrences_iff {ast : Ast} {root : Stmt} (h : ast.Postordered root)
    {id : NodeId} : id ∈ ast.occurrences.map (·.expr.tag.id) ↔ ∃ e, ast.nodes[id]? = some (.expr e) := by
  have hmem : ∀ e, e ∈ ast.occurrences.map (·.expr) ↔ .expr e ∈ ast.nodes := by
    intro e
    rw [h.exprs_eq, List.mem_filterMap, ← Array.mem_toList_iff]
    constructor
    · rintro ⟨node, hnode, he⟩
      cases node with
      | expr e' => exact Option.some.inj he ▸ hnode
      | stmt => cases he
    · exact fun he => ⟨_, he, rfl⟩
  constructor
  · intro hid
    obtain ⟨o, ho, rfl⟩ := List.mem_map.mp hid
    exact ⟨o.expr, h.getElem?_eq_some_iff.mpr ⟨(hmem _).mp (List.mem_map_of_mem ho), rfl⟩⟩
  · rintro ⟨e, he⟩
    obtain ⟨hnode, rfl⟩ := h.getElem?_eq_some_iff.mp he
    obtain ⟨o, ho, rfl⟩ := List.mem_map.mp ((hmem e).mpr hnode)
    exact List.mem_map.mpr ⟨o, ho, rfl⟩

/-- The expressions of a program have different numbers. -/
theorem Ast.Postordered.nodup_occurrences {ast : Ast} {root : Stmt} (h : ast.Postordered root) :
    (ast.occurrences.map (·.expr.tag.id)).Nodup := by
  have hsublist : ∀ nodes : List Node,
      ((nodes.filterMap Node.expr?).map (·.tag.id)).Sublist (nodes.map (·.tag.id)) := by
    intro nodes
    induction nodes with
    | nil => exact .slnil
    | cons node nodes ih =>
      cases node with
      | expr e => exact ih.cons_cons _
      | stmt st => exact ih.cons _
  have hids : ast.occurrences.map (·.expr.tag.id) =
      (ast.nodes.toList.filterMap Node.expr?).map (·.tag.id) := by
    rw [← h.exprs_eq, List.map_map]
    rfl
  rw [hids]
  refine (hsublist ast.nodes.toList).nodup ?_
  rw [h.ids]
  exact List.nodup_range

end ProcLang

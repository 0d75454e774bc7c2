import ProcLang.Proofs.Ast.PostOrder
import ProcLang.Proofs.Parsing.Steps

/-!
The nodes of a program that was read are in post-order.  At every point of a reading the nodes made so
far are the post-order of some finished trees, which stand on a stack with the last finished on top.
The making of a node takes its parts from the stack and puts the node in their place; a reading of a
part leaves what is on the stack and puts its tree on top.  In the end the program stands there alone.
-/

namespace ProcLang

namespace Parsing

/-- The nodes made so far are the post-order of some trees, the last finished first, and are numbered by
their places. -/
structure Holds (s : State) (trees : List Node) : Prop where
  order : Node.PostOrder trees.reverse s.ast.nodes.toList
  ids : s.ast.nodes.toList.map (·.tag.id) = List.range s.ast.size

/-- The reading leads from some finished trees to others. -/
def Builds {α : Type} (trees : List Node) (x : Parser α) (trees' : α → List Node) : Prop :=
  ∀ s, Holds s trees → Gives x s fun a s' => Holds s' (trees' a)

namespace Builds

variable {α β : Type} {trees : List Node} {trees' : α → List Node} {trees'' : β → List Node}
  {x y : Parser α} {f : α → Parser β}

theorem pure {a : α} (h : trees = trees' a) : Builds trees (Pure.pure a : Parser α) trees' := by
  intro s hs
  rw [h] at hs
  exact Stage.ensures_return.mpr hs

theorem fail {e : CompileError} : Builds trees (Stage.fail e : Parser α) trees' :=
  fun _ _ => Stage.ensures_fail.mpr trivial

theorem get : Builds trees (Stage.get : Parser State) fun _ => trees :=
  fun _ hs => Stage.ensures_get.mpr hs

/-- A change that makes no node. -/
theorem modify {g : State → State} (h : ∀ s, (g s).ast = s.ast) :
    Builds trees (Stage.modify g : Parser Unit) fun _ => trees := by
  intro s hs
  refine Stage.ensures_modify.mpr ⟨?_, ?_⟩
  · rw [h]
    exact hs.order
  · rw [h]
    exact hs.ids

theorem bind (hx : Builds trees x trees') (hf : ∀ a, Builds (trees' a) (f a) trees'') :
    Builds trees (x >>= f) trees'' :=
  fun s hs => Stage.ensures_bind.mpr ((hx s hs).mono hf)

/-- The finished trees are known where the rest of a reading starts. -/
theorem gives {Q : β → State → Prop} {s : State} (hx : Builds trees x trees') (hs : Holds s trees)
    (hf : ∀ a s', Holds s' (trees' a) → Gives (f a) s' Q) : Gives (x >>= f) s Q :=
  Stage.ensures_bind.mpr ((hx s hs).mono hf)

theorem map {g : α → β} (hx : Builds trees x fun a => trees'' (g a)) :
    Builds trees (g <$> x) trees'' :=
  fun s hs => Stage.ensures_map.mpr (hx s hs)

theorem ite {c : Prop} [Decidable c] (hx : Builds trees x trees') (hy : Builds trees y trees') :
    Builds trees (if c then x else y) trees' := by
  split
  · exact hx
  · exact hy

/-- Two ways to a value, and one way on from it. -/
theorem ite_bind {c : Prop} [Decidable c] (hx : Builds trees x trees') (hy : Builds trees y trees')
    (hf : ∀ a, Builds (trees' a) (f a) trees'') :
    Builds trees (if c then x >>= f else y >>= f) trees'' :=
  ite (bind hx hf) (bind hy hf)

end Builds

/-! ### Steps of a reading -/

section Steps

variable {α : Type} {trees : List Node} {span : Span}

theorem builds_current : Builds trees current fun _ => trees := .bind .get fun _ => .pure rfl

theorem builds_remaining : Builds trees remaining fun _ => trees := .bind .get fun _ => .pure rfl

theorem builds_advance : Builds trees advance fun _ => trees :=
  .bind builds_current fun _ => .bind (.modify fun _ => rfl) fun _ => .pure rfl

theorem builds_unexpected {wanted : Wanted} {trees' : α → List Node} :
    Builds trees (unexpected wanted : Parser α) trees' :=
  .bind builds_current fun _ => .fail

theorem builds_accept {kind : TokenKind} : Builds trees (accept kind) fun _ => trees :=
  .bind builds_current fun _ => .ite (.bind builds_advance fun _ => .pure rfl) (.pure rfl)

theorem builds_expect {kind : TokenKind} : Builds trees (expect kind) fun _ => trees :=
  .bind builds_current fun _ => .ite builds_advance builds_unexpected

theorem builds_begin : Builds trees (begin span) fun _ => trees :=
  fun _ hs => gives_begin.mpr hs

/-- A new node with the next number takes the place of its parts. -/
theorem Holds.push {s : State} (node : Node) (h : Holds s (node.subnodes.reverse ++ trees))
    (hid : node.tag.id = s.ast.size) : Holds { s with ast := s.ast.push node } (node :: trees) where
  order := by
    have horder := h.order
    rw [List.reverse_append, List.reverse_reverse] at horder
    simpa [Ast.push] using horder.close
  ids := by
    simp [Ast.push, Ast.size, List.range_succ, hid, h.ids]

theorem builds_finishExpr {stack : List Node} {build : Tag → Expr}
    (h : ∀ tag, (build tag).tag = tag ∧ stack = (build tag).subnodes.reverse ++ trees) :
    Builds stack (finishExpr span build) fun e => .expr e :: trees := by
  intro s hs
  obtain ⟨htag, hstack⟩ := h ⟨s.ast.size, span⟩
  rw [hstack] at hs
  have hpush := Holds.push (.expr (build ⟨s.ast.size, span⟩)) hs (congrArg Tag.id htag)
  simpa [finishExpr, nextTag, addNode, reportNode] using hpush

theorem builds_finishStmt {stack : List Node} {build : Tag → Stmt}
    (h : ∀ tag, (build tag).tag = tag ∧ stack = (build tag).subnodes.reverse ++ trees) :
    Builds stack (finishStmt span build) fun t => .stmt t :: trees := by
  intro s hs
  obtain ⟨htag, hstack⟩ := h ⟨s.ast.size, span⟩
  rw [hstack] at hs
  have hpush := Holds.push (.stmt (build ⟨s.ast.size, span⟩)) hs (congrArg Tag.id htag)
  simpa [finishStmt, nextTag, addNode, reportNode] using hpush

end Steps

/-! ### Expressions -/

/-- The reading puts one expression on top of whatever trees there are. -/
def BuildsExpr (x : Parser Expr) : Prop := ∀ trees, Builds trees x fun e => .expr e :: trees

/-- The reading puts one statement on top of whatever trees there are. -/
def BuildsStmt (x : Parser Stmt) : Prop := ∀ trees, Builds trees x fun t => .stmt t :: trees

section Expressions

variable {operand : Parser Expr}

theorem builds_chain (h : BuildsExpr operand) (ops : Level) (trees : List Node) :
    ∀ (bound : Nat) (lhs : Expr), Builds (.expr lhs :: trees) (chain ops operand bound lhs) fun e =>
      .expr e :: trees
  | 0, _ => .fail
  | bound + 1, lhs => by
    refine .bind builds_current fun token => ?_
    split
    · exact .pure rfl
    · exact .bind builds_advance fun _ => .bind builds_begin fun _ => .bind (h _) fun rhs =>
        .bind (builds_finishExpr fun _ => ⟨rfl, rfl⟩) fun node => builds_chain h ops trees bound node

theorem builds_ladder (h : BuildsExpr operand) : ∀ levels : List Level, BuildsExpr (ladder operand levels)
  | [] => h
  | ops :: tighter => fun trees =>
    .bind (builds_ladder h tighter trees) fun lhs => .bind builds_remaining fun bound =>
      builds_chain (builds_ladder h tighter) ops trees bound lhs

theorem builds_primary (h : BuildsExpr operand) : BuildsExpr (primary operand) := by
  intro trees
  refine .bind builds_current fun token => ?_
  split
  · exact .bind builds_begin fun _ => .bind builds_advance fun _ => builds_finishExpr fun _ => ⟨rfl, rfl⟩
  · exact .bind builds_begin fun _ => .bind builds_advance fun _ => builds_finishExpr fun _ => ⟨rfl, rfl⟩
  · exact .bind builds_begin fun _ => .bind builds_advance fun _ => .bind .get fun _ =>
      .ite (builds_finishExpr fun _ => ⟨rfl, rfl⟩) .fail
  · exact .bind builds_advance fun _ => .bind (h _) fun _ => .bind builds_expect fun _ => .pure rfl
  · exact builds_unexpected

theorem builds_unary : ∀ bound : Nat, BuildsExpr (unary bound)
  | 0 => fun _ => .fail
  | bound + 1 => by
    intro trees
    refine .bind builds_current fun token => ?_
    split
    · exact .bind builds_advance fun _ => .bind builds_begin fun _ => .bind (builds_unary bound _) fun _ =>
        builds_finishExpr fun _ => ⟨rfl, rfl⟩
    · exact builds_primary (builds_ladder (builds_unary bound) levels) trees

theorem builds_expression : BuildsExpr expression :=
  fun trees => .bind builds_remaining fun _ => builds_ladder (builds_unary _) levels trees

end Expressions

/-! ### Statements -/

section Statements

variable {trees : List Node}

theorem builds_typeName : Builds trees typeName fun _ => trees := by
  refine .bind builds_advance fun token => ?_
  split
  · exact .pure rfl
  · exact .fail

theorem builds_declareVariable {name : String} {span : Span} :
    Builds trees (declareVariable name span) fun _ => trees :=
  .bind .get fun _ => .ite .fail (.modify fun _ => rfl)

theorem builds_declareProcedure {name : String} {span : Span} :
    Builds trees (declareProcedure name span) fun _ => trees :=
  .bind .get fun _ => .ite .fail (.modify fun _ => rfl)

section Blocks

variable {statement : Parser Stmt} {blockReader : Parser Stmt}

theorem builds_statements (h : BuildsStmt statement) : ∀ (bound : Nat) (trees : List Node),
    Builds trees (statements statement bound) fun body => (body.map Node.stmt).reverse ++ trees
  | 0, _ => .fail
  | bound + 1, trees =>
    .bind builds_current fun _ => .ite (.pure rfl)
      (.bind (h trees) fun first => .bind (builds_statements h bound _) fun rest => .pure (by simp))

theorem builds_block (h : BuildsStmt statement) (declared : List String) :
    BuildsStmt (block statement declared) :=
  fun trees =>
    .bind builds_current fun _ => .bind builds_begin fun _ => .bind builds_expect fun _ =>
    .bind (.modify fun _ => rfl) fun _ => .bind builds_remaining fun bound =>
    .bind (builds_statements h bound trees) fun _ => .bind builds_expect fun _ =>
    .bind (.modify fun _ => rfl) fun _ => builds_finishStmt fun _ => ⟨rfl, rfl⟩

theorem builds_condition : BuildsExpr condition :=
  fun trees =>
    .bind builds_expect fun _ => .bind (builds_expression trees) fun _ => .bind builds_expect fun _ =>
    .pure rfl

theorem builds_branch (h : BuildsStmt blockReader) : ∀ bound : Nat, BuildsStmt (branch blockReader bound)
  | 0 => fun _ => .fail
  | bound + 1 => by
    intro trees
    refine .bind builds_current fun _ => .bind builds_begin fun _ => .bind builds_expect fun _ =>
      .bind (builds_condition trees) fun _ => .bind (h _) fun _ => .bind builds_accept fun _ =>
      .ite (.bind builds_current fun token => ?_) (builds_finishStmt fun _ => ⟨rfl, rfl⟩)
    split
    · exact .bind (builds_branch h bound _) fun _ => builds_finishStmt fun _ => ⟨rfl, rfl⟩
    · exact .bind (h _) fun _ => builds_finishStmt fun _ => ⟨rfl, rfl⟩
    · exact .bind builds_unexpected fun _ => builds_finishStmt fun _ => ⟨rfl, rfl⟩

theorem builds_loop (h : BuildsStmt blockReader) : BuildsStmt (loop blockReader) :=
  fun trees =>
    .bind builds_current fun _ => .bind builds_begin fun _ => .bind builds_expect fun _ =>
    .bind (builds_condition trees) fun _ => .bind (h _) fun _ => builds_finishStmt fun _ => ⟨rfl, rfl⟩

end Blocks

theorem builds_parameters : ∀ (bound : Nat) (earlier : List Parameter),
    Builds trees (parameters bound earlier) fun _ => trees
  | 0, _ => .fail
  | bound + 1, _ =>
    .bind builds_typeName fun _ => .bind builds_expect fun _ => .ite .fail (.ite .fail
      (.bind builds_accept fun _ => .ite (builds_parameters bound _) (.pure rfl)))

theorem builds_parameterList : Builds trees parameterList fun _ => trees :=
  .bind builds_current fun _ => .bind builds_remaining fun _ =>
    .ite_bind (.pure rfl) (builds_parameters _ _) fun _ => .bind builds_expect fun _ => .pure rfl

theorem builds_procedure {body : List String → Parser Stmt} (h : ∀ params, BuildsStmt (body params)) :
    BuildsStmt (procedure body) :=
  fun _ =>
    .bind builds_current fun _ => .bind builds_begin fun _ => .bind builds_accept fun _ =>
    .bind builds_typeName fun _ => .bind builds_expect fun _ => .bind builds_expect fun _ =>
    .bind builds_parameterList fun _ => .bind builds_declareProcedure fun _ =>
    .ite (.bind builds_expect fun _ => builds_finishStmt fun _ => ⟨rfl, rfl⟩)
      (.bind (h _ _) fun _ => builds_finishStmt fun _ => ⟨rfl, rfl⟩)

/-- An expression that may be missing. -/
theorem builds_some : Builds trees (some <$> expression) fun e => (e.toList.map Node.expr).reverse ++ trees :=
  .map (builds_expression trees)

theorem builds_declaration : BuildsStmt declaration :=
  fun _ =>
    .bind builds_current fun _ => .bind builds_begin fun _ => .bind builds_typeName fun _ =>
    .bind builds_expect fun _ => .ite .fail
      (.bind builds_accept fun _ => .ite_bind builds_some (.pure rfl) fun _ =>
        .bind builds_expect fun _ => .bind builds_declareVariable fun _ =>
        builds_finishStmt fun _ => ⟨rfl, rfl⟩)

theorem builds_assignment : BuildsStmt assignment :=
  fun trees =>
    .bind builds_current fun _ => .bind builds_begin fun _ => .bind builds_expect fun _ =>
    .bind .get fun _ => .ite
      (.bind builds_expect fun _ => .bind (builds_expression trees) fun _ => .bind builds_expect fun _ =>
        builds_finishStmt fun _ => ⟨rfl, rfl⟩)
      .fail

theorem builds_arguments : ∀ (bound : Nat) (trees : List Node),
    Builds trees (arguments bound) fun args => (args.map Node.expr).reverse ++ trees
  | 0, _ => .fail
  | bound + 1, trees =>
    .bind (builds_expression trees) fun _ => .bind builds_accept fun _ =>
      .ite (.bind (builds_arguments bound _) fun _ => .pure (by simp)) (.pure rfl)

theorem builds_argumentList :
    Builds trees argumentList fun args => (args.map Node.expr).reverse ++ trees :=
  .bind builds_current fun _ => .bind builds_remaining fun _ =>
    .ite_bind (.pure rfl) (builds_arguments _ _) fun _ => .bind builds_expect fun _ => .pure rfl

theorem builds_call : BuildsStmt call :=
  fun _ =>
    .bind builds_current fun _ => .bind builds_begin fun _ => .bind builds_expect fun _ =>
    .bind .get fun _ => .ite
      (.bind builds_expect fun _ => .bind builds_argumentList fun _ => .bind builds_expect fun _ =>
        builds_finishStmt fun _ => ⟨rfl, rfl⟩)
      .fail

theorem builds_jump {inLoop : Bool} {kind : Jump} {build : Tag → Stmt}
    (h : ∀ tag, (build tag).tag = tag ∧ (build tag).subnodes = []) : BuildsStmt (jump inLoop kind build) :=
  fun _ =>
    .bind builds_current fun _ => .bind builds_begin fun _ => .bind builds_advance fun _ =>
    .ite (.bind builds_expect fun _ => builds_finishStmt fun tag => ⟨(h tag).1, by simp [(h tag).2]⟩) .fail

theorem builds_giveBack : BuildsStmt giveBack :=
  fun _ =>
    .bind builds_current fun _ => .bind builds_begin fun _ => .bind builds_expect fun _ =>
    .bind builds_current fun _ => .ite_bind (.pure rfl) builds_some fun _ =>
    .bind builds_expect fun _ => builds_finishStmt fun _ => ⟨rfl, rfl⟩

theorem builds_statement : ∀ (bound : Nat) (inLoop : Bool), BuildsStmt (statement inLoop bound)
  | 0, _ => fun _ => .fail
  | bound + 1, inLoop => by
    intro trees
    refine .bind .get fun s => ?_
    split
    · exact builds_block (builds_statement bound inLoop) [] trees
    · exact builds_loop (builds_block (builds_statement bound true) []) trees
    · exact builds_branch (builds_block (builds_statement bound inLoop) []) _ trees
    · exact builds_jump (fun _ => ⟨rfl, rfl⟩) trees
    · exact builds_jump (fun _ => ⟨rfl, rfl⟩) trees
    · exact builds_giveBack trees
    · exact builds_procedure (builds_block (builds_statement bound inLoop)) trees
    · exact builds_declaration trees
    · exact .ite (builds_call trees) (builds_assignment trees)
    · exact builds_unexpected

/-! ### Programs -/

theorem builds_procedureBody (params : List String) : BuildsStmt (procedureBody params) :=
  fun trees => .bind builds_remaining fun _ => builds_block (builds_statement _ _) params trees

theorem builds_procedures : ∀ (bound : Nat) (trees : List Node),
    Builds trees (procedures bound) fun body => (body.map Node.stmt).reverse ++ trees
  | 0, _ => .fail
  | bound + 1, trees =>
    .bind builds_current fun _ => .ite (.pure rfl) (.ite
      (.bind (builds_procedure builds_procedureBody trees) fun _ =>
        .bind (builds_procedures bound _) fun _ => .pure (by simp))
      builds_unexpected)

end Statements

theorem holds_ofTokens (tokens : List Token) : Holds (.ofTokens tokens) [] := ⟨.nil, rfl⟩

/-- The nodes of a program that was read are the post-order of its root. -/
theorem postordered_of_parse {tokens : List Token} {ast : Ast} (h : parse tokens = .ok ast) :
    ∃ root, ast.Postordered root := by
  have hprogram : Gives program (.ofTokens tokens) fun ast _ => ∃ root, ast.Postordered root := by
    refine builds_current.gives (holds_ofTokens tokens) fun start s₁ h₁ => ?_
    refine builds_begin.gives h₁ fun _ s₂ h₂ => ?_
    refine Builds.gives (.modify fun _ => rfl) h₂ fun _ s₃ h₃ => ?_
    refine builds_remaining.gives h₃ fun bound s₄ h₄ => ?_
    refine (builds_procedures bound []).gives h₄ fun body s₅ h₅ => ?_
    refine Builds.gives (.modify fun _ => rfl) h₅ fun _ s₆ h₆ => ?_
    -- the procedures are the parts of the program, and nothing else is left
    have hfinish : Builds ((body.map Node.stmt).reverse ++ []) (finishStmt start.span (.block · body))
        fun t => [.stmt t] := builds_finishStmt fun _ => ⟨rfl, rfl⟩
    refine hfinish.gives h₆ fun root s₇ h₇ => ?_
    simp only [Stage.ensures_bind, Stage.ensures_get, Stage.ensures_return]
    exact ⟨root, rfl, h₇.order, h₇.ids⟩
  exact hprogram.value h

end Parsing

end ProcLang

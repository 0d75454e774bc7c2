import ProcLang.Parsing.Program
import ProcLang.Proofs.Ast.WellFormed
import ProcLang.Proofs.Stage

/-!
What the steps of a reading give if they succeed.  An expression uses only names in scope and declares
none, and parameters keep the rules for them.
-/

namespace ProcLang.Parsing

open Stage (Ensures)

/-- If the reading succeeds, its value and the state behind it satisfy `Q`. -/
abbrev Gives {α : Type} (x : Parser α) (s : State) (Q : α → State → Prop) : Prop :=
  Ensures (fun _ _ => True) (fun _ => True) x s Q

/-! ### Steps of a reading -/

section Steps

variable {s : State} {α : Type} {E : CompileError → Prop}

@[simp] theorem gives_current {Q : Token → State → Prop} :
    Ensures (fun _ _ => True) E current s Q ↔ Q s.current s := by
  simp [current]

@[simp] theorem gives_remaining {Q : Nat → State → Prop} :
    Ensures (fun _ _ => True) E remaining s Q ↔ Q s.remaining s := by
  simp [remaining]

@[simp] theorem gives_advance {Q : Token → State → Prop} :
    Ensures (fun _ _ => True) E advance s Q ↔ Q s.current s.advance := by
  simp [advance]

@[simp] theorem gives_unexpected {wanted : Wanted} {Q : α → State → Prop} :
    Gives (unexpected wanted) s Q := by
  simp [unexpected]

@[simp] theorem gives_refuse {span : Span} {cause : SemanticCause} {Q : α → State → Prop} :
    Gives (refuse span cause) s Q := by
  simp [refuse]

@[simp] theorem gives_spent {Q : α → State → Prop} : Gives spent s Q := by
  simp [spent]

@[simp] theorem gives_begin {span : Span} {Q : Unit → State → Prop} :
    Ensures (fun _ _ => True) E (begin span) s Q ↔ Q () s := by
  simp [begin]

theorem gives_accept {kind : TokenKind} {Q : Bool → State → Prop} (ht : Q true s.advance)
    (hf : Q false s) : Gives (accept kind) s Q := by
  simp only [accept, Stage.ensures_bind, gives_current]
  split <;> simpa

theorem gives_expect {kind : TokenKind} {Q : Token → State → Prop} (h : Q s.current s.advance) :
    Gives (expect kind) s Q := by
  simp only [expect, Stage.ensures_bind, gives_current]
  split <;> simp [h]

theorem gives_typeName {Q : DataType → State → Prop} (h : ∀ t, Q t s.advance) :
    Gives typeName s Q := by
  simp only [typeName, Stage.ensures_bind, gives_advance]
  split <;> simp [h]

theorem gives_finishExpr {span : Span} {build : Tag → Expr} {Q : Expr → State → Prop}
    (h : ∀ tag ast, Q (build tag) { s with ast := ast }) :
    Ensures (fun _ _ => True) E (finishExpr span build) s Q := by
  simp only [finishExpr, nextTag, addNode, reportNode, Stage.ensures_bind, Stage.ensures_get,
    Stage.ensures_return, Stage.ensures_modify, Stage.ensures_mark, true_and]
  exact h _ _

theorem gives_finishStmt {span : Span} {build : Tag → Stmt} {Q : Stmt → State → Prop}
    (h : ∀ tag ast, Q (build tag) { s with ast := ast }) :
    Ensures (fun _ _ => True) E (finishStmt span build) s Q := by
  simp only [finishStmt, nextTag, addNode, reportNode, Stage.ensures_bind, Stage.ensures_get,
    Stage.ensures_return, Stage.ensures_modify, Stage.ensures_mark, true_and]
  exact h _ _

end Steps

/-! ### Expressions -/

/-- The reading of an expression uses only names in scope, and declares none. -/
def ReadsExpr (names : List NameScope) (x : Parser Expr) : Prop :=
  ∀ s : State, s.scopes = names → Gives x s fun e s' => e.WellFormed names ∧ s'.scopes = names

section Expressions

variable {names : List NameScope} {operand : Parser Expr}

theorem readsExpr_chain (h : ReadsExpr names operand) (ops : Level) (bound : Nat) :
    ∀ {lhs : Expr}, lhs.WellFormed names → ReadsExpr names (chain ops operand bound lhs) := by
  induction bound with
  | zero => exact fun _ s _ => gives_spent
  | succ bound ih =>
    intro lhs hl s hs
    simp only [chain, Stage.ensures_bind, gives_current]
    split
    · exact Stage.ensures_return.mpr ⟨hl, hs⟩
    · next op _ =>
      simp only [Stage.ensures_bind, gives_advance, gives_begin]
      refine (h s.advance hs).mono fun rhs t ht => gives_finishExpr fun tag ast => ?_
      have hnode : (Expr.binary tag op lhs rhs).WellFormed names := ⟨hl, ht.1⟩
      exact ih hnode _ ht.2

theorem readsExpr_ladder (h : ReadsExpr names operand) :
    ∀ levels : List Level, ReadsExpr names (ladder operand levels)
  | [] => h
  | ops :: tighter => by
    intro s hs
    simp only [ladder, Stage.ensures_bind, gives_remaining]
    refine (readsExpr_ladder h tighter s hs).mono fun lhs t ht => ?_
    exact readsExpr_chain (readsExpr_ladder h tighter) ops _ ht.1 t ht.2

theorem readsExpr_primary (h : ReadsExpr names operand) : ReadsExpr names (primary operand) := by
  intro s hs
  simp only [primary, Stage.ensures_bind, gives_current]
  split
  · simp only [Stage.ensures_bind, gives_begin, gives_advance]
    exact gives_finishExpr fun tag ast => ⟨trivial, hs⟩
  · simp only [Stage.ensures_bind, gives_begin, gives_advance]
    exact gives_finishExpr fun tag ast => ⟨trivial, hs⟩
  · simp only [Stage.ensures_bind, gives_begin, gives_advance, Stage.ensures_get]
    split
    · next hv =>
      refine gives_finishExpr fun tag ast => ⟨?_, hs⟩
      have hv : ∃ n ∈ s.scopes, s.current.string ∈ n.vars := by
        simpa [State.hasVariable, State.advance] using hv
      rwa [hs] at hv
    · exact gives_refuse
  · simp only [Stage.ensures_bind, gives_advance]
    exact (h s.advance hs).mono fun e t ht => gives_expect (Stage.ensures_return.mpr ht)
  · exact gives_unexpected

theorem readsExpr_unary (bound : Nat) : ReadsExpr names (unary bound) := by
  induction bound with
  | zero => exact fun s _ => gives_spent
  | succ bound ih =>
    intro s hs
    simp only [unary, Stage.ensures_bind, gives_current]
    split
    · simp only [Stage.ensures_bind, gives_begin, gives_advance]
      exact (ih s.advance hs).mono fun e t ht => gives_finishExpr fun tag ast => ht
    · exact readsExpr_primary (readsExpr_ladder ih levels) s hs

theorem readsExpr_expression : ReadsExpr names expression := by
  intro s hs
  simp only [expression, Stage.ensures_bind, gives_remaining]
  exact readsExpr_ladder (readsExpr_unary _) levels s hs

end Expressions

/-! ### Declarations -/

/-- A statement that declares nothing leaves the names as they are. -/
theorem declareIn_eq {st : Stmt} (h : ∀ n, st.declare n = n) (names : List NameScope) :
    st.declareIn names = names := by
  cases names with
  | nil => rfl
  | cons n outer => rw [Stmt.declareIn, h]

theorem reads_parameters (bound : Nat) {s : State} {earlier : List Parameter}
    (hvoid : ∀ p ∈ earlier, p.type ≠ .void) (hnodup : (earlier.map (·.name)).Nodup) :
    Gives (parameters bound earlier) s fun params _ =>
      (∀ p ∈ params, p.type ≠ .void) ∧ (params.map (·.name)).Nodup := by
  induction bound generalizing s earlier with
  | zero => exact gives_spent
  | succ bound ih =>
    simp only [parameters, Stage.ensures_bind]
    refine gives_typeName fun type => gives_expect ?_
    split
    · exact gives_refuse
    next htype =>
    split
    · exact gives_refuse
    next hfresh =>
    let last : Parameter := ⟨s.advance.current.string, type, s.advance.current.span⟩
    have hvoid' : ∀ p ∈ earlier ++ [last], p.type ≠ .void := by
      intro p hp
      rcases List.mem_append.mp hp with hp | hp
      · exact hvoid p hp
      · rw [List.mem_singleton.mp hp]
        exact htype
    have hnodup' : ((earlier ++ [last]).map (·.name)).Nodup := by
      rw [List.map_append, List.nodup_append]
      refine ⟨hnodup, by simp, fun a ha b hb => ?_⟩
      obtain ⟨p, hp, rfl⟩ := List.mem_map.mp ha
      rw [List.map_singleton, List.mem_singleton] at hb
      rintro rfl
      exact hfresh (List.any_eq_true.mpr ⟨p, hp, by simpa using hb⟩)
    rw [Stage.ensures_bind]
    refine gives_accept ?_ ?_
    · rw [if_pos rfl]
      exact ih hvoid' hnodup'
    · rw [if_neg Bool.false_ne_true, Stage.ensures_return]
      exact ⟨hvoid', hnodup'⟩

theorem reads_parameterList {s : State} :
    Gives parameterList s fun params _ =>
      (∀ p ∈ params, p.type ≠ .void) ∧ (params.map (·.name)).Nodup := by
  simp only [parameterList, Stage.ensures_bind, gives_current, gives_remaining]
  split
  · simp only [Stage.ensures_bind, Stage.ensures_return]
    exact gives_expect ⟨by simp, by simp⟩
  · rw [Stage.ensures_bind]
    refine (reads_parameters _ (by simp) (by simp)).mono fun params t ht => ?_
    simp only [Stage.ensures_bind, Stage.ensures_return]
    exact gives_expect ht

end ProcLang.Parsing

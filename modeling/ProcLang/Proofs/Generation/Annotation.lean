import ProcLang.Proofs.Bytes.Program
import ProcLang.Proofs.Generation.Notes
import ProcLang.Proofs.Parsing.PostOrder
import ProcLang.Proofs.Typing

/-!
What code generation puts down of the expressions of a program: for each of them a handle of its own and
its type.  The scopes of code generation know of each name the type that it has at its place in the
program, so the notes on a statement are on its expressions, in their order, and tell their types.
-/

namespace ProcLang.Generation

/-! ### Expressions -/

/-- The notes are on the expressions, in their order, and tell their types. -/
def Typed (occurrences : List Occurrence) (notes : List Note) : Prop :=
  List.Forall₂ (fun o note => note.1 = o.expr.tag.id ∧ HasType o.vars o.context o.expr note.2.type)
    occurrences notes

theorem Typed.append {os os' : List Occurrence} {notes notes' : List Note} (h : Typed os notes)
    (h' : Typed os' notes') : Typed (os ++ os') (notes ++ notes') :=
  List.rel_append h h'

theorem typed_nil : Typed [] [] := .nil

/-- Notes on some expressions were left, and the scopes are as before. -/
def Puts (occurrences : List Occurrence) (s : State) (notes : List Note) (s' : State) : Prop :=
  Typed occurrences notes ∧ s'.scopes = s.scopes

section Expressions

variable {s : State} {T : Typing} {tag : Tag} {kind : NodeKind} {context : DataType} {e lhs rhs : Expr}
  {options : Options}

theorem writes_nodeEvent {happening : Happening} {Q : List Note → Unit → State → Prop} (h : Q [] () s) :
    Writes (nodeEvent happening tag kind) s Q := .mark h

theorem writes_comment {text : String} {Q : List Note → Unit → State → Prop} (h : Q [] () s) :
    Writes (comment options text) s Q := by
  unfold comment
  split
  · exact .mark h
  · exact .pure h

/-- The notes on an expression: those on what is below it, and its own. -/
def PutsValue (T : Typing) (context : DataType) (e : Expr) (s : State) (notes : List Note)
    (p : Location × DataType) (s' : State) : Prop :=
  Puts (e.occurrences T.vars context) s notes s' ∧ HasType T.vars context e p.2

theorem writes_expressionNode {work : Location → Gen DataType} (htag : e.tag = tag)
    (hwork : Writes (work ⟨s.nextLocation⟩) s.issue fun notes type s' =>
      Puts (e.inside T.vars context) s notes s' ∧ HasType T.vars context e type) :
    Writes (expressionNode tag kind work) s (PutsValue T context e s) := by
  rw [expressionNode_eq]
  refine .bind (writes_nodeEvent (.bind ?_))
  have hcore : Writes (do
      let location ← freshLocation
      let type ← work location
      annotate tag.id location type
      return (location, type)) s (PutsValue T context e s) := by
    -- the work is done behind the new handle
    change Wrote s (Stage.bind (work ⟨s.nextLocation⟩) _ s.issue) _
    unfold Writes at hwork
    unfold Stage.bind
    generalize work ⟨s.nextLocation⟩ s.issue = run at hwork ⊢
    rcases run with ⟨marks, err | type, s'⟩
    · exact fun _ _ hp => by cases hp
    · intro hs p hp
      obtain ⟨notes, hrecords, hgood, ⟨htyped, hscopes⟩, htype⟩ :=
        hwork (good_of_lawful hs.lawful) type rfl
      obtain rfl := Except.ok.inj hp
      have hnote : Typed [⟨T.vars, context, e⟩] [(tag.id, ⟨⟨s.nextLocation⟩, type⟩)] :=
        .cons ⟨congrArg Tag.id htag.symm, htype⟩ .nil
      have hnoted := hrecords.noted tag.id type
      rw [← List.append_nil marks] at hnoted
      exact ⟨_, hnoted, good_of_lawful hgood.lawful, ⟨htyped.append hnote, hscopes⟩, htype⟩
  refine hcore.mono fun notes p s' h => .bind (writes_nodeEvent (.pure ?_))
  simpa using h

theorem writes_lookup {name : String} : Writes (lookup tag name) s fun notes v s' =>
    notes = [] ∧ s' = s ∧ s.scopes.findVariable? name = some v := by
  refine .bind (.get ?_)
  split
  · next v hv => exact .pure ⟨rfl, rfl, hv⟩
  · exact .fail

theorem writes_variableValue {name : String} (hT : T.Describes s.scopes) :
    Writes (variableValue tag name ⟨s.nextLocation⟩) s.issue fun notes type s' =>
      Puts [] s notes s' ∧ HasType T.vars context (.var tag name) type := by
  refine .bind (writes_lookup.mono ?_)
  rintro _ v _ ⟨rfl, rfl, hv⟩
  have hrest : Step False True [] (· = v.type) (do
      let r ← registerFor ⟨s.nextLocation⟩
      loadVariable v r
      return v.type) :=
    .bind .registerFor fun _ => .bind plain_loadVariable fun _ => .pure rfl
  refine .quiet hrest fun type s' htype hquiet => ⟨⟨typed_nil, hquiet.scopes⟩, ?_⟩
  rw [htype, ← hT.vars hv]
  exact .var

theorem writes_eager {op : ArithOp ⊕ Comparison} {lhsCode rhsCode : Gen (Location × DataType)}
    {l : Location} (hT : T.Describes s.scopes)
    (hl : ∀ s, T.Describes s.scopes → Writes lhsCode s (PutsValue T .int lhs s))
    (hr : ∀ s, T.Describes s.scopes → Writes rhsCode s (PutsValue T .int rhs s)) :
    Writes (eager op lhsCode rhsCode l) s fun notes type s' =>
      Puts (lhs.occurrences T.vars .int ++ rhs.occurrences T.vars .int) s notes s' ∧
      ∃ t₁ t₂, HasType T.vars .int lhs t₁ ∧ HasType T.vars .int rhs t₂ ∧
        type = if op.isLeft then t₁.arith t₂ else .int := by
  refine .bind ((hl s hT).mono ?_)
  rintro notes ⟨left, t₁⟩ s₁ ⟨⟨hnotes, hscopes⟩, ht₁⟩
  refine .after plain_copyOf fun copied s₂ _ hq => ?_
  have hscopes₂ : s₂.scopes = s.scopes := hq.scopes.trans hscopes
  refine Writes.before (W := fun p type => type = if op.isLeft then t₁.arith p.2 else .int)
    (hr s₂ (hscopes₂ ▸ hT)) (fun p => .bind plain_registerOf fun _ => .bind plain_registerOf fun _ =>
      .given plain_applyEager fun t ht => .bind .release fun _ =>
      .bind .release fun _ => .bind .swap fun _ => .pure ht) ?_
  rintro notes' ⟨right, t₂⟩ s₃ type s₄ ⟨⟨hnotes', hscopes'⟩, ht₂⟩ htype hq'
  exact ⟨⟨hnotes.append hnotes', hq'.scopes.trans (hscopes'.trans hscopes₂)⟩, t₁, t₂, ht₁, ht₂, htype⟩

theorem writes_shortCircuit {op : LogicOp} {lhsCode rhsCode : Gen (Location × DataType)}
    {l : Location} (hT : T.Describes s.scopes)
    (hl : ∀ s, T.Describes s.scopes → Writes lhsCode s (PutsValue T .int lhs s))
    (hr : ∀ s, T.Describes s.scopes → Writes rhsCode s (PutsValue T .int rhs s)) :
    Writes (shortCircuit op lhsCode rhsCode l) s fun notes type s' =>
      Puts (lhs.occurrences T.vars .int ++ rhs.occurrences T.vars .int) s notes s' ∧ type = .int := by
  refine .after (plain_freshLabel _) fun behind s₀ _ hq₀ => ?_
  refine .bind ((hl s₀ (hq₀.scopes ▸ hT)).mono ?_)
  rintro notes ⟨left, t₁⟩ s₁ ⟨⟨hnotes, hscopes⟩, -⟩
  have hneat : Neat False behind.name := False.elim
  refine .after plain_freshLocation fun truth s₂ _ hq₂ => .after .registerFor fun r s₃ _ hq₃ =>
    .after plain_truthOf fun _ s₄ _ hq₄ => .after .release fun _ s₅ _ hq₅ =>
    .after (.emit ⟨trivial, trivial⟩ rfl) fun _ s₆ _ hq₆ =>
    .after (.emit hneat rfl) fun _ s₇ _ hq₇ => ?_
  have hscopes₇ : s₇.scopes = s.scopes :=
    ((((((hq₂.trans hq₃).trans hq₄).trans hq₅).trans hq₆).trans hq₇).scopes.trans hscopes).trans hq₀.scopes
  refine Writes.before (W := fun _ type => type = .int) (hr s₇ (hscopes₇ ▸ hT))
    (fun p => .bind plain_truthOf fun _ => .bind .release fun _ =>
      .bind (.emit hneat rfl) fun _ => .bind .swap fun _ => .pure rfl) ?_
  rintro notes' p s₈ type s₉ ⟨⟨hnotes', hscopes'⟩, -⟩ htype hq'
  exact ⟨⟨hnotes.append hnotes', hq'.scopes.trans (hscopes'.trans hscopes₇)⟩, htype⟩

/-- The operands of an operator between two operands. -/
theorem inside_binary {vars : String → DataType} {op : BinaryOp} :
    (Expr.binary tag op lhs rhs).inside vars context =
      lhs.occurrences vars .int ++ rhs.occurrences vars .int := by
  simp [Expr.inside, Expr.occurrences]

/-- Code for an expression leaves notes on it and on all that is below it. -/
theorem writes_expression (e : Expr) : ∀ (context : DataType) (s : State), T.Describes s.scopes →
    Writes (expression e context) s (PutsValue T context e s) := by
  induction e with
  | literal tag value =>
    intro context s _
    cases value with
    | integer value =>
      refine writes_expressionNode rfl (.quiet plain_integerLiteral fun type s' htype hq => ?_)
      exact ⟨⟨typed_nil, hq.scopes⟩, htype ▸ hasType_integer⟩
    | string raw =>
      refine writes_expressionNode rfl (.quiet .string fun type s' htype hq => ?_)
      exact ⟨⟨typed_nil, hq.scopes⟩, htype ▸ .string⟩
  | var tag name =>
    intro context s hT
    exact writes_expressionNode rfl (writes_variableValue hT)
  | unary tag op e ih =>
    intro context s hT
    refine writes_expressionNode rfl
      (Writes.before (W := fun p type => type = if op = .plus then p.2 else .int)
        (ih (op.operandContext context) s.issue hT)
        (fun p => .bind plain_copyOf fun _ => .given plain_applyUnary fun t ht =>
          .bind .release fun _ => .bind .swap fun _ => .pure ht) ?_)
    rintro notes ⟨value, t⟩ s₁ type s₂ ⟨⟨hnotes, hscopes⟩, ht⟩ htype hq
    have hinside : (Expr.unary tag op e).inside T.vars context =
        e.occurrences T.vars (op.operandContext context) := by
      cases op <;> rfl
    exact ⟨⟨hinside ▸ hnotes, hq.scopes.trans hscopes⟩, htype ▸ hasType_unary ht⟩
  | binary tag op lhs rhs ihl ihr =>
    intro context s hT
    cases op with
    | arith op =>
      refine writes_expressionNode rfl
        ((writes_eager (s := s.issue) hT (ihl .int) (ihr .int)).mono ?_)
      rintro notes type s' ⟨⟨hnotes, hscopes⟩, t₁, t₂, ht₁, ht₂, rfl⟩
      exact ⟨⟨inside_binary ▸ hnotes, hscopes⟩, hasType_arith ht₁ ht₂⟩
    | compare op =>
      refine writes_expressionNode rfl
        ((writes_eager (s := s.issue) hT (ihl .int) (ihr .int)).mono ?_)
      rintro notes type s' ⟨⟨hnotes, hscopes⟩, t₁, t₂, -, -, rfl⟩
      exact ⟨⟨inside_binary ▸ hnotes, hscopes⟩, .compare⟩
    | logic op =>
      refine writes_expressionNode rfl
        ((writes_shortCircuit (s := s.issue) hT (ihl .int) (ihr .int)).mono ?_)
      rintro notes type s' ⟨⟨hnotes, hscopes⟩, rfl⟩
      exact ⟨⟨inside_binary ▸ hnotes, hscopes⟩, .logic⟩
  | misplaced tag kind => exact fun context s _ => writes_expressionNode rfl .fail

/-- Quiet steps behind the code for an expression. -/
theorem writes_value {α : Type} {f : Location × DataType → Gen α}
    (hT : T.Describes s.scopes) (hf : ∀ p, Plain False True (f p)) :
    Writes (expression e context >>= f) s fun notes _ s' =>
      Puts (e.occurrences T.vars context) s notes s' := by
  refine (writes_expression e context s hT).closing hf fun notes p s₁ s₂ hvalue hq => ?_
  exact ⟨hvalue.1.1, hq.scopes.trans hvalue.1.2⟩

theorem writes_argumentValues : ∀ (args : List Expr) (types : List DataType) (s : State),
    args.length = types.length → T.Describes s.scopes → Writes (argumentValues (args.zip types)) s
      fun notes _ s' => Puts (Expr.arguments T.vars args types) s notes s'
  | [], _, _, _, _ => .pure ⟨typed_nil, rfl⟩
  | _ :: _, [], _, hlength, _ => by cases hlength
  | arg :: args, type :: types, s, hlength, hT => by
    refine .bind ((writes_expression arg type s hT).mono ?_)
    rintro notes p s₁ ⟨⟨hnotes, hscopes⟩, -⟩
    have hrest := writes_argumentValues args types s₁ (Nat.succ.inj hlength) (hscopes ▸ hT)
    refine hrest.closing (fun _ => .pure trivial) fun notes' _ s₂ s₃ hputs hq => ?_
    exact ⟨hnotes.append hputs.1, hq.scopes.trans (hputs.2.trans hscopes)⟩

end Expressions

/-! ### Scopes -/

section Scopes

variable {s : State} {T : Typing} {returns : DataType} {scope : Scope} {outer scopes : ScopeStack}

/-- The types of the names, and of the value of the procedure, are those that the scopes have. -/
structure Fits (T : Typing) (returns : DataType) (scopes : ScopeStack) : Prop where
  describes : T.Describes scopes
  returns : (scopes.procedureScope?.bind (·.returns)).getD .int = returns

theorem procedureScope?_cons : ScopeStack.procedureScope? (scope :: outer) =
    if scope.kind = .procedure then some scope else outer.procedureScope? := by
  unfold ScopeStack.procedureScope?
  rw [List.find?_cons]
  split <;> simp_all

theorem Fits.after (h : Fits T returns scopes) (st : Stmt) :
    Fits (T.after st) returns (scopesAfter st scopes) := by
  refine ⟨h.describes.after st, ?_⟩
  rw [← h.returns]
  cases scopes with
  | nil => rfl
  | cons scope outer =>
    -- a new name changes neither the kind of the scope nor the type of the value
    have hsame : ∀ scope' : Scope, scope'.kind = scope.kind → scope'.returns = scope.returns →
        ((ScopeStack.procedureScope? (scope' :: outer)).bind (·.returns)) =
          (ScopeStack.procedureScope? (scope :: outer)).bind (·.returns) := by
      intro scope' hkind hreturns
      rw [procedureScope?_cons, procedureScope?_cons, hkind]
      split
      · exact hreturns
      · rfl
    cases st with
    | declaration tag name type _ =>
      exact congrArg (·.getD .int) (hsame (scope.declare (declaredVariable scope tag name type)) rfl rfl)
    | procedure _ signature _ =>
      exact congrArg (·.getD .int) (hsame (scope.declareProcedure signature.procedure) rfl rfl)
    | _ => rfl

theorem Fits.inner (h : Fits T returns scopes) (hvars : scope.vars = .empty)
    (hprocedures : scope.procedures = .empty) (hkind : scope.kind ≠ .procedure) :
    Fits T returns (scope :: scopes) := by
  refine ⟨h.describes.inner hvars hprocedures, ?_⟩
  rw [procedureScope?_cons, if_neg hkind]
  exact h.returns

theorem modifyScope_eq {f : Scope → Scope} (hs : s.scopes = scope :: outer) :
    modifyScope f s = ⟨[], .ok (), { s with scopes := f scope :: outer }⟩ := by
  simp only [modifyScope, Bind.bind, Stage.bind, Stage.get, hs, ScopeStack.modifyCurrent, orFail]
  rfl

theorem writes_modifyScope {f : Scope → Scope} {Q : List Note → Unit → State → Prop}
    (hs : s.scopes = scope :: outer)
    (hbinds : ∀ l, ScopeStack.Binds (f scope :: outer) l → s.scopes.Binds l)
    (hQ : Q [] () { s with scopes := f scope :: outer }) : Writes (modifyScope f) s Q := by
  unfold Writes
  rw [modifyScope_eq hs]
  exact Writes.modify (s := s) (g := fun s => { s with scopes := f scope :: outer }) rfl rfl rfl hbinds hQ

/-- A parameter is bound to the register in which it comes, under a new handle. -/
theorem writes_parameter {β : Type} {f : Location → Gen β} {r : Register} {v : Location → Variable}
    {Q : List Note → β → State → Prop} (hs : s.scopes = scope :: outer)
    (hv : ∀ l, (v l).storage = .register l)
    (hf : ∀ s' : State, s'.scopes = scope.declare (v ⟨s.nextLocation⟩) :: outer →
      Writes (f ⟨s.nextLocation⟩) s' Q) :
    Writes (do
      let l ← freshLocation
      claimParameter r l
      modifyScope (·.declare (v l))
      f l) s Q := by
  have hassoc : (do
      let l ← freshLocation
      claimParameter r l
      modifyScope (·.declare (v l))
      f l) = (do
      let l ← freshLocation
      claimParameter r l
      modifyScope (·.declare (v l))
      return l) >>= f := by
    simp only [bind_assoc, pure_bind]
  rw [hassoc]
  refine .bind ?_
  change Wrote s (Stage.bind (claimParameter r ⟨s.nextLocation⟩) _ s.issue) _
  unfold Stage.bind
  have hclaim := (@Step.claimParameter False True r ⟨s.nextLocation⟩).gives s.issue
  unfold Stage.Ensures at hclaim
  generalize claimParameter r ⟨s.nextLocation⟩ s.issue = run at hclaim ⊢
  rcases run with ⟨marks, err | _, t⟩
  · exact fun _ _ ha => by cases ha
  · intro hgood l hl
    obtain ⟨hmarks, -, hgood', -, hquiet⟩ := hclaim (good_of_lawful hgood.lawful)
    have hquiet := hquiet trivial
    have ht : t.scopes = scope :: outer := hquiet.scopes.trans hs
    have hrun : ((modifyScope (·.declare (v ⟨s.nextLocation⟩)) >>= fun _ =>
        (pure ⟨s.nextLocation⟩ : Gen Location)) t : Outcome Mark State Location) =
        ⟨[], .ok ⟨s.nextLocation⟩,
          { t with scopes := scope.declare (v ⟨s.nextLocation⟩) :: outer }⟩ := by
      change Stage.bind (modifyScope _) _ t = _
      rw [Stage.bind, modifyScope_eq ht]
      rfl
    simp only [hrun] at hl ⊢
    obtain rfl := Except.ok.inj hl
    have hnext : s.nextLocation < t.nextLocation := hquiet.locations
    refine ⟨[], ⟨hquiet.annotations, Nat.le_of_lt hnext, ?_, .nil, ?_⟩, ?_, hf _ rfl⟩
    · exact fun _ hmem => absurd hmem List.not_mem_nil
    · rintro u (rfl | ⟨m, hm⟩) l hl
      · rcases hl.of_declare with hl | hl
        · obtain rfl := Storage.register.inj ((hv _).symm.trans hl)
          exact .inr ⟨⟨Nat.le_refl _, hnext⟩, List.not_mem_nil⟩
        · exact .inl (hs ▸ hl)
      · rw [List.append_nil] at hm
        have hu := ((hmarks (m, u) hm).2.2 trivial).scopes
        exact .inl (hu ▸ hl)
    · exact good_of_lawful hgood'.lawful

/-- A scope with parameters declared in it, one after another. -/
structure Declared (params : List (String × DataType × ParameterClass)) (scope scope' : Scope) :
    Prop where
  kind : scope'.kind = scope.kind
  procedures : scope'.procedures = scope.procedures
  returns : scope'.returns = scope.returns
  vars : ∀ {name v}, scope'.vars.get? name = some v →
    (∃ cls, (name, v.type, cls) ∈ params) ∨ scope.vars.get? name = some v

theorem Declared.cons {params : List (String × DataType × ParameterClass)} {cls : ParameterClass}
    {v : Variable} {scope' : Scope} (h : Declared params (scope.declare v) scope') :
    Declared ((v.name, v.type, cls) :: params) scope scope' where
  kind := h.kind
  procedures := h.procedures
  returns := h.returns
  vars := by
    intro name v' hv'
    rcases h.vars hv' with ⟨cls', hmem⟩ | hv'
    · exact .inl ⟨cls', List.mem_cons_of_mem _ hmem⟩
    · by_cases hname : name = v.name
      · rw [hname, Scope.declare, Table.get?_insert_self] at hv'
        obtain rfl := Option.some.inj hv'
        exact .inl ⟨cls, hname ▸ List.mem_cons_self⟩
      · rw [Scope.declare, Table.get?_insert_of_ne _ _ hname] at hv'
        exact .inr hv'

theorem writes_bindParameters {height : Nat} :
    ∀ (params : List (String × DataType × ParameterClass)) (s : State) (scope : Scope),
      s.scopes = scope :: outer → Writes (bindParameters height params) s fun notes _ s' =>
        notes = [] ∧ ∃ scope', s'.scopes = scope' :: outer ∧ Declared params scope scope'
  | [], _, scope, hs => .pure ⟨rfl, scope, hs, rfl, rfl, rfl, .inr⟩
  | (name, type, .register r) :: rest, s, scope, hs => by
    rw [bindParameters]
    refine writes_parameter (v := fun l => ⟨name, type, .register l, height⟩) hs (fun _ => rfl)
      fun s' hs' => (writes_bindParameters rest s' _ hs').closing (fun _ => .pure trivial) ?_
    rintro notes _ s₁ s₂ ⟨rfl, scope', hs₁, hdeclared⟩ hq
    exact ⟨rfl, scope', hq.scopes.trans hs₁, hdeclared.cons⟩
  | (name, type, .stack index) :: rest, s, scope, hs => by
    rw [bindParameters]
    refine .bind (writes_modifyScope hs (fun l hl => ?_)
      ((writes_bindParameters rest _ _ rfl).mono ?_))
    · rcases hl.of_declare with hl | hl
      · cases hl
      · exact hs ▸ hl
    · rintro notes _ s₁ ⟨rfl, scope', hs₁, hdeclared⟩
      exact ⟨rfl, scope', hs₁, hdeclared.cons⟩

end Scopes

/-! ### Statements -/

section Statements

variable {options : Options} {s : State} {T : Typing} {returns : DataType} {tag : Tag} {kind : NodeKind}
  {occurrences occurrences' : List Occurrence}

theorem Puts.trans {s s₁ s₂ : State} {notes notes' : List Note} (h : Puts occurrences s notes s₁)
    (h' : Puts occurrences' s₁ notes' s₂) : Puts (occurrences ++ occurrences') s (notes ++ notes') s₂ :=
  ⟨h.1.append h'.1, h'.2.trans h.2⟩

theorem Puts.quiet {s s₁ s₂ : State} {notes : List Note} (h : Puts occurrences s notes s₁)
    (hq : s₁.Quiet s₂) : Puts occurrences s notes s₂ := ⟨h.1, hq.scopes.trans h.2⟩

theorem Puts.behind {s s₁ s₂ : State} {notes : List Note} (h : Puts occurrences s₁ notes s₂)
    (hq : s.Quiet s₁) : Puts occurrences s notes s₂ := ⟨h.1, h.2.trans hq.scopes⟩

theorem Fits.quiet {s s' : State} (h : Fits T returns s.scopes) (hq : s.Quiet s') :
    Fits T returns s'.scopes := hq.scopes ▸ h

/-- What is asked of the notes of a statement: they are on its expressions, and the names that it
declares are in scope. -/
def PutsAll (T : Typing) (returns : DataType) (st : Stmt) (s : State) (notes : List Note) (s' : State) :
    Prop :=
  Typed (st.occurrences T returns) notes ∧ s'.scopes = scopesAfter st s.scopes

theorem writes_statementNode {work : Gen Unit} {Q : List Note → State → Prop}
    (h : Writes work s fun notes _ s' => Q notes s') :
    Writes (statementNode tag kind work) s fun notes _ s' => Q notes s' := by
  refine .bind (writes_nodeEvent (.bind (h.mono fun notes _ s' hq => writes_nodeEvent ?_)))
  simpa using hq

/-- A statement that declares nothing. -/
theorem writes_silentNode {work : Gen Unit} {st : Stmt}
    (hst : st.kind ≠ .declaration ∧ st.kind ≠ .procedure)
    (h : Writes work s fun notes _ s' => Puts (st.occurrences T returns) s notes s') :
    Writes (statementNode tag kind work) s fun notes _ s' => PutsAll T returns st s notes s' := by
  refine writes_statementNode (h.mono fun notes _ s' hq => ?_)
  exact ⟨hq.1, by rw [scopesAfter_eq hst]; exact hq.2⟩

theorem writes_call {name : String} {args : List Expr} (hT : T.Describes s.scopes) :
    Writes (call options tag name args) s fun notes _ s' =>
      Puts (Expr.arguments T.vars args (T.params name)) s notes s' := by
  refine .bind (.bind (.get ?_))
  split
  · exact .fail
  · next p hp =>
    split
    · next hlength =>
      refine .pure (.after (plain_argumentTargets _ _) fun targets s₁ _ hq₁ => ?_)
      have htypes : p.params.map (·.1) = T.params name := (hT.params hp).symm
      have hlength' : args.length = (p.params.map (·.1)).length := by
        rw [List.length_map, hlength]
      have hvalues := writes_argumentValues args _ s₁ hlength' (hq₁.scopes ▸ hT)
      refine .bind (writes_comment (hvalues.closing (fun locations =>
        .bind (.forEach (fun _ => plain_placeArgument) _) fun _ =>
        .bind (.emit ⟨trivial, trivial⟩ rfl) fun _ => .bind (plain_callSaved False.elim) fun _ =>
        .bind (.forEach (fun _ => .release) _) fun _ => plain_restoreParameters) ?_))
      intro notes _ s₂ s₃ hputs hq
      rw [htypes] at hputs
      exact (hputs.behind hq₁).quiet hq
    · exact .fail

theorem writes_assign {v : Variable} {value : Expr} (hT : T.Describes s.scopes) :
    Writes (assign v value) s fun notes _ s' =>
      Puts (value.occurrences T.vars v.type) s notes s' :=
  writes_value hT fun _ => .bind plain_registerOf fun _ => .bind plain_storeVariable fun _ =>
    .release

theorem writes_declaration {name : String} {type : DataType} {init : Option Expr}
    (hT : T.Describes s.scopes) : Writes (declaration options tag name type init) s fun notes _ s' =>
      PutsAll T returns (.declaration tag name type init) s notes s' := by
  refine .bind (.bind (.get ?_))
  cases hs : s.scopes with
  | nil => exact .fail
  | cons scope outer =>
    refine .pure ?_
    dsimp only
    split
    · exact .fail
    · next offset hoffset =>
      have hv : (⟨name, type, .stack offset, scope.stackHeight⟩ : Variable) =
          declaredVariable scope tag name type := by
        rw [declaredVariable, hoffset]
        rfl
      -- the variable is declared behind its value
      have hdeclare : ∀ {notes : List Note} {t : State}, t.scopes = s.scopes →
          Typed ((Stmt.declaration tag name type init).occurrences T returns) notes →
          Writes (modifyScope (·.declare ⟨name, type, .stack offset, scope.stackHeight⟩)) t
            fun notes' _ s' => PutsAll T returns (.declaration tag name type init) s
              (notes ++ notes') s' := by
        intro notes t ht hnotes
        refine writes_modifyScope (ht.trans hs) (fun l hl => ?_) ⟨?_, ?_⟩
        · rw [ht, hs]
          rcases hl.of_declare with hl | hl
          · cases hl
          · exact hl
        · rwa [List.append_nil]
        · rw [hs, scopesAfter, ← hv]
      refine .bind (writes_comment ?_)
      cases init with
      | none => exact @hdeclare [] _ rfl typed_nil
      | some value =>
        exact .bind ((writes_assign hT).mono fun notes _ t hputs => hdeclare hputs.2 hputs.1)

theorem writes_assignment {name : String} {value : Expr} (hT : T.Describes s.scopes) :
    Writes (assignment options tag name value) s fun notes _ s' =>
      Puts (value.occurrences T.vars (T.vars name)) s notes s' := by
  refine .bind (writes_lookup.mono ?_)
  rintro _ v _ ⟨rfl, rfl, hv⟩
  rw [hT.vars hv]
  exact .bind (writes_comment (writes_assign hT))

theorem writes_giveBack {value : Option Expr} (h : Fits T returns s.scopes) :
    Writes (giveBack tag value) s fun notes _ s' =>
      Puts ((Stmt.giveBack tag value).occurrences T returns) s notes s' := by
  refine .bind (.get ?_)
  cases value with
  | none => exact .quiet plain_jump fun _ _ _ hq => ⟨typed_nil, hq.scopes⟩
  | some e =>
    refine .bind ?_
    rw [h.returns, returnValue]
    split
    · exact .fail
    · refine (writes_value h.describes fun _ => .bind plain_registerOf fun _ => .bind plain_copy fun _ =>
        .release).mono fun notes _ s₁ hputs => .quiet plain_jump fun _ s₂ _ hq => ?_
      rw [List.append_nil]
      exact hputs.quiet hq

theorem writes_skipUnless {condition : Expr} {target : Label} (hT : T.Describes s.scopes) :
    Writes (skipUnless condition target) s fun notes _ s' =>
      Puts (condition.occurrences T.vars .int) s notes s' :=
  writes_value hT fun _ => .bind plain_testZero fun _ => .emit (i := .jcc .e target) False.elim rfl

theorem writes_branch {condition : Expr} {thenCode : Gen Unit} (h : Fits T returns s.scopes)
    (hthen : ∀ s : State, Fits T returns s.scopes →
      Writes thenCode s fun notes _ s' => Puts occurrences s notes s') :
    Writes (branch options condition thenCode none) s fun notes _ s' =>
      Puts (condition.occurrences T.vars .int ++ occurrences) s notes s' := by
  refine .after (plain_freshLabel _) fun _ s₁ _ hq₁ => .after (plain_freshLabel _) fun _ s₂ _ hq₂ =>
    .bind (writes_comment (.bind ((writes_skipUnless (h.quiet (hq₁.trans hq₂)).describes).mono ?_)))
  intro notes _ s₃ hputs
  have hputs := hputs.behind (hq₁.trans hq₂)
  refine (hthen s₃ (hputs.2 ▸ h)).closing (fun _ => .emit False.elim rfl) ?_
  intro notes' _ s₄ s₅ hputs' hq
  exact (hputs.trans hputs').quiet hq

theorem writes_branchElse {condition : Expr} {thenCode elseCode : Gen Unit}
    (h : Fits T returns s.scopes)
    (hthen : ∀ s : State, Fits T returns s.scopes →
      Writes thenCode s fun notes _ s' => Puts occurrences s notes s')
    (helse : ∀ s : State, Fits T returns s.scopes →
      Writes elseCode s fun notes _ s' => Puts occurrences' s notes s') :
    Writes (branch options condition thenCode (some elseCode)) s fun notes _ s' =>
      Puts (condition.occurrences T.vars .int ++ (occurrences ++ occurrences')) s notes s' := by
  refine .after (plain_freshLabel _) fun _ s₁ _ hq₁ => .after (plain_freshLabel _) fun _ s₂ _ hq₂ =>
    .bind (writes_comment (.bind ((writes_skipUnless (h.quiet (hq₁.trans hq₂)).describes).mono ?_)))
  intro notes _ s₃ hputs
  have hputs := hputs.behind (hq₁.trans hq₂)
  refine .bind ((hthen s₃ (hputs.2 ▸ h)).mono fun notes' _ s₄ hputs' => ?_)
  refine .after (.emit False.elim rfl) fun _ s₅ _ hq₅ =>
    .after (.emit False.elim rfl) fun _ s₆ _ hq₆ => ?_
  have hputs' := hputs'.quiet (hq₅.trans hq₆)
  have hscopes : s₆.scopes = s.scopes := hputs'.2.trans hputs.2
  refine (helse s₆ (hscopes ▸ h)).closing (fun _ => .emit False.elim rfl) ?_
  intro notes'' _ s₇ s₈ hputs'' hq
  exact (hputs.trans (hputs'.trans hputs'')).quiet hq

theorem writes_loop {condition : Expr} {body : Role → Gen Unit} (h : Fits T returns s.scopes)
    (hbody : ∀ (head start behind : Label) (s : State), Fits T returns s.scopes →
      Writes (body (.loop head start behind)) s fun notes _ s' => Puts occurrences s notes s') :
    Writes (loop options condition body) s fun notes _ s' =>
      Puts (condition.occurrences T.vars .int ++ occurrences) s notes s' := by
  refine .after (plain_freshLabel _) fun head s₁ _ hq₁ => .after (plain_freshLabel _) fun start s₂ _ hq₂ =>
    .after (plain_freshLabel _) fun behind s₃ _ hq₃ => .after (plain_freshLabel _) fun exit s₄ _ hq₄ =>
    .bind (writes_comment (.after (.emit False.elim rfl) fun _ s₅ _ hq₅ => ?_))
  have hq := (((hq₁.trans hq₂).trans hq₃).trans hq₄).trans hq₅
  refine .bind ((writes_skipUnless (h.quiet hq).describes).mono fun notes _ s₆ hputs => ?_)
  have hputs := hputs.behind hq
  refine (hbody head start behind s₆ (hputs.2 ▸ h)).closing (fun _ => .emit False.elim rfl) ?_
  intro notes' _ s₇ s₈ hputs' hq
  exact (hputs.trans hputs').quiet hq

/-- The scope of a block in a role, with the parameters of the role. -/
structure Entered (role : Role) (scope : Scope) : Prop where
  kind : scope.kind = role.scopeKind
  procedures : scope.procedures = .empty
  returns : ∀ {name type params}, role = .procedure name type params → scope.returns = some type
  vars : ∀ {name v}, scope.vars.get? name = some v → ∃ cls, (name, v.type, cls) ∈ role.params

theorem gives_scopeFor {role : Role} {stmts : List Stmt} :
    Step False True [] (fun scope => Entered role scope ∧ scope.vars = .empty)
      (scopeFor role stmts) := by
  have hempty : ∀ {scope : Scope} {name : String} {v : Variable}, scope.vars = .empty →
      scope.vars.get? name = some v → ∃ cls, (name, v.type, cls) ∈ role.params := by
    intro scope name v hvars hv
    rw [hvars] at hv
    cases hv
  refine .bind .get fun s => ?_
  cases role with
  | procedure name type params =>
    refine .bind (plain_freshLabel _) fun behind => .pure ⟨⟨rfl, rfl, ?_, hempty rfl⟩, rfl⟩
    rintro _ _ _ ⟨⟩
    rfl
  | entry | plain | loop head start behind =>
    exact .pure ⟨⟨rfl, rfl, (fun h => by cases h), hempty rfl⟩, rfl⟩

theorem Entered.declared {role : Role} {scope scope' : Scope} (h : Entered role scope)
    (hvars : scope.vars = .empty) (hdeclared : Declared role.params scope scope') :
    Entered role scope' where
  kind := hdeclared.kind.trans h.kind
  procedures := hdeclared.procedures.trans h.procedures
  returns hrole := hdeclared.returns.trans (h.returns hrole)
  vars := by
    intro name v hv
    rcases hdeclared.vars hv with hmem | hv
    · exact hmem
    · rw [hvars] at hv
      cases hv

theorem Entered.vars_eq_empty {role : Role} {scope : Scope} (h : Entered role scope)
    (hparams : role.params = []) : scope.vars = .empty := by
  refine Table.ext_get? fun name => ?_
  rw [Table.get?_empty, Option.eq_none_iff_forall_ne_some]
  intro v hv
  obtain ⟨cls, hmem⟩ := h.vars hv
  rw [hparams] at hmem
  exact absurd hmem List.not_mem_nil

theorem writes_block {role : Role} {stmts : List Stmt} {body : Gen Unit}
    (hbody : ∀ (scope : Scope) (t : State), t.scopes = scope :: s.scopes → Entered role scope →
      Writes body t fun notes _ t' => Typed occurrences notes ∧ t'.scopes.drop 1 = s.scopes) :
    Writes (block role tag stmts body) s fun notes _ s' => Puts occurrences s notes s' := by
  have hrole : role.Neat False := by
    cases role <;> simp [Role.Neat, Neat]
  refine .bind (writes_nodeEvent (.after gives_scopeFor fun scope s₁ hscope hq₁ => ?_))
  obtain ⟨hentered, hvars⟩ := hscope
  refine .bind (.get (.after plain_openFrame fun _ s₂ _ hq₂ => .bind (.modify rfl rfl rfl ?_ ?_)))
  · intro l hl
    rcases ScopeStack.binds_cons.mp hl with ⟨name, v, hv, -⟩ | hl
    · rw [hvars] at hv
      cases hv
    · exact hl
  · refine .bind ((writes_bindParameters role.params _ scope rfl).mono ?_)
    rintro _ parameters s₃ ⟨rfl, scope', hs₃, hdeclared⟩
    have houter : s₂.scopes = s.scopes := (hq₁.trans hq₂).scopes
    rw [houter] at hs₃
    refine .bind ((hbody scope' s₃ hs₃ (hentered.declared hvars hdeclared)).mono ?_)
    rintro notes _ s₄ ⟨hnotes, hdrop⟩
    refine .after (plain_closeFrame hrole fun _ _ => False.elim) fun _ s₅ _ hq₅ =>
      .after plain_setDepth fun _ s₆ _ hq₆ => .bind (.modify rfl rfl rfl ?_ (writes_nodeEvent ?_))
    · exact fun l hl => ScopeStack.Binds.of_drop hl
    · have hscopes : s₆.scopes.drop 1 = s.scopes := by
        rw [(hq₅.trans hq₆).scopes, hdrop]
      exact ⟨by simpa using hnotes, hscopes⟩

theorem drop_scopesAfterAll {body : List Stmt} {scope : Scope} {outer : ScopeStack} :
    (scopesAfterAll body (scope :: outer)).drop 1 = outer := by
  obtain ⟨scope', hafter, -⟩ := exists_scopesAfterAll body scope outer
  rw [hafter]
  rfl

/-- A block that is not the body of a procedure. -/
theorem writes_innerBlock {role : Role} {body : List Stmt} (h : Fits T returns s.scopes)
    (hparams : role.params = []) (hkind : role.scopeKind ≠ .procedure)
    (hbody : ∀ t : State, Fits T returns t.scopes → Writes (statements options body) t
      fun notes _ t' => Typed (Stmt.occurrencesOf T returns body) notes ∧
        t'.scopes = scopesAfterAll body t.scopes) :
    Writes (block role tag body (statements options body)) s fun notes _ s' =>
      Puts (Stmt.occurrencesOf T returns body) s notes s' := by
  refine writes_block fun scope t ht hentered => ?_
  have hvars := hentered.vars_eq_empty hparams
  have hfits : Fits T returns t.scopes :=
    ht ▸ h.inner hvars hentered.procedures (hentered.kind ▸ hkind)
  refine (hbody t hfits).mono fun notes _ t' hputs => ⟨hputs.1, ?_⟩
  rw [hputs.2, ht, drop_scopesAfterAll]

theorem writes_declareProcedure {signature : Signature} {Q : List Note → Unit → State → Prop}
    (hQ : Q [] () { s with scopes := scopesAfter (.procedure tag signature none) s.scopes }) :
    Writes (modifyScope (·.declareProcedure signature.procedure)) s Q := by
  cases hs : s.scopes with
  | nil =>
    have hfail : (modifyScope (·.declareProcedure signature.procedure) s).result =
        .error (.semantic none .noEnclosingBlock) := by
      simp only [modifyScope, Bind.bind, Stage.bind, Stage.get, hs, ScopeStack.modifyCurrent]
      rfl
    intro _ a ha
    rw [hfail] at ha
    cases ha
  | cons scope outer =>
    rw [hs] at hQ
    refine writes_modifyScope hs (fun l hl => ?_) hQ
    rw [hs]
    exact hl.of_cons rfl

/-- The code of an external procedure declares it, and imports its name. -/
theorem writes_external {signature : Signature} (hexternal : signature.external = true) :
    Writes (procedure tag signature none) s fun notes _ s' =>
      PutsAll T returns (.procedure tag signature none) s notes s' := by
  refine .bind (@writes_declareProcedure s tag signature _ ?_)
  rw [if_pos hexternal]
  have hsame : ∀ t : State, (if t.externs.contains signature.name then t else
      { t with externs := t.externs ++ [signature.name] }).scopes = t.scopes := by
    intro t
    split <;> rfl
  refine .modify ?_ ?_ ?_ (fun l hl => hsame _ ▸ hl) ⟨typed_nil, hsame _⟩
  all_goals split <;> rfl

theorem writes_checkRegisters {Q : List Note → Unit → State → Prop} (h : Q [] () s) :
    Writes (checkRegisters options) s Q := by
  intro hs
  rw [checkRegisters_of_good hs]
  exact Writes.pure (a := ()) h hs

mutual

/-- Code for a statement leaves notes on its expressions. -/
theorem writes_statement : ∀ (st : Stmt) {inLoop : Bool} {names : List NameScope} (T : Typing)
    (s : State), st.WellFormed inLoop names → Fits T returns s.scopes →
    Writes (statement options st) s fun notes _ s' => PutsAll T returns st s notes s'
  | .block _ body, _, _, T, _, hwf, h => by
    refine writes_silentNode (by simp [Stmt.kind]) (.bind (writes_comment ?_))
    exact writes_innerBlock h rfl (by simp [Role.scopeKind]) fun t ht => writes_statements body T t hwf.2 ht
  | .procedure tag signature body, _, _, T, s, hwf, h => by
    obtain ⟨hexternal, rfl⟩ := hwf
    exact writes_statementNode (writes_external hexternal)
  | .call _ _ _, _, _, _, _, _, h => writes_silentNode (by simp [Stmt.kind]) (writes_call h.describes)
  | .declaration _ _ _ _, _, _, _, _, _, h => writes_statementNode (writes_declaration h.describes)
  | .assignment _ _ _, _, _, _, _, _, h =>
    writes_silentNode (by simp [Stmt.kind]) (writes_assignment h.describes)
  | .branch _ _ thenBranch none, _, _, T, _, hwf, h =>
    writes_silentNode (by simp [Stmt.kind]) (writes_branch h fun t ht =>
      writes_blockOf thenBranch T t .plain hwf.2.1 hwf.2.2 rfl (by simp [Role.scopeKind]) ht)
  | .branch _ _ thenBranch (some elseBranch), _, _, T, _, hwf, h => by
    obtain ⟨-, ⟨hkind, hthen⟩, helse, hwf⟩ := hwf
    have hthen : ∀ t : State, Fits T returns t.scopes → Writes (blockOf options thenBranch .plain) t
        fun notes _ t' => Puts (thenBranch.occurrences T returns) t notes t' := fun t ht =>
      writes_blockOf thenBranch T t .plain hkind hthen rfl (by simp [Role.scopeKind]) ht
    -- a block behind `else` has no report of its own, all else is a statement
    cases elseBranch with
    | block elseTag body =>
      refine writes_silentNode (by simp [Stmt.kind]) (writes_branchElse h hthen fun t ht => ?_)
      exact writes_innerBlock ht rfl (by simp [Role.scopeKind]) fun t ht => writes_statements body T t hwf.2 ht
    | branch tag condition thenBranch elseBranch =>
      refine writes_silentNode (by simp [Stmt.kind]) (writes_branchElse h hthen fun t ht => ?_)
      refine (writes_statement (.branch tag condition thenBranch elseBranch) T t hwf ht).mono ?_
      intro notes _ t' hputs
      exact ⟨hputs.1, hputs.2.trans (scopesAfter_eq (by simp [Stmt.kind]))⟩
    | expression => exact hwf.elim
    | _ => rcases helse with helse | helse <;> cases helse
  | .loop _ _ body, _, _, T, _, hwf, h =>
    writes_silentNode (by simp [Stmt.kind]) (writes_loop h fun head start behind t ht =>
      writes_blockOf body T t (.loop head start behind) hwf.2.1 hwf.2.2 rfl (by simp [Role.scopeKind]) ht)
  | .continueLoop _, _, _, _, _, _, _ => writes_silentNode (by simp [Stmt.kind])
    (.quiet plain_jump fun _ _ _ hq => ⟨typed_nil, hq.scopes⟩)
  | .breakLoop _, _, _, _, _, _, _ => writes_silentNode (by simp [Stmt.kind])
    (.quiet plain_jump fun _ _ _ hq => ⟨typed_nil, hq.scopes⟩)
  | .giveBack _ _, _, _, _, _, _, h => writes_silentNode (by simp [Stmt.kind]) (writes_giveBack h)
  | .expression _, _, _, _, _, hwf, _ => hwf.elim

theorem writes_statements : ∀ (body : List Stmt) {inLoop : Bool} {names : List NameScope} (T : Typing)
    (s : State), Stmt.AllWellFormed inLoop names body → Fits T returns s.scopes →
    Writes (statements options body) s fun notes _ s' =>
      Typed (Stmt.occurrencesOf T returns body) notes ∧ s'.scopes = scopesAfterAll body s.scopes
  | [], _, _, _, _, _, _ => .pure ⟨typed_nil, rfl⟩
  | first :: rest, _, _, T, s, hwf, h => by
    refine .bind ((writes_statement first T s hwf.1 h).mono fun notes _ s₁ hputs => ?_)
    refine .bind (writes_checkRegisters ?_)
    refine (writes_statements rest (T.after first) s₁ hwf.2 (hputs.2 ▸ h.after first)).mono ?_
    rintro notes' _ s₂ ⟨hnotes, hscopes⟩
    refine ⟨hputs.1.append hnotes, ?_⟩
    rw [hscopes, hputs.2]
    rfl

theorem writes_blockOf : ∀ (st : Stmt) {inLoop : Bool} {names : List NameScope} (T : Typing) (s : State)
    (role : Role), st.kind = .block → st.WellFormed inLoop names → role.params = [] →
    role.scopeKind ≠ .procedure → Fits T returns s.scopes → Writes (blockOf options st role) s
      fun notes _ s' => Puts (st.occurrences T returns) s notes s'
  | .block _ body, _, _, T, _, _, _, hwf, hparams, hrole, h =>
    writes_innerBlock h hparams hrole fun t ht => writes_statements body T t hwf.2 ht
  | .procedure .., _, _, _, _, _, hkind, _, _, _, _ => by cases hkind
  | .call .., _, _, _, _, _, hkind, _, _, _, _ => by cases hkind
  | .declaration .., _, _, _, _, _, hkind, _, _, _, _ => by cases hkind
  | .assignment .., _, _, _, _, _, hkind, _, _, _, _ => by cases hkind
  | .branch .., _, _, _, _, _, hkind, _, _, _, _ => by cases hkind
  | .loop .., _, _, _, _, _, hkind, _, _, _, _ => by cases hkind
  | .continueLoop .., _, _, _, _, _, hkind, _, _, _, _ => by cases hkind
  | .breakLoop .., _, _, _, _, _, hkind, _, _, _, _ => by cases hkind
  | .giveBack .., _, _, _, _, _, hkind, _, _, _, _ => by cases hkind
  | .expression .., _, _, _, _, _, _, hwf, _, _, _ => hwf.elim

end

end Statements

/-! ### Programs -/

section Programs

variable {options : Options} {source : String} {ast : Ast} {s : State} {T : Typing} {tag : Tag}
  {scope : Scope}

/-- In the body of a procedure its parameters are the only variables. -/
theorem fits_enter {signature : Signature} {outer : ScopeStack}
    (hentered : Entered (.procedure signature.name signature.returns signature.bindings) scope)
    (hnodup : (signature.params.map (·.name)).Nodup) (hT : T.Describes outer)
    (houter : ∀ name, outer.findVariable? name = none) :
    Fits (T.enter signature) signature.returns (scope :: outer) := by
  refine ⟨⟨fun {name v} hv => ?_, fun hp => hT.params ?_⟩, ?_⟩
  · cases hget : scope.vars.get? name with
    | none =>
      rw [findVariable?_cons_none hget, houter] at hv
      cases hv
    | some v' =>
      rw [findVariable?_cons_some hget] at hv
      obtain rfl := Option.some.inj hv
      obtain ⟨cls, hmem⟩ := hentered.vars hget
      obtain ⟨⟨p, cls'⟩, hp, heq⟩ := List.mem_map.mp hmem
      obtain ⟨rfl, htype⟩ := Prod.mk.inj heq
      rw [Typing.vars_enter hnodup (List.of_mem_zip hp).1]
      exact (Prod.mk.inj htype).1
  · rwa [findProcedure?_cons_empty hentered.procedures] at hp
  · have hkind : scope.kind = .procedure := hentered.kind
    rw [procedureScope?_cons, if_pos hkind, Option.bind_some, hentered.returns rfl]
    rfl

theorem writes_procedure {names : List NameScope} {signature : Signature} {bodyTag : Tag}
    {body : List Stmt} (hexternal : signature.external = false)
    (hnodup : (signature.params.map (·.name)).Nodup)
    (hwf : Stmt.BodyWellFormed names signature body) (hs : s.scopes = [scope])
    (hvars : scope.vars = .empty) (hT : T.Describes s.scopes) :
    Writes (procedure tag signature (some (blockOf options (.block bodyTag body)))) s
      fun notes _ s' =>
        PutsAll T .int (.procedure tag signature (some (.block bodyTag body))) s notes s' := by
  refine .bind (@writes_declareProcedure s tag signature _ ?_)
  rw [if_neg (by simp [hexternal]), hs, scopesAfter]
  refine .bind (.bind (.get (.pure ?_)))
  split
  · refine .after (.emit False.elim rfl) fun _ s₁ _ hq₁ => .after (.emit False.elim rfl) fun _ s₂ _ hq₂ =>
      .after plain_setDepth fun _ s₃ _ hq₃ => ?_
    have hscopes : s₃.scopes = [scope.declareProcedure signature.procedure] :=
      ((hq₁.trans hq₂).trans hq₃).scopes
    have hT' : (T.after (.procedure tag signature none)).Describes s₃.scopes := by
      have hafter := hT.after (.procedure tag signature none)
      rwa [hs, scopesAfter, ← hscopes] at hafter
    have houter : ∀ name, s₃.scopes.findVariable? name = none := by
      intro name
      rw [hscopes]
      simp [ScopeStack.findVariable?, Scope.declareProcedure, hvars]
    -- the body is read with the parameters in scope
    have hbody : Writes (block (.procedure signature.name signature.returns signature.bindings) bodyTag
        body (statements options body)) s₃ fun notes _ s' => Puts (Stmt.occurrencesOf
          ((T.after (.procedure tag signature none)).enter signature) signature.returns body)
          s₃ notes s' := by
      refine writes_block fun inner t ht hentered => ?_
      have hfits := fits_enter hentered hnodup hT' houter
      rw [← ht] at hfits
      refine (writes_statements body _ t hwf.2 hfits).mono fun notes _ t' hputs => ⟨hputs.1, ?_⟩
      rw [hputs.2, ht, drop_scopesAfterAll]
    refine hbody.closing (fun _ => plain_setDepth) fun notes _ s₄ s₅ hputs hq => ?_
    refine ⟨hputs.1, ?_⟩
    rw [hq.scopes, hputs.2, hscopes, hs, scopesAfter]
  · exact .fail

theorem writes_procedures : ∀ (procs : List Stmt) {names : List NameScope} (T : Typing) (s : State)
    (scope : Scope), Stmt.ProceduresWellFormed names procs → s.scopes = [scope] → scope.vars = .empty →
    T.Describes s.scopes → Writes (statements options procs) s fun notes _ s' =>
      Typed (Stmt.occurrencesOf T .int procs) notes ∧ s'.scopes.drop 1 = []
  | [], _, _, s, scope, _, hs, _, _ => .pure ⟨typed_nil, by rw [hs]; rfl⟩
  | first :: rest, names, T, s, scope, hwf, hs, hvars, hT => by
    have hfirst : (∃ tag signature body, first = .procedure tag signature body) ∧
        Writes (statement options first) s fun notes _ s' => PutsAll T .int first s notes s' := by
      have hproc := hwf.1
      obtain ⟨tag, signature, rfl⟩ | ⟨tag, signature, bodyTag, body, rfl⟩ := hwf.1.shape
      · exact ⟨⟨_, _, _, rfl⟩, writes_statementNode (writes_external hproc.1)⟩
      · exact ⟨⟨_, _, _, rfl⟩, writes_statementNode
          (writes_procedure hproc.1 hproc.2.2.2.1 hproc.2.2.2.2 hs hvars hT)⟩
    obtain ⟨⟨tag, signature, body, rfl⟩, hfirst⟩ := hfirst
    refine .bind (hfirst.mono fun notes _ s₁ hputs => .bind (writes_checkRegisters ?_))
    have hs₁ : s₁.scopes = [scope.declareProcedure signature.procedure] := by
      rw [hputs.2, hs, scopesAfter]
    have hrest := writes_procedures rest (T.after (.procedure tag signature body)) s₁ _ hwf.2 hs₁ hvars
      (hputs.2 ▸ hT.after _)
    exact hrest.mono fun notes' _ s₂ hputs' => ⟨hputs.1.append hputs'.1, hputs'.2⟩

/-- Code generation for a program that was read leaves notes on its expressions. -/
theorem exists_notes {tokens : List Token} (hparse : parse tokens = .ok ast) {p : Program}
    (hgen : (generate options source ast).result = .ok p) :
    ∃ notes, Typed ast.occurrences notes ∧ Records {} (generate options source ast).marks
      (generate options source ast).state notes := by
  obtain ⟨rootTag, procs, hroot, hwf⟩ := wellFormed_of_parse hparse
  have hprogram : Writes (program options ast) {} fun notes _ s' =>
      Puts (Stmt.occurrencesOf .none .int procs) {} notes s' := by
    unfold program
    rw [hroot]
    refine writes_block fun scope t ht hentered => ?_
    have hvars : scope.vars = .empty := hentered.vars_eq_empty rfl
    have hT : Typing.none.Describes t.scopes := by
      rw [ht]
      refine Typing.Describes.inner ?_ hvars hentered.procedures
      constructor <;> intros <;> contradiction
    exact writes_procedures procs .none t scope hwf ht hvars hT
  obtain ⟨notes, hrecords, -, hputs⟩ := hprogram good_init () (ok_generate hgen).1
  refine ⟨notes, ?_, hrecords⟩
  rw [Ast.occurrences, hroot]
  exact hputs.1

/-- Each note is on an expression. -/
theorem Typed.map_fst {os : List Occurrence} {notes : List Note} (h : Typed os notes) :
    notes.map (·.1) = os.map (·.expr.tag.id) := by
  induction h with
  | nil => rfl
  | cons hhead _ ih => rw [List.map_cons, List.map_cons, ih, hhead.1]

theorem Typed.exists_of_mem {os : List Occurrence} {notes : List Note} (h : Typed os notes)
    {o : Occurrence} (ho : o ∈ os) :
    ∃ a, (o.expr.tag.id, a) ∈ notes ∧ HasType o.vars o.context o.expr a.type := by
  induction h with
  | nil => exact absurd ho List.not_mem_nil
  | @cons o' note _ _ hhead _ ih =>
    rcases List.mem_cons.mp ho with rfl | ho
    · exact ⟨note.2, hhead.1 ▸ List.mem_cons_self, hhead.2⟩
    · obtain ⟨a, hmem, htype⟩ := ih ho
      exact ⟨a, List.mem_cons_of_mem _ hmem, htype⟩

/-- What code generation has put down of the expressions of a program that was read, if it has succeeded.
The nodes with a handle and a type are the expression nodes; the type of each is the type of the
expression at its place in the program.  No two nodes have the same handle, and none has that of a
parameter. -/
theorem annotations_complete {tokens : List Token} (hparse : parse tokens = .ok ast) {p : Program}
    (hgen : (generate options source ast).result = .ok p) :
    ast.occurrences.map (·.expr) = ast.nodes.toList.filterMap Node.expr? ∧
    (∀ id, ((generate options source ast).state.annotations.get? id).isSome ↔
      ∃ e, ast.nodes[id]? = some (.expr e)) ∧
    (∀ o ∈ ast.occurrences, ∃ a,
      (generate options source ast).state.annotations.get? o.expr.tag.id = some a ∧
      ∀ type, HasType o.vars o.context o.expr type ↔ type = a.type) ∧
    (∀ id id' a a', (generate options source ast).state.annotations.get? id = some a →
      (generate options source ast).state.annotations.get? id' = some a' →
      a.location = a'.location → id = id') ∧
    ∀ id a, (generate options source ast).state.annotations.get? id = some a →
      ∀ m s l, (m, s) ∈ (generate options source ast).marks → s.scopes.Binds l → a.location ≠ l := by
  obtain ⟨root, hpost⟩ := Parsing.postordered_of_parse hparse
  obtain ⟨notes, htyped, hrecords⟩ := exists_notes hparse hgen
  have hids : notes.map (·.1) = ast.occurrences.map (·.expr.tag.id) := htyped.map_fst
  have hget : ∀ {id a}, (generate options source ast).state.annotations.get? id = some a ↔
      (id, a) ∈ notes := by
    intro id a
    rw [hrecords.annotations, get?_noteAll (hids ▸ hpost.nodup_occurrences)]
    simp
  refine ⟨hpost.exprs_eq, fun id => ?_, fun o ho => ?_, fun id id' a a' ha ha' heq => ?_,
    fun id a ha m s l hm hl heq => ?_⟩
  · rw [← hpost.mem_occurrences_iff, ← hids, List.mem_map, Option.isSome_iff_exists]
    simp only [hget]
    constructor
    · rintro ⟨a, ha⟩
      exact ⟨_, ha, rfl⟩
    · rintro ⟨note, hnote, rfl⟩
      exact ⟨note.2, hnote⟩
  · obtain ⟨a, ha, htype⟩ := htyped.exists_of_mem ho
    exact ⟨a, hget.mpr ha, fun type => ⟨fun h => h.unique htype, fun h => h ▸ htype⟩⟩
  · have hnote := List.inj_on_of_nodup_map hrecords.nodup (hget.mp ha) (hget.mp ha') heq
    exact congrArg Prod.fst hnote
  · rcases hrecords.bound s (.inr ⟨m, hm⟩) l hl with ⟨scope, hscope, -⟩ | ⟨-, hnot⟩
    · exact absurd hscope List.not_mem_nil
    · exact hnot (heq ▸ List.mem_map_of_mem (hget.mp ha))

/-- The sum of two bytes behind a block with an integer of the same name is a byte. -/
theorem annotations_complete_shadowed : ∃ tokens ast o a,
    tokenize "t.mc" "void f(u8 a) \x7b u8 x = 1; \x7b int x = a + x; \x7d a = a + x; \x7d" = .ok tokens ∧
    parse tokens = .ok ast ∧ o ∈ ast.occurrences ∧ o.expr.tag.id = 9 ∧ o.expr.kind = .binary ∧
    (generate {} "t.mc" ast).state.annotations.get? o.expr.tag.id = some a ∧
    HasType o.vars o.context o.expr .u8 ∧ a.type = .u8 := by
  have hpasses : passes "t.mc" "void f(u8 a) \x7b u8 x = 1; \x7b int x = a + x; \x7d a = a + x; \x7d"
      (fun ast => (generate {} "t.mc" ast).result.toBool ∧ ast.occurrences.any fun o =>
        o.expr.tag.id = 9 ∧ o.expr.kind = .binary ∧
          ((generate {} "t.mc" ast).state.annotations.get? o.expr.tag.id).map (·.type) = some .u8) =
      true := by
    decide +kernel
  obtain ⟨tokens, ast, htokens, hparse, htest⟩ := exists_of_passes hpasses
  obtain ⟨hok, hany⟩ := of_decide_eq_true htest
  obtain ⟨o, ho, htest⟩ := List.any_eq_true.mp hany
  obtain ⟨hid, hkind, htype⟩ := of_decide_eq_true htest
  cases hgen : (generate {} "t.mc" ast).result with
  | error e =>
    rw [hgen] at hok
    cases hok
  | ok p =>
    obtain ⟨-, -, htyped, -⟩ := annotations_complete hparse hgen
    obtain ⟨a, ha, hiff⟩ := htyped o ho
    rw [ha] at htype
    have hbyte : a.type = .u8 := Option.some.inj htype
    exact ⟨tokens, ast, o, a, htokens, hparse, ho, hid, hkind, ha, (hiff .u8).mpr hbyte.symm, hbyte⟩

end Programs

end ProcLang.Generation

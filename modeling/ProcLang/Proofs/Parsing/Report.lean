import ProcLang.Parsing.Program
import ProcLang.Proofs.Observer.Bracket
import ProcLang.Proofs.Stage

/-!
The reports of a reading of tokens.  Whatever is read and whether it succeeds or not, every report is
the start or the end of a node.  A reading of a part leaves open the nodes that were open before it; the
ends come in the order in which the nodes are numbered, each with the place of its start.
-/

namespace ProcLang.Parsing

open Stage (Law Nests)

/-- The report of the start of a node. -/
def startEvent (span : Span) : Event := { mode := .parser, happening := .nodeStart, span := some span }

/-- The end of the node with a number has the place of its start. -/
def Ends (n : Nat) (start stop : Event) : Prop := stop.span = start.span ∧ stop.node = some n

/-- A reading reports starts and ends of nodes only, and does not end itself by a cancellation. -/
def law : Law Event State where
  state _ := True
  mark event := event.mode = .parser ∧ (event.happening = .nodeStart ∨ event.happening = .nodeEnd)
  error e := e ≠ .cancelled
  change _ _ := True
  refl _ := trivial
  trans _ _ := trivial

/-- The reading leads from some open nodes to others. -/
structure Opens {α : Type} (opened opened' : List Event) (x : Parser α) : Prop where
  keeps : law.Keeps x
  nests : ∀ s : State, Nests some Ends x s opened s.ast.size fun _ s' nodes n =>
    nodes = opened' ∧ n = s'.ast.size

namespace Opens

variable {α β : Type} {opened opened' opened'' : List Event} {x y : Parser α} {f : α → Parser β}

theorem pure {a : α} : Opens opened opened (Pure.pure a : Parser α) where
  keeps := .pure trivial
  nests _ := Stage.nests_of_forall (fun _ hp => absurd hp List.not_mem_nil) fun _ _ => ⟨rfl, rfl⟩

theorem fail {e : CompileError} (h : e ≠ .cancelled) : Opens opened opened' (Stage.fail e : Parser α) where
  keeps := .fail h
  nests _ := Stage.nests_of_forall (fun _ hp => absurd hp List.not_mem_nil) fun _ ha => by cases ha

theorem get : Opens opened opened (Stage.get : Parser State) where
  keeps := Law.Gives.get.keeps
  nests _ := Stage.nests_of_forall (fun _ hp => absurd hp List.not_mem_nil) fun _ _ => ⟨rfl, rfl⟩

/-- A change that makes no node. -/
theorem modify {g : State → State} (h : ∀ s, (g s).ast = s.ast) :
    Opens opened opened (Stage.modify g : Parser Unit) where
  keeps := .modify fun _ _ => ⟨trivial, trivial⟩
  nests s := Stage.nests_of_forall (fun _ hp => absurd hp List.not_mem_nil) fun _ _ =>
    ⟨rfl, congrArg Ast.size (h s).symm⟩

theorem bind (hx : Opens opened opened' x) (hf : ∀ a, Opens opened' opened'' (f a)) :
    Opens opened opened'' (x >>= f) where
  keeps := .bind hx.keeps fun a => (hf a).keeps
  nests s := by
    obtain ⟨nodes, n, hleads, hvalue⟩ := hx.nests s
    refine Stage.nests_bind ⟨nodes, n, hleads, fun a ha => ?_⟩
    obtain ⟨rfl, rfl⟩ := hvalue a ha
    exact (hf a).nests _

theorem map {g : α → β} (hx : Opens opened opened' x) : Opens opened opened' (g <$> x) := by
  rw [map_eq_pure_bind]
  exact hx.bind fun _ => pure

theorem ite {c : Prop} [Decidable c] (hx : Opens opened opened' x) (hy : Opens opened opened' y) :
    Opens opened opened' (if c then x else y) := by
  split
  · exact hx
  · exact hy

/-- Two ways to a value, and one way on from it. -/
theorem ite_bind {c : Prop} [Decidable c] (hx : Opens opened opened' x) (hy : Opens opened opened' y)
    (hf : ∀ a, Opens opened' opened'' (f a)) :
    Opens opened opened'' (if c then x >>= f else y >>= f) :=
  ite (bind hx hf) (bind hy hf)

end Opens

/-! ### Steps of a reading -/

section Steps

variable {α : Type} {opened opened' : List Event} {span : Span}

theorem opens_current : Opens opened opened current := .bind .get fun _ => .pure

theorem opens_remaining : Opens opened opened remaining := .bind .get fun _ => .pure

theorem opens_advance : Opens opened opened advance :=
  .bind opens_current fun _ => .bind (.modify fun _ => rfl) fun _ => .pure

theorem opens_unexpected {wanted : Wanted} : Opens opened opened' (unexpected wanted : Parser α) :=
  .bind opens_current fun _ => .fail fun h => by cases h

theorem opens_refuse {cause : SemanticCause} : Opens opened opened' (refuse span cause : Parser α) :=
  .fail fun h => by cases h

theorem opens_spent : Opens opened opened' (spent : Parser α) := .fail fun h => by cases h

theorem opens_accept {kind : TokenKind} : Opens opened opened (accept kind) :=
  .bind opens_current fun _ => .ite (.bind opens_advance fun _ => .pure) .pure

theorem opens_expect {kind : TokenKind} : Opens opened opened (expect kind) :=
  .bind opens_current fun _ => .ite opens_advance opens_unexpected

theorem opens_begin : Opens opened (startEvent span :: opened) (begin span) where
  keeps := .mark ⟨rfl, .inl rfl⟩
  nests _ := Stage.nests_start rfl rfl ⟨rfl, rfl⟩

/-- The making of a node ends the innermost open node, if it started in the same place. -/
theorem opens_finish (node : Tag → Node) (value : Tag → α) (hnode : ∀ tag, (node tag).tag = tag) :
    Opens (startEvent span :: opened) opened (do
      let tag ← nextTag span
      addNode (node tag)
      return value tag) where
  keeps := by
    have htag : law.Keeps (nextTag span) := .bind .get fun _ => .pure trivial
    have hadd : ∀ node, law.Keeps (addNode node) := fun _ =>
      .bind (.modify fun _ _ => ⟨trivial, trivial⟩) fun _ => .mark ⟨rfl, .inr rfl⟩
    exact .bind htag fun _ => .bind (hadd _) fun _ => .pure trivial
  nests s := by
    refine ⟨opened, s.ast.size + 1, ?_, fun a _ => ⟨rfl, ?_⟩⟩
    · refine .stop rfl ⟨?_, ?_⟩ .nil
      · exact congrArg (fun tag : Tag => some tag.span) (hnode ⟨s.ast.size, span⟩)
      · exact congrArg (fun tag : Tag => some tag.id) (hnode ⟨s.ast.size, span⟩)
    · exact (Array.size_push (node ⟨s.ast.size, span⟩)).symm

theorem opens_finishExpr {build : Tag → Expr} (hbuild : ∀ tag, (build tag).tag = tag) :
    Opens (startEvent span :: opened) opened (finishExpr span build) :=
  opens_finish (fun tag => .expr (build tag)) build hbuild

theorem opens_finishStmt {build : Tag → Stmt} (hbuild : ∀ tag, (build tag).tag = tag) :
    Opens (startEvent span :: opened) opened (finishStmt span build) :=
  opens_finish (fun tag => .stmt (build tag)) build hbuild

end Steps

/-! ### Expressions -/

section Expressions

variable {operand : Parser Expr}

theorem opens_chain (h : ∀ opened, Opens opened opened operand) (ops : Level) (opened : List Event) :
    ∀ (bound : Nat) (lhs : Expr), Opens opened opened (chain ops operand bound lhs)
  | 0, _ => opens_spent
  | bound + 1, lhs => by
    refine .bind opens_current fun token => ?_
    split
    · exact .pure
    · exact .bind opens_advance fun _ => .bind opens_begin fun _ => .bind (h _) fun _ =>
        .bind (opens_finishExpr fun _ => rfl) fun node => opens_chain h ops opened bound node

theorem opens_ladder (h : ∀ opened, Opens opened opened operand) :
    ∀ (levels : List Level) (opened : List Event), Opens opened opened (ladder operand levels)
  | [], opened => h opened
  | ops :: tighter, opened =>
    .bind (opens_ladder h tighter opened) fun lhs => .bind opens_remaining fun bound =>
      opens_chain (opens_ladder h tighter) ops opened bound lhs

theorem opens_primary {opened : List Event} (h : ∀ opened, Opens opened opened operand) :
    Opens opened opened (primary operand) := by
  refine .bind opens_current fun token => ?_
  split
  · exact .bind opens_begin fun _ => .bind opens_advance fun _ => opens_finishExpr fun _ => rfl
  · exact .bind opens_begin fun _ => .bind opens_advance fun _ => opens_finishExpr fun _ => rfl
  · exact .bind opens_begin fun _ => .bind opens_advance fun _ => .bind .get fun _ =>
      .ite (opens_finishExpr fun _ => rfl) opens_refuse
  · exact .bind opens_advance fun _ => .bind (h _) fun _ => .bind opens_expect fun _ => .pure
  · exact opens_unexpected

theorem opens_unary : ∀ (bound : Nat) (opened : List Event), Opens opened opened (unary bound)
  | 0, _ => opens_spent
  | bound + 1, opened => by
    refine .bind opens_current fun token => ?_
    split
    · exact .bind opens_advance fun _ => .bind opens_begin fun _ => .bind (opens_unary bound _) fun _ =>
        opens_finishExpr fun _ => rfl
    · exact opens_primary (opens_ladder (opens_unary bound) levels)

theorem opens_expression {opened : List Event} : Opens opened opened expression :=
  .bind opens_remaining fun _ => opens_ladder (opens_unary _) levels opened

end Expressions

/-! ### Statements -/

section Statements

variable {opened : List Event}

theorem opens_typeName : Opens opened opened typeName := by
  refine .bind opens_advance fun token => ?_
  split
  · exact .pure
  · exact .fail fun h => by cases h

theorem opens_declareVariable {name : String} {span : Span} :
    Opens opened opened (declareVariable name span) :=
  .bind .get fun _ => .ite opens_refuse (.modify fun _ => rfl)

theorem opens_declareProcedure {name : String} {span : Span} :
    Opens opened opened (declareProcedure name span) :=
  .bind .get fun _ => .ite opens_refuse (.modify fun _ => rfl)

section Blocks

variable {statement : Parser Stmt} {blockReader : Parser Stmt}

theorem opens_statements (h : Opens opened opened statement) :
    ∀ bound : Nat, Opens opened opened (statements statement bound)
  | 0 => opens_spent
  | bound + 1 =>
    .bind opens_current fun _ => .ite .pure
      (.bind h fun _ => .bind (opens_statements h bound) fun _ => .pure)

theorem opens_block (h : ∀ opened, Opens opened opened statement) (declared : List String)
    (opened : List Event) : Opens opened opened (block statement declared) :=
  .bind opens_current fun _ => .bind opens_begin fun _ => .bind opens_expect fun _ =>
    .bind (.modify fun _ => rfl) fun _ => .bind opens_remaining fun bound =>
    .bind (opens_statements (h _) bound) fun _ => .bind opens_expect fun _ =>
    .bind (.modify fun _ => rfl) fun _ => opens_finishStmt fun _ => rfl

theorem opens_condition : Opens opened opened condition :=
  .bind opens_expect fun _ => .bind opens_expression fun _ => .bind opens_expect fun _ => .pure

theorem opens_branch (h : ∀ opened, Opens opened opened blockReader) :
    ∀ (bound : Nat) (opened : List Event), Opens opened opened (branch blockReader bound)
  | 0, _ => opens_spent
  | bound + 1, opened => by
    refine .bind opens_current fun _ => .bind opens_begin fun _ => .bind opens_expect fun _ =>
      .bind opens_condition fun _ => .bind (h _) fun _ => .bind opens_accept fun _ =>
      .ite (.bind opens_current fun token => ?_) (opens_finishStmt fun _ => rfl)
    split
    · exact .bind (opens_branch h bound _) fun _ => opens_finishStmt fun _ => rfl
    · exact .bind (h _) fun _ => opens_finishStmt fun _ => rfl
    · exact .bind opens_unexpected fun _ => opens_finishStmt fun _ => rfl

theorem opens_loop (h : ∀ opened, Opens opened opened blockReader) :
    Opens opened opened (loop blockReader) :=
  .bind opens_current fun _ => .bind opens_begin fun _ => .bind opens_expect fun _ =>
    .bind opens_condition fun _ => .bind (h _) fun _ => opens_finishStmt fun _ => rfl

end Blocks

theorem opens_parameters : ∀ (bound : Nat) (earlier : List Parameter),
    Opens opened opened (parameters bound earlier)
  | 0, _ => opens_spent
  | bound + 1, _ =>
    .bind opens_typeName fun _ => .bind opens_expect fun _ => .ite opens_refuse (.ite opens_refuse
      (.bind opens_accept fun _ => .ite (opens_parameters bound _) .pure))

theorem opens_parameterList : Opens opened opened parameterList :=
  .bind opens_current fun _ => .bind opens_remaining fun _ =>
    .ite_bind .pure (opens_parameters _ _) fun _ => .bind opens_expect fun _ => .pure

theorem opens_procedure {body : List String → Parser Stmt}
    (h : ∀ params opened, Opens opened opened (body params)) : Opens opened opened (procedure body) :=
  .bind opens_current fun _ => .bind opens_begin fun _ => .bind opens_accept fun _ =>
    .bind opens_typeName fun _ => .bind opens_expect fun _ => .bind opens_expect fun _ =>
    .bind opens_parameterList fun _ => .bind opens_declareProcedure fun _ =>
    .ite (.bind opens_expect fun _ => opens_finishStmt fun _ => rfl)
      (.bind (h _ _) fun _ => opens_finishStmt fun _ => rfl)

theorem opens_declaration : Opens opened opened declaration :=
  .bind opens_current fun _ => .bind opens_begin fun _ => .bind opens_typeName fun _ =>
    .bind opens_expect fun _ => .ite opens_refuse
      (.bind opens_accept fun _ => .ite_bind (.map opens_expression) .pure fun _ =>
        .bind opens_expect fun _ => .bind opens_declareVariable fun _ =>
        opens_finishStmt fun _ => rfl)

theorem opens_assignment : Opens opened opened assignment :=
  .bind opens_current fun _ => .bind opens_begin fun _ => .bind opens_expect fun _ =>
    .bind .get fun _ => .ite
      (.bind opens_expect fun _ => .bind opens_expression fun _ => .bind opens_expect fun _ =>
        opens_finishStmt fun _ => rfl)
      opens_refuse

theorem opens_arguments : ∀ bound : Nat, Opens opened opened (arguments bound)
  | 0 => opens_spent
  | bound + 1 =>
    .bind opens_expression fun _ => .bind opens_accept fun _ =>
      .ite (.bind (opens_arguments bound) fun _ => .pure) .pure

theorem opens_argumentList : Opens opened opened argumentList :=
  .bind opens_current fun _ => .bind opens_remaining fun _ =>
    .ite_bind .pure (opens_arguments _) fun _ => .bind opens_expect fun _ => .pure

theorem opens_call : Opens opened opened call :=
  .bind opens_current fun _ => .bind opens_begin fun _ => .bind opens_expect fun _ =>
    .bind .get fun _ => .ite
      (.bind opens_expect fun _ => .bind opens_argumentList fun _ => .bind opens_expect fun _ =>
        opens_finishStmt fun _ => rfl)
      opens_refuse

theorem opens_jump {inLoop : Bool} {kind : Jump} {build : Tag → Stmt}
    (hbuild : ∀ tag, (build tag).tag = tag) : Opens opened opened (jump inLoop kind build) :=
  .bind opens_current fun _ => .bind opens_begin fun _ => .bind opens_advance fun _ =>
    .ite (.bind opens_expect fun _ => opens_finishStmt hbuild) opens_refuse

theorem opens_giveBack : Opens opened opened giveBack :=
  .bind opens_current fun _ => .bind opens_begin fun _ => .bind opens_expect fun _ =>
    .bind opens_current fun _ => .ite_bind .pure (.map opens_expression) fun _ =>
    .bind opens_expect fun _ => opens_finishStmt fun _ => rfl

theorem opens_statement : ∀ (bound : Nat) (inLoop : Bool) (opened : List Event),
    Opens opened opened (statement inLoop bound)
  | 0, _, _ => opens_spent
  | bound + 1, inLoop, opened => by
    refine .bind .get fun s => ?_
    split
    · exact opens_block (opens_statement bound inLoop) [] opened
    · exact opens_loop (opens_block (opens_statement bound true) [])
    · exact opens_branch (opens_block (opens_statement bound inLoop) []) _ opened
    · exact opens_jump fun _ => rfl
    · exact opens_jump fun _ => rfl
    · exact opens_giveBack
    · exact opens_procedure (opens_block (opens_statement bound inLoop))
    · exact opens_declaration
    · exact .ite opens_call opens_assignment
    · exact opens_unexpected

/-! ### Programs -/

theorem opens_procedureBody (params : List String) (opened : List Event) :
    Opens opened opened (procedureBody params) :=
  .bind opens_remaining fun _ => opens_block (opens_statement _ _) params opened

theorem opens_procedures : ∀ bound : Nat, Opens opened opened (procedures bound)
  | 0 => opens_spent
  | bound + 1 =>
    .bind opens_current fun _ => .ite .pure (.ite
      (.bind (opens_procedure opens_procedureBody) fun _ =>
        .bind (opens_procedures bound) fun _ => .pure)
      opens_unexpected)

/-- Every report of the reading of a program is one of the parser, and they are well bracketed. -/
theorem opens_program : Opens [] [] program :=
  .bind opens_current fun _ => .bind opens_begin fun _ => .bind (.modify fun _ => rfl) fun _ =>
    .bind opens_remaining fun bound => .bind (opens_procedures bound) fun _ =>
    .bind (.modify fun _ => rfl) fun _ => .bind (opens_finishStmt fun _ => rfl) fun _ =>
    .bind .get fun _ => .pure

end Statements

/-- A program has as many nodes as were made. -/
theorem size_of_program (s : State) :
    Stage.Ensures (fun _ _ => True) (fun _ => True) program s fun ast s' => ast.size = s'.ast.size := by
  unfold program
  iterate 7 refine Stage.ensures_bind.mpr (Stage.ensures_of_forall fun _ _ => ?_)
  exact Stage.ensures_bind.mpr (Stage.ensures_get.mpr (Stage.ensures_return.mpr rfl))

/-- The reports of the reading of a program: they are well bracketed if it succeeds, with the numbers of
the nodes, and may leave nodes open if it fails. -/
theorem leads_program (tokens : List Token) :
    ∃ nodes n, Leads Ends [] 0 ((program (.ofTokens tokens)).marks.filterMap fun p => some p.1) nodes n ∧
      ∀ ast, parse tokens = .ok ast → nodes = [] ∧ n = ast.size := by
  obtain ⟨nodes, n, hleads, hvalue⟩ := opens_program.nests (.ofTokens tokens)
  refine ⟨nodes, n, hleads, fun ast hparse => ?_⟩
  obtain ⟨hnodes, hn⟩ := hvalue ast hparse
  exact ⟨hnodes, hn.trans ((size_of_program _).value hparse).symm⟩

end ProcLang.Parsing

namespace ProcLang

/-! ### The block of the parser -/

/-- The reports of the reading of a program with some number of nodes. -/
structure ParserBlock (size : Nat) (events : List Event) : Prop where
  nodes : ∀ event ∈ events, event.mode = .parser ∧
    (event.happening = .nodeStart ∨ event.happening = .nodeEnd)
  bracketed : Bracketed (fun start stop => stop.span = start.span) events
  ids : endIds events = (List.range size).map some

/-- The parser reports nodes, and does not end itself by a cancellation. -/
theorem reported_program (tokens : List Token) :
    Reported ParserBlock ((parse tokens).map Ast.size)
        ((Parsing.program (.ofTokens tokens)).marks.filterMap fun p => some p.1) ∧
      parse tokens ≠ .error .cancelled := by
  have hevents : ∀ event ∈ (Parsing.program (.ofTokens tokens)).marks.filterMap fun p => some p.1,
      event.mode = .parser ∧ (event.happening = .nodeStart ∨ event.happening = .nodeEnd) := by
    intro event hevent
    obtain ⟨p, hp, hsome⟩ := List.mem_filterMap.mp hevent
    obtain rfl := Option.some.inj hsome
    exact ((Parsing.opens_program.keeps _ trivial).marks hp).1
  have hblock : ∀ {n : Nat} {events : List Event}, (∀ event ∈ events, event.mode = .parser ∧
      (event.happening = .nodeStart ∨ event.happening = .nodeEnd)) →
      Leads Parsing.Ends [] 0 events [] n → ParserBlock n events := by
    intro n events hnodes hleads
    refine ⟨hnodes, hleads.bracketed fun _ _ _ h => h.1, ?_⟩
    rw [(hleads.endIds_eq fun _ _ _ h => h.2).2, Nat.sub_zero, List.range_eq_range']
  obtain ⟨nodes, n, hleads, hvalue⟩ := Parsing.leads_program tokens
  cases hresult : parse tokens with
  | ok ast =>
    obtain ⟨rfl, rfl⟩ := hvalue ast hresult
    exact ⟨hblock hevents hleads, fun h => by cases h⟩
  | error e =>
    refine ⟨?_, fun h => (Parsing.opens_program.keeps _ trivial).error hresult (Except.error.inj h)⟩
    -- the nodes that are still open are closed one by one
    have hstop : ∀ (n : Nat) (start : Event), ∃ stop : Event,
        (stop.mode = .parser ∧ (stop.happening = .nodeStart ∨ stop.happening = .nodeEnd)) ∧
        stop.happening = .nodeEnd ∧ Parsing.Ends n start stop := fun n start =>
      ⟨{ mode := .parser, happening := .nodeEnd, span := start.span, node := some n },
        ⟨rfl, .inr rfl⟩, rfl, rfl, rfl⟩
    obtain ⟨rest, n', hrest, hclosed⟩ := exists_leads_nil hstop nodes n
    refine ⟨n', rest, hblock (fun event hevent => ?_) (hleads.append hclosed)⟩
    exact (List.mem_append.mp hevent).elim (hevents event) (hrest event)

end ProcLang

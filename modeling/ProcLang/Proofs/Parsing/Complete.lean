import ProcLang.Proofs.Parsing.Sound

/-!
What is of the language is read: on tokens that derive a tree which keeps the rules, the reading
succeeds and takes these tokens and no more.  A reading stops where the grammar does because of what
stands behind: no operator of the level or a tighter one behind an expression, no `else` behind a
branch.  The bounds of the readings count tokens, so they are never reached.
-/

namespace ProcLang.Parsing

open Stage (Ensures)
open Grammar

/-- The reading succeeds, and its value and the state behind it satisfy `Q`. -/
abbrev Makes {α : Type} (x : Parser α) (s : State) (Q : α → State → Prop) : Prop :=
  Ensures (fun _ _ => True) (fun _ => False) x s Q

/-! ### Tokens -/

/-- The kind of the first of some tokens, or that of the end. -/
def first : List Token → TokenKind
  | [] => .eof
  | t :: _ => t.kind

/-- The state has some tokens to come, before its end. -/
structure At (ts : List Token) (s : State) : Prop where
  ahead : s.ahead = ts
  stop : s.stop.kind = .eof

/-- The reading went on to a state with some tokens to come and some names in scope. -/
structure Reaches (rest : List Token) (names : List NameScope) (s' : State) : Prop
    extends At rest s' where
  scopes : s'.scopes = names

section Steps

variable {s : State} {t : Token} {rest : List Token}

theorem At.current_kind {ts : List Token} (h : At ts s) : s.current.kind = first ts := by
  cases ts with
  | nil => simp [State.current, State.peek_of_stop h.stop, h.ahead, h.stop, first]
  | cons t rest => simp [State.current, State.peek_of_stop h.stop, h.ahead, first]

theorem At.current_eq (h : At (t :: rest) s) : s.current = t := by
  simp [State.current, State.peek_of_stop h.stop, h.ahead]

theorem At.length_lt {ts : List Token} (h : At (ts ++ rest) s) : ts.length < s.remaining := by
  have := State.length_ahead_lt h.stop
  rw [h.ahead, List.length_append] at this
  omega

/-- The state behind the current token. -/
theorem At.advance (h : At (t :: rest) s) : Reaches rest s.scopes s.advance :=
  have hadv := State.ahead_stop_advance h.stop h.ahead
  ⟨⟨hadv.1, hadv.2 ▸ h.stop⟩, rfl⟩

/-- A node more changes nothing. -/
theorem Reaches.node {names : List NameScope} (h : Reaches rest names s) (ast : Ast) :
    Reaches rest names { s with ast := ast } := ⟨⟨h.ahead, h.stop⟩, h.scopes⟩

theorem makes_expect {kind : TokenKind} (h : At (t :: rest) s) (hk : t.kind = kind)
    {Q : Token → State → Prop} (hQ : ∀ s', Reaches rest s.scopes s' → Q t s') :
    Makes (expect kind) s Q := by
  have hcur := h.current_eq
  simp only [expect, Stage.ensures_bind, gives_current]
  rw [if_pos (by rw [hcur, hk])]
  refine gives_advance.mpr ?_
  rw [hcur]
  exact hQ _ h.advance

theorem makes_accept {kind : TokenKind} (h : At (t :: rest) s) (hk : t.kind = kind)
    {Q : Bool → State → Prop} (hQ : ∀ s', Reaches rest s.scopes s' → Q true s') :
    Makes (accept kind) s Q := by
  simp only [accept, Stage.ensures_bind, gives_current]
  rw [if_pos (by rw [h.current_eq, hk])]
  exact Stage.ensures_bind.mpr (gives_advance.mpr (Stage.ensures_return.mpr (hQ _ h.advance)))

theorem makes_accept_not {kind : TokenKind} {ts : List Token} (h : At ts s) (hk : first ts ≠ kind)
    {Q : Bool → State → Prop} (hQ : Q false s) : Makes (accept kind) s Q := by
  simp only [accept, Stage.ensures_bind, gives_current]
  rw [if_neg (by rw [h.current_kind]; exact hk)]
  exact Stage.ensures_return.mpr hQ

theorem makes_typeName {type : DataType} (h : At (t :: rest) s) (hk : t.kind = .type type)
    {Q : DataType → State → Prop} (hQ : ∀ s', Reaches rest s.scopes s' → Q type s') :
    Makes typeName s Q := by
  simp only [typeName, Stage.ensures_bind, gives_advance]
  rw [h.current_eq, hk]
  exact Stage.ensures_return.mpr (hQ _ h.advance)

end Steps

/-! ### Expressions -/

/-- No operator of a level or of a tighter one stands at the head. -/
def Stops (k : Nat) (rest : List Token) : Prop :=
  ∀ op : BinaryOp, k ≤ op.level → first rest ≠ op.token

theorem level_lt (op : BinaryOp) : op.level < unaryLevel := by
  rcases op with op | op | op <;> cases op <;> decide

/-- A token is an operator of one level only. -/
theorem level_of_token {op op' : BinaryOp} (h : op.token = op'.token) : op.level = op'.level := by
  have key : ∀ op : BinaryOp,
      op.level = levels.findIdx fun ops => (ops.lookup op.token).isSome := by
    intro op
    rcases op with op | op | op <;> cases op <;> rfl
  rw [key op, key op', h]

theorem stops_unaryLevel (rest : List Token) : Stops unaryLevel rest := by
  intro op hop
  have := level_lt op
  omega

theorem Stops.mono {k : Nat} {rest : List Token} (h : Stops k rest) : Stops (k + 1) rest :=
  fun op hop => h op (by omega)

/-- A parenthesis, a comma or a semicolon ends every expression. -/
theorem stops_of_kind {t : Token} {rest : List Token}
    (h : t.kind = .rparen ∨ t.kind = .comma ∨ t.kind = .semicolon) (k : Nat) :
    Stops k (t :: rest) := by
  intro op _ heq
  have hkind : t.kind = op.token := heq
  rw [hkind] at h
  rcases op with op | op | op <;> cases op <;> simp [BinaryOp.token] at h

/-- What an expression starts with. -/
theorem expression_first {k : Nat} {ts : List Token} {e : Expr} (h : Expression k ts e)
    (rest : List Token) :
    first (ts ++ rest) ≠ .semicolon ∧ first (ts ++ rest) ≠ .rparen ∧ ts ≠ [] := by
  induction h generalizing rest with
  | binary _ _ _ _ ihl _ =>
    rw [List.append_assoc]
    exact ⟨(ihl _).1, (ihl _).2.1, by simp⟩
  | tighter _ _ ih => exact ih rest
  | @unary ts t op e tag ht _ _ =>
    have hfirst : first (t :: ts ++ rest) = op.token := ht
    rw [hfirst]
    cases op <;> simp [UnaryOp.token]
  | number ht | string ht | name ht => simp [first, ht]
  | parentheses ht _ _ _ => simp [first, ht]

/-- A left operand and the right operands of a level behind it, each behind its operator and with its
variables in scope, and the expression that they make. -/
inductive Links (k : Nat) (names : List NameScope) : Expr → List Token → Expr → Prop
  | nil {l : Expr} : Links k names l [] l
  | cons {t : Token} {us ws : List Token} {op : BinaryOp} {l r e : Expr} {tag : Tag} :
    op.level = k → t.kind = op.token → Expression (k + 1) us r → r.WellFormed names →
    Links k names (.binary tag op l r) ws e → Links k names l (t :: us ++ ws) e

theorem Links.append {k : Nat} {names : List NameScope} {ws vs : List Token} {l m e : Expr}
    (h : Links k names l ws m) (h' : Links k names m vs e) : Links k names l (ws ++ vs) e := by
  induction h with
  | nil => exact h'
  | cons hlevel ht hr hwf _ ih =>
    rw [List.append_assoc]
    exact .cons hlevel ht hr hwf (ih h')

/-- An expression of a level is one of the next level with right operands behind it. -/
theorem exists_links {k : Nat} {names : List NameScope} {ts : List Token} {e : Expr}
    (h : Expression k ts e) (hk : k < unaryLevel) (hwf : e.WellFormed names) :
    ∃ us ws e₀, Expression (k + 1) us e₀ ∧ e₀.WellFormed names ∧ Links k names e₀ ws e ∧
      ts = us ++ ws := by
  induction h with
  | @binary k ts us t op l r tag hlevel ht hl hr ihl _ =>
    obtain ⟨hwl, hwr⟩ := hwf
    obtain ⟨us₀, ws, e₀, he₀, hw₀, hlinks, rfl⟩ := ihl hk hwl
    have hlast : Links k names l (t :: us ++ []) (.binary tag op l r) :=
      .cons hlevel ht hr hwr .nil
    exact ⟨us₀, ws ++ (t :: us ++ []), e₀, he₀, hw₀, hlinks.append hlast, by simp⟩
  | @tighter k ts e _ he _ => exact ⟨ts, [], e, he, hwf, .nil, by simp⟩
  | unary | number | string | name | parentheses => exact absurd hk (Nat.lt_irrefl _)

/-- Behind an operand of the next level stands an operator of this one, or the end of the
expression. -/
theorem Links.stops {k : Nat} {names : List NameScope} {ws rest : List Token} {l e : Expr}
    (h : Links k names l ws e) (hrest : Stops k rest) : Stops (k + 1) (ws ++ rest) := by
  cases h with
  | nil => exact hrest.mono
  | cons hlevel ht hr hwf hlinks =>
    intro op' hop' heq
    have := level_of_token (ht.symm.trans heq)
    omega

/-- The reading takes every expression of a level that has at most `n` tokens, and gives its tree. -/
def CompleteAt (k n : Nat) (x : Parser Expr) : Prop :=
  ∀ ⦃ts rest : List Token⦄ ⦃e : Expr⦄ ⦃s : State⦄, Expression k ts e → ts.length ≤ n →
    At (ts ++ rest) s → e.WellFormed s.scopes → Stops k rest →
    Makes x s fun e' s' => e'.bare = e.bare ∧ Reaches rest s.scopes s'

theorem complete_chain {k n : Nat} (hk : k < unaryLevel) {operand : Parser Expr}
    (h : CompleteAt (k + 1) n operand) {names : List NameScope} {ws rest : List Token} {l e : Expr}
    (hlinks : Links k names l ws e) (hrest : Stops k rest) (hn : ws.length ≤ n) {bound : Nat}
    (hbound : ws.length < bound) {s : State} (hs : Reaches (ws ++ rest) names s) {lhs : Expr}
    (hlhs : lhs.bare = l.bare) :
    Makes (chain (levelOps k) operand bound lhs) s fun e' s' =>
      e'.bare = e.bare ∧ Reaches rest names s' := by
  induction hlinks generalizing bound s lhs with
  | nil =>
    obtain ⟨bound, rfl⟩ := Nat.exists_eq_add_of_lt hbound
    have hnone : (levelOps k).lookup s.current.kind = none := by
      rw [Option.eq_none_iff_forall_ne_some]
      intro op hop
      obtain ⟨hlevel, htoken⟩ := (lookup_levelOps hk).mp hop
      rw [hs.current_kind] at htoken
      exact hrest op (Nat.le_of_eq hlevel.symm) htoken
    simp only [chain, Stage.ensures_bind, gives_current]
    rw [hnone]
    exact Stage.ensures_return.mpr ⟨hlhs, hs⟩
  | @cons t us ws op l r e tag hlevel ht hr hwf hlinks ih =>
    simp only [List.length_cons, List.length_append] at hn hbound
    obtain ⟨bound, rfl⟩ : ∃ b, bound = b + 1 := ⟨bound - 1, by omega⟩
    have hat : At (t :: (us ++ (ws ++ rest))) s := ⟨by rw [hs.ahead]; simp, hs.stop⟩
    have hsome : (levelOps k).lookup s.current.kind = some op := by
      rw [hat.current_eq]
      exact (lookup_levelOps hk).mpr ⟨hlevel, ht⟩
    simp only [chain, Stage.ensures_bind, gives_current]
    rw [hsome]
    simp only [Stage.ensures_bind, gives_advance, gives_begin]
    have hadv := hat.advance
    rw [hs.scopes] at hadv
    refine (h hr (by omega) hadv.toAt (by rwa [hadv.scopes]) (hlinks.stops hrest)).mono ?_
    rintro rhs u ⟨hrhs, hu⟩
    rw [hadv.scopes] at hu
    refine gives_finishExpr fun tag' ast => ih (by omega) (by omega) (hu.node ast) ?_
    simp only [Expr.bare, hlhs, hrhs]

theorem complete_ladder {n : Nat} {operand : Parser Expr} (h : CompleteAt unaryLevel n operand)
    (m : Nat) : ∀ {k : Nat}, k + m = unaryLevel →
      CompleteAt k n (ladder operand (levels.drop k)) := by
  induction m with
  | zero =>
    rintro k rfl
    exact h
  | succ m ih =>
    intro k hk ts rest e s he hlen hat hwf hstops
    have hlt : k < unaryLevel := by omega
    have htighter := ih (show k + 1 + m = unaryLevel by omega)
    obtain ⟨us, ws, e₀, he₀, hwf₀, hlinks, rfl⟩ := exists_links he hlt hwf
    rw [List.length_append] at hlen
    rw [drop_levels hlt]
    simp only [ladder, Stage.ensures_bind, gives_remaining]
    rw [List.append_assoc] at hat
    refine (htighter he₀ (by omega) hat hwf₀ (hlinks.stops hstops)).mono ?_
    rintro lhs t ⟨hlhs, ht⟩
    exact complete_chain hlt htighter hlinks hstops (by omega) ht.length_lt ht hlhs

theorem hasVariable_of_exists {s : State} {name : String} (h : ∃ n ∈ s.scopes, name ∈ n.vars) :
    s.hasVariable name := by
  simpa [State.hasVariable] using h

theorem hasProcedure_of_exists {s : State} {name : String}
    (h : ∃ n ∈ s.scopes, name ∈ n.procedures) : s.hasProcedure name := by
  simpa [State.hasProcedure] using h

theorem complete_unary (bound : Nat) : CompleteAt unaryLevel bound (unary bound) := by
  induction bound with
  | zero =>
    intro ts rest e s he hlen
    exact absurd (List.length_eq_zero_iff.mp (Nat.le_zero.mp hlen)) (expression_first he []).2.2
  | succ bound ih =>
    intro ts rest e s he hlen hat hwf _
    -- an operand that does not start with an operator
    have primaryOf : ∀ kind : TokenKind, first (ts ++ rest) = kind →
        unaryOps.lookup kind = none →
        Makes (primary (ladder (unary bound) levels)) s
          (fun e' s' => e'.bare = e.bare ∧ Reaches rest s.scopes s') →
        Makes (unary (bound + 1)) s fun e' s' => e'.bare = e.bare ∧ Reaches rest s.scopes s' := by
      intro kind hkind hnone h
      simp only [unary, Stage.ensures_bind, gives_current]
      rw [hat.current_kind, hkind, hnone]
      exact h
    cases he with
    | binary hlevel _ _ _ =>
      have := level_lt (by assumption)
      omega
    | tighter hlt _ => exact absurd hlt (Nat.lt_irrefl _)
    | @unary ts t op e tag ht he =>
      simp only [unary, Stage.ensures_bind, gives_current]
      rw [hat.current_eq, lookup_unaryOps.mpr ht]
      simp only [Stage.ensures_bind, gives_advance, gives_begin]
      have hadv := hat.advance
      have hlen' : ts.length ≤ bound := by simpa using hlen
      refine (ih he hlen' hadv.toAt (by rwa [hadv.scopes]) (stops_unaryLevel rest)).mono ?_
      rintro e' u ⟨he', hu⟩
      rw [hadv.scopes] at hu
      exact gives_finishExpr fun tag ast => ⟨by simp only [Expr.bare, he'], hu.node ast⟩
    | @number t tag ht =>
      refine primaryOf .number ht rfl ?_
      simp only [primary, Stage.ensures_bind, gives_current]
      rw [hat.current_eq, ht]
      simp only [Stage.ensures_bind, gives_begin, gives_advance]
      exact gives_finishExpr fun tag ast => ⟨rfl, hat.advance.node ast⟩
    | @string t tag ht =>
      refine primaryOf .stringLiteral ht rfl ?_
      simp only [primary, Stage.ensures_bind, gives_current]
      rw [hat.current_eq, ht]
      simp only [Stage.ensures_bind, gives_begin, gives_advance]
      exact gives_finishExpr fun tag ast => ⟨rfl, hat.advance.node ast⟩
    | @name t tag ht =>
      refine primaryOf .identifier ht rfl ?_
      simp only [primary, Stage.ensures_bind, gives_current]
      rw [hat.current_eq, ht]
      simp only [Stage.ensures_bind, gives_begin, gives_advance, Stage.ensures_get]
      rw [if_pos (hasVariable_of_exists (by exact hwf))]
      exact gives_finishExpr fun tag ast => ⟨rfl, hat.advance.node ast⟩
    | @parentheses l r ts e hl he hr =>
      refine primaryOf .lparen hl rfl ?_
      simp only [primary, Stage.ensures_bind, gives_current]
      have hat' : At (l :: (ts ++ (r :: rest))) s := by simpa using hat
      rw [hat'.current_eq, hl]
      simp only [Stage.ensures_bind, gives_advance]
      have hadv := hat'.advance
      have hlen' : ts.length ≤ bound := by
        simp only [List.length_cons, List.length_append, List.length_nil] at hlen
        omega
      have hstops : Stops 0 (r :: rest) := stops_of_kind (.inl hr) 0
      have hinner := complete_ladder ih unaryLevel (k := 0) rfl
      refine (hinner he hlen' hadv.toAt (by rwa [hadv.scopes]) hstops).mono ?_
      rintro e' u ⟨he', hu⟩
      rw [hadv.scopes] at hu
      refine makes_expect hu.toAt hr fun v hv => Stage.ensures_return.mpr ⟨he', ?_⟩
      rwa [hu.scopes] at hv

theorem complete_expression {ts rest : List Token} {e : Expr} {s : State} (he : Expression 0 ts e)
    (hat : At (ts ++ rest) s) (hwf : e.WellFormed s.scopes) (hrest : Stops 0 rest)
    {Q : Expr → State → Prop}
    (hQ : ∀ e' s', e'.bare = e.bare → Reaches rest s.scopes s' → Q e' s') :
    Makes expression s Q := by
  simp only [expression, Stage.ensures_bind, gives_remaining]
  have hinner := complete_ladder (complete_unary (s.remaining + 1)) unaryLevel (k := 0) rfl
  have hlen := Nat.le_succ_of_le (Nat.le_of_lt hat.length_lt)
  exact (hinner he hlen hat hwf hrest).mono fun e' s' h => hQ e' s' h.1 h.2

/-! ### Simple statements -/

section Simple

variable {s : State} {rest : List Token}

theorem complete_condition {ts : List Token} {e : Expr} (he : Test ts e) (hat : At (ts ++ rest) s)
    (hwf : e.WellFormed s.scopes) {Q : Expr → State → Prop}
    (hQ : ∀ e s', Reaches rest s.scopes s' → Q e s') : Makes condition s Q := by
  obtain ⟨hl, he, hr⟩ := he
  rename_i l r ts
  have hat' : At (l :: (ts ++ (r :: rest))) s := by simpa using hat
  simp only [condition, Stage.ensures_bind]
  refine makes_expect hat' hl fun t ht => ?_
  refine complete_expression he ht.toAt (by rwa [ht.scopes]) (stops_of_kind (.inl hr) 0) ?_
  intro e' u _ hu
  refine makes_expect hu.toAt hr fun v hv => Stage.ensures_return.mpr (hQ e' v ?_)
  rwa [hu.scopes, ht.scopes] at hv

/-- The reading takes every statement of at most `n` tokens that keeps the rules, if no `else`
stands behind it. -/
def CompleteStmt (inLoop : Bool) (n : Nat) (x : Parser Stmt) : Prop :=
  ∀ ⦃ts rest : List Token⦄ ⦃st : Stmt⦄ ⦃s : State⦄, Statement ts st → ts.length ≤ n →
    At (ts ++ rest) s → s.scopes ≠ [] → st.Lawful inLoop s.scopes → first rest ≠ .elseKey →
    Makes x s fun _ s' => Reaches rest (st.declareIn s.scopes) s'

/-- A statement that declares nothing is made. -/
theorem makes_finish {t : State} {st : Stmt} {names : List NameScope} {span : Span}
    {build : Tag → Stmt} (h : Reaches rest names t) (hst : ∀ n, st.declare n = n) :
    Makes (finishStmt span build) t fun _ s' => Reaches rest (st.declareIn names) s' := by
  refine gives_finishStmt fun tag ast => ?_
  rw [declareIn_eq hst]
  exact h.node ast

theorem complete_jump {k r : Token} (which : Jump) {build : Tag → Stmt} {st : Stmt}
    (hr : r.kind = .semicolon) (hat : At (k :: r :: rest) s) (hst : ∀ n, st.declare n = n) :
    Makes (jump true which build) s fun _ s' => Reaches rest (st.declareIn s.scopes) s' := by
  simp only [jump, Stage.ensures_bind, gives_current, gives_begin, gives_advance, if_true]
  have hadv := hat.advance
  refine makes_expect hadv.toAt hr fun t ht => ?_
  rw [hadv.scopes] at ht
  exact makes_finish ht hst

theorem complete_leave {k r : Token} {tag : Tag} (hk : k.kind = .returnKey)
    (hr : r.kind = .semicolon) (hat : At (k :: r :: rest) s) :
    Makes giveBack s fun _ s' =>
      Reaches rest ((Stmt.giveBack tag none).declareIn s.scopes) s' := by
  simp only [giveBack, Stage.ensures_bind, gives_current, gives_begin]
  refine makes_expect hat hk fun t ht => ?_
  rw [if_pos (by rw [ht.current_eq, hr]), Stage.ensures_bind, Stage.ensures_return]
  rw [Stage.ensures_bind]
  refine makes_expect ht.toAt hr fun u hu => ?_
  rw [ht.scopes] at hu
  exact makes_finish hu fun _ => rfl

theorem complete_giveBack {k r : Token} {ts : List Token} {e : Expr} {tag : Tag}
    (hk : k.kind = .returnKey) (he : Expression 0 ts e) (hr : r.kind = .semicolon)
    (hat : At (k :: (ts ++ r :: rest)) s) (hwf : e.WellFormed s.scopes) :
    Makes giveBack s fun _ s' =>
      Reaches rest ((Stmt.giveBack tag (some e)).declareIn s.scopes) s' := by
  simp only [giveBack, Stage.ensures_bind, gives_current, gives_begin]
  refine makes_expect hat hk fun t ht => ?_
  rw [if_neg (by rw [ht.current_kind]; exact (expression_first he _).1), Stage.ensures_bind,
    Stage.ensures_map]
  refine complete_expression he ht.toAt (by rwa [ht.scopes]) (stops_of_kind (.inr (.inr hr)) 0) ?_
  intro e' u _ hu
  rw [Stage.ensures_bind]
  refine makes_expect hu.toAt hr fun v hv => ?_
  rw [hu.scopes, ht.scopes] at hv
  exact makes_finish hv fun _ => rfl

theorem complete_assignment {n q r : Token} {ts : List Token} {e : Expr} {tag : Tag}
    (hn : n.kind = .identifier) (hq : q.kind = .equal) (he : Expression 0 ts e)
    (hr : r.kind = .semicolon) (hat : At (n :: q :: (ts ++ r :: rest)) s)
    (hvar : ∃ m ∈ s.scopes, n.string ∈ m.vars) (hwf : e.WellFormed s.scopes) :
    Makes assignment s fun _ s' =>
      Reaches rest ((Stmt.assignment tag n.string e).declareIn s.scopes) s' := by
  simp only [assignment, Stage.ensures_bind, gives_current, gives_begin]
  refine makes_expect hat hn fun t ht => ?_
  rw [Stage.ensures_get, if_pos (hasVariable_of_exists (by rwa [ht.scopes]))]
  simp only [Stage.ensures_bind]
  refine makes_expect ht.toAt hq fun u hu => ?_
  rw [ht.scopes] at hu
  refine complete_expression he hu.toAt (by rwa [hu.scopes]) (stops_of_kind (.inr (.inr hr)) 0) ?_
  intro e' v _ hv
  refine makes_expect hv.toAt hr fun w hw => ?_
  rw [hv.scopes, hu.scopes] at hw
  exact makes_finish hw fun _ => rfl

/-- A list in parentheses starts with one. -/
theorem listed_head {α : Type} {Item : List Token → α → Prop} {ts : List Token} {as : List α}
    (h : Listed Item ts as) : ∃ l us, ts = l :: us ∧ l.kind = .lparen := by
  cases h with
  | none hl _ | some hl _ _ => exact ⟨_, _, rfl, hl⟩

theorem complete_arguments {ts : List Token} {args : List Expr} {r : Token}
    (h : Separated (Expression 0) ts args) (hr : r.kind = .rparen) {bound : Nat}
    (hbound : ts.length ≤ bound) (hat : At (ts ++ r :: rest) s)
    (hwf : ∀ e ∈ args, e.WellFormed s.scopes) :
    Makes (arguments bound) s fun _ s' => Reaches (r :: rest) s.scopes s' := by
  induction h generalizing bound s with
  | @last ts e he =>
    obtain ⟨bound, rfl⟩ : ∃ b, bound = b + 1 :=
      ⟨bound - 1, by have := List.length_pos_iff.mpr (expression_first he []).2.2; omega⟩
    simp only [arguments, Stage.ensures_bind]
    refine complete_expression he hat (hwf e (by simp)) (stops_of_kind (.inl hr) 0) ?_
    intro e' t _ ht
    refine makes_accept_not ht.toAt (by simp [first, hr]) ?_
    rw [if_neg Bool.false_ne_true]
    exact Stage.ensures_return.mpr ht
  | @more ts us c e es he hc hes ih =>
    simp only [List.length_append, List.length_cons] at hbound
    obtain ⟨bound, rfl⟩ : ∃ b, bound = b + 1 := ⟨bound - 1, by omega⟩
    simp only [arguments, Stage.ensures_bind]
    rw [List.append_assoc] at hat
    refine complete_expression he hat (hwf e (by simp)) (stops_of_kind (.inr (.inl hc)) 0) ?_
    intro e' t _ ht
    refine makes_accept ht.toAt hc fun u hu => ?_
    rw [if_pos rfl, Stage.ensures_bind]
    rw [ht.scopes] at hu
    refine (ih (by omega) hu.toAt fun x hx => ?_).mono fun rest' v hv => ?_
    · rw [hu.scopes]
      exact hwf x (List.mem_cons_of_mem _ hx)
    · rw [hu.scopes] at hv
      exact Stage.ensures_return.mpr hv

theorem complete_argumentList {l : Token} {ts : List Token} {args : List Expr}
    (h : Listed (Expression 0) (l :: ts) args) (hat : At (ts ++ rest) s)
    (hwf : ∀ e ∈ args, e.WellFormed s.scopes) :
    Makes argumentList s fun _ s' => Reaches rest s.scopes s' := by
  simp only [argumentList, Stage.ensures_bind, gives_current, gives_remaining]
  cases h with
  | @none _ r hl hr =>
    rw [if_pos (by rw [hat.current_kind]; exact hr)]
    simp only [Stage.ensures_bind, Stage.ensures_return]
    exact makes_expect hat hr fun t ht => ht
  | @some _ r ts _ hl hargs hr =>
    have hat' : At (ts ++ (r :: rest)) s := by simpa using hat
    have hfirst : first (ts ++ r :: rest) ≠ .rparen := by
      cases hargs with
      | last he => exact (expression_first he _).2.1
      | more he _ _ =>
        rw [List.append_assoc]
        exact (expression_first he _).2.1
    rw [if_neg (by rw [hat'.current_kind]; exact hfirst), Stage.ensures_bind]
    have hbound := Nat.le_succ_of_le (Nat.le_of_lt hat'.length_lt)
    refine (complete_arguments hargs hr hbound hat' hwf).mono fun args' t ht => ?_
    simp only [Stage.ensures_bind, Stage.ensures_return]
    refine makes_expect ht.toAt hr fun u hu => ?_
    rwa [ht.scopes] at hu

theorem complete_call {n r : Token} {ts : List Token} {args : List Expr} {tag : Tag}
    (hn : n.kind = .identifier) (hargs : Listed (Expression 0) ts args) (hr : r.kind = .semicolon)
    (hat : At (n :: (ts ++ r :: rest)) s) (hproc : ∃ m ∈ s.scopes, n.string ∈ m.procedures)
    (hwf : ∀ e ∈ args, e.WellFormed s.scopes) :
    Makes call s fun _ s' =>
      Reaches rest ((Stmt.call tag n.string args).declareIn s.scopes) s' := by
  obtain ⟨l, us, rfl, hl⟩ := listed_head hargs
  simp only [call, Stage.ensures_bind, gives_current, gives_begin]
  refine makes_expect hat hn fun t ht => ?_
  rw [Stage.ensures_get, if_pos (hasProcedure_of_exists (by rwa [ht.scopes]))]
  simp only [Stage.ensures_bind]
  refine makes_expect ht.toAt hl fun u hu => ?_
  rw [ht.scopes] at hu
  refine (complete_argumentList hargs hu.toAt (by rwa [hu.scopes])).mono fun args' v hv => ?_
  refine makes_expect hv.toAt hr fun w hw => ?_
  rw [hv.scopes, hu.scopes] at hw
  exact makes_finish hw fun _ => rfl

/-- A new variable is declared in the innermost block. -/
theorem makes_declareVariable {n : NameScope} {outer : List NameScope} {name : String} {span : Span}
    (h : Reaches rest (n :: outer) s) (hfresh : name ∉ n.vars) {Q : Unit → State → Prop}
    (hQ : ∀ s', Reaches rest ({ n with vars := name :: n.vars } :: outer) s' → Q () s') :
    Makes (declareVariable name span) s Q := by
  have hscope : s.scope = n := by simp [State.scope, h.scopes]
  simp only [declareVariable, Stage.ensures_bind, Stage.ensures_get, hscope]
  rw [if_neg (by simpa using hfresh), Stage.ensures_modify]
  refine hQ _ ⟨⟨h.ahead, h.stop⟩, ?_⟩
  rw [scopes_withScope h.scopes, hscope]

theorem makes_declareProcedure {n : NameScope} {outer : List NameScope} {name : String}
    {span : Span} (h : Reaches rest (n :: outer) s) (hfresh : name ∉ n.procedures)
    {Q : Unit → State → Prop}
    (hQ : ∀ s', Reaches rest ({ n with procedures := name :: n.procedures } :: outer) s' →
      Q () s') :
    Makes (declareProcedure name span) s Q := by
  have hscope : s.scope = n := by simp [State.scope, h.scopes]
  simp only [declareProcedure, Stage.ensures_bind, Stage.ensures_get, hscope]
  rw [if_neg (by simpa using hfresh), Stage.ensures_modify]
  refine hQ _ ⟨⟨h.ahead, h.stop⟩, ?_⟩
  rw [scopes_withScope h.scopes, hscope]

/-- The end of a declaration, with or without an initial value. -/
theorem complete_declared {n r : Token} {type : DataType} {init init' : Option Expr} {tag : Tag}
    {m : NameScope} {outer : List NameScope} {span : Span} (hr : r.kind = .semicolon)
    (h : Reaches (r :: rest) (m :: outer) s) (hfresh : n.string ∉ m.vars) :
    Makes (do
      let _ ← expect .semicolon
      declareVariable n.string n.span
      finishStmt span fun tag => .declaration tag n.string type init') s fun _ s' =>
      Reaches rest ((Stmt.declaration tag n.string type init).declareIn (m :: outer)) s' := by
  simp only [Stage.ensures_bind]
  refine makes_expect h.toAt hr fun t ht => ?_
  rw [h.scopes] at ht
  refine makes_declareVariable ht hfresh fun u hu => gives_finishStmt fun _ ast => ?_
  exact hu.node ast

theorem complete_declaration {t n r : Token} {type : DataType} {tag : Tag} {m : NameScope}
    {outer : List NameScope} (ht : t.kind = .type type) (hn : n.kind = .identifier)
    (hr : r.kind = .semicolon) (hat : At (t :: n :: r :: rest) s) (hscopes : s.scopes = m :: outer)
    (hvoid : type ≠ .void) (hfresh : n.string ∉ m.vars) :
    Makes declaration s fun _ s' =>
      Reaches rest ((Stmt.declaration tag n.string type none).declareIn (m :: outer)) s' := by
  simp only [declaration, Stage.ensures_bind, gives_current, gives_begin]
  refine makes_typeName hat ht fun u hu => makes_expect hu.toAt hn fun v hv => ?_
  rw [if_neg hvoid, Stage.ensures_bind]
  rw [hu.scopes, hscopes] at hv
  refine makes_accept_not hv.toAt (by simp [first, hr]) ?_
  rw [if_neg Bool.false_ne_true, Stage.ensures_bind, Stage.ensures_return]
  exact complete_declared hr hv hfresh

theorem complete_initialised {t n q r : Token} {type : DataType} {ts : List Token} {e : Expr}
    {tag : Tag} {m : NameScope} {outer : List NameScope} (ht : t.kind = .type type)
    (hn : n.kind = .identifier) (hq : q.kind = .equal) (he : Expression 0 ts e)
    (hr : r.kind = .semicolon) (hat : At (t :: n :: q :: (ts ++ r :: rest)) s)
    (hscopes : s.scopes = m :: outer) (hvoid : type ≠ .void) (hfresh : n.string ∉ m.vars)
    (hwf : e.WellFormed s.scopes) :
    Makes declaration s fun _ s' =>
      Reaches rest ((Stmt.declaration tag n.string type (some e)).declareIn (m :: outer)) s' := by
  simp only [declaration, Stage.ensures_bind, gives_current, gives_begin]
  refine makes_typeName hat ht fun u hu => makes_expect hu.toAt hn fun v hv => ?_
  rw [if_neg hvoid, Stage.ensures_bind]
  rw [hu.scopes] at hv
  refine makes_accept hv.toAt hq fun w hw => ?_
  rw [if_pos rfl, Stage.ensures_bind, Stage.ensures_map]
  rw [hv.scopes] at hw
  refine complete_expression he hw.toAt (by rwa [hw.scopes]) (stops_of_kind (.inr (.inr hr)) 0) ?_
  intro e' x _ hx
  rw [hw.scopes, hscopes] at hx
  exact complete_declared hr hx hfresh

end Simple

/-! ### Procedures -/

section Signatures

variable {s : State} {rest : List Token}

/-- One parameter is read; what follows decides whether there are more. -/
theorem makes_parameters {ts us : List Token} {p : Parameter} (hp : ParameterOf ts p)
    (hat : At (ts ++ us) s) (hvoid : p.type ≠ .void) {bound : Nat} {earlier : List Parameter}
    (hnew : p.name ∉ earlier.map (·.name)) {Q : List Parameter → State → Prop}
    (hQ : ∀ s', Reaches us s.scopes s' →
      Makes (do
        if ← accept .comma then parameters bound (earlier ++ [p])
        else return earlier ++ [p]) s' Q) :
    Makes (parameters (bound + 1) earlier) s Q := by
  obtain ⟨ht, hn⟩ := hp
  rename_i t n type
  simp only [parameters, Stage.ensures_bind]
  refine makes_typeName hat ht fun u hu => makes_expect hu.toAt hn fun v hv => ?_
  rw [if_neg hvoid]
  rw [hu.scopes] at hv
  have hany : ¬ earlier.any (·.name == n.string) := by
    intro h
    obtain ⟨q, hq, heq⟩ := List.any_eq_true.mp h
    exact hnew (List.mem_map.mpr ⟨q, hq, beq_iff_eq.mp heq⟩)
  rw [if_neg hany]
  exact hQ v hv

theorem complete_parameters {ts : List Token} {more : List Parameter} {r : Token}
    (h : Separated ParameterOf ts more) (hr : r.kind = .rparen) {bound : Nat}
    (hbound : ts.length ≤ bound) (hat : At (ts ++ r :: rest) s) {earlier : List Parameter}
    (hvoid : ∀ p ∈ more, p.type ≠ .void) (hnodup : ((earlier ++ more).map (·.name)).Nodup) :
    Makes (parameters bound earlier) s fun params s' =>
      params = earlier ++ more ∧ Reaches (r :: rest) s.scopes s' := by
  induction h generalizing bound s earlier with
  | @last ts p hp =>
    obtain ⟨bound, rfl⟩ : ∃ b, bound = b + 1 := by
      cases hp
      exact ⟨bound - 1, by simp only [List.length_cons, List.length_nil] at hbound; omega⟩
    rw [List.map_append, List.nodup_append] at hnodup
    have hnew : p.name ∉ earlier.map (·.name) := fun h => hnodup.2.2 _ h _ (by simp) rfl
    refine makes_parameters hp hat (hvoid p (by simp)) hnew fun u hu => ?_
    refine Stage.ensures_bind.mpr (makes_accept_not hu.toAt (by simp [first, hr]) ?_)
    rw [if_neg Bool.false_ne_true]
    exact Stage.ensures_return.mpr ⟨rfl, hu⟩
  | @more ts us c p ps hp hc hps ih =>
    simp only [List.length_append, List.length_cons] at hbound
    obtain ⟨bound, rfl⟩ : ∃ b, bound = b + 1 := ⟨bound - 1, by omega⟩
    have hnodup' : ((earlier ++ [p] ++ ps).map (·.name)).Nodup := by simpa using hnodup
    rw [List.map_append, List.nodup_append] at hnodup
    have hnew : p.name ∉ earlier.map (·.name) := fun h => hnodup.2.2 _ h _ (by simp) rfl
    rw [List.append_assoc] at hat
    refine makes_parameters hp hat (hvoid p (by simp)) hnew fun u hu => ?_
    refine Stage.ensures_bind.mpr (makes_accept hu.toAt hc fun v hv => ?_)
    rw [if_pos rfl]
    rw [hu.scopes] at hv
    refine (ih (by omega) hv.toAt (fun q hq => hvoid q (List.mem_cons_of_mem _ hq)) hnodup').mono ?_
    rintro params w ⟨rfl, hw⟩
    rw [hv.scopes] at hw
    exact ⟨by simp, hw⟩

theorem complete_parameterList {l : Token} {ts : List Token} {params : List Parameter}
    (h : Listed ParameterOf (l :: ts) params) (hat : At (ts ++ rest) s)
    (hvoid : ∀ p ∈ params, p.type ≠ .void) (hnodup : (params.map (·.name)).Nodup)
    {Q : List Parameter → State → Prop} (hQ : ∀ s', Reaches rest s.scopes s' → Q params s') :
    Makes parameterList s Q := by
  simp only [parameterList, Stage.ensures_bind, gives_current, gives_remaining]
  cases h with
  | @none _ r hl hr =>
    rw [if_pos (by rw [hat.current_kind]; exact hr)]
    simp only [Stage.ensures_bind, Stage.ensures_return]
    exact makes_expect hat hr fun t ht => hQ t ht
  | @some _ r ts _ hl hparams hr =>
    have hat' : At (ts ++ (r :: rest)) s := by simpa using hat
    have hfirst : first (ts ++ r :: rest) ≠ .rparen := by
      cases hparams with
      | last hp | more hp _ _ =>
        cases hp with
        | mk ht _ => simp [first, ht]
    rw [if_neg (by rw [hat'.current_kind]; exact hfirst), Stage.ensures_bind]
    have hbound := Nat.le_succ_of_le (Nat.le_of_lt hat'.length_lt)
    refine (complete_parameters hparams hr hbound hat' hvoid (by simpa using hnodup)).mono ?_
    rintro _ t ⟨rfl, ht⟩
    simp only [Stage.ensures_bind, Stage.ensures_return]
    refine makes_expect ht.toAt hr fun u hu => hQ u ?_
    rwa [ht.scopes] at hu

/-- The reading of a procedure up to its declaration; the rest is read with its name in scope. -/
theorem complete_procedure {body : List String → Parser Stmt} {external : Bool}
    {us ts : List Token} {signature : Signature} {n : NameScope} {outer : List NameScope}
    (hword : external = true ∧ (∃ k, us = [k] ∧ k.kind = .externKey) ∨ external = false ∧ us = [])
    (h : SignatureOf external ts signature) (hat : At (us ++ (ts ++ rest)) s)
    (hscopes : s.scopes = n :: outer) (hnew : Stmt.Introduces s.scopes signature)
    {Q : Stmt → State → Prop}
    (hQ : ∀ span s',
      Reaches rest ({ n with procedures := signature.name :: n.procedures } :: outer) s' →
      Makes (if external then do
          let _ ← expect .semicolon
          finishStmt span fun tag => .procedure tag signature none
        else do
          let inside ← body (signature.params.map (·.name))
          finishStmt span fun tag => .procedure tag signature (some inside)) s' Q) :
    Makes (procedure body) s Q := by
  refine Stage.ensures_bind.mpr (gives_current.mpr (Stage.ensures_bind.mpr (gives_begin.mpr
    (Stage.ensures_bind.mpr ?_))))
  obtain ⟨⟨hvoid, hnodup⟩, hfresh⟩ := hnew
  rw [hscopes] at hfresh
  obtain ⟨ht, hn, hparams⟩ := h
  rename_i t m type ts params
  obtain ⟨l, vs, rfl, hl⟩ := listed_head hparams
  -- everything behind the word `extern` is read in the same way with and without it
  have common : ∀ s', Reaches (t :: m :: l :: (vs ++ rest)) (n :: outer) s' →
      Makes (procedureOf body s.current.span external) s' Q := by
    intro s' hs'
    simp only [procedureOf, Stage.ensures_bind]
    refine makes_typeName hs'.toAt ht fun u hu => makes_expect hu.toAt hn fun v hv => ?_
    refine makes_expect hv.toAt hl fun w hw => ?_
    rw [hv.scopes, hu.scopes, hs'.scopes] at hw
    refine complete_parameterList hparams hw.toAt hvoid hnodup fun x hx => ?_
    rw [hw.scopes] at hx
    exact makes_declareProcedure hx hfresh fun y hy => hQ _ y hy
  rcases hword with ⟨rfl, k, rfl, hk⟩ | ⟨rfl, rfl⟩
  · refine makes_accept hat hk fun u hu => ?_
    rw [hscopes] at hu
    exact common u hu
  · refine makes_accept_not hat (by simp [first, ht]) ?_
    exact common s ⟨hat, hscopes⟩

theorem complete_external {body : List String → Parser Stmt} {ts : List Token} {tag : Tag}
    {signature : Signature} (h : External ts (.procedure tag signature none))
    (hat : At (ts ++ rest) s) (hne : s.scopes ≠ []) (hnew : Stmt.Introduces s.scopes signature) :
    Makes (procedure body) s fun _ s' =>
      Reaches rest ((Stmt.procedure tag signature none).declareIn s.scopes) s' := by
  obtain ⟨n, outer, hscopes⟩ := List.exists_cons_of_ne_nil hne
  obtain ⟨hk, hsig, hr⟩ := h
  rename_i k r ts
  have hat' : At ([k] ++ (ts ++ (r :: rest))) s := by simpa using hat
  refine complete_procedure (.inl ⟨rfl, k, rfl, hk⟩) hsig hat' hscopes hnew fun span t ht => ?_
  rw [if_pos rfl]
  refine Stage.ensures_bind.mpr (makes_expect ht.toAt hr fun u hu => ?_)
  refine gives_finishStmt fun _ ast => ?_
  rw [ht.scopes] at hu
  rw [hscopes]
  exact hu.node ast

end Signatures

/-! ### Blocks -/

section Heads

variable {ts : List Token} {st : Stmt}

theorem block_first (h : Block Statement ts st) (rest : List Token) :
    first (ts ++ rest) = .lbrace := by
  cases h with
  | mk hl _ _ => exact hl

theorem branch_first (h : Branch Statement ts st) (rest : List Token) :
    first (ts ++ rest) = .ifKey := by
  cases h with
  | alone hi _ _ | otherwise hi _ _ _ _ | chained hi _ _ _ _ => exact hi

theorem external_first (h : External ts st) (rest : List Token) :
    first (ts ++ rest) = .externKey := by
  cases h with
  | mk hk _ _ => exact hk

/-- What a statement does not start with. -/
theorem statement_first (h : Statement ts st) (rest : List Token) :
    first (ts ++ rest) ≠ .rbrace ∧ first (ts ++ rest) ≠ .eof ∧ first (ts ++ rest) ≠ .elseKey := by
  cases h with
  | block h => simp [block_first h]
  | branch h => simp [branch_first h]
  | loop hw _ _ => simp [first, hw]
  | continueLoop hk _ | breakLoop hk _ | leave hk _ | giveBack hk _ _ => simp [first, hk]
  | external h => simp [external_first h]
  | declaration ht _ _ => simp [first, ht]
  | initialised ht _ _ _ _ => simp [first, ht]
  | call hn _ _ => simp [first, hn]
  | assignment hn _ _ _ => simp [first, hn]

theorem statement_ne_nil (h : Statement ts st) : ts ≠ [] := by
  rintro rfl
  exact (statement_first h []).2.1 rfl

end Heads

/-- The reading takes every block of at most `n` tokens that keeps the rules. -/
def CompleteBlock (inLoop : Bool) (n : Nat) (x : Parser Stmt) : Prop :=
  ∀ ⦃ts rest : List Token⦄ ⦃st : Stmt⦄ ⦃s : State⦄, Block Statement ts st → ts.length ≤ n →
    At (ts ++ rest) s → st.Lawful inLoop s.scopes → Makes x s fun _ s' => Reaches rest s.scopes s'

section Blocks

variable {s : State} {rest : List Token} {inLoop : Bool} {p : Parser Stmt} {n : Nat}

theorem complete_statements (h : CompleteStmt inLoop n p) {ts : List Token} {body : List Stmt}
    {r : Token} (hbody : Sequence Statement ts body) (hr : r.kind = .rbrace) (hlen : ts.length ≤ n)
    {bound : Nat} (hbound : ts.length < bound) (hat : At (ts ++ r :: rest) s) {m : NameScope}
    {outer : List NameScope} (hscopes : s.scopes = m :: outer)
    (hlaw : Stmt.AllLawful inLoop s.scopes body) :
    Makes (statements p bound) s fun _ s' => ∃ m', Reaches (r :: rest) (m' :: outer) s' := by
  induction hbody generalizing bound s m with
  | nil =>
    obtain ⟨bound, rfl⟩ := Nat.exists_eq_add_of_lt hbound
    simp only [statements, Stage.ensures_bind, gives_current]
    rw [if_pos (.inl (by rw [hat.current_kind]; exact hr))]
    exact Stage.ensures_return.mpr ⟨m, hat, hscopes⟩
  | @cons ts us st sts hst hsts ih =>
    obtain ⟨hbrace, heof, -⟩ := statement_first hst (us ++ r :: rest)
    have hpos := List.length_pos_iff.mpr (statement_ne_nil hst)
    rw [List.length_append] at hlen hbound
    rw [List.append_assoc] at hat
    rw [Stmt.AllLawful] at hlaw
    obtain ⟨bound, rfl⟩ : ∃ b, bound = b + 1 := ⟨bound - 1, by omega⟩
    simp only [statements, Stage.ensures_bind, gives_current]
    rw [if_neg (by rw [hat.current_kind]; exact fun h => h.elim hbrace heof), Stage.ensures_bind]
    have helse : first (us ++ r :: rest) ≠ .elseKey := by
      cases hsts with
      | nil => simp [first, hr]
      | cons hnext _ =>
        rw [List.append_assoc]
        exact (statement_first hnext _).2.2
    refine (h hst (by omega) hat (by simp [hscopes]) hlaw.1 helse).mono fun st' t ht => ?_
    rw [Stage.ensures_bind]
    have ht' : t.scopes = st.declare m :: outer := by rw [ht.scopes, hscopes]; rfl
    refine (ih (by omega) (by omega) ht.toAt ht' (by rw [ht.scopes]; exact hlaw.2)).mono ?_
    exact fun sts' u hu => Stage.ensures_return.mpr hu

theorem complete_block (h : CompleteStmt inLoop n p) (declared : List String) {ts : List Token}
    {tag : Tag} {body : List Stmt} (hblock : Block Statement ts (.block tag body))
    (hlen : ts.length ≤ n + 1) (hat : At (ts ++ rest) s)
    (hlaw : Stmt.AllLawful inLoop ({ vars := declared } :: s.scopes) body) {Q : Stmt → State → Prop}
    (hQ : ∀ st s', Reaches rest s.scopes s' → Q st s') : Makes (block p declared) s Q := by
  obtain ⟨hl, hbody, hr⟩ := hblock
  rename_i l r ts
  have hat' : At (l :: (ts ++ (r :: rest))) s := by simpa using hat
  simp only [List.length_cons, List.length_append, List.length_nil] at hlen
  simp only [block, Stage.ensures_bind, gives_current, gives_begin]
  refine makes_expect hat' hl fun t ht => ?_
  simp only [Stage.ensures_modify, gives_remaining]
  have hbound := ht.length_lt
  rw [← ht.scopes] at hlaw
  have hopen : At (ts ++ (r :: rest)) { t with scopes := { vars := declared } :: t.scopes } :=
    ⟨ht.ahead, ht.stop⟩
  refine (complete_statements h hbody hr (by omega) hbound hopen rfl hlaw).mono ?_
  rintro body' u ⟨m, hu⟩
  refine makes_expect hu.toAt hr fun v hv => gives_finishStmt fun tag ast => hQ _ _ ?_
  refine ⟨⟨hv.ahead, hv.stop⟩, ?_⟩
  show v.scopes.drop 1 = s.scopes
  rw [hv.scopes, hu.scopes]
  exact ht.scopes

theorem completeBlock_block (h : CompleteStmt inLoop n p) :
    CompleteBlock inLoop (n + 1) (block p []) := by
  intro ts rest st s hblock hlen hat hlaw
  obtain ⟨tag, body, rfl⟩ : ∃ tag body, st = .block tag body := by
    cases hblock
    exact ⟨_, _, rfl⟩
  rw [Stmt.Lawful] at hlaw
  exact complete_block h [] hblock hlen hat hlaw fun _ _ hs' => hs'

/-- The word `if`, the condition and the first block of a branch. -/
theorem complete_then {b : Parser Stmt} (hb : CompleteBlock inLoop n b) {i : Token}
    {ts us : List Token} {c : Expr} {st : Stmt} (hi : i.kind = .ifKey) (htest : Test ts c)
    (hblock : Block Statement us st) (hlen : us.length ≤ n)
    (hat : At (i :: (ts ++ (us ++ rest))) s) (hwf : c.WellFormed s.scopes)
    (hlaw : st.Lawful inLoop s.scopes) {bound : Nat} {Q : Stmt → State → Prop}
    (hQ : ∀ e st' s', Reaches rest s.scopes s' →
      Makes (do
        if ← accept .elseKey then
          let token ← current
          let elseBranch ←
            match token.kind with
            | .ifKey => branch b bound
            | .lbrace => b
            | _ => unexpected .elseBranch
          finishStmt s.current.span fun tag => .branch tag e st' (some elseBranch)
        else finishStmt s.current.span fun tag => .branch tag e st' none) s' Q) :
    Makes (branch b (bound + 1)) s Q := by
  simp only [branch, Stage.ensures_bind, gives_current, gives_begin]
  refine makes_expect hat hi fun t ht => ?_
  refine complete_condition htest ht.toAt (by rwa [ht.scopes]) fun e u hu => ?_
  rw [ht.scopes] at hu
  refine (hb hblock hlen hu.toAt (by rwa [hu.scopes])).mono fun st' v hv => ?_
  rw [hu.scopes] at hv
  exact Stage.ensures_bind.mp (hQ e st' v hv)

theorem complete_branch {b : Parser Stmt} (hb : CompleteBlock inLoop n b) {ts : List Token}
    {st : Stmt} (hbranch : Branch Statement ts st) (hlen : ts.length ≤ n) {bound : Nat}
    (hbound : ts.length ≤ bound) (hat : At (ts ++ rest) s) (hlaw : st.Lawful inLoop s.scopes)
    (helse : first rest ≠ .elseKey) :
    Makes (branch b bound) s fun _ s' => Reaches rest s.scopes s' := by
  induction hbranch generalizing bound s with
  | @alone i ts us c st tag hi htest hblock =>
    simp only [List.length_append, List.length_cons] at hlen hbound
    obtain ⟨bound, rfl⟩ : ∃ k, bound = k + 1 := ⟨bound - 1, by omega⟩
    rw [Stmt.Lawful] at hlaw
    have hat' : At (i :: (ts ++ (us ++ rest))) s := by simpa using hat
    refine complete_then hb hi htest hblock (by omega) hat' hlaw.1 hlaw.2 fun e st' t ht => ?_
    refine Stage.ensures_bind.mpr (makes_accept_not ht.toAt helse ?_)
    rw [if_neg Bool.false_ne_true]
    exact gives_finishStmt fun _ ast => ht.node ast
  | @otherwise i o ts us vs c st other tag hi htest hblock ho hother =>
    simp only [List.length_append, List.length_cons] at hlen hbound
    obtain ⟨bound, rfl⟩ : ∃ k, bound = k + 1 := ⟨bound - 1, by omega⟩
    rw [Stmt.Lawful] at hlaw
    have hat' : At (i :: (ts ++ (us ++ o :: (vs ++ rest)))) s := by simpa using hat
    refine complete_then hb hi htest hblock (by omega) hat' hlaw.1 hlaw.2.1 fun e st' t ht => ?_
    refine Stage.ensures_bind.mpr (makes_accept ht.toAt ho fun u hu => ?_)
    rw [ht.scopes] at hu
    have hkind := hu.current_kind.trans (block_first hother rest)
    simp only [if_true, Stage.ensures_bind, gives_current, hkind]
    refine (hb hother (by omega) hu.toAt (by rw [hu.scopes]; exact hlaw.2.2)).mono fun _ v hv => ?_
    rw [hu.scopes] at hv
    exact gives_finishStmt fun _ ast => hv.node ast
  | @chained i o ts us vs c st other tag hi htest hblock ho hother ih =>
    simp only [List.length_append, List.length_cons] at hlen hbound
    obtain ⟨bound, rfl⟩ : ∃ k, bound = k + 1 := ⟨bound - 1, by omega⟩
    rw [Stmt.Lawful] at hlaw
    have hat' : At (i :: (ts ++ (us ++ o :: (vs ++ rest)))) s := by simpa using hat
    refine complete_then hb hi htest hblock (by omega) hat' hlaw.1 hlaw.2.1 fun e st' t ht => ?_
    refine Stage.ensures_bind.mpr (makes_accept ht.toAt ho fun u hu => ?_)
    rw [ht.scopes] at hu
    have hkind := hu.current_kind.trans (branch_first hother rest)
    simp only [if_true, Stage.ensures_bind, gives_current, hkind]
    have hrest : other.Lawful inLoop u.scopes := by rw [hu.scopes]; exact hlaw.2.2
    refine (ih (by omega) (by omega) hu.toAt hrest).mono fun _ v hv => ?_
    rw [hu.scopes] at hv
    exact gives_finishStmt fun _ ast => hv.node ast

theorem complete_loop {b : Parser Stmt} (hb : CompleteBlock true n b) {w : Token}
    {ts us : List Token} {c : Expr} {body : Stmt} (hw : w.kind = .whileKey) (htest : Test ts c)
    (hblock : Block Statement us body) (hlen : us.length ≤ n)
    (hat : At (w :: (ts ++ (us ++ rest))) s) (hwf : c.WellFormed s.scopes)
    (hlaw : body.Lawful true s.scopes) :
    Makes (loop b) s fun _ s' => Reaches rest s.scopes s' := by
  simp only [loop, Stage.ensures_bind, gives_current, gives_begin]
  refine makes_expect hat hw fun t ht => ?_
  refine complete_condition htest ht.toAt (by rwa [ht.scopes]) fun e u hu => ?_
  rw [ht.scopes] at hu
  refine (hb hblock hlen hu.toAt (by rwa [hu.scopes])).mono fun body' v hv => ?_
  rw [hu.scopes] at hv
  exact gives_finishStmt fun _ ast => hv.node ast

end Blocks

/-! ### Programs -/

/-- Statements are read with a bound on their number of tokens. -/
theorem complete_statement (bound : Nat) :
    ∀ inLoop : Bool, CompleteStmt inLoop bound (statement inLoop bound) := by
  induction bound with
  | zero =>
    intro inLoop ts rest st s hst hlen
    exact absurd (List.length_eq_zero_iff.mp (Nat.le_zero.mp hlen)) (statement_ne_nil hst)
  | succ bound ih =>
    intro inLoop ts rest st s hst hlen hat hne hlaw helse
    have hblock := completeBlock_block (ih inLoop)
    simp only [statement, Stage.ensures_bind, Stage.ensures_get]
    have hkind := hat.current_kind
    cases hst with
    | block h =>
      rw [declareIn_eq fun n => declare_block h]
      simp only [hkind, block_first h]
      exact hblock h hlen hat hlaw
    | branch h =>
      rw [declareIn_eq fun n => declare_branch h]
      simp only [hkind, branch_first h]
      exact complete_branch hblock h hlen (Nat.le_of_lt hat.length_lt) hat hlaw helse
    | @loop w ts us c body tag hw htest hbody =>
      have hat' : At (w :: (ts ++ (us ++ rest))) s := by simpa using hat
      rw [Stmt.Lawful] at hlaw
      simp only [List.length_cons, List.length_append] at hlen
      simp only [hkind, first, List.cons_append, hw]
      rw [declareIn_eq fun n => rfl]
      exact complete_loop (completeBlock_block (ih true)) hw htest hbody (by omega) hat' hlaw.1
        hlaw.2
    | @continueLoop k r tag hk hr =>
      rw [Stmt.Lawful] at hlaw
      subst hlaw
      simp only [hkind, first, List.cons_append, hk]
      exact complete_jump .continueLoop hr hat fun _ => rfl
    | @breakLoop k r tag hk hr =>
      rw [Stmt.Lawful] at hlaw
      subst hlaw
      simp only [hkind, first, List.cons_append, hk]
      exact complete_jump .breakLoop hr hat fun _ => rfl
    | @leave k r tag hk hr =>
      simp only [hkind, first, List.cons_append, hk]
      exact complete_leave hk hr hat
    | @giveBack k r ts e tag hk he hr =>
      rw [Stmt.Lawful] at hlaw
      have hat' : At (k :: (ts ++ r :: rest)) s := by simpa using hat
      simp only [hkind, first, List.cons_append, hk]
      exact complete_giveBack hk he hr hat' (hlaw e rfl)
    | external h =>
      obtain ⟨tag, signature, rfl⟩ : ∃ tag signature, st = .procedure tag signature none := by
        cases h
        exact ⟨_, _, rfl⟩
      rw [Stmt.Lawful] at hlaw
      simp only [hkind, external_first h]
      exact complete_external h hat hne hlaw
    | @declaration t n r type tag ht hn hr =>
      rw [Stmt.Lawful] at hlaw
      obtain ⟨m, outer, hscopes⟩ := List.exists_cons_of_ne_nil hne
      simp only [hkind, first, List.cons_append, ht]
      rw [hscopes] at hlaw ⊢
      exact complete_declaration ht hn hr hat hscopes hlaw.1 hlaw.2.1
    | @initialised t n q r type ts e tag ht hn hq he hr =>
      rw [Stmt.Lawful] at hlaw
      obtain ⟨m, outer, hscopes⟩ := List.exists_cons_of_ne_nil hne
      have hat' : At (t :: n :: q :: (ts ++ r :: rest)) s := by simpa using hat
      simp only [hkind, first, List.cons_append, ht]
      have hwf := hlaw.2.2 e rfl
      rw [hscopes] at hlaw ⊢
      exact complete_initialised ht hn hq he hr hat' hscopes hlaw.1 hlaw.2.1 hwf
    | @call n r ts args tag hn hargs hr =>
      rw [Stmt.Lawful] at hlaw
      have hat' : At (n :: (ts ++ r :: rest)) s := by simpa using hat
      have hopen : (s.peek 1).kind = .lparen := by
        obtain ⟨l, us, rfl, hl⟩ := listed_head hargs
        simp [State.peek_of_stop hat.stop, hat.ahead, hl]
      simp only [hkind, first, List.cons_append, hn]
      rw [if_pos hopen]
      exact complete_call hn hargs hr hat' hlaw.1 hlaw.2
    | @assignment n q r ts e tag hn hq he hr =>
      rw [Stmt.Lawful] at hlaw
      have hat' : At (n :: q :: (ts ++ r :: rest)) s := by simpa using hat
      have hopen : ¬ (s.peek 1).kind = .lparen := by
        simp [State.peek_of_stop hat.stop, hat.ahead, hq]
      simp only [hkind, first, List.cons_append, hn]
      rw [if_neg hopen]
      exact complete_assignment hn hq he hr hat' hlaw.1 hlaw.2

section Programs

variable {s : State} {rest : List Token}

theorem complete_programProcedure {ts : List Token} {st : Stmt} (h : Grammar.Procedure ts st)
    (hat : At (ts ++ rest) s) {n : NameScope} {outer : List NameScope}
    (hscopes : s.scopes = n :: outer) (hlaw : st.ProcedureLawful s.scopes) :
    Makes (procedure procedureBody) s fun _ s' => Reaches rest (st.declareIn s.scopes) s' := by
  cases h with
  | external h =>
    obtain ⟨tag, signature, rfl⟩ : ∃ tag signature, st = .procedure tag signature none := by
      cases h
      exact ⟨_, _, rfl⟩
    exact complete_external h hat (by simp [hscopes]) hlaw
  | @defined ts us signature body tag hsig hbody =>
    obtain ⟨tag', inside, rfl⟩ : ∃ tag' inside, body = .block tag' inside := by
      cases hbody
      exact ⟨_, _, rfl⟩
    rw [List.append_assoc] at hat
    refine complete_procedure (.inr ⟨rfl, rfl⟩) hsig hat hscopes hlaw.1 fun span t ht => ?_
    rw [if_neg Bool.false_ne_true]
    simp only [procedureBody, Stage.ensures_bind, gives_remaining]
    have hlen := Nat.le_add_right_of_le (k := 2) (Nat.le_of_lt ht.length_lt)
    have hinside : Stmt.AllLawful false
        ({ vars := signature.params.map (·.name) } :: t.scopes) inside := by
      rw [ht.scopes]
      have hlaw := hlaw.2
      rwa [hscopes] at hlaw
    refine complete_block (complete_statement _ false) _ hbody hlen ht.toAt hinside fun _ u hu => ?_
    refine gives_finishStmt fun _ ast => ?_
    rw [ht.scopes] at hu
    rw [hscopes]
    exact hu.node ast

/-- What a procedure starts with. -/
theorem procedure_first {ts : List Token} {st : Stmt} (h : Grammar.Procedure ts st)
    (rest : List Token) :
    first (ts ++ rest) = .externKey ∨ (first (ts ++ rest)).isType := by
  cases h with
  | external h => exact .inl (external_first h rest)
  | defined hsig _ =>
    cases hsig with
    | mk ht _ _ => exact .inr (by simp [first, ht, TokenKind.isType, TokenKind.type?])

theorem complete_procedures {ts : List Token} {body : List Stmt}
    (h : Sequence Grammar.Procedure ts body) {bound : Nat} (hbound : ts.length < bound)
    (hat : At ts s) {n : NameScope} {outer : List NameScope} (hscopes : s.scopes = n :: outer)
    (hlaw : Stmt.ProceduresLawful s.scopes body) :
    Makes (procedures bound) s fun _ _ => True := by
  induction h generalizing bound s n with
  | nil =>
    obtain ⟨bound, rfl⟩ := Nat.exists_eq_add_of_lt hbound
    simp only [procedures, Stage.ensures_bind, gives_current]
    rw [if_pos (show s.current.kind = .eof from hat.current_kind)]
    exact Stage.ensures_return.mpr trivial
  | @cons ts us st sts hst _ ih =>
    have hpos := List.length_pos_iff.mpr (procedure_ne_nil hst)
    rw [List.length_append] at hbound
    obtain ⟨bound, rfl⟩ : ∃ b, bound = b + 1 := ⟨bound - 1, by omega⟩
    have hfirst := procedure_first hst us
    rw [← hat.current_kind] at hfirst
    have heof : s.current.kind ≠ .eof := by
      intro h
      simp [h, TokenKind.isType, TokenKind.type?] at hfirst
    simp only [procedures, Stage.ensures_bind, gives_current]
    rw [if_neg heof, if_pos hfirst]
    simp only [Stage.ensures_bind, Stage.ensures_return]
    refine (complete_programProcedure hst hat hscopes hlaw.1).mono fun st' t ht => ?_
    have ht' : t.scopes = st.declare n :: outer := by rw [ht.scopes, hscopes]; rfl
    exact ih (by omega) ht.toAt ht' (by rw [ht.scopes]; exact hlaw.2)

/-- A program is read. -/
theorem parse_of_isProgram {tokens : List Token}
    (h : IsProgram (tokens.takeWhile (·.kind != .eof))) : ∃ ast, parse tokens = .ok ast := by
  obtain ⟨body, hbody, hlaw⟩ := h
  have hprogram : Makes program (.ofTokens tokens) fun _ _ => True := by
    simp only [program, Stage.ensures_bind, gives_current, gives_begin, Stage.ensures_modify,
      gives_remaining, Stage.ensures_get, Stage.ensures_return]
    have hat : At (tokens.takeWhile (·.kind != .eof))
        { State.ofTokens tokens with scopes := [{}] } :=
      ⟨(ahead_stop_ofTokens tokens).1, (ahead_stop_ofTokens tokens).2⟩
    have hbound := hat.ahead ▸ State.length_ahead_lt hat.stop
    refine (complete_procedures hbody hbound hat rfl hlaw).mono fun _ _ _ => ?_
    exact gives_finishStmt fun _ _ => trivial
  cases hparse : parse tokens with
  | ok ast => exact ⟨ast, rfl⟩
  | error e => exact (hprogram.error hparse).elim

end Programs

/-- The reading accepts exactly the language: it succeeds on tokens if and only if those before the
first end are a program. -/
theorem parse_accepts_iff (tokens : List Token) :
    (∃ ast, parse tokens = .ok ast) ↔ IsProgram (tokens.takeWhile (·.kind != .eof)) :=
  ⟨fun ⟨_, h⟩ => isProgram_of_parse h, parse_of_isProgram⟩

end ProcLang.Parsing

import ProcLang.Proofs.Parsing.Complete
import ProcLang.Proofs.Token.Printing

/-!
Expressions.  The reading of an expression at a position succeeds with a tree and ends at another
position exactly if the tokens between the two derive the tree, its variables are in scope, and no
operator between two operands stands behind.  So there is one tree for tokens, and a tree that is
written down, with the parentheses it needs and any that it does not need, is read back.
-/

namespace ProcLang

open Grammar

/-! ### Trees and their tags -/

section Bare

variable {e e' : Expr} {names : List NameScope}

/-- Tokens derive a tree whatever its tags are. -/
theorem Grammar.Expression.of_bare {k : Nat} {ts : List Token} (h : Expression k ts e)
    (hbare : e'.bare = e.bare) : Expression k ts e' := by
  induction h generalizing e' with
  | binary hlevel ht _ _ ihl ihr =>
    cases e' with
    | binary tag op l r =>
      obtain ⟨-, rfl, hl, hr⟩ := Expr.binary.inj hbare
      exact .binary hlevel ht (ihl hl) (ihr hr)
    | _ => cases hbare
  | tighter hk _ ih => exact .tighter hk (ih hbare)
  | unary ht _ ih =>
    cases e' with
    | unary tag op e =>
      obtain ⟨-, rfl, he⟩ := Expr.unary.inj hbare
      exact .unary ht (ih he)
    | _ => cases hbare
  | number ht =>
    cases e' with
    | literal tag value =>
      obtain ⟨-, rfl⟩ := Expr.literal.inj hbare
      exact .number ht
    | _ => cases hbare
  | string ht =>
    cases e' with
    | literal tag value =>
      obtain ⟨-, rfl⟩ := Expr.literal.inj hbare
      exact .string ht
    | _ => cases hbare
  | name ht =>
    cases e' with
    | var tag name =>
      obtain ⟨-, rfl⟩ := Expr.var.inj hbare
      exact .name ht
    | _ => cases hbare
  | parentheses hl _ hr ih => exact .parentheses hl (ih hbare) hr

theorem Expr.wellFormed_bare : e.bare.WellFormed names ↔ e.WellFormed names := by
  induction e with
  | literal | var | misplaced => rfl
  | unary tag op e ih => exact ih
  | binary tag op l r ihl ihr => exact and_congr ihl ihr

theorem Expr.WellFormed.of_bare (h : e.WellFormed names) (hbare : e'.bare = e.bare) :
    e'.WellFormed names := by
  rw [← Expr.wellFormed_bare, hbare]
  exact Expr.wellFormed_bare.mpr h

end Bare

/-- Where the names of tokens are in scope, the variables of the tree that they derive are. -/
theorem Grammar.Expression.wellFormed {k : Nat} {ts : List Token} {e : Expr}
    {names : List NameScope} (h : Expression k ts e)
    (hnames : ∀ t ∈ ts, t.kind = .identifier → ∃ n ∈ names, t.string ∈ n.vars) :
    e.WellFormed names := by
  induction h with
  | binary _ _ _ _ ihl ihr =>
    exact ⟨ihl fun t ht => hnames t (by simp [ht]), ihr fun t ht => hnames t (by simp [ht])⟩
  | tighter _ _ ih => exact ih hnames
  | unary _ _ ih | parentheses _ _ _ ih => exact ih fun t ht => hnames t (by simp [ht])
  | number | string => trivial
  | name ht => exact hnames _ (by simp) ht

/-- No token of an expression is an end. -/
theorem Grammar.Expression.ne_eof {k : Nat} {ts : List Token} {e : Expr} (h : Expression k ts e) :
    ∀ t ∈ ts, t.kind ≠ .eof := by
  induction h with
  | @binary k ts us t op l r tag hlevel ht _ _ ihl ihr =>
    have hop : t.kind ≠ .eof := ht ▸ Parsing.BinaryOp.token_ne_eof op
    simp only [List.forall_mem_append, List.forall_mem_cons]
    exact ⟨ihl, hop, ihr⟩
  | tighter _ _ ih => exact ih
  | @unary ts t op e tag ht _ ih =>
    exact List.forall_mem_cons.mpr ⟨ht ▸ Parsing.UnaryOp.token_ne_eof op, ih⟩
  | number ht | string ht | name ht => simp [ht]
  | parentheses hl _ hr ih =>
    simp only [List.forall_mem_append, List.forall_mem_cons]
    exact ⟨⟨by simp [hl], ih⟩, by simp [hr], by simp⟩

namespace Parsing

open Stage (Ensures)

/-! ### Where a reading stops -/

/-- No operator of a level or of a tighter one stands behind what is read. -/
def StopsAt (k : Nat) (x : Parser Expr) : Prop :=
  ∀ s : State, Clean s → Gives x s fun _ s' => Stops k s'.ahead

theorem stops_chain {k : Nat} (hk : k < unaryLevel) {operand : Parser Expr}
    (hsound : SoundAt (k + 1) operand) (hstops : StopsAt (k + 1) operand) {bound : Nat} {s : State}
    (hs : Clean s) (hahead : Stops (k + 1) s.ahead) (lhs : Expr) :
    Gives (chain (levelOps k) operand bound lhs) s fun _ s' => Stops k s'.ahead := by
  induction bound generalizing s lhs with
  | zero => exact gives_spent
  | succ bound ih =>
    have hat : At s.ahead s := ⟨rfl, hs.stop⟩
    simp only [chain, Stage.ensures_bind, gives_current]
    split
    · next hnone =>
      refine Stage.ensures_return.mpr fun op hop heq => ?_
      rcases Nat.eq_or_lt_of_le hop with hlevel | hlevel
      · have hsome := (lookup_levelOps hk).mpr ⟨hlevel.symm, hat.current_kind.trans heq⟩
        rw [hnone] at hsome
        cases hsome
      · exact hahead op hlevel heq
    · next op hop =>
      obtain ⟨-, htoken⟩ := (lookup_levelOps hk).mp hop
      have hadv := hs.keeps_advance (htoken ▸ BinaryOp.token_ne_eof op)
      simp only [Stage.ensures_bind, gives_advance, gives_begin]
      have hclean := hadv.clean hs
      refine ((hsound _ hclean).and (hstops _ hclean)).mono ?_
      rintro rhs t ⟨⟨us, hus, -⟩, ht⟩
      refine gives_finishExpr fun tag ast => ?_
      exact ih (((hadv.trans hus).node ast).clean hs) ht _

theorem stops_ladder {operand : Parser Expr} (h : SoundAt unaryLevel operand) (n : Nat) :
    ∀ {k : Nat}, k + n = unaryLevel → StopsAt k (ladder operand (levels.drop k)) := by
  -- from the tightest level, behind which any operator may stand, to looser ones
  induction n with
  | zero =>
    rintro k rfl s -
    exact Stage.ensures_of_forall fun _ s' => stops_unaryLevel s'.ahead
  | succ n ih =>
    intro k hk s hs
    have hlt : k < unaryLevel := by omega
    have hnext : k + 1 + n = unaryLevel := by omega
    have hsound := sound_ladder h n hnext
    rw [drop_levels hlt]
    simp only [ladder, Stage.ensures_bind, gives_remaining]
    refine ((hsound s hs).and (ih hnext s hs)).mono ?_
    rintro lhs t ⟨⟨ts, hts, -⟩, ht⟩
    exact stops_chain hlt hsound (ih hnext) (hts.clean hs) ht lhs

/-! ### The node of what was read -/

/-- The node of an expression is among the nodes made, under its number. -/
def Made (e : Expr) (s : State) : Prop := s.ast.nodes[e.tag.id]? = some (.expr e)

theorem made_finishExpr {s : State} {span : Span} {build : Tag → Expr}
    (h : ∀ tag, (build tag).tag = tag) : Gives (finishExpr span build) s Made := by
  simp [finishExpr, nextTag, addNode, reportNode, Made, h, Ast.push, Ast.size]

/-- What is read is made. -/
def MakesNode (x : Parser Expr) : Prop := ∀ s : State, Gives x s Made

theorem made_chain {operand : Parser Expr} (ops : Level) (bound : Nat) {s : State} {lhs : Expr}
    (hlhs : Made lhs s) : Gives (chain ops operand bound lhs) s Made := by
  induction bound generalizing s lhs with
  | zero => exact gives_spent
  | succ bound ih =>
    simp only [chain, Stage.ensures_bind, gives_current]
    split
    · exact Stage.ensures_return.mpr hlhs
    · simp only [Stage.ensures_bind, gives_advance, gives_begin]
      refine Stage.ensures_of_forall fun rhs t => ?_
      exact (made_finishExpr fun _ => rfl).mono fun node u hnode => ih hnode

theorem made_ladder {operand : Parser Expr} (h : MakesNode operand) :
    ∀ ls : List Level, MakesNode (ladder operand ls)
  | [] => h
  | ops :: tighter => by
    intro s
    simp only [ladder, Stage.ensures_bind, gives_remaining]
    exact (made_ladder h tighter s).mono fun lhs t hlhs => made_chain ops _ hlhs

theorem made_primary {inner : Parser Expr} (h : MakesNode inner) : MakesNode (primary inner) := by
  intro s
  simp only [primary, Stage.ensures_bind, gives_current]
  split
  · simp only [Stage.ensures_bind, gives_begin, gives_advance]
    exact made_finishExpr fun _ => rfl
  · simp only [Stage.ensures_bind, gives_begin, gives_advance]
    exact made_finishExpr fun _ => rfl
  · simp only [Stage.ensures_bind, gives_begin, gives_advance, Stage.ensures_get]
    split
    · exact made_finishExpr fun _ => rfl
    · exact gives_refuse
  · simp only [Stage.ensures_bind, gives_advance]
    exact (h s.advance).mono fun e t he => gives_expect (Stage.ensures_return.mpr he)
  · exact gives_unexpected

theorem made_unary (bound : Nat) : MakesNode (unary bound) := by
  induction bound with
  | zero => exact fun s => gives_spent
  | succ bound ih =>
    intro s
    simp only [unary, Stage.ensures_bind, gives_current]
    split
    · simp only [Stage.ensures_bind, gives_begin, gives_advance]
      refine Stage.ensures_of_forall fun e t => ?_
      exact made_finishExpr fun _ => rfl
    · exact made_primary (made_ladder ih levels) s

/-! ### Positions -/

/-- The state at a position among tokens, with some names in scope and some nodes made. -/
def State.atPosition (tokens : List Token) (position : Nat) (scopes : List NameScope) (ast : Ast) :
    State :=
  { State.ofTokens tokens with pos := position, scopes := scopes, ast := ast }

/-- A reading can come to a position if it is not behind the first end. -/
def IsPosition (tokens : List Token) (position : Nat) : Prop :=
  position ≤ (State.ofTokens tokens).ahead.length

instance (tokens : List Token) (position : Nat) : Decidable (IsPosition tokens position) :=
  inferInstanceAs (Decidable (_ ≤ _))

/-- At one position an expression is read, with a tree, and the reading ends at another position with
the same names in scope and the node of the tree among the nodes. -/
def ReadsExpression (tokens : List Token) (scopes : List NameScope) (ast : Ast) (p q : Nat)
    (tree : Expr) : Prop :=
  ∃ e ast', (expression (.atPosition tokens p scopes ast)).result = .ok e ∧
    (expression (.atPosition tokens p scopes ast)).state = .atPosition tokens q scopes ast' ∧
    e.bare = tree.bare ∧ ast'.nodes[e.tag.id]? = some (.expr e)

section Positions

variable {tokens : List Token} {scopes : List NameScope} {ast : Ast} {p q : Nat} {tree : Expr}

theorem at_atPosition (hp : IsPosition tokens p) :
    At ((State.ofTokens tokens).ahead.drop p) (.atPosition tokens p scopes ast) := by
  have hstop := (clean_ofTokens tokens).stop
  obtain ⟨back, hclosed⟩ := State.drop_pos hstop
  have hdrop := congrArg (List.drop p) hclosed
  rw [List.drop_append_of_le_length hp] at hdrop
  have h := State.ahead_stop_of_drop (s := .atPosition tokens p scopes ast) hdrop
    (fun t ht => State.mem_ahead (List.mem_of_mem_drop ht)) hstop
  exact ⟨h.1, h.2 ▸ hstop⟩

/-- The state behind an expression is told by the tokens to come. -/
theorem eq_atPosition (hp : IsPosition tokens p) (hq : IsPosition tokens q) {s : State}
    (hs : (expression (.atPosition tokens p scopes ast)).state = s)
    (hahead : s.ahead = (State.ofTokens tokens).ahead.drop q) (hscopes : s.scopes = scopes) :
    s = .atPosition tokens q scopes s.ast := by
  have hstop := (clean_ofTokens tokens).stop
  obtain ⟨back, hclosed⟩ := State.drop_pos hstop
  have hreading := ((Fork.mk _ _ back [] hstop).keeps_expression (.atPosition tokens p scopes ast)
    ⟨hclosed, hp⟩ (Nat.lt_succ_self _)).2.2.1
  rw [hs] at hreading
  obtain ⟨ts, pos, names, made⟩ := s
  obtain rfl : ts = (State.ofTokens tokens).tokens := hreading.tokens.trans hclosed.symm
  have hpos : IsPosition tokens pos := hreading.pos
  have hlen := congrArg List.length ((at_atPosition hpos).ahead.symm.trans hahead)
  simp only [List.length_drop] at hlen
  unfold IsPosition at hpos hq
  obtain rfl : pos = q := by omega
  cases hscopes
  rfl

/-- The first of the tokens behind a position is the token at the position. -/
theorem first_drop (hq : IsPosition tokens q) :
    first ((State.ofTokens tokens).ahead.drop q) = ((State.ofTokens tokens).peek q).kind := by
  rw [State.peek_of_stop (clean_ofTokens tokens).stop hq, ← List.head?_drop]
  cases (State.ofTokens tokens).ahead.drop q with
  | nil => exact (clean_ofTokens tokens).stop.symm
  | cons t rest => rfl

theorem ahead_append (tokens : List Token) :
    (State.ofTokens tokens).ahead ++ tokens.dropWhile (·.kind != .eof) = tokens := by
  rw [(ahead_stop_ofTokens tokens).1, List.takeWhile_append_dropWhile]

/-- The tokens between two positions. -/
theorem slice_eq (hq : IsPosition tokens q) (hpq : p ≤ q) :
    (State.ofTokens tokens).ahead.drop p =
      (tokens.take q).drop p ++ (State.ofTokens tokens).ahead.drop q := by
  have htake : tokens.take q = (State.ofTokens tokens).ahead.take q := by
    conv_lhs => rw [← ahead_append tokens]
    exact List.take_append_of_le_length hq
  rw [htake, List.drop_take]
  have hdrop : (State.ofTokens tokens).ahead.drop q =
      ((State.ofTokens tokens).ahead.drop p).drop (q - p) := by
    rw [List.drop_drop]
    congr 1
    omega
  rw [hdrop, List.take_append_drop]

/-- What is known of an expression that was read. -/
theorem sound_expressionAt (hp : IsPosition tokens p) :
    Gives expression (.atPosition tokens p scopes ast) fun e s' =>
    ∃ used, Keeps used (.atPosition tokens p scopes ast) s' ∧ Expression 0 used e ∧
      e.WellFormed scopes ∧ Stops 0 s'.ahead ∧ Made e s' := by
  have hclean : Clean (.atPosition tokens p scopes ast) :=
    ⟨(at_atPosition hp).stop, fun _ => State.mem_ahead⟩
  have hsound : Gives expression (.atPosition tokens p scopes ast) fun e s' =>
      ∃ used, Keeps used (.atPosition tokens p scopes ast) s' ∧ Expression 0 used e ∧
        e.WellFormed scopes :=
    sound_expression hclean fun e s' used hkeeps he hwf => ⟨used, hkeeps, he, hwf⟩
  have hstops : Gives expression (.atPosition tokens p scopes ast) fun e s' =>
      Stops 0 s'.ahead ∧ Made e s' := by
    simp only [expression, Stage.ensures_bind, gives_remaining]
    exact (stops_ladder (sound_unary _) unaryLevel rfl _ hclean).and
      (made_ladder (made_unary _) levels _)
  refine (hsound.and hstops).mono ?_
  rintro e s' ⟨⟨used, hkeeps, he, hwf⟩, hbehind, hmade⟩
  exact ⟨used, hkeeps, he, hwf, hbehind, hmade⟩

/-- Positions are determined by the tokens behind them. -/
theorem slice_of_keeps {used : List Token} {ast' : Ast} (hp : IsPosition tokens p)
    (hq : IsPosition tokens q)
    (h : Keeps used (.atPosition tokens p scopes ast) (.atPosition tokens q scopes ast')) :
    p ≤ q ∧ (tokens.take q).drop p = used := by
  have hahead := h.ahead
  rw [(at_atPosition hp).ahead, (at_atPosition hq).ahead] at hahead
  have hlen := congrArg List.length hahead
  simp only [List.length_append, List.length_drop] at hlen
  unfold IsPosition at hp hq
  have hpq : p ≤ q := by omega
  rw [slice_eq hq hpq] at hahead
  exact ⟨hpq, List.append_cancel_right hahead⟩

/-- An expression is read with a tree exactly if its tokens derive the tree and nothing goes on behind
them. -/
theorem readsExpression_iff (hp : IsPosition tokens p) (hq : IsPosition tokens q) :
    ReadsExpression tokens scopes ast p q tree ↔
      p ≤ q ∧ Expression 0 ((tokens.take q).drop p) tree ∧ tree.WellFormed scopes ∧
        ∀ op : BinaryOp, ((State.ofTokens tokens).peek q).kind ≠ op.token := by
  constructor
  · rintro ⟨e, ast', hresult, hstate, hbare, -⟩
    obtain ⟨used, hkeeps, he, hwf, hstops, -⟩ := (sound_expressionAt hp).value hresult
    rw [hstate] at hkeeps hstops
    rw [(at_atPosition hq).ahead] at hstops
    obtain ⟨hpq, rfl⟩ := slice_of_keeps hp hq hkeeps
    refine ⟨hpq, he.of_bare hbare.symm, hwf.of_bare hbare.symm, fun op => ?_⟩
    rw [← first_drop hq]
    exact hstops op (Nat.zero_le _)
  · rintro ⟨hpq, htree, hwf, hop⟩
    have hat : At ((tokens.take q).drop p ++ (State.ofTokens tokens).ahead.drop q)
        (.atPosition tokens p scopes ast) := slice_eq hq hpq ▸ at_atPosition hp
    have hstops : Stops 0 ((State.ofTokens tokens).ahead.drop q) := by
      intro op _
      rw [first_drop hq]
      exact hop op
    have hmakes := (complete_expression htree hat hwf hstops fun e s' hbare hreach =>
      And.intro hbare hreach).and (sound_expressionAt hp)
    cases hresult : (expression (.atPosition tokens p scopes ast)).result with
    | error cause => exact (hmakes.error hresult).elim
    | ok e =>
      obtain ⟨⟨hbare, hreach⟩, used, -, -, -, -, hmade⟩ := hmakes.value hresult
      exact ⟨e, _, hresult, eq_atPosition hp hq rfl hreach.ahead hreach.scopes, hbare, hmade⟩

end Positions

/-- Tokens derive one tree. -/
theorem expression_unambiguous {ts : List Token} {e e' : Expr} (h : Expression 0 ts e)
    (h' : Expression 0 ts e') : e.bare = e'.bare := by
  -- both are what is read where all names of the tokens are in scope
  let s : State :=
    { tokens := ts ++ [{ kind := .eof, span := default }]
      scopes := [{ vars := ts.map (·.string) }] }
  have hs := State.ahead_stop_of_drop (s := s) rfl h.ne_eof rfl
  have hat : At (ts ++ []) s := ⟨hs.1.trans (List.append_nil ts).symm, hs.2 ▸ rfl⟩
  have hnames : ∀ t ∈ ts, t.kind = .identifier → ∃ n ∈ s.scopes, t.string ∈ n.vars := by
    intro t ht _
    exact ⟨_, List.mem_singleton_self _, List.mem_map_of_mem ht⟩
  have hstops : Stops 0 [] := fun op _ heq => BinaryOp.token_ne_eof op heq.symm
  have hread := complete_expression h hat (h.wellFormed hnames) hstops fun x _ hx _ => hx
  have hread' := complete_expression h' hat (h'.wellFormed hnames) hstops fun x _ hx _ => hx
  cases hresult : (expression s).result with
  | error cause => exact (hread.error hresult).elim
  | ok x => exact (hread.value hresult).symm.trans (hread'.value hresult)

end Parsing

/-! ### Writing expressions -/

/-- Parentheses around what tokens say, a number of times. -/
def parenthesized : Nat → List (TokenKind × TokenValue) → List (TokenKind × TokenValue)
  | 0, inside => inside
  | count + 1, inside => (.lparen, .none) :: parenthesized count inside ++ [(.rparen, .none)]

namespace Expr

/-- The level of an expression that stands without parentheses. -/
def level : Expr → Nat
  | .binary _ op _ _ => op.level
  | _ => unaryLevel

/-- What the tokens of an expression say in a place for some level.  There are parentheses around
every operand that needs them, and `extra` tells for each way down the tree (`false` leads to the
only or the left operand, `true` to the right one) how many more there are. -/
def written : Expr → (List Bool → Nat) → Nat → List (TokenKind × TokenValue)
  | .literal _ (.integer value), extra, _ => parenthesized (extra []) [(.number, .number value)]
  | .literal _ (.string raw), extra, _ => parenthesized (extra []) [(.stringLiteral, .text raw)]
  | .var _ name, extra, _ => parenthesized (extra []) [(.identifier, .text name)]
  | .unary _ op e, extra, _ =>
    parenthesized (extra [])
      ((op.token, .none) :: e.written (fun way => extra (false :: way)) unaryLevel)
  | .binary _ op l r, extra, k =>
    parenthesized ((if op.level < k then 1 else 0) + extra [])
      (l.written (fun way => extra (false :: way)) op.level ++
        (op.token, .none) :: r.written (fun way => extra (true :: way)) (op.level + 1))
  | .misplaced .., _, _ => []

end Expr

section Writing

variable {k m n : Nat} {ts : List Token} {e : Expr} {names : List NameScope}
  {inside : List (TokenKind × TokenValue)}

/-- What stands at a level stands at all looser ones. -/
theorem Grammar.Expression.loosen (h : Expression m ts e) (hm : m ≤ unaryLevel) (hk : k ≤ m) :
    Expression k ts e := by
  obtain ⟨d, rfl⟩ := Nat.exists_eq_add_of_le hk
  induction d generalizing k with
  | zero => exact h
  | succ d ih =>
    rw [show k + (d + 1) = k + 1 + d by omega] at h hm
    exact .tighter (by omega) (ih h hm (by omega))

/-- Parentheses around an expression make it one of any level. -/
theorem expression_of_parenthesized
    (hinside : ∀ us : List Token, us.map Token.content = inside → Expression m us e)
    (hm : m ≤ unaryLevel) (hk : k ≤ unaryLevel) (hn : n = 0 → k ≤ m)
    (h : ts.map Token.content = parenthesized n inside) : Expression k ts e := by
  induction n generalizing k ts with
  | zero => exact (hinside ts h).loosen hm (hn rfl)
  | succ n ih =>
    obtain ⟨l, us, rfl, hl, hus⟩ := List.map_eq_cons_iff.mp h
    obtain ⟨vs, ws, rfl, hvs, hws⟩ := List.map_eq_append_iff.mp hus
    obtain ⟨r, zs, rfl, hr, hzs⟩ := List.map_eq_cons_iff.mp hws
    obtain rfl := List.map_eq_nil_iff.mp hzs
    have hexp : Expression 0 vs e := ih (Nat.zero_le _) (fun _ => Nat.zero_le _) hvs
    have hpar : Expression unaryLevel (l :: vs ++ [r]) e :=
      .parentheses (congrArg Prod.fst hl) hexp (congrArg Prod.fst hr)
    exact hpar.loosen (Nat.le_refl _) hk

/-- A tree is derived by the tokens of each of its writings. -/
theorem expression_of_written (hwf : e.WellFormed names) {extra : List Bool → Nat}
    (hk : k ≤ unaryLevel) (h : ts.map Token.content = e.written extra k) : Expression k ts e := by
  induction e generalizing extra k ts with
  | literal tag value =>
    cases value with
    | integer value =>
      refine expression_of_parenthesized (fun us hus => ?_) (Nat.le_refl _) hk (fun _ => hk) h
      obtain ⟨⟨kind, span, value⟩, rfl, ht⟩ := List.map_eq_singleton_iff.mp hus
      obtain ⟨rfl, rfl⟩ := Prod.mk.inj ht
      exact .number rfl
    | string raw =>
      refine expression_of_parenthesized (fun us hus => ?_) (Nat.le_refl _) hk (fun _ => hk) h
      obtain ⟨⟨kind, span, value⟩, rfl, ht⟩ := List.map_eq_singleton_iff.mp hus
      obtain ⟨rfl, rfl⟩ := Prod.mk.inj ht
      exact .string rfl
  | var tag name =>
    refine expression_of_parenthesized (fun us hus => ?_) (Nat.le_refl _) hk (fun _ => hk) h
    obtain ⟨⟨kind, span, value⟩, rfl, ht⟩ := List.map_eq_singleton_iff.mp hus
    obtain ⟨rfl, rfl⟩ := Prod.mk.inj ht
    exact .name rfl
  | unary tag op e ih =>
    refine expression_of_parenthesized (fun us hus => ?_) (Nat.le_refl _) hk (fun _ => hk) h
    obtain ⟨t, vs, rfl, ht, hvs⟩ := List.map_eq_cons_iff.mp hus
    exact .unary (congrArg Prod.fst ht) (ih hwf (Nat.le_refl _) hvs)
  | binary tag op l r ihl ihr =>
    have hlevel := Parsing.level_lt op
    refine expression_of_parenthesized (fun us hus => ?_) (Nat.le_of_lt hlevel) hk ?_ h
    · obtain ⟨vs, ws, rfl, hvs, hws⟩ := List.map_eq_append_iff.mp hus
      obtain ⟨t, zs, rfl, ht, hzs⟩ := List.map_eq_cons_iff.mp hws
      exact .binary rfl (congrArg Prod.fst ht) (ihl hwf.1 (Nat.le_of_lt hlevel) hvs)
        (ihr hwf.2 hlevel hzs)
    · intro hcount
      split_ifs at hcount with hlt
      · omega
      · omega
  | misplaced tag kind => exact hwf.elim

theorem length_parenthesized : (parenthesized n inside).length = inside.length + 2 * n := by
  induction n with
  | zero => rfl
  | succ n ih =>
    simp only [parenthesized, List.length_append, List.length_cons, List.length_nil, ih]
    omega

/-- In a place for a tighter level an expression has one pair of parentheses more at most. -/
theorem length_written (e : Expr) (hk : k ≤ unaryLevel) : (e.written (fun _ => 0) k).length =
    (e.written (fun _ => 0) 0).length + if e.level < k then 2 else 0 := by
  cases e with
  | binary tag op l r =>
    by_cases hlt : op.level < k <;> simp [Expr.written, Expr.level, length_parenthesized, hlt]
  | literal tag value =>
    have hnot : ¬(Expr.literal tag value).level < k := Nat.not_lt.mpr hk
    rw [if_neg hnot]
    cases value <;> rfl
  | var | unary | misplaced =>
    rw [if_neg (by exact Nat.not_lt.mpr hk)]
    rfl

/-- No tokens that derive a tree are fewer than those of its writing without further parentheses. -/
theorem length_written_le (h : Expression k ts e) :
    (e.written (fun _ => 0) k).length ≤ ts.length := by
  induction h with
  | @binary k ts us t op l r tag hlevel ht _ _ ihl ihr =>
    subst hlevel
    simp only [Expr.written, length_parenthesized, List.length_append, List.length_cons,
      if_neg (Nat.lt_irrefl _)]
    omega
  | @tighter k ts e hk _ ih =>
    have hloose := length_written e (Nat.le_of_lt hk)
    have htight := length_written e (show k + 1 ≤ unaryLevel from hk)
    split_ifs at hloose htight <;> omega
  | unary ht _ ih =>
    simp only [Expr.written, length_parenthesized, List.length_cons]
    omega
  | number | string | name => simp [Expr.written, parenthesized]
  | @parentheses l r ts e hl _ hr ih =>
    have htight := length_written e (Nat.le_refl unaryLevel)
    simp only [List.length_append, List.length_cons, List.length_nil]
    split_ifs at htight <;> omega

end Writing

namespace Parsing

section Written

variable {tokens ts rest : List Token} {scopes : List NameScope} {ast : Ast} {p : Nat} {tree : Expr}

theorem first_takeWhile (ts : List Token) : first (ts.takeWhile (·.kind != .eof)) = first ts := by
  cases ts with
  | nil => rfl
  | cons t ts =>
    by_cases ht : t.kind = .eof
    · simp [first, ht]
    · simp [first, ht]

/-- Tokens without an end that stand at a position are what a reading has before it there. -/
theorem drop_ahead (hp : IsPosition tokens p) (hdrop : tokens.drop p = ts ++ rest)
    (hts : ∀ t ∈ ts, t.kind ≠ .eof) :
    (State.ofTokens tokens).ahead.drop p = ts ++ rest.takeWhile (·.kind != .eof) := by
  have hsplit := ahead_append tokens
  have hahead : ∀ t ∈ (State.ofTokens tokens).ahead, (t.kind != .eof) = true := by
    intro t ht
    simpa using (clean_ofTokens tokens).ahead t ht
  -- what is not before the first end starts with it
  have hnil : (tokens.dropWhile (·.kind != .eof)).takeWhile (·.kind != .eof) = [] := by
    have hself : (State.ofTokens tokens).ahead ++
        (tokens.dropWhile (·.kind != .eof)).takeWhile (·.kind != .eof) =
        (State.ofTokens tokens).ahead ++ [] := by
      rw [← List.takeWhile_append_of_pos hahead, hsplit, List.append_nil]
      exact (ahead_stop_ofTokens tokens).1.symm
    exact List.append_cancel_left hself
  have hwhile : (tokens.drop p).takeWhile (·.kind != .eof) =
      (State.ofTokens tokens).ahead.drop p := by
    conv_lhs => rw [← hsplit, List.drop_append_of_le_length hp]
    rw [List.takeWhile_append_of_pos fun t ht => hahead t (List.mem_of_mem_drop ht), hnil,
      List.append_nil]
  rw [← hwhile, hdrop, List.takeWhile_append_of_pos fun t ht => by simpa using hts t ht]

/-- A tree that is written down is read back. -/
theorem readsExpression_of_written {extra : List Bool → Nat} (hp : IsPosition tokens p)
    (hdrop : tokens.drop p = ts ++ rest) (hts : ts.map Token.content = tree.written extra 0)
    (hwf : tree.WellFormed scopes) (hrest : ∀ op : BinaryOp, first rest ≠ op.token) :
    ReadsExpression tokens scopes ast p (p + ts.length) tree := by
  have htree : Expression 0 ts tree := expression_of_written hwf (Nat.zero_le _) hts
  have hahead := drop_ahead hp hdrop htree.ne_eof
  have hq : IsPosition tokens (p + ts.length) := by
    have hlen := congrArg List.length hahead
    simp only [List.length_drop, List.length_append] at hlen
    unfold IsPosition at hp ⊢
    omega
  refine (readsExpression_iff hp hq).mpr ⟨Nat.le_add_right _ _, ?_, hwf, fun op => ?_⟩
  · rw [List.drop_take, hdrop, Nat.add_sub_cancel_left, List.take_left]
    exact htree
  · rw [← first_drop hq, ← List.drop_drop, hahead, List.drop_left,
      first_takeWhile]
    exact hrest op

end Written

/-- The reading of expressions is the grammar of their levels.  At a position of some tokens, whatever
names are in scope, an expression is read with a tree up to another position if and only if the tokens
between the two derive the tree, its variables are in scope, and the token at the second position is
no operator between two operands.  So every writing of a tree over variables in scope, with the
parentheses that it needs and any others, is read back as that tree where no such operator follows;
the writing without others is the shortest there is; and no tokens derive two trees. -/
theorem expression_grammar (tokens : List Token) (scopes : List NameScope) (ast : Ast) :
    (∀ p q tree, IsPosition tokens p → IsPosition tokens q →
      (ReadsExpression tokens scopes ast p q tree ↔
        p ≤ q ∧ Expression 0 ((tokens.take q).drop p) tree ∧ tree.WellFormed scopes ∧
          ∀ op : BinaryOp, ((State.ofTokens tokens).peek q).kind ≠ op.token)) ∧
    (∀ p tree extra ts rest, IsPosition tokens p → tokens.drop p = ts ++ rest →
      ts.map Token.content = tree.written extra 0 → tree.WellFormed scopes →
      (∀ op : BinaryOp, first rest ≠ op.token) →
      ReadsExpression tokens scopes ast p (p + ts.length) tree) ∧
    (∀ tree ts, Expression 0 ts tree → (tree.written (fun _ => 0) 0).length ≤ ts.length) ∧
    ∀ ts tree tree', Expression 0 ts tree → Expression 0 ts tree' → tree.bare = tree'.bare :=
  ⟨fun _ _ _ hp hq => readsExpression_iff hp hq,
    fun _ _ _ _ _ hp hdrop hts hwf hrest => readsExpression_of_written hp hdrop hts hwf hrest,
    fun _ _ h => length_written_le h, fun _ _ _ h h' => expression_unambiguous h h'⟩

/-- Behind `return`, the tokens of `a - ((b + 1)) * 2` are read as a difference with a product on its
right. -/
theorem expression_grammar_difference :
    let token (kind : TokenKind) (value : TokenValue) : Token := ⟨kind, default, value⟩
    let tokens :=
      [token .returnKey .none, token .identifier (.text "a"), token .hyphen .none,
        token .lparen .none, token .lparen .none, token .identifier (.text "b"),
        token .plus .none, token .number (.number 1), token .rparen .none, token .rparen .none,
        token .star .none, token .number (.number 2), token .semicolon .none]
    let tree : Expr :=
      .binary default (.arith .sub) (.var default "a")
        (.binary default (.arith .mul)
          (.binary default (.arith .add) (.var default "b") (.literal default (.integer 1)))
          (.literal default (.integer 2)))
    ReadsExpression tokens [{ vars := ["a", "b"] }] {} 1 12 tree := by
  intro token tokens tree
  have hwritten := (expression_grammar tokens [{ vars := ["a", "b"] }] {}).2.1
  refine hwritten 1 tree (fun way => if way = [true, false] then 1 else 0)
    ((tokens.take 12).drop 1) (tokens.drop 12) (by decide) rfl rfl ?_ ?_
  · simp [tree, Expr.WellFormed]
  · intro op
    rcases op with op | op | op <;> cases op <;> decide

end Parsing

end ProcLang

import ProcLang.Proofs.Parsing.Grammar
import ProcLang.Proofs.Parsing.Locality
import ProcLang.Proofs.Parsing.Steps

/-!
What is read is of the language: the tokens taken by a reading that succeeds derive the tree it
gives, and the tree keeps the rules.
-/

namespace ProcLang.Parsing

open Stage (Ensures)
open Grammar

/-! ### Tokens -/

/-- The end is an end, and no token before it is one. -/
structure Clean (s : State) : Prop where
  stop : s.stop.kind = .eof
  ahead : ∀ t ∈ s.ahead, t.kind ≠ .eof

/-- Some tokens are taken between two states. -/
structure Takes (used : List Token) (s s' : State) : Prop where
  ahead : s.ahead = used ++ s'.ahead
  stop : s'.stop = s.stop

/-- Some tokens are taken, and the names in scope stay. -/
structure Keeps (used : List Token) (s s' : State) : Prop extends Takes used s s' where
  scopes : s'.scopes = s.scopes

section Takes

variable {s t u : State} {ts us : List Token}

theorem Takes.clean (h : Takes ts s t) (hs : Clean s) : Clean t where
  stop := by rw [h.stop, hs.stop]
  ahead := fun x hx => hs.ahead x (by rw [h.ahead]; exact List.mem_append_right _ hx)

theorem Takes.trans (h : Takes ts s t) (h' : Takes us t u) : Takes (ts ++ us) s u where
  ahead := by rw [h.ahead, h'.ahead, List.append_assoc]
  stop := by rw [h'.stop, h.stop]

theorem Keeps.trans (h : Keeps ts s t) (h' : Keeps us t u) : Keeps (ts ++ us) s u :=
  ⟨h.toTakes.trans h'.toTakes, h'.scopes.trans h.scopes⟩

theorem Keeps.refl (s : State) : Keeps [] s s := ⟨⟨rfl, rfl⟩, rfl⟩

theorem Keeps.clean (h : Keeps ts s t) (hs : Clean s) : Clean t := h.toTakes.clean hs

/-- A node more changes nothing. -/
theorem Keeps.node (h : Keeps ts s t) (ast : Ast) : Keeps ts s { t with ast := ast } :=
  ⟨⟨h.ahead, h.stop⟩, h.scopes⟩

/-- A token that is no end stands at the head of the tokens. -/
theorem Clean.keeps_advance (hs : Clean s) (hk : s.current.kind ≠ .eof) :
    Keeps [s.current] s s.advance := by
  have hcur : s.current = s.ahead[0]?.getD s.stop := State.peek_of_stop hs.stop (Nat.zero_le _)
  cases hahead : s.ahead with
  | nil =>
    rw [hcur, hahead] at hk
    exact absurd hs.stop hk
  | cons t rest =>
    obtain ⟨hrest, hstop⟩ := State.ahead_stop_advance hs.stop hahead
    exact ⟨⟨by rw [hcur, hrest, hahead]; rfl, hstop⟩, rfl⟩

end Takes

section Steps

variable {s : State}

theorem sound_expect {kind : TokenKind} (hk : kind ≠ .eof) (hs : Clean s)
    {Q : Token → State → Prop} (h : ∀ t s', t.kind = kind → Keeps [t] s s' → Q t s') :
    Gives (expect kind) s Q := by
  simp only [expect, Stage.ensures_bind, gives_current]
  split
  · next heq =>
    refine gives_advance.mpr (h _ _ heq (hs.keeps_advance ?_))
    rw [heq]
    exact hk
  · exact gives_unexpected

theorem sound_accept {kind : TokenKind} (hk : kind ≠ .eof) (hs : Clean s)
    {Q : Bool → State → Prop} (ht : ∀ t s', t.kind = kind → Keeps [t] s s' → Q true s')
    (hf : s.current.kind ≠ kind → Q false s) : Gives (accept kind) s Q := by
  simp only [accept, Stage.ensures_bind, gives_current]
  split
  · next heq =>
    refine Stage.ensures_bind.mpr (gives_advance.mpr (Stage.ensures_return.mpr ?_))
    refine ht _ _ heq (hs.keeps_advance ?_)
    rw [heq]
    exact hk
  · next hne => exact Stage.ensures_return.mpr (hf hne)

theorem sound_typeName (hs : Clean s) {Q : DataType → State → Prop}
    (h : ∀ t s' type, t.kind = .type type → Keeps [t] s s' → Q type s') : Gives typeName s Q := by
  simp only [typeName, Stage.ensures_bind, gives_advance]
  split
  · next type heq =>
    have hkind : s.current.kind = .type type := by
      generalize s.current.kind = kind at heq
      cases kind <;> simp_all [TokenKind.type?]
    rw [Stage.ensures_return]
    exact h _ _ _ hkind (hs.keeps_advance (by rw [hkind]; simp))
  · exact Stage.ensures_fail.mpr trivial

end Steps

/-! ### Operators -/

/-- The operators of a level, by their tokens. -/
def levelOps (k : Nat) : Level := levels[k]?.getD []

theorem drop_levels :
    ∀ {k : Nat}, k < unaryLevel → levels.drop k = levelOps k :: levels.drop (k + 1)
  | 0, _ | 1, _ | 2, _ | 3, _ | 4, _ | 5, _ => rfl
  | k + 6, h => absurd h (by unfold unaryLevel; omega)

theorem mem_of_lookup {β : Type} {a : TokenKind} {b : β} {l : List (TokenKind × β)}
    (h : l.lookup a = some b) : (a, b) ∈ l := by
  obtain ⟨l₁, l₂, rfl, -⟩ := List.lookup_eq_some_iff.mp h
  simp

theorem mem_levelOps : ∀ k < unaryLevel, ∀ p ∈ levelOps k, p.2.level = k ∧ p.1 = p.2.token := by
  decide

theorem mem_unaryOps : ∀ p ∈ unaryOps, p.1 = p.2.token := by
  decide

/-- The operators of a level are found by their tokens. -/
theorem lookup_levelOps {k : Nat} (hk : k < unaryLevel) {kind : TokenKind} {op : BinaryOp} :
    (levelOps k).lookup kind = some op ↔ op.level = k ∧ kind = op.token := by
  constructor
  · exact fun h => mem_levelOps k hk _ (mem_of_lookup h)
  · rintro ⟨rfl, rfl⟩
    rcases op with op | op | op <;> cases op <;> rfl

theorem lookup_unaryOps {kind : TokenKind} {op : UnaryOp} :
    unaryOps.lookup kind = some op ↔ kind = op.token := by
  constructor
  · exact fun h => mem_unaryOps _ (mem_of_lookup h)
  · rintro rfl
    cases op <;> rfl

theorem BinaryOp.token_ne_eof (op : BinaryOp) : op.token ≠ .eof := by
  rcases op with op | op | op <;> cases op <;> simp [BinaryOp.token]

theorem UnaryOp.token_ne_eof (op : UnaryOp) : op.token ≠ .eof := by
  cases op <;> simp [UnaryOp.token]

/-! ### Expressions -/

/-- What is read is an expression of a level. -/
def SoundAt (k : Nat) (x : Parser Expr) : Prop :=
  ∀ s : State, Clean s → Gives x s fun e s' => ∃ used, Keeps used s s' ∧ Expression k used e

theorem sound_chain {k : Nat} (hk : k < unaryLevel) {operand : Parser Expr}
    (h : SoundAt (k + 1) operand) (bound : Nat) {s : State} (hs : Clean s) {before : List Token}
    {lhs : Expr} (hl : Expression k before lhs) :
    Gives (chain (levelOps k) operand bound lhs) s fun e s' =>
      ∃ used, Keeps used s s' ∧ Expression k (before ++ used) e := by
  induction bound generalizing s before lhs with
  | zero => exact gives_spent
  | succ bound ih =>
    simp only [chain, Stage.ensures_bind, gives_current]
    split
    · exact Stage.ensures_return.mpr ⟨[], Keeps.refl s, by rwa [List.append_nil]⟩
    · next op hop =>
      obtain ⟨hlevel, htoken⟩ := (lookup_levelOps hk).mp hop
      have hadv := hs.keeps_advance (htoken ▸ BinaryOp.token_ne_eof op)
      simp only [Stage.ensures_bind, gives_advance, gives_begin]
      refine (h s.advance (hadv.clean hs)).mono ?_
      rintro rhs t ⟨us, hus, hr⟩
      refine gives_finishExpr fun tag ast => ?_
      have hst := (hadv.trans hus).node ast
      refine (ih (hst.clean hs) (.binary hlevel htoken hl hr)).mono ?_
      rintro e u ⟨vs, hvs, he⟩
      exact ⟨_, hst.trans hvs, by simpa using he⟩

theorem sound_ladder {operand : Parser Expr} (h : SoundAt unaryLevel operand) (n : Nat) :
    ∀ {k : Nat}, k + n = unaryLevel → SoundAt k (ladder operand (levels.drop k)) := by
  -- from the tightest level to looser ones
  induction n with
  | zero =>
    rintro k rfl
    exact h
  | succ n ih =>
    intro k hk s hs
    have hlt : k < unaryLevel := by omega
    have htighter := ih (show k + 1 + n = unaryLevel by omega)
    rw [drop_levels hlt]
    simp only [ladder, Stage.ensures_bind, gives_remaining]
    refine (htighter s hs).mono ?_
    rintro lhs t ⟨ts, hts, hl⟩
    refine (sound_chain hlt htighter _ (hts.clean hs) (.tighter hlt hl)).mono ?_
    rintro e u ⟨us, hus, he⟩
    exact ⟨_, hts.trans hus, he⟩

theorem sound_primary {inner : Parser Expr} (h : SoundAt 0 inner) :
    SoundAt unaryLevel (primary inner) := by
  intro s hs
  simp only [primary, Stage.ensures_bind, gives_current]
  have hadv : s.current.kind ≠ .eof → Keeps [s.current] s s.advance := hs.keeps_advance
  split
  · next hk =>
    simp only [Stage.ensures_bind, gives_begin, gives_advance]
    exact gives_finishExpr fun tag ast => ⟨_, (hadv (by simp [hk])).node ast, .number hk⟩
  · next hk =>
    simp only [Stage.ensures_bind, gives_begin, gives_advance]
    exact gives_finishExpr fun tag ast => ⟨_, (hadv (by simp [hk])).node ast, .string hk⟩
  · next hk =>
    simp only [Stage.ensures_bind, gives_begin, gives_advance, Stage.ensures_get]
    split
    · exact gives_finishExpr fun tag ast => ⟨_, (hadv (by simp [hk])).node ast, .name hk⟩
    · exact gives_refuse
  · next hk =>
    simp only [Stage.ensures_bind, gives_advance]
    have hopen := hadv (by simp [hk])
    refine (h s.advance (hopen.clean hs)).mono ?_
    rintro e t ⟨ts, hts, he⟩
    have hinside := hopen.trans hts
    refine sound_expect (by simp) (hinside.clean hs) fun r u hr hclose => ?_
    exact Stage.ensures_return.mpr ⟨_, hinside.trans hclose, .parentheses hk he hr⟩
  · exact gives_unexpected

theorem sound_unary (bound : Nat) : SoundAt unaryLevel (unary bound) := by
  induction bound with
  | zero => exact fun s _ => gives_spent
  | succ bound ih =>
    intro s hs
    simp only [unary, Stage.ensures_bind, gives_current]
    split
    · next op hop =>
      have htoken := lookup_unaryOps.mp hop
      have hadv := hs.keeps_advance (htoken ▸ UnaryOp.token_ne_eof op)
      simp only [Stage.ensures_bind, gives_begin, gives_advance]
      refine (ih s.advance (hadv.clean hs)).mono ?_
      rintro e t ⟨ts, hts, he⟩
      exact gives_finishExpr fun tag ast => ⟨_, (hadv.trans hts).node ast, .unary htoken he⟩
    · exact sound_primary (sound_ladder ih unaryLevel rfl) s hs

/-- What is read as an expression is one, and its variables are in scope. -/
theorem sound_expression {s : State} (hs : Clean s) {Q : Expr → State → Prop}
    (h : ∀ e s' used, Keeps used s s' → Expression 0 used e → e.WellFormed s.scopes → Q e s') :
    Gives expression s Q := by
  have hread : SoundAt 0 expression := by
    intro s hs
    simp only [expression, Stage.ensures_bind, gives_remaining]
    exact sound_ladder (sound_unary _) unaryLevel rfl s hs
  refine ((hread s hs).and (readsExpr_expression s rfl)).mono ?_
  rintro e s' ⟨⟨used, hkeeps, he⟩, hwf, -⟩
  exact h e s' used hkeeps he hwf

/-! ### Simple statements -/

/-- What is read is a statement of some form that keeps the rules, and its names are declared behind
it. -/
def SoundStmt (inLoop : Bool) (Item : List Token → Stmt → Prop) (x : Parser Stmt) : Prop :=
  ∀ s : State, Clean s → s.scopes ≠ [] → Gives x s fun st s' =>
    ∃ used, Takes used s s' ∧ Item used st ∧ st.Lawful inLoop s.scopes ∧
      s'.scopes = st.declareIn s.scopes

section Simple

variable {s : State} {inLoop : Bool}

/-- A statement that declares nothing is made. -/
theorem sound_finish {Item : List Token → Stmt → Prop} {t : State} {used : List Token} {span : Span}
    {build : Tag → Stmt} (hkeeps : Keeps used s t) (hitem : ∀ tag, Item used (build tag))
    (hlaw : ∀ tag, (build tag).Lawful inLoop s.scopes)
    (hdeclare : ∀ tag n, (build tag).declare n = n) :
    Gives (finishStmt span build) t fun st s' =>
      ∃ used, Takes used s s' ∧ Item used st ∧ st.Lawful inLoop s.scopes ∧
        s'.scopes = st.declareIn s.scopes := by
  refine gives_finishStmt fun tag ast => ⟨used, (hkeeps.node ast).toTakes, hitem tag, hlaw tag, ?_⟩
  rw [declareIn_eq (hdeclare tag)]
  exact hkeeps.scopes

theorem sound_condition (hs : Clean s) {Q : Expr → State → Prop}
    (h : ∀ e s' used, Keeps used s s' → Test used e → e.WellFormed s.scopes → Q e s') :
    Gives condition s Q := by
  simp only [condition, Stage.ensures_bind]
  refine sound_expect (by simp) hs fun l t hl hopen => ?_
  refine sound_expression (hopen.clean hs) fun e u ts hts he hwf => ?_
  have hinside := hopen.trans hts
  refine sound_expect (by simp) (hinside.clean hs) fun r v hr hclose => Stage.ensures_return.mpr ?_
  rw [hopen.scopes] at hwf
  exact h e v _ (hinside.trans hclose) (.mk hl he hr) hwf

theorem sound_jump {kind : TokenKind} (hk : kind ≠ .eof) (which : Jump) {build : Tag → Stmt}
    (hitem : ∀ {k r : Token} {tag : Tag}, k.kind = kind → r.kind = .semicolon →
      Statement [k, r] (build tag))
    (hlaw : ∀ names tag, (build tag).Lawful true names)
    (hdeclare : ∀ tag n, (build tag).declare n = n) (hs : Clean s) (hcur : s.current.kind = kind) :
    Gives (jump inLoop which build) s fun st s' =>
      ∃ used, Takes used s s' ∧ Statement used st ∧ st.Lawful inLoop s.scopes ∧
        s'.scopes = st.declareIn s.scopes := by
  simp only [jump, Stage.ensures_bind, gives_current, gives_begin, gives_advance]
  have hadv := hs.keeps_advance (by rw [hcur]; exact hk)
  split
  · next hloop =>
    rw [Stage.ensures_bind]
    refine sound_expect (by simp) (hadv.clean hs) fun r t hr hend => ?_
    subst hloop
    exact sound_finish (hadv.trans hend) (fun tag => hitem hcur hr) (fun tag => hlaw _ tag) hdeclare
  · exact gives_refuse

theorem sound_giveBack : SoundStmt inLoop Statement giveBack := by
  intro s hs _
  simp only [giveBack, Stage.ensures_bind, gives_current, gives_begin]
  refine sound_expect (by simp) hs fun k t hk hkey => ?_
  split
  · rw [Stage.ensures_bind, Stage.ensures_return, Stage.ensures_bind]
    refine sound_expect (by simp) (hkey.clean hs) fun r u hr hend => ?_
    exact sound_finish (hkey.trans hend) (fun tag => .leave hk hr)
      (fun tag => by simp [Stmt.Lawful])
      fun _ _ => rfl
  · rw [Stage.ensures_bind, Stage.ensures_map]
    refine sound_expression (hkey.clean hs) fun e u ts hts he hwf => ?_
    rw [Stage.ensures_bind]
    have hvalue := hkey.trans hts
    refine sound_expect (by simp) (hvalue.clean hs) fun r v hr hend => ?_
    rw [hkey.scopes] at hwf
    exact sound_finish (hvalue.trans hend) (fun tag => .giveBack hk he hr)
      (fun tag => by simpa [Stmt.Lawful] using hwf) fun _ _ => rfl

theorem exists_scope_of_hasVariable {name : String} (h : s.hasVariable name) :
    ∃ n ∈ s.scopes, name ∈ n.vars := by
  simpa [State.hasVariable] using h

theorem exists_scope_of_hasProcedure {name : String} (h : s.hasProcedure name) :
    ∃ n ∈ s.scopes, name ∈ n.procedures := by
  simpa [State.hasProcedure] using h

theorem sound_assignment : SoundStmt inLoop Statement assignment := by
  intro s hs _
  simp only [assignment, Stage.ensures_bind, gives_current, gives_begin]
  refine sound_expect (by simp) hs fun n t hn hname => ?_
  rw [Stage.ensures_get]
  split
  · next hv =>
    have hvar := exists_scope_of_hasVariable hv
    rw [hname.scopes] at hvar
    simp only [Stage.ensures_bind]
    refine sound_expect (by simp) (hname.clean hs) fun q u hq hequal => ?_
    have hleft := hname.trans hequal
    refine sound_expression (hleft.clean hs) fun e v ts hts he hwf => ?_
    have hvalue := hleft.trans hts
    refine sound_expect (by simp) (hvalue.clean hs) fun r w hr hend => ?_
    rw [hleft.scopes] at hwf
    exact sound_finish (hvalue.trans hend) (fun tag => .assignment hn hq he hr)
      (fun tag => ⟨hvar, hwf⟩) fun _ _ => rfl
  · exact gives_refuse

theorem sound_arguments (bound : Nat) (hs : Clean s) :
    Gives (arguments bound) s fun args s' => ∃ used, Keeps used s s' ∧
      Separated (Expression 0) used args ∧ ∀ e ∈ args, e.WellFormed s.scopes := by
  induction bound generalizing s with
  | zero => exact gives_spent
  | succ bound ih =>
    simp only [arguments, Stage.ensures_bind]
    refine sound_expression hs fun e t ts hts he hwf => ?_
    refine sound_accept (by simp) (hts.clean hs) (fun c u hc hcomma => ?_) fun _ => ?_
    · rw [if_pos rfl, Stage.ensures_bind]
      have hfirst := hts.trans hcomma
      refine (ih (hfirst.clean hs)).mono ?_
      rintro rest v ⟨us, hus, hrest, hwfs⟩
      rw [hfirst.scopes] at hwfs
      refine Stage.ensures_return.mpr
        ⟨_, hfirst.trans hus, ?_, List.forall_mem_cons.mpr ⟨hwf, hwfs⟩⟩
      simpa using Separated.more he hc hrest
    · rw [if_neg Bool.false_ne_true]
      exact Stage.ensures_return.mpr ⟨_, hts, .last he, List.forall_mem_singleton.mpr hwf⟩

theorem sound_argumentList {l : Token} (hl : l.kind = .lparen) (hs : Clean s) :
    Gives argumentList s fun args s' => ∃ used, Keeps used s s' ∧
      Listed (Expression 0) (l :: used) args ∧ ∀ e ∈ args, e.WellFormed s.scopes := by
  simp only [argumentList, Stage.ensures_bind, gives_current, gives_remaining]
  split
  · simp only [Stage.ensures_bind, Stage.ensures_return]
    exact sound_expect (by simp) hs fun r t hr hclose => ⟨_, hclose, .none hl hr, by simp⟩
  · rw [Stage.ensures_bind]
    refine (sound_arguments _ hs).mono ?_
    rintro args t ⟨ts, hts, hargs, hwf⟩
    simp only [Stage.ensures_bind, Stage.ensures_return]
    refine sound_expect (by simp) (hts.clean hs) fun r u hr hclose => ?_
    exact ⟨_, hts.trans hclose, .some hl hargs hr, hwf⟩

theorem sound_call : SoundStmt inLoop Statement call := by
  intro s hs _
  simp only [call, Stage.ensures_bind, gives_current, gives_begin]
  refine sound_expect (by simp) hs fun n t hn hname => ?_
  rw [Stage.ensures_get]
  split
  · next hp =>
    have hproc := exists_scope_of_hasProcedure hp
    rw [hname.scopes] at hproc
    simp only [Stage.ensures_bind]
    refine sound_expect (by simp) (hname.clean hs) fun l u hl hopen => ?_
    have hleft := hname.trans hopen
    refine (sound_argumentList hl (hleft.clean hs)).mono ?_
    rintro args v ⟨ts, hts, hargs, hwf⟩
    rw [hleft.scopes] at hwf
    have hlist := hleft.trans hts
    refine sound_expect (by simp) (hlist.clean hs) fun r w hr hend => ?_
    exact sound_finish (hlist.trans hend) (fun tag => .call hn hargs hr) (fun tag => ⟨hproc, hwf⟩)
      fun _ _ => rfl
  · exact gives_refuse

/-- The state behind a declared name. -/
theorem scopes_withScope {n : NameScope} {outer : List NameScope} (hs : s.scopes = n :: outer)
    (n' : NameScope) : (s.withScope n').scopes = n' :: outer := by
  simp [State.withScope, hs]

theorem sound_declaration : SoundStmt inLoop Statement declaration := by
  intro s hs hne
  obtain ⟨n, outer, hscopes⟩ := List.exists_cons_of_ne_nil hne
  simp only [declaration, Stage.ensures_bind, gives_current, gives_begin]
  refine sound_typeName hs fun y t type hy htype => ?_
  refine sound_expect (by simp) (htype.clean hs) fun m u hm hname => ?_
  have hhead := htype.trans hname
  split
  · exact gives_refuse
  next hvoid =>
  -- what is left is the same with and without an initial value
  have finish : ∀ (init : Option Expr) (v : State) (ts : List Token), Keeps ts s v →
      (∀ e ∈ init, e.WellFormed s.scopes) →
      (∀ (r : Token) (tag : Tag), r.kind = .semicolon →
        Statement (ts ++ [r]) (.declaration tag m.string type init)) →
      Gives (do
        let _ ← expect .semicolon
        declareVariable m.string m.span
        finishStmt s.current.span fun tag => .declaration tag m.string type init) v fun st s' =>
        ∃ used, Takes used s s' ∧ Statement used st ∧ st.Lawful inLoop s.scopes ∧
          s'.scopes = st.declareIn s.scopes := by
    intro init v ts hv hinit hitem
    simp only [Stage.ensures_bind]
    refine sound_expect (by simp) (hv.clean hs) fun r w hr hend => ?_
    have hall := hv.trans hend
    have hw : w.scopes = n :: outer := hall.scopes.trans hscopes
    have hscope : w.scope = n := by simp [State.scope, hw]
    simp only [declareVariable, Stage.ensures_bind, Stage.ensures_get, hscope]
    split
    · exact gives_refuse
    next hfresh =>
    rw [Stage.ensures_modify]
    refine gives_finishStmt fun tag ast => ⟨_, ⟨hall.ahead, hall.stop⟩, hitem r tag hr, ?_, ?_⟩
    · exact ⟨hvoid, by simpa [hscopes] using hfresh, hinit⟩
    · show (w.withScope _).scopes = _
      rw [scopes_withScope hw, hscope, hscopes]
      rfl
  rw [Stage.ensures_bind]
  refine sound_accept (by simp) (hhead.clean hs) (fun q v hq hequal => ?_) fun _ => ?_
  · rw [if_pos rfl, Stage.ensures_bind, Stage.ensures_map]
    have hleft := hhead.trans hequal
    refine sound_expression (hleft.clean hs) fun e w ts hts he hwf => ?_
    rw [hleft.scopes] at hwf
    refine finish (some e) w _ (hleft.trans hts) (by rintro _ ⟨⟩; exact hwf) fun r tag hr => ?_
    exact .initialised hy hm hq he hr
  · rw [if_neg Bool.false_ne_true, Stage.ensures_bind, Stage.ensures_return]
    exact finish none _ _ hhead (by rintro _ ⟨⟩) fun r tag hr => .declaration hy hm hr

end Simple

/-! ### Blocks -/

/-- What is read as a part of a statement keeps the rules and leaves the names in scope. -/
def SoundPart (inLoop : Bool) (Item : List Token → Stmt → Prop) (x : Parser Stmt) : Prop :=
  ∀ s : State, Clean s → Gives x s fun st s' =>
    ∃ used, Keeps used s s' ∧ Item used st ∧ st.Lawful inLoop s.scopes

section Blocks

variable {s : State} {inLoop : Bool} {p : Parser Stmt} {Item : List Token → Stmt → Prop}

theorem sound_statements (h : SoundStmt inLoop Item p) (bound : Nat) (hs : Clean s)
    {n : NameScope} {outer : List NameScope} (hscopes : s.scopes = n :: outer) :
    Gives (statements p bound) s fun body s' => ∃ used, Takes used s s' ∧
      Sequence Item used body ∧ Stmt.AllLawful inLoop s.scopes body ∧
        ∃ n', s'.scopes = n' :: outer := by
  induction bound generalizing s n with
  | zero => exact gives_spent
  | succ bound ih =>
    simp only [statements, Stage.ensures_bind, gives_current]
    split
    · exact Stage.ensures_return.mpr ⟨[], (Keeps.refl s).toTakes, .nil, by simp [Stmt.AllLawful], n,
        hscopes⟩
    · rw [Stage.ensures_bind]
      refine (h s hs (by simp [hscopes])).mono ?_
      rintro first t ⟨ts, hts, hfirst, hlaw, ht⟩
      rw [Stage.ensures_bind]
      have ht' : t.scopes = first.declare n :: outer := by rw [ht, hscopes]; rfl
      refine (ih (hts.clean hs) ht').mono ?_
      rintro rest u ⟨us, hus, hrest, hlaws, hu⟩
      rw [ht] at hlaws
      refine Stage.ensures_return.mpr ⟨_, hts.trans hus, .cons hfirst hrest, ?_, hu⟩
      rw [Stmt.AllLawful]
      exact ⟨hlaw, hlaws⟩

theorem sound_block (h : SoundStmt inLoop Item p) (declared : List String) (hs : Clean s)
    {Q : Stmt → State → Prop}
    (hQ : ∀ tag body s' used, Keeps used s s' → Block Item used (.block tag body) →
      Stmt.AllLawful inLoop ({ vars := declared } :: s.scopes) body → Q (.block tag body) s') :
    Gives (block p declared) s Q := by
  simp only [block, Stage.ensures_bind, gives_current, gives_begin]
  refine sound_expect (by simp) hs fun l t hl hopen => ?_
  simp only [Stage.ensures_modify, gives_remaining]
  have hclean : Clean { t with scopes := { vars := declared } :: t.scopes } :=
    ⟨(hopen.clean hs).stop, (hopen.clean hs).ahead⟩
  refine (sound_statements h _ hclean rfl).mono ?_
  rintro body u ⟨ts, hts, hbody, hlaw, n', hu⟩
  refine sound_expect (by simp) (hts.clean hclean) fun r v hr hclose => ?_
  refine gives_finishStmt fun tag ast => hQ tag body _ (l :: ts ++ [r]) ?_ (.mk hl hbody hr) ?_
  · refine ⟨⟨?_, ?_⟩, ?_⟩
    · show s.ahead = l :: ts ++ [r] ++ v.ahead
      have hta : t.ahead = ts ++ u.ahead := hts.ahead
      rw [hopen.ahead, hta, hclose.ahead]
      simp
    · show v.stop = s.stop
      rw [hclose.stop, hts.stop, State.stop_with, ← hopen.stop]
    · show v.scopes.drop 1 = s.scopes
      rw [hclose.scopes, hu, ← hopen.scopes]
      rfl
  · rwa [← hopen.scopes]

theorem soundPart_block (h : SoundStmt inLoop Item p) :
    SoundPart inLoop (Block Item) (block p []) := by
  intro s hs
  refine sound_block h [] hs fun tag body s' used hkeeps hblock hlaw => ⟨used, hkeeps, hblock, ?_⟩
  rw [Stmt.Lawful]
  exact hlaw

theorem soundPart_branch {q : Parser Stmt} (h : SoundPart inLoop (Block Item) q) (bound : Nat) :
    SoundPart inLoop (Branch Item) (branch q bound) := by
  induction bound with
  | zero => exact fun s _ => gives_spent
  | succ bound ih =>
    intro s hs
    simp only [branch, Stage.ensures_bind, gives_current, gives_begin]
    refine sound_expect (by simp) hs fun i t hi hkey => ?_
    refine sound_condition (hkey.clean hs) fun test u ts hts htest hwf => ?_
    rw [hkey.scopes] at hwf
    have hhead := hkey.trans hts
    refine (h u (hhead.clean hs)).mono ?_
    rintro thenBranch v ⟨us, hus, hthen, hlaw⟩
    rw [hhead.scopes] at hlaw
    have hfirst := hhead.trans hus
    refine sound_accept (by simp) (hfirst.clean hs) (fun o w ho helse => ?_) fun _ => ?_
    · rw [if_pos rfl]
      simp only [Stage.ensures_bind, gives_current]
      have hbefore := hfirst.trans helse
      split
      · rw [Stage.ensures_bind]
        refine (ih w (hbefore.clean hs)).mono ?_
        rintro other x ⟨vs, hvs, hother, hlaw'⟩
        rw [hbefore.scopes] at hlaw'
        refine gives_finishStmt fun tag ast => ⟨_, (hbefore.trans hvs).node ast, ?_, ?_⟩
        · simpa using Branch.chained hi htest hthen ho hother
        · rw [Stmt.Lawful]
          exact ⟨hwf, hlaw, hlaw'⟩
      · rw [Stage.ensures_bind]
        refine (h w (hbefore.clean hs)).mono ?_
        rintro other x ⟨vs, hvs, hother, hlaw'⟩
        rw [hbefore.scopes] at hlaw'
        refine gives_finishStmt fun tag ast => ⟨_, (hbefore.trans hvs).node ast, ?_, ?_⟩
        · simpa using Branch.otherwise hi htest hthen ho hother
        · rw [Stmt.Lawful]
          exact ⟨hwf, hlaw, hlaw'⟩
      · rw [Stage.ensures_bind]
        exact gives_unexpected
    · rw [if_neg Bool.false_ne_true]
      refine gives_finishStmt fun tag ast => ⟨_, hfirst.node ast, .alone hi htest hthen, ?_⟩
      rw [Stmt.Lawful]
      exact ⟨hwf, hlaw⟩

theorem sound_loop {q : Parser Stmt} (h : SoundPart true (Block Statement) q) :
    SoundStmt inLoop Statement (loop q) := by
  intro s hs _
  simp only [loop, Stage.ensures_bind, gives_current, gives_begin]
  refine sound_expect (by simp) hs fun w t hw hkey => ?_
  refine sound_condition (hkey.clean hs) fun test u ts hts htest hwf => ?_
  rw [hkey.scopes] at hwf
  have hhead := hkey.trans hts
  refine (h u (hhead.clean hs)).mono ?_
  rintro body v ⟨us, hus, hbody, hlaw⟩
  rw [hhead.scopes] at hlaw
  refine sound_finish (hhead.trans hus) (fun tag => ?_) (fun tag => ?_) fun _ _ => rfl
  · exact .loop hw htest hbody
  · rw [Stmt.Lawful]
    exact ⟨hwf, hlaw⟩

/-- A part that declares nothing is a statement. -/
theorem SoundPart.stmt {q : Parser Stmt} (h : SoundPart inLoop Item q)
    (hitem : ∀ {ts st}, Item ts st → Statement ts st)
    (hdeclare : ∀ {ts st n}, Item ts st → st.declare n = n) : SoundStmt inLoop Statement q := by
  intro s hs _
  refine (h s hs).mono ?_
  rintro st t ⟨used, hkeeps, hst, hlaw⟩
  refine ⟨used, hkeeps.toTakes, hitem hst, hlaw, ?_⟩
  rw [declareIn_eq fun n => hdeclare hst]
  exact hkeeps.scopes

theorem declare_block {ts : List Token} {st : Stmt} {n : NameScope} (h : Block Item ts st) :
    st.declare n = n := by
  cases h
  rfl

theorem declare_branch {ts : List Token} {st : Stmt} {n : NameScope} (h : Branch Item ts st) :
    st.declare n = n := by
  cases h <;> rfl

end Blocks

/-! ### Procedures -/

section Procedures

variable {s : State}

theorem sound_parameters (bound : Nat) (hs : Clean s) (earlier : List Parameter) :
    Gives (parameters bound earlier) s fun params s' => ∃ used more, Keeps used s s' ∧
      Separated ParameterOf used more ∧ params = earlier ++ more := by
  induction bound generalizing s earlier with
  | zero => exact gives_spent
  | succ bound ih =>
    simp only [parameters, Stage.ensures_bind]
    refine sound_typeName hs fun y t type hy htype => ?_
    refine sound_expect (by simp) (htype.clean hs) fun n u hn hname => ?_
    have hparam := htype.trans hname
    split
    · exact gives_refuse
    · split
      · exact gives_refuse
      · rw [Stage.ensures_bind]
        refine sound_accept (by simp) (hparam.clean hs) (fun c v hc hcomma => ?_) fun _ => ?_
        · rw [if_pos rfl]
          have hfirst := hparam.trans hcomma
          refine (ih (hfirst.clean hs) _).mono ?_
          rintro params w ⟨us, more, hus, hmore, rfl⟩
          refine ⟨_, _, hfirst.trans hus, ?_, List.append_assoc _ _ _⟩
          exact Separated.more (ParameterOf.mk hy hn) hc hmore
        · rw [if_neg Bool.false_ne_true]
          exact Stage.ensures_return.mpr ⟨_, _, hparam, .last (.mk hy hn), rfl⟩

theorem sound_parameterList {l : Token} (hl : l.kind = .lparen) (hs : Clean s)
    {Q : List Parameter → State → Prop}
    (h : ∀ params s' used, Keeps used s s' → Listed ParameterOf (l :: used) params →
      (∀ p ∈ params, p.type ≠ .void) → (params.map (·.name)).Nodup → Q params s') :
    Gives parameterList s Q := by
  have hread : Gives parameterList s fun params s' => ∃ used, Keeps used s s' ∧
      Listed ParameterOf (l :: used) params := by
    simp only [parameterList, Stage.ensures_bind, gives_current, gives_remaining]
    split
    · simp only [Stage.ensures_bind, Stage.ensures_return]
      exact sound_expect (by simp) hs fun r t hr hclose => ⟨_, hclose, .none hl hr⟩
    · rw [Stage.ensures_bind]
      refine (sound_parameters _ hs []).mono ?_
      rintro params t ⟨ts, more, hts, hmore, rfl⟩
      simp only [Stage.ensures_bind, Stage.ensures_return]
      refine sound_expect (by simp) (hts.clean hs) fun r u hr hclose => ?_
      exact ⟨_, hts.trans hclose, .some hl hmore hr⟩
  refine (hread.and reads_parameterList).mono ?_
  rintro params s' ⟨⟨used, hkeeps, hlisted⟩, hvoid, hnodup⟩
  exact h params s' used hkeeps hlisted hvoid hnodup

/-- The reading of a procedure up to its declaration; the rest is read with its name in scope. -/
theorem sound_procedure {body : List String → Parser Stmt} (hs : Clean s) {n : NameScope}
    {outer : List NameScope} (hscopes : s.scopes = n :: outer) {Q : Stmt → State → Prop}
    (hext : ∀ tag signature s' used, Takes used s s' →
      External used (.procedure tag signature none) → Stmt.Introduces s.scopes signature →
      s'.scopes = (Stmt.procedure tag signature none).declareIn s.scopes →
      Q (.procedure tag signature none) s')
    (hbody : ∀ span signature t used, Takes used s t → s.current.kind ≠ .externKey →
      SignatureOf false used signature → Stmt.Introduces s.scopes signature →
      t.scopes = { n with procedures := signature.name :: n.procedures } :: outer →
      Gives (do
        let inside ← body (signature.params.map (·.name))
        finishStmt span fun tag => .procedure tag signature (some inside)) t Q) :
    Gives (procedure body) s Q := by
  refine Stage.ensures_bind.mpr (gives_current.mpr (Stage.ensures_bind.mpr (gives_begin.mpr
    (Stage.ensures_bind.mpr ?_))))
  -- everything behind the word `extern` is read in the same way with and without it
  have common : ∀ (external : Bool) (t : State) (us : List Token), Keeps us s t →
      (external = true → ∃ k, us = [k] ∧ k.kind = .externKey) →
      (external = false → us = [] ∧ s.current.kind ≠ .externKey) →
      Gives (procedureOf body s.current.span external) t Q := by
    intro external t us hus htrue hfalse
    simp only [procedureOf, Stage.ensures_bind]
    refine sound_typeName (hus.clean hs) fun y u returns hy htype => ?_
    have hu := hus.trans htype
    refine sound_expect (by simp) (hu.clean hs) fun m v hm hname => ?_
    have hv := hu.trans hname
    refine sound_expect (by simp) (hv.clean hs) fun l w hl hopen => ?_
    have hw := hv.trans hopen
    refine sound_parameterList hl (hw.clean hs) fun params x ts hts hparams hvoid hnodup => ?_
    have hx := hw.trans hts
    have hxs : x.scopes = n :: outer := hx.scopes.trans hscopes
    have hscope : x.scope = n := by simp [State.scope, hxs]
    have hsig : SignatureOf external (y :: m :: l :: ts) ⟨m.string, returns, params, external⟩ :=
      .mk hy hm hparams
    simp only [declareProcedure, Stage.ensures_bind, Stage.ensures_get, hscope]
    split
    · exact gives_refuse
    next hfresh =>
    rw [Stage.ensures_modify]
    have hnew : Stmt.Introduces s.scopes ⟨m.string, returns, params, external⟩ :=
      ⟨⟨hvoid, hnodup⟩, by simpa [hscopes] using hfresh⟩
    have hdeclared : (x.withScope { x.scope with procedures :=
        m.string :: x.scope.procedures }).scopes =
        { n with procedures := m.string :: n.procedures } :: outer := by
      rw [scopes_withScope hxs, hscope]
    have hclean : Clean (x.withScope { x.scope with procedures :=
        m.string :: x.scope.procedures }) := ⟨(hx.clean hs).stop, (hx.clean hs).ahead⟩
    split
    · next he =>
      obtain ⟨k, rfl, hk⟩ := htrue he
      subst he
      rw [Stage.ensures_bind]
      refine sound_expect (by simp) hclean fun r z hr hend => gives_finishStmt fun tag ast => ?_
      refine hext tag _ _ (k :: (y :: m :: l :: ts) ++ [r]) ⟨?_, ?_⟩ (.mk hk hsig hr) hnew ?_
      · have hza : x.ahead = [r] ++ z.ahead := hend.ahead
        rw [hx.ahead, hza]
        simp
      · exact hend.stop.trans hx.stop
      · show z.scopes = _
        rw [hend.scopes, hdeclared, hscopes]
        rfl
    · next he =>
      have he : external = false := by simpa using he
      obtain ⟨rfl, hkind⟩ := hfalse he
      subst he
      refine hbody _ ⟨m.string, returns, params, false⟩ _ (y :: m :: l :: ts) ⟨?_, hx.stop⟩ hkind
        hsig hnew hdeclared
      rw [hx.ahead]
      simp [State.withScope]
  refine sound_accept (by simp) hs (fun k t hk hkey => ?_) fun hk => ?_
  · exact common true t [k] hkey (fun _ => ⟨k, rfl, hk⟩) (by simp)
  · exact common false s [] (Keeps.refl s) (by simp) fun _ => ⟨rfl, hk⟩

/-- In a block only external procedures are declared. -/
theorem sound_external {inLoop : Bool} {body : List String → Parser Stmt} (hs : Clean s)
    (hne : s.scopes ≠ []) (hk : s.current.kind = .externKey) :
    Gives (procedure body) s fun st s' => ∃ used, Takes used s s' ∧ Statement used st ∧
      st.Lawful inLoop s.scopes ∧ s'.scopes = st.declareIn s.scopes := by
  obtain ⟨n, outer, hscopes⟩ := List.exists_cons_of_ne_nil hne
  refine sound_procedure hs hscopes ?_ ?_
  · intro tag signature s' used htakes hitem hnew hdeclared
    refine ⟨used, htakes, .external hitem, ?_, hdeclared⟩
    rw [Stmt.Lawful]
    exact hnew
  · intro _ _ _ _ _ hkind
    exact absurd hk hkind

theorem sound_statement (bound : Nat) :
    ∀ inLoop : Bool, SoundStmt inLoop Statement (statement inLoop bound) := by
  induction bound with
  | zero => exact fun _ s _ _ => gives_spent
  | succ bound ih =>
    intro inLoop s hs hne
    have hblock := soundPart_block (ih inLoop)
    simp only [statement, Stage.ensures_bind, Stage.ensures_get]
    split
    · exact hblock.stmt .block declare_block s hs hne
    · exact sound_loop (soundPart_block (ih true)) s hs hne
    · exact (soundPart_branch hblock _).stmt .branch declare_branch s hs hne
    · next hk =>
      exact sound_jump (by simp) _ .continueLoop (fun _ _ => by simp [Stmt.Lawful]) (fun _ _ => rfl)
        hs hk
    · next hk =>
      exact sound_jump (by simp) _ .breakLoop (fun _ _ => by simp [Stmt.Lawful]) (fun _ _ => rfl)
        hs hk
    · exact sound_giveBack s hs hne
    · next hk => exact sound_external hs hne hk
    · exact sound_declaration s hs hne
    · split
      · exact sound_call s hs hne
      · exact sound_assignment s hs hne
    · exact gives_unexpected

theorem sound_programProcedure (hs : Clean s) {n : NameScope} {outer : List NameScope}
    (hscopes : s.scopes = n :: outer) :
    Gives (procedure procedureBody) s fun st s' => ∃ used, Takes used s s' ∧
      Grammar.Procedure used st ∧
      st.ProcedureLawful s.scopes ∧ s'.scopes = st.declareIn s.scopes := by
  refine sound_procedure hs hscopes ?_ ?_
  · intro tag signature s' used htakes hitem hnew hdeclared
    exact ⟨used, htakes, .external hitem, hnew, hdeclared⟩
  · intro span signature t used htakes _ hsig hnew ht
    simp only [Stage.ensures_bind, procedureBody, gives_remaining]
    refine sound_block (sound_statement _ false) _ (htakes.clean hs) ?_
    intro tag body u us hus hblock hlaw
    refine gives_finishStmt fun tag' ast => ?_
    refine ⟨_, htakes.trans (hus.node ast).toTakes, .defined hsig hblock, ⟨hnew, ?_⟩, ?_⟩
    · rw [hscopes]
      rwa [ht] at hlaw
    · show u.scopes = _
      rw [hus.scopes, ht, hscopes]
      rfl

theorem procedure_ne_nil {ts : List Token} {st : Stmt} (h : Grammar.Procedure ts st) : ts ≠ [] := by
  cases h with
  | external h =>
    cases h
    simp
  | defined hsig _ =>
    cases hsig
    simp

/-- Where the current token is the end, there are no more. -/
theorem Clean.ahead_eq_nil (hs : Clean s) (h : s.current.kind = .eof) : s.ahead = [] := by
  cases hahead : s.ahead with
  | nil => rfl
  | cons t rest =>
    have hcur : s.current = t := by simp [State.current, State.peek_of_stop hs.stop, hahead]
    rw [hcur] at h
    exact absurd h (hs.ahead t (by simp [hahead]))

theorem sound_procedures (bound : Nat) (hs : Clean s) {n : NameScope} {outer : List NameScope}
    (hscopes : s.scopes = n :: outer) :
    Gives (procedures bound) s fun body _ => Sequence Grammar.Procedure s.ahead body ∧
      Stmt.ProceduresLawful s.scopes body := by
  induction bound generalizing s n with
  | zero => exact gives_spent
  | succ bound ih =>
    simp only [procedures, Stage.ensures_bind, gives_current]
    split
    · next heof =>
      rw [hs.ahead_eq_nil heof]
      exact Stage.ensures_return.mpr ⟨.nil, trivial⟩
    · split
      · simp only [Stage.ensures_bind, Stage.ensures_return]
        refine (sound_programProcedure hs hscopes).mono ?_
        rintro first t ⟨ts, hts, hfirst, hlaw, ht⟩
        have ht' : t.scopes = first.declare n :: outer := by rw [ht, hscopes]; rfl
        refine (ih (hts.clean hs) ht').mono ?_
        rintro rest u ⟨hrest, hlaws⟩
        rw [ht] at hlaws
        rw [hts.ahead]
        exact ⟨.cons hfirst hrest, hlaw, hlaws⟩
      · exact gives_unexpected

theorem ahead_stop_ofTokens (tokens : List Token) :
    (State.ofTokens tokens).ahead = tokens.takeWhile (·.kind != .eof) ∧
      (State.ofTokens tokens).stop.kind = .eof := by
  obtain ⟨stop, back, hstop, hclosed⟩ := State.closed_eq tokens
  have h := State.ahead_stop_of_drop (s := .ofTokens tokens) hclosed
    (fun t ht => by simpa using List.all_eq_true.mp List.all_takeWhile t ht) hstop
  exact ⟨h.1, h.2 ▸ hstop⟩

theorem clean_ofTokens (tokens : List Token) : Clean (.ofTokens tokens) where
  stop := (ahead_stop_ofTokens tokens).2
  ahead := fun _ => State.mem_ahead

/-- The tree that is read derives from the tokens before the end, and keeps the rules. -/
theorem derives_of_parse {tokens : List Token} {ast : Ast} (h : parse tokens = .ok ast) :
    ∃ tag body, ast.root = some (.block tag body) ∧
      Sequence Grammar.Procedure (tokens.takeWhile (·.kind != .eof)) body ∧
      Stmt.ProceduresLawful [{}] body := by
  have hprogram : Gives program (.ofTokens tokens) fun ast _ =>
      ∃ tag body, ast.root = some (.block tag body) ∧
        Sequence Grammar.Procedure (tokens.takeWhile (·.kind != .eof)) body ∧
        Stmt.ProceduresLawful [{}] body := by
    simp only [program, Stage.ensures_bind, gives_current, gives_begin, Stage.ensures_modify,
      gives_remaining, Stage.ensures_get, Stage.ensures_return]
    have hclean : Clean { State.ofTokens tokens with scopes := [{}] } :=
      ⟨(clean_ofTokens tokens).stop, (clean_ofTokens tokens).ahead⟩
    rw [← (ahead_stop_ofTokens tokens).1]
    refine (sound_procedures _ hclean rfl).mono fun body s hbody => ?_
    exact gives_finishStmt fun tag _ => ⟨tag, body, rfl, hbody⟩
  exact hprogram.value h

/-- What is read is a program. -/
theorem isProgram_of_parse {tokens : List Token} {ast : Ast} (h : parse tokens = .ok ast) :
    IsProgram (tokens.takeWhile (·.kind != .eof)) := by
  obtain ⟨_, body, _, hbody⟩ := derives_of_parse h
  exact ⟨body, hbody⟩

end Procedures

end ProcLang.Parsing

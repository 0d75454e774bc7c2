import ProcLang.Proofs.Generation.Call

/-!
What code generation for statements does.  Between statements of a procedure the register file holds
the parameters and nothing else, the scopes know every name that the program may use, and every jump
that the program may make has a label to go to.  A statement keeps all this, changes the innermost
scope at most, and its code is as `StmtCode` describes it.
-/

namespace ProcLang

/-- The statements directly below a statement. -/
def Stmt.parts : Stmt → List Stmt
  | .block _ body => body
  | .branch _ _ thenBranch none => [thenBranch]
  | .branch _ _ thenBranch (some elseBranch) => [thenBranch, elseBranch]
  | .loop _ _ body => [body]
  | _ => []

/-- A statement is another one or is somewhere below it. -/
inductive Stmt.Within (st : Stmt) : Stmt → Prop
  | self : Stmt.Within st st
  | part {whole p : Stmt} : p ∈ whole.parts → Stmt.Within st p → Stmt.Within st whole

/-- A jump is allowed: continue and break stand in a loop. -/
def Jump.Allowed (inLoop : Bool) : Jump → Prop
  | .giveBack => True
  | .continueLoop | .breakLoop => inLoop = true

namespace Generation

open RegisterFile (HoldsParameters)

variable {P : Happening → Tag → NodeKind → State → Prop} {s s' : State} {names : List NameScope}
  {inLoop : Bool}

/-! ### Names and scopes -/

/-- A scope has the names that the program may use. -/
structure Mirrors (n : NameScope) (scope : Scope) : Prop where
  vars : ∀ name ∈ n.vars, (scope.vars.get? name).isSome = true
  procedures : ∀ name ∈ n.procedures, (scope.procedures.get? name).isSome = true

/-- Jumps find their labels: a return in the scope of the procedure and, in a loop, continue and break
in a scope inside it. -/
def Exits (inLoop : Bool) : ScopeStack → Prop
  | [] => False
  | scope :: outer =>
    match scope.kind with
    | .entry => False
    | .procedure => inLoop = false ∧ scope.endLabel.isSome = true
    | .loop => scope.startLabel.isSome = true ∧ scope.endLabel.isSome = true ∧ Exits false outer
    | .plain => Exits inLoop outer

theorem Exits.weaken : ∀ {scopes : ScopeStack}, Exits inLoop scopes → Exits false scopes
  | [], h => h.elim
  | scope :: outer, h => by
    unfold Exits at h ⊢
    cases hk : scope.kind with
    | entry => simp [hk] at h
    | procedure => simp_all
    | loop => simpa [hk] using h
    | plain =>
      simp only [hk] at h ⊢
      exact h.weaken

theorem Exits.jumpTargetFrom {jump : Jump} :
    ∀ {scopes : ScopeStack} {inLoop : Bool} (crossed : Nat), jump.Allowed inLoop →
      Exits inLoop scopes → ∃ target, ScopeStack.jumpTargetFrom jump crossed scopes = .ok target
  | [], _, _, _, h => h.elim
  | scope :: outer, inLoop, crossed, hj, h => by
    unfold Exits at h
    unfold ScopeStack.jumpTargetFrom
    cases hk : scope.kind with
    | entry => simp [hk] at h
    | procedure =>
      simp only [hk] at h
      obtain ⟨rfl, hend⟩ := h
      obtain ⟨l, hl⟩ := Option.isSome_iff_exists.mp hend
      cases jump with
      | giveBack => exact ⟨(crossed, l), by simp [ScopeStack.passage, hk, hl]⟩
      | continueLoop => cases hj
      | breakLoop => cases hj
    | loop =>
      simp only [hk] at h
      obtain ⟨hstart, hend, houter⟩ := h
      obtain ⟨l, hl⟩ := Option.isSome_iff_exists.mp hstart
      obtain ⟨l', hl'⟩ := Option.isSome_iff_exists.mp hend
      cases jump with
      | giveBack =>
        have hback : Jump.giveBack.Allowed false := trivial
        obtain ⟨target, ht⟩ := Exits.jumpTargetFrom (crossed + 1) hback houter
        exact ⟨target, by simp [ScopeStack.passage, hk, ht]⟩
      | continueLoop => exact ⟨(crossed, l), by simp [ScopeStack.passage, hk, hl]⟩
      | breakLoop => exact ⟨(crossed, l'), by simp [ScopeStack.passage, hk, hl']⟩
    | plain =>
      simp only [hk] at h
      obtain ⟨target, ht⟩ := Exits.jumpTargetFrom (crossed + 1) hj h
      refine ⟨target, ?_⟩
      cases jump <;> simp [ScopeStack.passage, hk, ht]

/-- The procedure that code is generated for: its parameters as variables, the label of its end, and
the first handle and the number of its parameters. -/
structure Activation where
  base : Table String Variable
  behind : Label
  first : Nat
  count : Nat

/-- The scope of the procedure has its end label and the parameters, and the program knows their
names. -/
def Bound (a : Activation) : List NameScope → ScopeStack → Prop
  | n :: names, scope :: outer =>
    if scope.kind = .procedure then scope.endLabel = some a.behind ∧
      ∀ name v, a.base.get? name = some v → name ∈ n.vars ∧ scope.vars.get? name = some v
    else Bound a names outer
  | _, _ => False

/-! ### The state between statements -/

/-- The state between two statements of a procedure. -/
structure Inside (a : Activation) (names : List NameScope) (inLoop : Bool) (s : State) : Prop where
  params : s.registers.HoldsParameters a.first a.count
  below : s.registers.Below s.nextLocation
  depth : s.stackDepth = depth s.scopes
  mirrors : List.Forall₂ Mirrors names s.scopes
  reachable : ∀ scope ∈ s.scopes, ∀ name v, scope.vars.get? name = some v →
    Reachable s.registers v
  conventional : ∀ scope ∈ s.scopes, ∀ name p, scope.procedures.get? name = some p → Conventional p
  exits : Exits inLoop s.scopes
  bound : Bound a names s.scopes

/-- What a statement, and what is generated in it, leaves as it was. -/
structure Passed (s s' : State) : Prop where
  registers : s'.registers = s.registers
  stackDepth : s'.stackDepth = s.stackDepth
  locations : s.nextLocation ≤ s'.nextLocation
  labels : s.nextLabel ≤ s'.nextLabel
  constants : s.constants.strings <+: s'.constants.strings

theorem Later.passed (h : Later s s') (hregs : s'.registers = s.registers) : Passed s s' :=
  ⟨hregs, h.stackDepth, h.locations, h.labels, h.constants⟩

theorem Passed.trans {t : State} (h : Passed s s') (h' : Passed s' t) : Passed s t where
  registers := h'.registers.trans h.registers
  stackDepth := h'.stackDepth.trans h.stackDepth
  locations := Nat.le_trans h.locations h'.locations
  labels := Nat.le_trans h.labels h'.labels
  constants := h.constants.trans h'.constants

/-- A part of code generation keeps the registers from a state on, if it succeeds. -/
def Keeps (part : Gen Unit) (s : State) : Prop :=
  ∀ u, (part s).result = .ok u → (part s).state.registers = s.registers

/-- What is run for a statement: its own code or, of a block, the code in a role. -/
def IsRunOf (options : Options) (st : Stmt) (part : Gen Unit) : Prop :=
  part = statement options st ∨ ∃ role, part = blockOf options st role

theorem Emits.unwatched {α : Type} {x : Gen α} {Q : List Instr → List Nat → α → State → Prop}
    (h : Emits P x s Q) : Emits (fun _ _ _ _ => True) x s Q :=
  Stage.Ensures.weaken h (fun _ _ _ _ _ _ _ _ => trivial) fun _ he => he

section Inside

variable {a : Activation}

theorem exists_scope_of_mem {n : NameScope} {scopes : ScopeStack}
    (h : List.Forall₂ Mirrors names scopes) (hn : n ∈ names) : ∃ scope ∈ scopes, Mirrors n scope := by
  induction h with
  | nil => cases hn
  | cons hhead _ ih =>
    rcases List.mem_cons.mp hn with rfl | hn
    · exact ⟨_, List.mem_cons_self, hhead⟩
    · obtain ⟨scope, hscope, hm⟩ := ih hn
      exact ⟨scope, List.mem_cons_of_mem _ hscope, hm⟩

theorem Inside.ready (h : Inside a names inLoop s) : Ready names s where
  lawful := h.params.lawful
  below := h.below
  visible := by
    rintro name ⟨n, hn, hname⟩
    obtain ⟨scope, hscope, hm⟩ := exists_scope_of_mem h.mirrors hn
    rw [ScopeStack.findVariable?, List.findSome?_isSome_iff]
    exact ⟨scope, hscope, hm.vars name hname⟩
  reachable := by
    intro name v hv
    obtain ⟨scope, hscope, hget⟩ := List.exists_of_findSome?_eq_some hv
    exact h.reachable scope hscope name v hget

theorem Inside.procedure (h : Inside a names inLoop s) {name : String}
    (hname : ∃ n ∈ names, name ∈ n.procedures) :
    ∃ p, s.scopes.findProcedure? name = some p ∧ Conventional p := by
  obtain ⟨n, hn, hname⟩ := hname
  obtain ⟨scope, hscope, hm⟩ := exists_scope_of_mem h.mirrors hn
  have : (s.scopes.findProcedure? name).isSome = true := by
    rw [ScopeStack.findProcedure?, List.findSome?_isSome_iff]
    exact ⟨scope, hscope, hm.procedures name hname⟩
  obtain ⟨p, hp⟩ := Option.isSome_iff_exists.mp this
  obtain ⟨scope', hscope', hget⟩ := List.exists_of_findSome?_eq_some hp
  exact ⟨p, hp, h.conventional scope' hscope' name p hget⟩

theorem Inside.passed (h : Inside a names inLoop s) (hp : Passed s s')
    (hscopes : s'.scopes = s.scopes) : Inside a names inLoop s' where
  params := hp.registers ▸ h.params
  below := by
    rw [hp.registers]
    exact h.below.mono hp.locations
  depth := by rw [hp.stackDepth, hscopes, h.depth]
  mirrors := hscopes ▸ h.mirrors
  reachable := by
    rw [hscopes, hp.registers]
    exact h.reachable
  conventional := hscopes ▸ h.conventional
  exits := hscopes ▸ h.exits
  bound := hscopes ▸ h.bound

/-- The innermost scope got another name. -/
theorem Inside.replaceHead {n n' : NameScope} {scope scope' : Scope} {outer : ScopeStack}
    (h : Inside a (n :: names) inLoop s) (hp : Passed s s')
    (hscopes : s.scopes = scope :: outer) (hscopes' : s'.scopes = scope' :: outer)
    (hkind : scope'.kind = scope.kind) (hbytes : scope'.localBytes = scope.localBytes)
    (hstart : scope'.startLabel = scope.startLabel) (hend : scope'.endLabel = scope.endLabel)
    (hmirrors : Mirrors n' scope')
    (hvars : ∀ name v, scope'.vars.get? name = some v →
      scope.vars.get? name = some v ∨ ∃ offset, v.storage = .stack offset)
    (hprocs : ∀ name p, scope'.procedures.get? name = some p →
      scope.procedures.get? name = some p ∨ Conventional p)
    (hbase : ∀ name v, name ∈ n.vars → scope.vars.get? name = some v →
      name ∈ n'.vars ∧ scope'.vars.get? name = some v) :
    Inside a (n' :: names) inLoop s' := by
  have hm := h.mirrors
  rw [hscopes] at hm
  obtain ⟨-, hm⟩ := List.forall₂_cons.mp hm
  constructor
  · exact hp.registers ▸ h.params
  · rw [hp.registers]
    exact h.below.mono hp.locations
  · rw [hp.stackDepth, h.depth, hscopes, hscopes', Generation.depth, Generation.depth, hkind, hbytes]
  · rw [hscopes']
    exact .cons hmirrors hm
  · rw [hscopes', hp.registers]
    intro sc hsc name v hv
    rcases List.mem_cons.mp hsc with rfl | hsc
    · rcases hvars name v hv with hv | ⟨offset, hst⟩
      · exact h.reachable scope (by rw [hscopes]; exact List.mem_cons_self) name v hv
      · intro l hl
        rw [hst] at hl
        cases hl
    · exact h.reachable sc (by rw [hscopes]; exact List.mem_cons_of_mem _ hsc) name v hv
  · rw [hscopes']
    intro sc hsc name p hget
    rcases List.mem_cons.mp hsc with rfl | hsc
    · rcases hprocs name p hget with hget | hconv
      · exact h.conventional scope (by rw [hscopes]; exact List.mem_cons_self) name p hget
      · exact hconv
    · exact h.conventional sc (by rw [hscopes]; exact List.mem_cons_of_mem _ hsc) name p hget
  · have he := h.exits
    rw [hscopes, Exits] at he
    rw [hscopes', Exits, hkind, hstart, hend]
    exact he
  · have hb := h.bound
    rw [hscopes, Bound] at hb
    rw [hscopes', Bound, hkind]
    split_ifs at hb ⊢
    · refine ⟨hend.trans hb.1, fun name v hv => ?_⟩
      obtain ⟨hmem, hget⟩ := hb.2 name v hv
      exact hbase name v hmem hget
    · exact hb

theorem conventional_procedure (signature : Signature) : Conventional signature.procedure := by
  intro i q hq
  simp only [Signature.procedure, Signature.classes, classifyParameters] at hq
  obtain ⟨-, h2⟩ := List.getElem?_zip_eq_some.mp hq
  rw [List.getElem?_mapIdx] at h2
  obtain ⟨_, -, h2⟩ := Option.map_eq_some_iff.mp h2
  exact h2.symm

theorem Inside.scopes_ne_nil (h : Inside a names inLoop s) :
    ∃ n ns scope outer, names = n :: ns ∧ s.scopes = scope :: outer := by
  have he := h.exits
  have hm := h.mirrors
  cases hs : s.scopes with
  | nil =>
    rw [hs] at he
    exact he.elim
  | cons scope outer =>
    rw [hs] at hm
    cases hm with
    | cons _ _ => exact ⟨_, _, _, _, rfl, rfl⟩

/-- Behind a statement the names and scopes are in step again. -/
theorem Inside.after {st : Stmt} (h : Inside a names inLoop s)
    (hwf : st.WellFormed inLoop names) (hp : Passed s s')
    (hscopes : s'.scopes = scopesAfter st s.scopes) :
    Inside a (st.declareIn names) inLoop s' := by
  obtain ⟨n, ns, scope, outer, rfl, hs⟩ := h.scopes_ne_nil
  have hm := h.mirrors
  rw [hs] at hm
  obtain ⟨hm, -⟩ := List.forall₂_cons.mp hm
  rw [hs] at hscopes
  cases st with
  | declaration tag name type init =>
    obtain ⟨-, hname, -⟩ := hwf
    have hget : ∀ name', (scope.declare (declaredVariable scope tag name type)).vars.get? name' =
        if name' = name then some (declaredVariable scope tag name type)
        else scope.vars.get? name' := fun name' => Table.get?_insert ..
    refine h.replaceHead hp hs hscopes rfl rfl rfl rfl ⟨?_, hm.procedures⟩ ?_ (fun _ _ => .inl) ?_
    · intro name' hname'
      rw [hget]
      split_ifs with heq
      · rfl
      · rcases List.mem_cons.mp hname' with rfl | hname'
        · exact absurd rfl heq
        · exact hm.vars name' hname'
    · intro name' v hv
      rw [hget] at hv
      split_ifs at hv
      · obtain rfl := Option.some.inj hv
        exact .inr ⟨_, rfl⟩
      · exact .inl hv
    · intro name' v hmem hv
      refine ⟨List.mem_cons_of_mem _ hmem, ?_⟩
      rw [hget, if_neg (by rintro rfl; exact hname hmem), hv]
  | procedure tag signature body =>
    have hget : ∀ name', (scope.declareProcedure signature.procedure).procedures.get? name' =
        if name' = signature.name then some signature.procedure
        else scope.procedures.get? name' := fun name' => Table.get?_insert ..
    refine h.replaceHead hp hs hscopes rfl rfl rfl rfl ⟨hm.vars, ?_⟩ (fun _ _ => .inl) ?_
      fun name' v hmem hv => ⟨hmem, hv⟩
    · intro name' hname'
      rw [hget]
      split_ifs with heq
      · rfl
      · rcases List.mem_cons.mp hname' with rfl | hname'
        · exact absurd rfl heq
        · exact hm.procedures name' hname'
    · intro name' p hget'
      rw [hget] at hget'
      split_ifs at hget'
      · obtain rfl := Option.some.inj hget'
        exact .inr (conventional_procedure signature)
      · exact .inl hget'
  | _ => exact h.passed hp (hscopes.trans hs.symm)

end Inside

/-! ### Assignments and conditions -/

theorem Computed.variablePlace {l : Location} {r : Register} {v : Variable} {place : Place}
    (h : Computed s l r s') (hs : Settled s) (hv : variablePlace s v = some place) :
    variablePlace s' v = some place := by
  unfold Generation.variablePlace at hv ⊢
  cases hst : v.storage with
  | stack offset =>
    rw [hst] at hv
    rw [h.scopes]
    exact hv
  | register l' =>
    rw [hst] at hv
    obtain ⟨q, hq, hplace⟩ := Option.map_eq_some_iff.mp hv
    simp only [h.registerOf? hs hq, Option.map_some, hplace]

theorem does_assign {v : Variable} {place : Place} {value : Expr} (h : Ready names s)
    (hvalue : value.WellFormed names) (hv : variablePlace s v = some place)
    (htype : place.type = v.type) :
    Does P (assign v value) s fun code _ s' => Later s s' ∧ s'.registers = s.registers ∧
      ∀ pool, s'.constants.strings <+: pool →
        AssignCode pool s.look s.used place value s.nextLabel code s'.nextLabel := by
  refine does_bind.mpr ((does_expression value v.type s hvalue h).mono fun c p s₁ h₁ => ?_)
  obtain ⟨r, hc, hcode⟩ := h₁
  simp only [does_bind, does_registerOf hc.register, does_release, List.nil_append, List.append_nil]
  refine (does_storeVariable (hc.settled h.toSettled) (hc.variablePlace h.toSettled hv)).mono
    fun c' _ s₂ h₂ => ?_
  obtain ⟨hlater, hregs, hlabel, way, dst, hway, rfl⟩ := h₂
  refine ⟨hc.toLater.trans (hlater.trans later_withRegisters), ?_, fun pool hpool => ?_⟩
  · show (s₂.registers.release p.1).2 = s.registers
    rw [hregs, hc.release h.toSettled]
  · refine ⟨c, r, p.2, way, dst, ?_, hc.used ▸ hway, by simp⟩
    show ExprCode pool s.look s.used value place.type s.nextLabel c r p.2 s₂.nextLabel
    rw [hlabel, htype]
    exact hcode pool (hlater.constants.trans hpool)

theorem does_skipUnless {condition : Expr} {target : Label} (h : Ready names s)
    (hcond : condition.WellFormed names) :
    Does P (skipUnless condition target) s fun code _ s' => Later s s' ∧
      s'.registers = s.registers ∧ ∀ pool, s'.constants.strings <+: pool →
        SkipCode pool s.look s.used condition target s.nextLabel code s'.nextLabel := by
  refine does_bind.mpr ((does_expression condition .int s hcond h).mono fun c p s₁ h₁ => ?_)
  obtain ⟨r, hc, hcode⟩ := h₁
  have hs₁ := hc.settled h.toSettled
  simp only [testZero, does_bind]
  refine does_copyOf hs₁ hc.register fun dst hdst => ?_
  have hc₂ := computed_withValue hdst
  have hcd := hc.drop hc₂ h.toSettled
  simp only [does_emit, does_release, List.append_nil]
  refine ⟨hcd.toLater.trans later_withRegisters, hcd.release h.toSettled, fun pool hpool => ?_⟩
  exact ⟨c, r, p.2, dst, hcode pool hpool, hc.free_behind hdst, by simp⟩

theorem emits_skipUnless {condition : Expr} {target : Label} (h : Ready names s)
    (hcond : condition.WellFormed names) :
    Emits P (skipUnless condition target) s fun code ds _ s' => ds = [] ∧ Later s s' ∧
      s'.registers = s.registers ∧ ∀ pool, s'.constants.strings <+: pool →
        SkipCode pool s.look s.used condition target s.nextLabel code s'.nextLabel :=
  (does_skipUnless h hcond).emits fun _ _ _ h' => (h'.2.2 _ List.prefix_rfl).callFree

/-! ### Simple statements -/

/-- A statement was run: registers and stack are as before, the innermost scope has at most one more
name, and the code is the code of the statement. -/
def Ran (options : Options) (s : State) (st : Stmt) (code : List Instr) (ds : List Nat)
    (s' : State) : Prop :=
  Passed s s' ∧ s'.scopes = scopesAfter st s.scopes ∧ ∀ pool, s'.constants.strings <+: pool →
    ∃ ls, depthsOf ls = ds ∧
      StmtCode options pool s.registers s.scopes st s.nextLabel code s'.nextLabel ls

section Simple

variable {a : Activation} {options : Options} {tag : Tag}

theorem does_modifyScope {scope : Scope} {outer : ScopeStack} {f : Scope → Scope}
    {Q : List Instr → Unit → State → Prop} (hs : s.scopes = scope :: outer) :
    Does P (modifyScope f) s Q ↔ Q [] () { s with scopes := f scope :: outer } := by
  simp only [modifyScope, does_bind, does_get, hs, ScopeStack.modifyCurrent, orFail, does_return,
    does_modify, List.nil_append]

theorem emits_modifyScope {scope : Scope} {outer : ScopeStack} {f : Scope → Scope}
    {Q : List Instr → List Nat → Unit → State → Prop} (hs : s.scopes = scope :: outer) :
    Emits P (modifyScope f) s Q ↔ Q [] [] () { s with scopes := f scope :: outer } :=
  emits_of_rule (fun _ => does_modifyScope hs) callFree_nil

theorem does_epilogues {Q : List Instr → Unit → State → Prop} :
    ∀ k : Nat, Does P (epilogues k) s Q ↔ Q (epiloguesCode k) () s
  | 0 => does_return
  | k + 1 => by
    rw [epilogues, does_bind, does_epilogue, does_epilogues k]
    rfl

theorem does_jump {jump : Jump} {Q : List Instr → Unit → State → Prop}
    (hj : jump.Allowed inLoop) (he : Exits inLoop s.scopes)
    (hQ : ∀ crossed target, s.scopes.jumpTarget jump = .ok (crossed, target) →
      Q (epiloguesCode crossed ++ [.jmp target]) () s) :
    Does P (Generation.jump tag jump) s Q := by
  obtain ⟨⟨crossed, target⟩, ht⟩ := Exits.jumpTargetFrom 0 hj he
  have ht : s.scopes.jumpTarget jump = .ok (crossed, target) := ht
  simp only [Generation.jump, does_bind, does_get, ht, orRefuse, does_return, does_epilogues,
    does_emit, List.nil_append]
  exact hQ crossed target ht

theorem Passed.refl : Passed s s :=
  ⟨rfl, rfl, Nat.le_refl _, Nat.le_refl _, List.prefix_rfl⟩

theorem StmtCode.cast {pool : List String} {f : RegisterFile} {scopes : ScopeStack} {st : Stmt}
    {n n' : Nat} {code code' : List Instr} {ls : List Spot} {ds : List Nat}
    (h : StmtCode options pool f scopes st n code n' ls) (hcode : code' = code)
    (hds : depthsOf ls = ds) :
    ∃ ls, depthsOf ls = ds ∧ StmtCode options pool f scopes st n code' n' ls :=
  ⟨ls, hds, hcode ▸ h⟩

/-- A statement without parts that has no depths at calls has no calls. -/
theorem StmtCode.callFree {pool : List String} {f : RegisterFile} {scopes : ScopeStack} {st : Stmt}
    {n n' : Nat} {code : List Instr} {ls : List Spot}
    (h : StmtCode options pool f scopes st n code n' ls) (hds : depthsOf ls = [])
    (hst : st.parts = []) :
    CallFree code := by
  cases h with
  | block h =>
    obtain rfl := hst
    cases h
    simp [framed]
  | procedure => exact callFree_nil
  | call _ _ hcode =>
    rw [hcode.record] at hds
    cases hds
  | @declaration _ _ _ _ _ init _ _ _ _ _ h =>
    cases init with
    | none =>
      obtain ⟨rfl, -⟩ := h
      simp
    | some value => simpa using AssignCode.callFree h
  | assignment _ h => simpa using h.callFree
  | branch | branchElse | loop => cases hst
  | continueLoop | breakLoop | giveBack => simp [callFree_epiloguesCode]
  | giveBackValue _ _ h => simpa [callFree_epiloguesCode, copyInstr] using h.callFree

theorem Does.emits_ran {work : Gen Unit} {st : Stmt}
    (h : Does P work s fun code _ s' => Ran options s st code [] s') (hst : st.parts = []) :
    Emits P work s fun code ds _ s' => Ran options s st code ds s' := by
  refine (h.emits fun c _ s' h' => ?_).mono ?_
  · obtain ⟨ls, hds, hcode⟩ := h'.2.2 _ List.prefix_rfl
    exact hcode.callFree hds hst
  rintro c ds _ s' ⟨rfl, h'⟩
  exact h'

theorem does_giveBack {value : Option Expr} (h : Inside a names inLoop s)
    (hvalue : ∀ e ∈ value, e.WellFormed names) :
    Does P (giveBack tag value) s fun code _ s' => Ran options s (.giveBack tag value) code [] s' := by
  simp only [giveBack, does_bind, does_get, List.nil_append]
  have hback : Jump.giveBack.Allowed inLoop := trivial
  cases value with
  | none =>
    refine does_jump hback h.exits fun crossed target ht => ?_
    exact ⟨Passed.refl, (scopesAfter_eq (by simp [Stmt.kind])).symm, fun pool _ =>
      ⟨_, depthsOf_jumpSpots, .giveBack ht⟩⟩
  | some e =>
    have hreturns : (s.scopes.procedureScope?.bind (·.returns)).getD .int = returnType s.scopes := rfl
    simp only [hreturns, does_bind, returnValue]
    split
    · exact does_refuse.mpr (.voidReturn _)
    next hvoid =>
    simp only [does_bind]
    refine (does_expression e _ s (hvalue e rfl) h.ready).mono fun c p s₁ h₁ => ?_
    obtain ⟨r, hc, hcode⟩ := h₁
    simp only [does_registerOf hc.register, does_copy, does_release]
    have hregs := hc.release h.ready.toSettled
    have hlater : Later s (s₁.withRegisters (s₁.registers.release p.1).2) :=
      hc.toLater.trans later_withRegisters
    refine does_jump hback (hlater.scopes ▸ h.exits) fun crossed target ht => ?_
    rw [hlater.scopes] at ht
    refine ⟨hlater.passed hregs, ?_, fun pool hpool => ?_⟩
    · exact hlater.scopes.trans (scopesAfter_eq (by simp [Stmt.kind])).symm
    · exact (StmtCode.giveBackValue ht hvoid (hcode pool hpool)).cast (by simp) (by simp)

/-- The declaration has a place in the frame of the innermost scope. -/
def Slotted (st : Stmt) (scopes : ScopeStack) : Prop :=
  ∀ d ∈ Stmt.declarations [st], ∃ offset, (scopes.headD default).layout.get? d.1 = some offset

theorem does_declaration {name : String} {type : DataType} {init : Option Expr}
    (h : Inside a names inLoop s)
    (hslot : Slotted (.declaration tag name type init) s.scopes)
    (hinit : ∀ e ∈ init, e.WellFormed names) :
    Does P (declaration options tag name type init) s
      fun code _ s' => Ran options s (.declaration tag name type init) code [] s' := by
  obtain ⟨n, ns, scope, outer, rfl, hs⟩ := h.scopes_ne_nil
  obtain ⟨offset, hoffset⟩ := hslot (tag.id, type) (by simp [Stmt.declarations])
  rw [hs] at hoffset
  have hoffset : scope.layout.get? tag.id = some offset := hoffset
  have hdecl : declaredVariable scope tag name type = ⟨name, type, .stack offset, scope.stackHeight⟩ := by
    simp [declaredVariable, hoffset]
  have hafter : scopesAfter (.declaration tag name type init) s.scopes =
      scope.declare ⟨name, type, .stack offset, scope.stackHeight⟩ :: outer := by
    rw [hs, scopesAfter, hdecl]
  simp only [declaration, currentScope, does_bind, does_get, hs, ScopeStack.current, orFail,
    does_return, hoffset, does_comment, List.nil_append]
  cases init with
  | none =>
    rw [does_modifyScope hs]
    refine ⟨⟨rfl, rfl, Nat.le_refl _, Nat.le_refl _, List.prefix_rfl⟩, hafter.symm, fun pool _ => ?_⟩
    rw [hs]
    exact ⟨_, depthsOf_spots, .declaration hoffset ⟨rfl, rfl⟩⟩
  | some value =>
    have hplace : variablePlace s ⟨name, type, .stack offset, scope.stackHeight⟩ =
        some ⟨type, .frame 0 offset⟩ := by
      simp [variablePlace, stackPlace, hs, ScopeStack.stackHeight]
    refine does_bind.mpr ((does_assign h.ready (hinit value rfl) hplace rfl).mono fun c _ s₁ h₁ => ?_)
    obtain ⟨hlater, hregs, hcode⟩ := h₁
    rw [does_modifyScope (hlater.scopes.trans hs)]
    refine ⟨⟨hregs, hlater.stackDepth, hlater.locations, hlater.labels, hlater.constants⟩,
      hafter.symm, fun pool hpool => ?_⟩
    have hcode := hcode pool hpool
    rw [State.look, hs] at hcode
    rw [hs]
    exact (StmtCode.declaration hoffset hcode).cast (by simp) depthsOf_spots

theorem does_assignment {name : String} {value : Expr} (h : Inside a names inLoop s)
    (hname : ∃ n ∈ names, name ∈ n.vars) (hvalue : value.WellFormed names) :
    Does P (assignment options tag name value) s
      fun code _ s' => Ran options s (.assignment tag name value) code [] s' := by
  have hr := h.ready
  obtain ⟨v, hv⟩ := Option.isSome_iff_exists.mp (hr.visible name hname)
  obtain ⟨place, hplace, htype⟩ := variablePlace_isSome (hr.reachable name v hv)
  simp only [assignment, lookup, does_bind, does_get, hv, does_return, does_comment, List.nil_append]
  refine (does_assign hr hvalue hplace htype).mono fun c _ s₁ h₁ => ?_
  obtain ⟨hlater, hregs, hcode⟩ := h₁
  refine ⟨hlater.passed hregs, hlater.scopes.trans (scopesAfter_eq (by simp [Stmt.kind])).symm,
    fun pool hpool => ?_⟩
  exact ⟨_, depthsOf_spots, .assignment ((look_eq hv).trans hplace) (hcode pool hpool)⟩

theorem emits_callStatement {name : String} {args : List Expr}
    (h : Inside a names inLoop s) (hname : ∃ n ∈ names, name ∈ n.procedures)
    (hargs : ∀ e ∈ args, e.WellFormed names) :
    Emits P (call options tag name args) s
      fun code ds _ s' => Ran options s (.call tag name args) code ds s' := by
  obtain ⟨p, hp, hconv⟩ := h.procedure hname
  refine (emits_call h.params h.ready hargs hp hconv).mono fun code ds _ s' h' => ?_
  obtain ⟨hlater, hregs, hcount, hcode⟩ := h'
  refine ⟨hlater.passed hregs, hlater.scopes.trans (scopesAfter_eq (by simp [Stmt.kind])).symm,
    fun pool hpool => ?_⟩
  obtain ⟨c, bytes, hc, rfl, rfl⟩ := hcode pool hpool
  rw [h.depth] at hc
  exact ⟨_, hc.record, .call hp hcount hc⟩

theorem does_external {signature : Signature} (h : Inside a names inLoop s)
    (hext : signature.external = true) :
    Does P (procedure tag signature none) s
      fun code _ s' => Ran options s (.procedure tag signature none) code [] s' := by
  obtain ⟨n, ns, scope, outer, rfl, hs⟩ := h.scopes_ne_nil
  simp only [procedure, does_bind, does_modifyScope hs, hext, if_true, addExtern, does_modify,
    List.nil_append]
  have hafter : scopesAfter (.procedure tag signature none) s.scopes =
      scope.declareProcedure signature.procedure :: outer := by
    rw [hs, scopesAfter]
  split
  all_goals
    refine ⟨⟨rfl, rfl, Nat.le_refl _, Nat.le_refl _, List.prefix_rfl⟩, hafter.symm, fun pool _ => ?_⟩
    exact ⟨[], rfl, .procedure⟩

end Simple

/-! ### Blocks -/

/-- Statements were run, in the order of a block. -/
def RanAll (options : Options) (s : State) (body : List Stmt) (code : List Instr) (ds : List Nat)
    (s' : State) : Prop :=
  Passed s s' ∧ s'.scopes.drop 1 = s.scopes.drop 1 ∧ ∀ pool, s'.constants.strings <+: pool →
    ∃ ls, depthsOf ls = ds ∧
      StmtsCode options pool s.registers s.scopes body s.nextLabel code s'.nextLabel ls

/-- A plain block was run. -/
def BlockRan (options : Options) (s : State) (body : List Stmt) (code : List Instr)
    (ds : List Nat) (s' : State) : Prop :=
  Passed s s' ∧ s'.scopes = s.scopes ∧ ∀ pool, s'.constants.strings <+: pool → ∃ c ls,
    depthsOf ls = ds ∧ StmtsCode options pool s.registers
      (innerScope .plain s.scopes body :: s.scopes) body s.nextLabel c s'.nextLabel ls ∧
    code = framed (innerScope .plain s.scopes body).localBytes c

/-- What stands behind `else` was run. -/
def ElseRan (options : Options) (s : State) (st : Stmt) (code : List Instr) (ds : List Nat)
    (s' : State) : Prop :=
  Passed s s' ∧ s'.scopes = s.scopes ∧ ∀ pool, s'.constants.strings <+: pool →
    ∃ ls, depthsOf ls = ds ∧
      ElseCode options pool s.registers s.scopes st s.nextLabel code s'.nextLabel ls

/-- The state behind the opening of a frame. -/
def State.opened (s : State) (scope : Scope) : State :=
  { s with
    scopes := scope :: s.scopes
    stackDepth := s.stackDepth + 8 + scope.localBytes }

section Blocks

variable {a : Activation} {options : Options} {tag : Tag}
  {role : Role} {body : List Stmt} {scope : Scope}

theorem does_openFrame {reserved : Nat} {Q : List Instr → Unit → State → Prop}
    (hrole : role ≠ .entry) : Does P (openFrame role reserved) s Q ↔
      Q (openCode reserved) () (s.withDepth (s.stackDepth + 8 + reserved)) := by
  unfold openFrame openCode
  by_cases hres : reserved > 0
  · simp [hrole, hres]
  · have : reserved = 0 := by omega
    simp [hrole, this]

theorem does_scopeFor_plain {Q : List Instr → Scope → State → Prop} :
    Does P (scopeFor .plain body) s Q ↔ Q [] (innerScope .plain s.scopes body) s := by
  simp [scopeFor, Role.scopeKind, innerScope]

theorem does_scopeFor_loop {head start behind : Label} {Q : List Instr → Scope → State → Prop} :
    Does P (scopeFor (.loop head start behind) body) s Q ↔
      Q [] (loopScope s.scopes body start behind) s := by
  simp [scopeFor, Role.scopeKind, innerScope, loopScope]

theorem emits_openFrame {reserved : Nat} {Q : List Instr → List Nat → Unit → State → Prop}
    (hrole : role ≠ .entry) : Emits P (openFrame role reserved) s Q ↔
      Q (openCode reserved) [] () (s.withDepth (s.stackDepth + 8 + reserved)) :=
  emits_of_rule (fun _ => does_openFrame hrole) callFree_openCode

/-- A block around statements that were run in its scope. -/
theorem emits_frame_of_start {close : List Instr} {work : Gen Unit} (hrole : role ≠ .entry)
    (hparams : role.params = [])
    (hscope : ∀ Q, Does P (scopeFor role body) s Q ↔ Q [] scope s)
    (hclose : ∀ t Q, Does P (closeFrame role scope []) t Q ↔ Q close () t) (hfree : CallFree close)
    (hstart : P .nodeStart tag .block s)
    (hend : ∀ s', Passed s s' → s'.scopes = s.scopes → P .nodeEnd tag .block s')
    (hwork : Emits P work (s.opened scope)
      fun c ds _ s' => RanAll options (s.opened scope) body c ds s') :
    Emits P (block role tag body work) s fun code ds _ s' => Passed s s' ∧ s'.scopes = s.scopes ∧
      ∀ pool, s'.constants.strings <+: pool → ∃ c ls, depthsOf ls = ds ∧
        StmtsCode options pool s.registers (scope :: s.scopes) body s.nextLabel c s'.nextLabel ls ∧
        code = openCode scope.localBytes ++ c ++ close := by
  have hscope' : ∀ {Q}, Emits P (scopeFor role body) s Q ↔ Q [] [] scope s :=
    emits_of_rule hscope callFree_nil
  have hclose' : ∀ {t Q}, Emits P (closeFrame role scope []) t Q ↔ Q close [] () t :=
    emits_of_rule (hclose _) hfree
  simp only [block, emits_bind, emits_nodeEvent, hscope', emits_get, emits_openFrame hrole,
    emits_modify, hparams, bindParameters, emits_return, hclose', emits_setDepth, List.nil_append,
    List.append_nil]
  refine ⟨fun _ => hstart, hwork.mono fun c ds _ s' h' => ?_⟩
  obtain ⟨hpassed, hscopes, hcode⟩ := h'
  have hp : Passed s { s'.withDepth s.stackDepth with scopes := s'.scopes.drop 1 } :=
    ⟨hpassed.registers, rfl, hpassed.locations, hpassed.labels, hpassed.constants⟩
  refine ⟨fun _ => hend _ hp hscopes, hp, hscopes, fun pool hpool => ?_⟩
  obtain ⟨ls, hds, hcode⟩ := hcode pool hpool
  exact ⟨c, ls, hds, hcode, by simp⟩

/-- As above; the start may be reported by the fact that the block keeps the registers. -/
theorem emits_frame {close : List Instr} {work : Gen Unit} (hrole : role ≠ .entry)
    (hparams : role.params = [])
    (hscope : ∀ P Q, Does P (scopeFor role body) s Q ↔ Q [] scope s)
    (hclose : ∀ P t Q, Does P (closeFrame role scope []) t Q ↔ Q close () t)
    (hfree : CallFree close)
    (hstart : Keeps (block role tag body work) s → P .nodeStart tag .block s)
    (hend : ∀ s', Passed s s' → s'.scopes = s.scopes → P .nodeEnd tag .block s')
    (hwork : Emits P work (s.opened scope)
      fun c ds _ s' => RanAll options (s.opened scope) body c ds s') :
    Emits P (block role tag body work) s fun code ds _ s' => Passed s s' ∧ s'.scopes = s.scopes ∧
      ∀ pool, s'.constants.strings <+: pool → ∃ c ls, depthsOf ls = ds ∧
        StmtsCode options pool s.registers (scope :: s.scopes) body s.nextLabel c s'.nextLabel ls ∧
        code = openCode scope.localBytes ++ c ++ close := by
  refine emits_frame_of_start hrole hparams (hscope P) (hclose P) hfree (hstart ?_) hend hwork
  have hrun := @emits_frame_of_start (fun _ _ _ _ => True) s options tag role body scope close work
    hrole hparams (hscope _) (hclose _) hfree trivial (fun _ _ _ => trivial) hwork.unwatched
  exact fun u hu => (Stage.Ensures.value hrun hu).1.registers

theorem Inside.opened {inLoop' : Bool} (h : Inside a names inLoop s)
    (hkind : scope.kind = .plain ∧ inLoop' = inLoop ∨
      scope.kind = .loop ∧ scope.startLabel.isSome = true ∧ scope.endLabel.isSome = true)
    (hvars : scope.vars = .empty) (hprocs : scope.procedures = .empty) :
    Inside a ({} :: names) inLoop' (s.opened scope) where
  params := h.params
  below := h.below
  depth := by
    show s.stackDepth + 8 + scope.localBytes = Generation.depth (scope :: s.scopes)
    have hne : scope.kind ≠ .entry := by
      rcases hkind with ⟨hk, -⟩ | ⟨hk, -⟩ <;> simp [hk]
    rw [Generation.depth, if_neg hne, ← h.depth]
    omega
  mirrors := by
    have hnil : Mirrors {} scope := by
      constructor <;> intro name hname <;> cases hname
    exact .cons hnil h.mirrors
  reachable := by
    intro sc hsc name v hv
    rcases List.mem_cons.mp hsc with rfl | hsc
    · rw [hvars] at hv
      cases hv
    · exact h.reachable sc hsc name v hv
  conventional := by
    intro sc hsc name p hp
    rcases List.mem_cons.mp hsc with rfl | hsc
    · rw [hprocs] at hp
      cases hp
    · exact h.conventional sc hsc name p hp
  exits := by
    show Exits inLoop' (scope :: s.scopes)
    rcases hkind with ⟨hk, rfl⟩ | ⟨hk, hstart, hend⟩
    · simp only [Exits, hk]
      exact h.exits
    · simp only [Exits, hk]
      exact ⟨hstart, hend, h.exits.weaken⟩
  bound := by
    show Bound a ({} :: names) (scope :: s.scopes)
    have hne : scope.kind ≠ .procedure := by
      rcases hkind with ⟨hk, -⟩ | ⟨hk, -⟩ <;> simp [hk]
    rw [Bound, if_neg hne]
    exact h.bound

/-! Frames have room for all declarations of their block. -/

theorem get?_layOutFrom {id : NodeId} : ∀ {decls : List (NodeId × DataType)} {used : Nat}
    {layout : Table NodeId Int}, (∃ offset, layout.get? id = some offset) ∨ id ∈ decls.map Prod.fst →
      ∃ offset, (layOutFrom used layout decls).2.get? id = some offset
  | [], _, _, h => by
    rcases h with h | h
    · exact h
    · cases h
  | (id', type) :: decls, used, layout, h => by
    rw [layOutFrom]
    refine get?_layOutFrom ?_
    rw [Table.get?_insert]
    by_cases heq : id = id'
    · exact .inl ⟨_, if_pos heq⟩
    · rcases h with h | h
      · exact .inl (by simpa only [if_neg heq] using h)
      · rcases List.mem_cons.mp h with h | h
        · exact absurd h heq
        · exact .inr h

theorem slotted_of_layout {st : Stmt} {outer : ScopeStack} (hst : st ∈ body)
    (hlayout : scope.layout = (layOutFrom 0 .empty (Stmt.declarations body)).2) :
    Slotted st (scope :: outer) := by
  intro d hd
  have hmem : d.1 ∈ (Stmt.declarations body).map Prod.fst := by
    refine List.mem_map_of_mem ?_
    simp only [Stmt.declarations, List.mem_filterMap, List.mem_singleton] at hd ⊢
    obtain ⟨st', rfl, hst'⟩ := hd
    exact ⟨st', hst, hst'⟩
  show ∃ offset, scope.layout.get? d.1 = some offset
  rw [hlayout]
  exact get?_layOutFrom (.inr hmem)

theorem slotted_after {st st' : Stmt} {scopes : ScopeStack} (h : Slotted st scopes) :
    Slotted st (scopesAfter st' scopes) := by
  cases scopes with
  | nil => exact h
  | cons scope outer => cases st' <;> exact h

end Blocks

/-! ### Statements -/

/-- Reports of the statements within a statement may be made in every state between statements, the
start only where the statement keeps the registers. -/
def Watching (P : Happening → Tag → NodeKind → State → Prop) (options : Options) (a : Activation)
    (st : Stmt) : Prop :=
  ∀ {happening : Happening} {st' : Stmt} {names : List NameScope} {inLoop : Bool} {s : State},
    st'.Within st → Inside a names inLoop s →
    (happening = .nodeStart → ∃ part, IsRunOf options st' part ∧ Keeps part s) →
    P happening st'.tag st'.kind s

section Statements

variable {a : Activation} {options : Options} {tag : Tag}
  {body : List Stmt} {st p : Stmt}

theorem Watching.part (h : Watching P options a st) (hp : p ∈ st.parts) :
    Watching P options a p :=
  fun hw => h (.part hp hw)

theorem Watching.start (h : Watching P options a st) (hin : Inside a names inLoop s) {part : Gen Unit}
    (hpart : IsRunOf options st part) (hkeeps : Keeps part s) : P .nodeStart st.tag st.kind s :=
  h .self hin fun _ => ⟨part, hpart, hkeeps⟩

theorem Watching.stop (h : Watching P options a st) (hin : Inside a names inLoop s) :
    P .nodeEnd st.tag st.kind s :=
  h .self hin fun hstart => by cases hstart

/-- The reports around a statement do not touch the registers. -/
theorem keeps_statementNode {kind : NodeKind} {work : Gen Unit}
    {Q : List Instr → List Nat → State → Prop}
    (hwork : Emits P work s fun code ds _ s' => Passed s s' ∧ Q code ds s') :
    Keeps (statementNode tag kind work) s := by
  have hrun : Emits (fun _ _ _ _ => True) (statementNode tag kind work) s
      fun _ _ _ s' => Passed s s' := by
    simp only [statementNode, emits_bind, emits_nodeEvent]
    exact ⟨fun _ => trivial, hwork.unwatched.mono fun _ _ _ _ h' => ⟨fun _ => trivial, h'.1⟩⟩
  exact fun u hu => (Stage.Ensures.value hrun hu).registers

theorem emits_statementNode {kind : NodeKind} {work : Gen Unit}
    (h : Inside a names inLoop s) (hwf : st.WellFormed inLoop names)
    (hwatch : Watching P options a st) (hst : statement options st = statementNode tag kind work)
    (htag : st.tag = tag) (hkind : st.kind = kind)
    (hwork : Emits P work s fun code ds _ s' => Ran options s st code ds s') :
    Emits P (statementNode tag kind work) s fun code ds _ s' => Ran options s st code ds s' := by
  subst htag hkind
  have hstart := hwatch.start h (.inl hst.symm) (keeps_statementNode hwork)
  simp only [statementNode, emits_bind, emits_nodeEvent, List.nil_append, List.append_nil]
  refine ⟨fun _ => hstart, hwork.mono fun code ds _ s' h' => ⟨fun _ => ?_, h'⟩⟩
  exact hwatch.stop (h.after hwf h'.1 h'.2.1)

/-- A plain block around statements that can be run in it. -/
theorem emits_plainBlock (h : Inside a names inLoop s)
    (hwatch : Watching P options a (.block tag body))
    (hbody : Inside a ({} :: names) inLoop
        (s.opened (innerScope .plain s.scopes body)) →
      Emits P (statements options body) (s.opened (innerScope .plain s.scopes body))
        fun c ds _ s' => RanAll options (s.opened (innerScope .plain s.scopes body)) body c ds s') :
    Emits P (block .plain tag body (statements options body)) s
      fun code ds _ s' => BlockRan options s body code ds s' := by
  have hin : Inside a ({} :: names) inLoop
      (s.opened (innerScope .plain s.scopes body)) := h.opened (.inl ⟨rfl, rfl⟩) rfl rfl
  have hclose : ∀ P t Q, Does P (closeFrame .plain (innerScope .plain s.scopes body) []) t Q ↔
      Q epilogueCode () t := fun P t Q => does_epilogue
  exact emits_frame (by simp) rfl (fun P Q => does_scopeFor_plain) hclose callFree_epilogueCode
    (hwatch.start h (.inr ⟨.plain, by rw [blockOf]⟩))
    (fun s' hp hs => hwatch.stop (h.passed hp hs)) (hbody hin)

theorem does_checkRegisters (h : s.registers.Lawful) {Q : List Instr → Unit → State → Prop} :
    Does P (checkRegisters options) s Q ↔ Q [] () s := by
  unfold checkRegisters
  split
  · simp only [does_bind, does_get, h.check, orLack, does_return, List.nil_append]
  · exact does_return

theorem emits_checkRegisters (h : s.registers.Lawful)
    {Q : List Instr → List Nat → Unit → State → Prop} :
    Emits P (checkRegisters options) s Q ↔ Q [] [] () s :=
  emits_of_rule (fun _ => does_checkRegisters h) callFree_nil

theorem passed_issueLabel : Passed s s.issueLabel := later_issueLabel.passed rfl

theorem emits_branch {condition : Expr} {thenTag : Tag} {thenBody : List Stmt} {thenCode : Gen Unit}
    (h : Inside a names inLoop s) (hcond : condition.WellFormed names)
    (hthen : ∀ t, Inside a names inLoop t →
      Emits P thenCode t fun code ds _ t' => BlockRan options t thenBody code ds t') :
    Emits P (branch options condition thenCode none) s fun code ds _ s' =>
      Ran options s (.branch tag condition (.block thenTag thenBody) none) code ds s' := by
  have h₀ : Passed s s.issueLabel.issueLabel := passed_issueLabel.trans passed_issueLabel
  simp only [branch, emits_bind, emits_freshLabel, emits_comment, Option.isSome_none,
    Bool.false_eq_true, if_false, List.nil_append]
  refine (emits_skipUnless (h.passed h₀ rfl).ready hcond).mono fun c₁ _ _ s₁ h₁ => ?_
  obtain ⟨rfl, hlater, hregs, hskip⟩ := h₁
  have hp₁ : Passed s s₁ := h₀.trans (hlater.passed hregs)
  refine (hthen s₁ (h.passed hp₁ hlater.scopes)).mono fun c₂ ds _ s₂ h₂ => ?_
  obtain ⟨hp₂, hscopes₂, hcode₂⟩ := h₂
  simp only [emits_label, List.nil_append, List.append_nil]
  refine ⟨hp₁.trans hp₂, ?_, fun pool hpool => ?_⟩
  · rw [hscopes₂, hlater.scopes, scopesAfter_eq (by simp [Stmt.kind])]
    rfl
  · obtain ⟨c, ls, rfl, hc, rfl⟩ := hcode₂ pool hpool
    have hskip := hskip pool (hp₂.constants.trans hpool)
    rw [hp₁.registers, hlater.scopes] at hc
    exact (StmtCode.branch hskip hc).cast (by simp [hlater.scopes]; rfl) (by simp)

theorem emits_branchElse {condition : Expr} {thenTag : Tag} {thenBody : List Stmt}
    {elseBranch : Stmt} {thenCode elseCode : Gen Unit}
    (h : Inside a names inLoop s) (hcond : condition.WellFormed names)
    (hthen : ∀ t, Inside a names inLoop t →
      Emits P thenCode t fun code ds _ t' => BlockRan options t thenBody code ds t')
    (helse : ∀ t, Inside a names inLoop t →
      Emits P elseCode t fun code ds _ t' => ElseRan options t elseBranch code ds t') :
    Emits P (branch options condition thenCode (some elseCode)) s fun code ds _ s' =>
      Ran options s (.branch tag condition (.block thenTag thenBody) (some elseBranch)) code ds s' := by
  have h₀ : Passed s s.issueLabel.issueLabel := passed_issueLabel.trans passed_issueLabel
  simp only [branch, emits_bind, emits_freshLabel, emits_comment, Option.isSome_some, if_true,
    List.nil_append]
  refine (emits_skipUnless (h.passed h₀ rfl).ready hcond).mono fun c₁ _ _ s₁ h₁ => ?_
  obtain ⟨rfl, hlater, hregs, hskip⟩ := h₁
  have hp₁ : Passed s s₁ := h₀.trans (hlater.passed hregs)
  have hin₁ := h.passed hp₁ hlater.scopes
  refine (hthen s₁ hin₁).mono fun c₂ ds₁ _ s₂ h₂ => ?_
  obtain ⟨hp₂, hscopes₂, hcode₂⟩ := h₂
  simp only [emits_jmp, emits_label, List.nil_append, List.append_nil]
  refine (helse s₂ (hin₁.passed hp₂ hscopes₂)).mono fun c₃ ds₂ _ s₃ h₃ => ?_
  obtain ⟨hp₃, hscopes₃, hcode₃⟩ := h₃
  refine ⟨hp₁.trans (hp₂.trans hp₃), ?_, fun pool hpool => ?_⟩
  · rw [hscopes₃, hscopes₂, hlater.scopes, scopesAfter_eq (by simp [Stmt.kind])]
    rfl
  · obtain ⟨c, ls, rfl, hc, rfl⟩ := hcode₂ pool (hp₃.constants.trans hpool)
    have hskip := hskip pool (hp₂.constants.trans (hp₃.constants.trans hpool))
    obtain ⟨ls', rfl, helse⟩ := hcode₃ pool hpool
    rw [hp₁.registers, hlater.scopes] at hc
    rw [hp₂.registers, hp₁.registers, hscopes₂, hlater.scopes] at helse
    exact (StmtCode.branchElse hskip hc helse).cast (by simp [hlater.scopes]; rfl) (by simp)

theorem does_closeFrame_loop {head start behind : Label} {scope : Scope}
    {Q : List Instr → Unit → State → Prop} :
    Does P (closeFrame (.loop head start behind) scope []) s Q ↔
      Q (.label start :: epilogueCode ++ .jmp head :: .label behind :: epilogueCode) () s := by
  simp [closeFrame]

/-- A loop around statements that can be run in the scope of its body. -/
theorem emits_loop {condition : Expr} {bodyTag : Tag} (h : Inside a names inLoop s)
    (hcond : condition.WellFormed names)
    (hwatch : Watching P options a (.block bodyTag body))
    (hbody : ∀ (t : State) (start behind : Label),
      Inside a ({} :: names) true
        (t.opened (loopScope t.scopes body start behind)) →
      Emits P (statements options body) (t.opened (loopScope t.scopes body start behind))
        fun c ds _ t' => RanAll options (t.opened (loopScope t.scopes body start behind)) body c ds t') :
    Emits P (loop options condition fun role => block role bodyTag body (statements options body)) s
      fun code ds _ s' => Ran options s (.loop tag condition (.block bodyTag body)) code ds s' := by
  have h₀ : Passed s s.issueLabel.issueLabel.issueLabel.issueLabel :=
    (passed_issueLabel.trans passed_issueLabel).trans (passed_issueLabel.trans passed_issueLabel)
  simp only [loop, emits_bind, emits_freshLabel, emits_comment, emits_label, List.nil_append,
    List.append_nil]
  refine (emits_skipUnless (h.passed h₀ rfl).ready hcond).mono fun c₁ _ _ s₁ h₁ => ?_
  obtain ⟨rfl, hlater, hregs, hskip⟩ := h₁
  have hp₁ : Passed s s₁ := h₀.trans (hlater.passed hregs)
  have hin₁ := h.passed hp₁ hlater.scopes
  obtain ⟨start, hstart⟩ : ∃ start : Label, start = ⟨s.nextLabel + 1, "while_continue"⟩ := ⟨_, rfl⟩
  obtain ⟨behind, hbehind⟩ : ∃ behind : Label, behind = ⟨s.nextLabel + 2, "while_break"⟩ := ⟨_, rfl⟩
  have hrun := hbody s₁ start behind (hin₁.opened (.inr ⟨rfl, rfl, rfl⟩) rfl rfl)
  have hframe := @emits_frame P s₁ options bodyTag (.loop ⟨s.nextLabel, "while_head"⟩ start behind)
    body (loopScope s₁.scopes body start behind) _ _ (by simp) rfl (fun P Q => does_scopeFor_loop)
    (fun P t Q => does_closeFrame_loop) (by simp) (hwatch.start hin₁ (.inr ⟨_, by rw [blockOf]⟩))
    (fun s' hp hs => hwatch.stop (hin₁.passed hp hs)) hrun
  subst hstart hbehind
  refine hframe.mono fun c₂ ds _ s₂ h₂ => ?_
  obtain ⟨hp₂, hscopes₂, hcode₂⟩ := h₂
  refine ⟨hp₁.trans hp₂, ?_, fun pool hpool => ?_⟩
  · rw [hscopes₂, hlater.scopes, scopesAfter_eq (by simp [Stmt.kind])]
    rfl
  · obtain ⟨c, ls, rfl, hc, rfl⟩ := hcode₂ pool hpool
    have hskip := hskip pool (hp₂.constants.trans hpool)
    rw [hp₁.registers, hlater.scopes] at hc
    exact (StmtCode.loop rfl rfl rfl rfl rfl hskip hc).cast (by simp [hlater.scopes]; rfl) (by simp)

end Statements

section Induction

variable {a : Activation} {options : Options}

/-- The statement is a block whose statements can be run in a scope made for them. -/
def RunsBody (P : Happening → Tag → NodeKind → State → Prop) (options : Options) (a : Activation)
    (st : Stmt) : Prop :=
  ∃ tag body, st = .block tag body ∧
    ∀ {names : List NameScope} {inLoop : Bool} {s : State}, Inside a ({} :: names) inLoop s →
      st.WellFormed inLoop names → (∀ st' ∈ body, Slotted st' s.scopes) → Watching P options a st →
      Emits P (statements options body) s fun code ds _ s' => RanAll options s body code ds s'

theorem RunsBody.plain {tag : Tag} {body : List Stmt}
    (h : RunsBody P options a (.block tag body)) (hin : Inside a names inLoop s)
    (hwf : (Stmt.block tag body).WellFormed inLoop names) (hw : Watching P options a (.block tag body)) :
    Emits P (block .plain tag body (statements options body)) s
      fun code ds _ s' => BlockRan options s body code ds s' := by
  obtain ⟨_, _, ⟨⟩, h⟩ := h
  exact emits_plainBlock hin hw fun hin => h hin hwf (fun st hst => slotted_of_layout hst rfl) hw

theorem slotted_of_kind {st : Stmt} {scopes : ScopeStack} (h : st.kind ≠ .declaration) :
    Slotted st scopes := by
  intro d hd
  cases st with
  | declaration => exact absurd rfl h
  | _ => cases hd

theorem StmtCode.behindElse {pool : List String} {f : RegisterFile} {scopes : ScopeStack} {st : Stmt}
    {n n' : Nat} {code : List Instr} {ls : List Spot}
    (h : StmtCode options pool f scopes st n code n' ls) (hkind : st.kind = .branch) :
    ElseCode options pool f scopes st n code n' ls := by
  cases h with
  | branch hskip hthen => exact .branch (.branch hskip hthen)
  | branchElse hskip hthen helse => exact .branch (.branchElse hskip hthen helse)
  | _ => cases hkind

mutual

/-- Code for a well-formed statement of a procedure. -/
theorem emits_statement : ∀ (st : Stmt) {names : List NameScope} {inLoop : Bool} {s : State},
    Inside a names inLoop s → st.WellFormed inLoop names → Slotted st s.scopes → Watching P options a st →
    Emits P (statement options st) s fun code ds _ s' => Ran options s st code ds s'
  | .block tag body, names, inLoop, s, h, hwf, _, hw => by
    have hbody : RunsBody P options a (.block tag body) :=
      ⟨tag, body, rfl, fun hin hwf hslot hw => emits_statements body hin hwf.2 hslot
        fun st hst => hw.part hst⟩
    rw [statement]
    refine emits_statementNode h hwf hw (by rw [statement]) rfl rfl (emits_bind.mpr (emits_comment.mpr ?_))
    refine (hbody.plain h hwf hw).mono fun code ds _ s' h' => ?_
    refine ⟨h'.1, h'.2.1.trans (scopesAfter_eq (by simp [Stmt.kind])).symm, fun pool hpool => ?_⟩
    obtain ⟨c, ls, hds, hc, rfl⟩ := h'.2.2 pool hpool
    exact ⟨_, by simpa using hds, .block hc⟩
  | .procedure tag signature body, names, inLoop, s, h, hwf, _, hw => by
    obtain ⟨hext, rfl⟩ := hwf
    rw [statement]
    exact emits_statementNode h ⟨hext, rfl⟩ hw (by rw [statement]) rfl rfl ((does_external h hext).emits_ran rfl)
  | .call tag name args, names, inLoop, s, h, hwf, _, hw => by
    rw [statement]
    exact emits_statementNode h hwf hw (by rw [statement]) rfl rfl (emits_callStatement h hwf.1 hwf.2)
  | .declaration tag name type init, names, inLoop, s, h, hwf, hslot, hw => by
    rw [statement]
    exact emits_statementNode h hwf hw (by rw [statement]) rfl rfl ((does_declaration h hslot hwf.2.2).emits_ran rfl)
  | .assignment tag name value, names, inLoop, s, h, hwf, _, hw => by
    rw [statement]
    exact emits_statementNode h hwf hw (by rw [statement]) rfl rfl ((does_assignment h hwf.1 hwf.2).emits_ran rfl)
  | .branch tag condition thenBranch none, names, inLoop, s, h, hwf, _, hw => by
    obtain ⟨hcond, hkind, hthen⟩ := hwf
    have hw₁ : Watching P options a thenBranch := hw.part List.mem_cons_self
    have hbody := runsBody thenBranch hkind hthen
    obtain ⟨thenTag, thenBody, rfl, -⟩ := id hbody
    rw [statement, blockOf]
    exact emits_statementNode h ⟨hcond, hkind, hthen⟩ hw (by rw [statement, blockOf]) rfl rfl
      (emits_branch h hcond fun t ht => hbody.plain ht hthen hw₁)
  | .branch tag condition thenBranch (some elseBranch), names, inLoop, s, h, hwf, _, hw => by
    obtain ⟨hcond, ⟨hkind, hthen⟩, hkind', helse⟩ := hwf
    have hw₁ : Watching P options a thenBranch := hw.part List.mem_cons_self
    have hw₂ : Watching P options a elseBranch := hw.part (List.mem_cons_of_mem _ List.mem_cons_self)
    have hbody := runsBody thenBranch hkind hthen
    obtain ⟨thenTag, thenBody, rfl, -⟩ := id hbody
    rcases hkind' with hblock | hbranch
    · have hbody' := runsBody elseBranch hblock helse
      obtain ⟨elseTag, elseBody, rfl, -⟩ := id hbody'
      rw [statement, blockOf]
      refine emits_statementNode h ⟨hcond, ⟨hkind, hthen⟩, .inl rfl, helse⟩ hw
        (by rw [statement, blockOf]) rfl rfl (emits_branchElse h hcond (fun t ht => hbody.plain ht hthen hw₁) fun t ht => ?_)
      refine (hbody'.plain ht helse hw₂).mono fun code ds _ t' h' =>
        ⟨h'.1, h'.2.1, fun pool hpool => ?_⟩
      obtain ⟨c, ls, hds, hc, rfl⟩ := h'.2.2 pool hpool
      exact ⟨_, by simpa using hds, .block hc⟩
    · have hst := fun {t : State} => @emits_statement elseBranch names inLoop t
      have heq : statement options (.branch tag condition (.block thenTag thenBody) (some elseBranch)) =
          statementNode tag .branch (branch options condition
            (block .plain thenTag thenBody (statements options thenBody))
            (some (statement options elseBranch))) := by
        rw [statement, blockOf]
        rintro tag body rfl
        cases hbranch
      rw [heq]
      refine emits_statementNode h ⟨hcond, ⟨hkind, hthen⟩, .inr hbranch, helse⟩ hw heq rfl rfl
        (emits_branchElse h hcond (fun t ht => hbody.plain ht hthen hw₁) fun t ht => ?_)
      refine (hst ht helse (slotted_of_kind (by simp [hbranch])) hw₂).mono fun code ds _ t' h' => ?_
      exact ⟨h'.1, h'.2.1.trans (scopesAfter_eq (by simp [hbranch])),
        fun pool hpool => (h'.2.2 pool hpool).imp fun _ hls => ⟨hls.1, hls.2.behindElse hbranch⟩⟩
  | .loop tag condition body, names, inLoop, s, h, hwf, _, hw => by
    obtain ⟨hcond, hkind, hbody⟩ := hwf
    have hw₁ : Watching P options a body := hw.part List.mem_cons_self
    obtain ⟨bodyTag, stmts, rfl, hrun⟩ := runsBody body hkind hbody
    rw [statement]
    exact emits_statementNode h ⟨hcond, hkind, hbody⟩ hw (by rw [statement]) rfl rfl
      (emits_loop h hcond hw₁ fun t start behind hin =>
        hrun hin hbody (fun st hst => slotted_of_layout hst rfl) hw₁)
  | .continueLoop tag, names, inLoop, s, h, hwf, _, hw => by
    rw [statement]
    refine emits_statementNode h hwf hw (by rw [statement]) rfl rfl (Does.emits_ran (does_jump hwf h.exits fun crossed target ht => ?_) rfl)
    exact ⟨Passed.refl, (scopesAfter_eq (by simp [Stmt.kind])).symm, fun pool _ =>
      ⟨_, depthsOf_jumpSpots, .continueLoop ht⟩⟩
  | .breakLoop tag, names, inLoop, s, h, hwf, _, hw => by
    rw [statement]
    refine emits_statementNode h hwf hw (by rw [statement]) rfl rfl (Does.emits_ran (does_jump hwf h.exits fun crossed target ht => ?_) rfl)
    exact ⟨Passed.refl, (scopesAfter_eq (by simp [Stmt.kind])).symm, fun pool _ =>
      ⟨_, depthsOf_jumpSpots, .breakLoop ht⟩⟩
  | .giveBack tag value, names, inLoop, s, h, hwf, _, hw => by
    rw [statement]
    exact emits_statementNode h hwf hw (by rw [statement]) rfl rfl ((does_giveBack h hwf).emits_ran rfl)
  | .expression e, _, _, _, _, hwf, _, _ => hwf.elim

theorem runsBody : ∀ (st : Stmt) {names : List NameScope} {inLoop : Bool}, st.kind = .block →
    st.WellFormed inLoop names → RunsBody P options a st
  | .block tag body, _, _, _, _ =>
    ⟨tag, body, rfl, fun hin hwf hslot hw => emits_statements body hin hwf.2 hslot
      fun _ hst => hw.part hst⟩
  | .expression _, _, _, _, hwf => hwf.elim

/-- Code for well-formed statements of a procedure, one after another. -/
theorem emits_statements : ∀ (body : List Stmt) {names : List NameScope} {inLoop : Bool} {s : State},
    Inside a names inLoop s → Stmt.AllWellFormed inLoop names body →
    (∀ st ∈ body, Slotted st s.scopes) → (∀ st ∈ body, Watching P options a st) →
    Emits P (statements options body) s fun code ds _ s' => RanAll options s body code ds s'
  | [], _, _, _, _, _, _, _ => by
    rw [statements]
    exact emits_return.mpr ⟨Passed.refl, rfl, fun pool _ => ⟨[], rfl, .nil⟩⟩
  | st :: rest, names, inLoop, s, h, hwf, hslot, hw => by
    obtain ⟨hst, hrest⟩ := hwf
    have hslotRest : ∀ st' ∈ rest, Slotted st' (scopesAfter st s.scopes) := fun st' hst' =>
      slotted_after (hslot st' (List.mem_cons_of_mem _ hst'))
    rw [statements]
    refine emits_bind.mpr ((emits_statement st h hst (hslot st List.mem_cons_self)
      (hw st List.mem_cons_self)).mono fun c₁ ds₁ _ s₁ h₁ => ?_)
    obtain ⟨hp₁, hscopes₁, hcode₁⟩ := h₁
    have hin₁ := h.after hst hp₁ hscopes₁
    simp only [emits_bind, emits_checkRegisters hin₁.params.lawful, List.nil_append]
    refine (emits_statements rest hin₁ hrest (hscopes₁ ▸ hslotRest)
      fun st' hst' => hw st' (List.mem_cons_of_mem _ hst')).mono fun c₂ ds₂ _ s₂ h₂ => ?_
    obtain ⟨hp₂, hscopes₂, hcode₂⟩ := h₂
    refine ⟨hp₁.trans hp₂, ?_, fun pool hpool => ?_⟩
    · rw [hscopes₂, hscopes₁, drop_scopesAfter]
    · obtain ⟨ls₁, rfl, hfirst⟩ := hcode₁ pool (hp₂.constants.trans hpool)
      obtain ⟨ls₂, rfl, hrest⟩ := hcode₂ pool hpool
      rw [hp₁.registers, hscopes₁] at hrest
      exact ⟨ls₁ ++ ls₂, depthsOf_append, .cons hfirst hrest⟩

end

end Induction

end Generation

end ProcLang

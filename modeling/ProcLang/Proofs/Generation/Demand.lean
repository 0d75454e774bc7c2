import ProcLang.Proofs.Generation.Expression

/-!
The registers that an expression needs.  `Expr.demand` counts how many registers must be free for the
code of an expression: a value that is kept while another is computed adds to the need of the other.
Code generation succeeds exactly if so many registers are free, whichever they are and whatever the
others hold; there is no other way for it to fail on an expression whose names are visible and whose
literals fit.
-/

namespace ProcLang

/-! ### Free registers -/

namespace RegisterFile

variable {f : RegisterFile} {r : Register} {slot : Slot}

/-- The free registers, in file order. -/
def freeRegisters (f : RegisterFile) : List Register := Register.allocatable.filter f.isFree

/-- The number of free registers. -/
def freeCount (f : RegisterFile) : Nat := f.freeRegisters.length

theorem mem_freeRegisters : r ∈ f.freeRegisters ↔ f.isFree r = true := by
  simp only [freeRegisters, List.mem_filter, and_iff_right_iff_imp]
  intro hr
  exact (isFree_iff.mp hr).1

theorem freeCount_pos (hr : f.isFree r = true) : 0 < f.freeCount :=
  List.length_pos_of_mem (mem_freeRegisters.mpr hr)

theorem freeRegisters_place : (f.place r slot).freeRegisters = f.freeRegisters.erase r := by
  have hnodup : f.freeRegisters.Nodup := List.Nodup.sublist List.filter_sublist (by decide)
  rw [hnodup.erase_eq_filter, freeRegisters, freeRegisters, List.filter_filter]
  refine List.filter_congr fun q _ => ?_
  rw [Bool.eq_iff_iff, isFree_place]
  simp [and_comm]

theorem freeCount_place (hr : f.isFree r = true) : (f.place r slot).freeCount + 1 = f.freeCount := by
  have hpos := freeCount_pos hr
  unfold freeCount at *
  rw [freeRegisters_place, List.length_erase_of_mem (mem_freeRegisters.mpr hr)]
  omega

theorem freeCount_of_firstFreeExcept? (h : f.firstFreeExcept? [] = none) : f.freeCount = 0 := by
  rw [freeCount, List.length_eq_zero_iff, freeRegisters, List.filter_eq_nil_iff]
  intro q hq
  simpa using List.find?_eq_none.mp h q hq

end RegisterFile

/-! ### What an expression needs -/

/-- The variable lives in the frame of a block around the innermost one. -/
def Variable.isOutside (scopes : ScopeStack) (v : Variable) : Bool :=
  match v.storage with
  | .stack _ => v.stackHeight < scopes.stackHeight
  | .register _ => false

/-- The variables of a scope have its height, and a scope is higher than those around it. -/
structure ScopeStack.Layered (scopes : ScopeStack) : Prop where
  height : ∀ scope ∈ scopes, ∀ name v, scope.vars.get? name = some v → v.stackHeight = scope.stackHeight
  nested : scopes.Pairwise fun inner outer => outer.stackHeight < inner.stackHeight

/-- In layered scopes the variables outside are those on the stack that the innermost scope does not
declare. -/
theorem Variable.isOutside_iff {scope : Scope} {outer : ScopeStack} {name : String} {v : Variable}
    (h : ScopeStack.Layered (scope :: outer))
    (hv : ScopeStack.findVariable? (scope :: outer) name = some v) :
    v.isOutside (scope :: outer) = true ↔
      (∃ offset, v.storage = .stack offset) ∧ scope.vars.get? name = none := by
  have hlt : v.stackHeight < scope.stackHeight ↔ scope.vars.get? name = none := by
    rw [ScopeStack.findVariable?, List.findSome?_cons] at hv
    cases hget : scope.vars.get? name with
    | some w =>
      rw [hget] at hv
      obtain rfl := Option.some.inj hv
      have hheight := h.height scope List.mem_cons_self name w hget
      simp [hheight]
    | none =>
      rw [hget] at hv
      obtain ⟨declaring, hmem, hfound⟩ := List.exists_of_findSome?_eq_some hv
      have hheight := h.height declaring (List.mem_cons_of_mem _ hmem) name v hfound
      have hbelow := (List.pairwise_cons.mp h.nested).1 declaring hmem
      simp only [iff_true]
      omega
  unfold isOutside
  cases v.storage with
  | stack offset =>
    rw [decide_eq_true_iff]
    simpa [ScopeStack.stackHeight] using hlt
  | register l => simp

namespace Expr

/-- The number of registers that must be free for the code of an expression. -/
def demand (scopes : ScopeStack) : Expr → Nat
  | literal .. => 1
  | var _ name => if (scopes.findVariable? name).any (·.isOutside scopes) then 2 else 1
  | unary _ _ e => max (e.demand scopes) 2
  | binary _ (.arith _) l r => max (l.demand scopes) (2 + r.demand scopes)
  | binary _ (.compare _) l r => max (l.demand scopes) (2 + r.demand scopes)
  | binary _ (.logic _) l r => max (l.demand scopes) (1 + r.demand scopes)
  | misplaced .. => 0

/-- The operands are expressions, and their variables can be found. -/
def Visible (scopes : ScopeStack) : Expr → Prop
  | literal .. => True
  | var _ name => (scopes.findVariable? name).isSome = true
  | unary _ _ e => e.Visible scopes
  | binary _ _ l r => l.Visible scopes ∧ r.Visible scopes
  | misplaced .. => False

/-- No literal that is meant for a byte is too large for it. -/
def Fits : DataType → Expr → Prop
  | context, literal _ (.integer value) => context.literalLimit?.any (· < value) = false
  | context, unary _ op e => e.Fits (op.operandContext context)
  | _, binary _ _ l r => l.Fits .int ∧ r.Fits .int
  | _, literal _ (.string _) => True
  | _, var .. => True
  | _, misplaced .. => True

/-- The variables that can be found are on the stack, or in registers of the file. -/
def Held (scopes : ScopeStack) (f : RegisterFile) : Expr → Prop
  | var _ name => ∀ v, scopes.findVariable? name = some v → Generation.Reachable f v
  | unary _ _ e => e.Held scopes f
  | binary _ _ l r => l.Held scopes f ∧ r.Held scopes f
  | literal .. | misplaced .. => True

instance decidableVisible (scopes : ScopeStack) : ∀ e : Expr, Decidable (e.Visible scopes)
  | literal .. => .isTrue trivial
  | var _ name => inferInstanceAs (Decidable ((scopes.findVariable? name).isSome = true))
  | unary _ _ e => decidableVisible scopes e
  | binary _ _ l r => @instDecidableAnd _ _ (decidableVisible scopes l) (decidableVisible scopes r)
  | misplaced .. => .isFalse id

instance decidableFits : ∀ (context : DataType) (e : Expr), Decidable (e.Fits context)
  | context, literal _ (.integer value) =>
    inferInstanceAs (Decidable (context.literalLimit?.any (· < value) = false))
  | context, unary _ op e => decidableFits (op.operandContext context) e
  | _, binary _ _ l r => @instDecidableAnd _ _ (decidableFits .int l) (decidableFits .int r)
  | _, literal _ (.string _) => .isTrue trivial
  | _, var .. => .isTrue trivial
  | _, misplaced .. => .isTrue trivial

theorem demand_pos {scopes : ScopeStack} {e : Expr} (h : e.Visible scopes) : 0 < e.demand scopes := by
  cases e with
  | literal => exact Nat.one_pos
  | var tag name =>
    rw [demand]
    split <;> omega
  | unary tag op e =>
    rw [demand]
    omega
  | binary tag op l r =>
    cases op <;> rw [demand] <;> omega
  | misplaced => exact h.elim

theorem Held.of_forall {scopes : ScopeStack} {f : RegisterFile} {e : Expr}
    (h : ∀ name v, scopes.findVariable? name = some v → Generation.Reachable f v) : e.Held scopes f := by
  induction e with
  | literal => exact trivial
  | misplaced => exact trivial
  | var tag name => exact h name
  | unary tag op e ih => exact ih
  | binary tag op l r ihl ihr => exact ⟨ihl, ihr⟩

theorem Held.mono {scopes : ScopeStack} {f g : RegisterFile} {e : Expr} (h : e.Held scopes f)
    (hg : ∀ {l r}, f.registerOf? l = some r → g.registerOf? l = some r) : e.Held scopes g := by
  induction e with
  | literal => exact trivial
  | misplaced => exact trivial
  | var tag name =>
    intro v hv l hl
    obtain ⟨r, hr⟩ := Option.isSome_iff_exists.mp (h v hv l hl)
    rw [hg hr]
    rfl
  | unary tag op e ih => exact ih h
  | binary tag op l r ihl ihr => exact ⟨ihl h.1, ihr h.2⟩

end Expr

namespace Generation

open Stage (Ensures)

/-! ### Parts that may fail -/

/-- The part ends as `Q` says, or with an error in `E`. -/
abbrev Tries {α : Type} (E : CompileError → Prop) (x : Gen α) (s : State) (Q : α → State → Prop) : Prop :=
  Ensures (fun _ _ => True) E x s Q

section Rules

variable {α β : Type} {E E' : CompileError → Prop} {s : State} {x : Gen α} {f : α → Gen β}
  {Q Q' : α → State → Prop}

theorem Tries.mono (h : Tries E x s Q) (hE : ∀ err, E err → E' err) (hQ : ∀ a s', Q a s' → Q' a s') :
    Tries E' x s Q' :=
  (Ensures.mono h hQ).weaken (fun _ _ => id) hE

theorem tries_bind {R : β → State → Prop} :
    Tries E (x >>= f) s R ↔ Tries E x s fun a s' => Tries E (f a) s' R :=
  Stage.ensures_bind

theorem tries_return {a : α} : Tries E (pure a : Gen α) s Q ↔ Q a s := Stage.ensures_return

/-- The rule of a part that cannot fail and has a rule for its code. -/
theorem tries_of_rule {c : List Instr} {a : α} {s' : State}
    (h : ∀ Q, Does (fun _ _ _ _ => True) x s Q ↔ Q c a s') : Tries E x s Q ↔ Q a s' := by
  have hgives := (h fun _ b t => b = a ∧ t = s').mpr ⟨rfl, rfl⟩
  have hfails := fun hno => (h fun _ _ _ => False).mp hno
  unfold Does Ensures at hgives hfails
  unfold Tries Ensures
  cases hresult : (x s).result with
  | error e =>
    rw [hresult] at hgives hfails
    exact (hfails hgives).elim
  | ok b =>
    rw [hresult] at hgives
    obtain ⟨-, rfl, hstate⟩ := hgives
    simp [hstate]

/-- A part that cannot fail, and the rest behind it. -/
theorem tries_step {c : List Instr} {a : α} {s' : State} {R : β → State → Prop}
    (h : ∀ Q, Does (fun _ _ _ _ => True) x s Q ↔ Q c a s') (hf : Tries E (f a) s' R) :
    Tries E (x >>= f) s R :=
  tries_bind.mpr ((tries_of_rule h).mpr hf)

end Rules

section Steps

variable {α : Type} {E : CompileError → Prop} {s s' : State} {l : Location} {r : Register}

theorem Computed.freeCount (h : Computed s l r s') :
    s'.registers.freeCount + 1 = s.registers.freeCount := by
  rw [h.placed]
  exact RegisterFile.freeCount_place h.free

/-- The handle just given out gets a register if one is free. -/
theorem tries_freshRegister {Q : Register → State → Prop} (h : Settled s)
    (hE : s.registers.freeCount = 0 → E (.resource .noRegister))
    (hQ : ∀ r, s.registers.isFree r = true → Q r (s.withValue r)) :
    Tries E (registerFor ⟨s.nextLocation⟩) s.issue Q := by
  have hnew : s.issue.registers.index.get? ⟨s.nextLocation⟩ = none := h.index_eq_none (Nat.le_refl _)
  simp only [Tries, registerFor, Stage.ensures_bind, Stage.ensures_get,
    RegisterFile.allocate_of_new hnew]
  cases hr : s.issue.registers.firstFreeExcept? [] with
  | none => exact Stage.ensures_fail.mpr (hE (RegisterFile.freeCount_of_firstFreeExcept? hr))
  | some r =>
    have hfree : s.registers.isFree r = true := (RegisterFile.isFree_of_firstFreeExcept? hr).1
    simp only [orLack, setRegisters, registerEvent, notify, Stage.ensures_modify, Stage.ensures_mark,
      Stage.ensures_bind, Stage.ensures_return, if_true, true_and]
    exact hQ r hfree

theorem tries_copyOf {Q : Location × Register → State → Prop} (h : Settled s)
    (hl : s.registers.registerOf? l = some r)
    (hE : s.registers.freeCount = 0 → E (.resource .noRegister))
    (hQ : ∀ dst, s.registers.isFree dst = true → Q (⟨s.nextLocation⟩, dst) (s.withValue dst)) :
    Tries E (copyOf l) s Q := by
  refine tries_step (fun _ => does_registerOf hl) ?_
  refine tries_step (fun _ => does_freshLocation) ?_
  refine tries_bind.mpr (tries_freshRegister h hE fun dst hdst => ?_)
  refine tries_step (fun _ => does_copy) ?_
  exact tries_return.mpr (hQ dst hdst)

/-! ### Variables -/

section Variables

variable {v : Variable} {offset : Int}

/-- The memory of a variable is an operand, unless its frame takes a register and none is free. -/
theorem tries_addressOf {Q : Operand × Option Location → State → Prop} (h : Settled s)
    (hE : v.stackHeight < s.scopes.stackHeight → s.registers.freeCount = 0 → E (.resource .noRegister))
    (hQ : (v.stackHeight < s.scopes.stackHeight → 0 < s.registers.freeCount) →
      ∀ operand frame t, Opened s frame t → Q (operand, frame) t) :
    Tries E (addressOf v offset) s Q := by
  refine tries_step (fun _ => does_get) ?_
  cases hk : s.scopes.stackHeight - v.stackHeight with
  | zero =>
    have hhere : ¬ v.stackHeight < s.scopes.stackHeight := by omega
    exact tries_return.mpr (hQ (fun hlt => absurd hlt hhere) _ none s rfl)
  | succ further =>
    have hlt : v.stackHeight < s.scopes.stackHeight := by omega
    refine tries_step (fun _ => does_freshLocation) ?_
    refine tries_bind.mpr (tries_freshRegister h (hE hlt) fun r hr => ?_)
    refine tries_step (fun _ => does_emit) ?_
    refine tries_step (fun _ => does_hop further) ?_
    apply tries_return.mpr
    exact hQ (fun _ => RegisterFile.freeCount_pos hr) _ _ _ ⟨rfl, r, hr, rfl⟩

theorem tries_releaseIf {frame : Option Location} {t : State} {Q : Unit → State → Prop}
    (h : Settled s) (ht : Opened s frame t)
    (hQ : ∀ s', Later s s' → s'.registers = s.registers → Q () s') :
    Tries E (releaseIf frame) t Q := by
  cases frame with
  | none =>
    obtain rfl := ht
    exact tries_return.mpr (hQ t (Later.refl t) rfl)
  | some l =>
    obtain ⟨rfl, r, hr, rfl⟩ := ht
    refine (tries_of_rule fun _ => does_release).mpr (hQ _ ?_ ?_)
    · exact (computed_withValue hr).toLater.trans later_withRegisters
    · exact (computed_withValue hr).release h

/-- A variable can be loaded, unless it is in no register, or its frame takes a register and none is
free. -/
theorem tries_loadVariable {Q : Unit → State → Prop} (h : Settled s)
    (hlost : ∀ err, ¬ Reachable s.registers v → E err)
    (hE : v.isOutside s.scopes = true → s.registers.freeCount = 0 → E (.resource .noRegister))
    (hQ : (v.isOutside s.scopes = true → 0 < s.registers.freeCount) →
      ∀ s', Later s s' → s'.registers = s.registers → Q () s') :
    Tries E (loadVariable v r) s Q := by
  unfold loadVariable
  unfold Variable.isOutside at hE hQ
  cases hst : v.storage with
  | register l =>
    rw [hst] at hQ
    cases hsrc : s.registers.registerOf? l with
    | none =>
      simp only [Tries, registerOf, Stage.ensures_bind, Stage.ensures_get, hsrc,
        Stage.ensures_ofOption_none]
      refine hlost _ fun hv => ?_
      have hsome := hv l hst
      rw [hsrc] at hsome
      cases hsome
    | some src =>
      refine tries_step (fun _ => does_registerOf hsrc) ((tries_of_rule fun _ => does_copy).mpr ?_)
      exact hQ (fun h => by cases h) s (Later.refl s) rfl
  | stack offset =>
    simp only [hst, decide_eq_true_eq] at hE hQ
    refine tries_bind.mpr (tries_addressOf h hE fun hpos operand frame t ht => ?_)
    have hend : Tries E (releaseIf frame) t Q := tries_releaseIf h ht (hQ hpos)
    cases v.type with
    | u8 | s8 | int | void => exact tries_step (fun _ => does_emit) hend

end Variables

end Steps

/-! ### Expressions -/

/-- There can be code for the expression: its names are visible, their values can be reached, and its
literals fit. -/
structure Proper (e : Expr) (context : DataType) (s : State) : Prop where
  visible : e.Visible s.scopes
  fits : e.Fits context
  held : e.Held s.scopes s.registers

/-- An error that says that registers are lacking, or that the expression is not proper. -/
def Refused (e : Expr) (context : DataType) (s : State) (err : CompileError) : Prop :=
  Proper e context s → err = .resource .noRegister ∧ s.registers.freeCount < e.demand s.scopes

/-- The value of an expression was computed, with as many free registers as it needs. -/
structure Found (e : Expr) (context : DataType) (s : State) (p : Location × DataType) (s' : State) :
    Prop where
  visible : e.Visible s.scopes
  fits : e.Fits context
  enough : e.demand s.scopes ≤ s.registers.freeCount
  computed : ∃ r, Computed s p.1 r s'

/-- Code for the expression is generated, or refused for a reason. -/
abbrev Decides (e : Expr) (context : DataType) (s : State) : Prop :=
  Tries (Refused e context s) (expression e context) s (Found e context s)

section Expressions

variable {s s' : State} {tag : Tag} {context : DataType} {e lhs rhs : Expr}

/-- What an error says of a part it says of the whole. -/
theorem Refused.outer {part : Expr} {context' : DataType} {err : CompileError}
    (h : Refused part context' s' err)
    (hproper : Proper e context s → Proper part context' s')
    (hdemand : s'.registers.freeCount < part.demand s'.scopes →
      s.registers.freeCount < e.demand s.scopes) :
    Refused e context s err := by
  intro hp
  obtain ⟨herr, hlt⟩ := h (hproper hp)
  exact ⟨herr, hdemand hlt⟩

/-- A part that was proper at first is proper behind another value. -/
theorem Proper.behind {l : Location} {r : Register} (h : Proper e context s) (hs : Settled s)
    (hc : Computed s l r s') : Proper e context s' where
  visible := by
    rw [hc.scopes]
    exact h.visible
  fits := h.fits
  held := by
    rw [hc.scopes]
    exact h.held.mono fun hl => hc.registerOf? hs hl

theorem tries_expressionNode {E : CompileError → Prop} {kind : NodeKind} {work : Location → Gen DataType}
    {Q : Location × DataType → State → Prop}
    (hQ : ∀ {p s' id a}, Q p s' → Q p { s' with annotations := s'.annotations.insert id a })
    (hwork : Tries E (work ⟨s.nextLocation⟩) s.issue fun type s' => Q (⟨s.nextLocation⟩, type) s') :
    Tries E (expressionNode tag kind work) s Q := by
  have hevent : ∀ {happening : Happening} {t : State} {R : Unit → State → Prop}, R () t →
      Tries E (nodeEvent happening tag kind) t R :=
    fun hR => Stage.ensures_mark.mpr ⟨trivial, hR⟩
  refine tries_bind.mpr (hevent (tries_step (fun _ => does_freshLocation) ?_))
  refine tries_bind.mpr (hwork.mono (fun _ => id) fun type s' h => ?_)
  refine tries_step (fun _ => does_annotate) ?_
  exact tries_bind.mpr (hevent (tries_return.mpr (hQ h)))

theorem Found.annotated {p : Location × DataType} {id : NodeId} {a : Annotation}
    (h : Found e context s p s') :
    Found e context s p { s' with annotations := s'.annotations.insert id a } := by
  obtain ⟨r, hc⟩ := h.computed
  exact ⟨h.visible, h.fits, h.enough, r, hc.annotated⟩

theorem decides_integerLiteral {value : UInt64} (h : Settled s) :
    Decides (.literal tag (.integer value)) context s := by
  refine tries_expressionNode Found.annotated ?_
  unfold integerLiteral
  cases hfits : context.literalLimit?.any (· < value) with
  | true =>
    refine Stage.ensures_fail.mpr fun hproper => ?_
    have hno : context.literalLimit?.any (· < value) = false := hproper.fits
    rw [hfits] at hno
    cases hno
  | false =>
    refine tries_bind.mpr (tries_freshRegister h (fun h0 _ => ⟨rfl, Nat.lt_one_iff.mpr h0⟩) fun r hr => ?_)
    have hend : ∀ type, Found (.literal tag (.integer value)) context s (⟨s.nextLocation⟩, type)
        (s.withValue r) := fun _ =>
      ⟨trivial, hfits, RegisterFile.freeCount_pos hr, r, computed_withValue hr⟩
    split
    · refine tries_step (fun _ => does_emit) (tries_step (fun _ => does_extend) ?_)
      exact tries_return.mpr (hend _)
    · exact tries_step (fun _ => does_emit) (tries_return.mpr (hend _))

theorem decides_stringLiteral {raw : String} (h : Settled s) :
    Decides (.literal tag (.string raw)) context s := by
  obtain ⟨_, -, -, hprefix⟩ := intern_label s.constants raw
  let t : State := { s with constants := (s.constants.intern raw).2 }
  have hintern : ∀ Q, Does (fun _ _ _ _ => True) (internString raw) s.issue Q ↔
      Q [] (s.constants.intern raw).1 t.issue := by
    intro Q
    simp only [internString, does_bind, does_get, does_modify, does_return]
    rfl
  have ht : Settled t := h.later (Nat.le_refl _) rfl
  refine tries_expressionNode Found.annotated (tries_step hintern ?_)
  refine tries_bind.mpr (tries_freshRegister ht (fun h0 _ => ⟨rfl, Nat.lt_one_iff.mpr h0⟩) fun r hr => ?_)
  refine tries_step (fun _ => does_emit) (tries_return.mpr ?_)
  refine ⟨trivial, trivial, RegisterFile.freeCount_pos hr, r, ?_⟩
  exact ⟨⟨rfl, rfl, rfl, Nat.le_succ _, Nat.le_refl _, hprefix⟩, Nat.le_refl _, Nat.lt_succ_self _, hr, rfl⟩

theorem decides_var {name : String} (h : Settled s) : Decides (.var tag name) context s := by
  refine tries_expressionNode Found.annotated ?_
  cases hv : s.scopes.findVariable? name with
  | none =>
    have hfind : s.issue.scopes.findVariable? name = none := hv
    simp only [Tries, variableValue, lookup, Stage.ensures_bind, Stage.ensures_get, hfind, refuse,
      Stage.ensures_fail]
    intro hproper
    have hsome : (s.scopes.findVariable? name).isSome = true := hproper.visible
    rw [hv] at hsome
    cases hsome
  | some v =>
    have hlookup : ∀ Q, Does (fun _ _ _ _ => True) (lookup tag name) s.issue Q ↔ Q [] v s.issue := by
      intro Q
      have hfind : s.issue.scopes.findVariable? name = some v := hv
      simp [lookup, hfind]
    have hdemand : (Expr.var tag name).demand s.scopes = if v.isOutside s.scopes then 2 else 1 := by
      rw [Expr.demand, hv, Option.any_some]
    have hvisible : (Expr.var tag name).Visible s.scopes := by
      rw [Expr.Visible, hv]
      rfl
    refine tries_step hlookup (tries_bind.mpr (tries_freshRegister h ?_ fun r hr => ?_))
    · intro h0 _
      refine ⟨rfl, ?_⟩
      rw [hdemand]
      split <;> omega
    have hc := computed_withValue hr
    have hfree := hc.freeCount
    refine tries_bind.mpr (tries_loadVariable (hc.settled h) ?_ ?_ ?_)
    · intro err hlost hproper
      exact absurd ((hproper.behind h hc).held v hv) hlost
    · intro hout h0 _
      have hout : v.isOutside s.scopes = true := hout
      refine ⟨rfl, ?_⟩
      rw [hdemand, if_pos hout]
      omega
    · intro hpos s' hlater hregs
      refine tries_return.mpr ⟨hvisible, trivial, ?_, r, ?_⟩
      · rw [hdemand]
        split
        · next hout =>
          have := hpos hout
          omega
        · omega
      · exact ⟨hc.toLater.trans hlater, hc.issued, Nat.lt_of_lt_of_le hc.known hlater.locations, hr,
          hregs.trans hc.placed⟩

/-- The value of an operator goes by the handle of the whole in the end. -/
theorem tries_result {E : CompileError → Prop} {l : Location} {r : Register} {type : DataType}
    (h : Settled s) (hc : Computed s.issue l r s') (hvisible : e.Visible s.scopes)
    (hfits : e.Fits context) (henough : e.demand s.scopes ≤ s.registers.freeCount) :
    Tries E (do swap r l ⟨s.nextLocation⟩; return type) s' fun type s'' =>
      Found e context s (⟨s.nextLocation⟩, type) s'' := by
  refine tries_step (fun _ => does_swap (hc.swap_eq h)) ?_
  exact tries_return.mpr ⟨hvisible, hfits, henough, r, hc.renamed⟩

theorem decides_unary {op : UnaryOp} (h : Settled s)
    (he : ∀ s, Settled s → Decides e (op.operandContext context) s) :
    Decides (.unary tag op e) context s := by
  have hs : Settled s.issue := h.later (Nat.le_succ _) rfl
  have hdemand : (Expr.unary tag op e).demand s.scopes = max (e.demand s.scopes) 2 := rfl
  refine tries_expressionNode Found.annotated (tries_bind.mpr ((he _ hs).mono (fun err herr => ?_)
    fun p s₁ h₁ => ?_))
  · refine herr.outer (fun hp => ⟨hp.visible, hp.fits, hp.held⟩) fun hlt => ?_
    exact Nat.lt_of_lt_of_le hlt (Nat.le_max_left _ _)
  obtain ⟨r, hc₁⟩ := h₁.computed
  have henough : e.demand s.scopes ≤ s.registers.freeCount := h₁.enough
  have hfree : s₁.registers.freeCount + 1 = s.registers.freeCount := hc₁.freeCount
  refine tries_bind.mpr (tries_copyOf (hc₁.settled hs) hc₁.register ?_ fun dst hdst => ?_)
  · intro h0 _
    exact ⟨rfl, by omega⟩
  have hpos := RegisterFile.freeCount_pos hdst
  refine tries_step (fun _ => does_applyUnary) (tries_step (fun _ => does_release) ?_)
  exact tries_result h (hc₁.drop (computed_withValue hdst) hs) h₁.visible h₁.fits (by omega)

theorem demand_eager {op : ArithOp ⊕ Comparison} {scopes : ScopeStack} :
    (Expr.binary tag (eagerOp op) lhs rhs).demand scopes =
      max (lhs.demand scopes) (2 + rhs.demand scopes) := by
  cases op <;> rfl

theorem tries_eager {op : ArithOp ⊕ Comparison} (h : Settled s)
    (hl : ∀ s, Settled s → Decides lhs .int s) (hr : ∀ s, Settled s → Decides rhs .int s) :
    Tries (Refused (.binary tag (eagerOp op) lhs rhs) context s)
      (expressionNode tag .binary (eager op (expression lhs .int) (expression rhs .int))) s
      (Found (.binary tag (eagerOp op) lhs rhs) context s) := by
  have hs : Settled s.issue := h.later (Nat.le_succ _) rfl
  have hdemand := @demand_eager tag lhs rhs op s.scopes
  refine tries_expressionNode Found.annotated (tries_bind.mpr ((hl _ hs).mono (fun err herr => ?_)
    fun p₁ s₁ h₁ => ?_))
  · refine herr.outer (fun hp => ⟨hp.visible.1, hp.fits.1, hp.held.1⟩) fun hlt => ?_
    have hlt : s.registers.freeCount < lhs.demand s.scopes := hlt
    omega
  obtain ⟨r₁, hc₁⟩ := h₁.computed
  have henough₁ : lhs.demand s.scopes ≤ s.registers.freeCount := h₁.enough
  have hfree₁ : s₁.registers.freeCount + 1 = s.registers.freeCount := hc₁.freeCount
  have hs₁ := hc₁.settled hs
  refine tries_bind.mpr (tries_copyOf hs₁ hc₁.register ?_ fun dst hdst => ?_)
  · intro h0 _
    exact ⟨rfl, by omega⟩
  have hc₂ := computed_withValue hdst
  have hfree₂ := hc₂.freeCount
  have hs₂ := hc₂.settled hs₁
  have hscopes : (s₁.withValue dst).scopes = s.scopes := hc₁.scopes
  -- two registers are taken while the right operand is computed
  refine tries_bind.mpr ((hr _ hs₂).mono (fun err herr => ?_) fun p₂ s₃ h₃ => ?_)
  · refine herr.outer (fun hp => ?_) fun hlt => ?_
    · have hright : Proper rhs .int s.issue := ⟨hp.visible.2, hp.fits.2, hp.held.2⟩
      exact (hright.behind hs hc₁).behind hs₁ hc₂
    · rw [hscopes] at hlt
      omega
  obtain ⟨r₂, hc₃⟩ := h₃.computed
  have henough₂ := h₃.enough
  rw [hscopes] at henough₂
  have hleft : p₁.1.number < (s₁.withValue dst).nextLocation :=
    Nat.lt_of_lt_of_le hc₁.known hc₂.locations
  have hdup : s₃.registers.registerOf? ⟨s₁.nextLocation⟩ = some dst :=
    hc₃.registerOf? hs₂ hc₂.register
  refine tries_step (fun _ => does_registerOf hc₃.register) ?_
  refine tries_step (fun _ => does_registerOf hdup) ?_
  refine tries_step (fun _ => does_applyEager) ?_
  refine tries_step (fun _ => does_release) (tries_step (fun _ => does_release) ?_)
  refine tries_result h ((hc₁.drop hc₂ hs).back (hc₃.drop_below hs₂ hleft) hs) ⟨h₁.visible, ?_⟩
    ⟨h₁.fits, h₃.fits⟩ (by omega)
  rw [← hscopes]
  exact h₃.visible

theorem decides_logic {op : LogicOp} (h : Settled s)
    (hl : ∀ s, Settled s → Decides lhs .int s) (hr : ∀ s, Settled s → Decides rhs .int s) :
    Decides (.binary tag (.logic op) lhs rhs) context s := by
  have h₀ : Settled s.issue.issueLabel := h.later (Nat.le_succ _) rfl
  have hdemand : (Expr.binary tag (.logic op) lhs rhs).demand s.scopes =
      max (lhs.demand s.scopes) (1 + rhs.demand s.scopes) := rfl
  refine tries_expressionNode Found.annotated (tries_step (fun _ => does_freshLabel) ?_)
  refine tries_bind.mpr ((hl _ h₀).mono (fun err herr => ?_) fun p₁ s₁ h₁ => ?_)
  · refine herr.outer (fun hp => ⟨hp.visible.1, hp.fits.1, hp.held.1⟩) fun hlt => ?_
    have hlt : s.registers.freeCount < lhs.demand s.scopes := hlt
    omega
  obtain ⟨r₁, hc₁⟩ := h₁.computed
  have henough₁ : lhs.demand s.scopes ≤ s.registers.freeCount := h₁.enough
  have hfree₁ : s₁.registers.freeCount + 1 = s.registers.freeCount := hc₁.freeCount
  have hs₁ := hc₁.settled h₀
  refine tries_step (fun _ => does_freshLocation) (tries_bind.mpr (tries_freshRegister hs₁ ?_
    fun dst hdst => ?_))
  · intro h0 hp
    have hpos := Expr.demand_pos hp.visible.2
    exact ⟨rfl, by omega⟩
  have hc₂ := computed_withValue hdst
  have hc₂' := hc₁.drop hc₂ h₀
  have hleft := hc₂.registerOf? hs₁ hc₁.register
  have hfree₂ : _ + 1 = s.registers.freeCount := hc₂'.freeCount
  refine tries_step (fun _ => does_truthOf hleft) (tries_step (fun _ => does_release) ?_)
  refine tries_step (fun _ => does_emit) (tries_step (fun _ => does_emit) ?_)
  -- only the truth of the left operand is kept while the right one is computed
  refine tries_bind.mpr ((hr _ (hc₂'.settled h₀)).mono (fun err herr => ?_) fun p₂ s₃ h₃ => ?_)
  · refine herr.outer (fun hp => ?_) fun hlt => ?_
    · have hright : Proper rhs .int s.issue.issueLabel := ⟨hp.visible.2, hp.fits.2, hp.held.2⟩
      exact hright.behind h₀ hc₂'
    · rw [hc₂'.scopes] at hlt
      have hlt : _ < rhs.demand s.scopes := hlt
      omega
  obtain ⟨r₂, hc₃⟩ := h₃.computed
  have henough₂ := h₃.enough
  have hvisible₂ := h₃.visible
  rw [hc₂'.scopes] at henough₂ hvisible₂
  have henough₂ : rhs.demand s.scopes ≤ _ := henough₂
  refine tries_step (fun _ => does_truthOf hc₃.register) (tries_step (fun _ => does_release) ?_)
  refine tries_step (fun _ => does_emit) ?_
  exact tries_result h ((hc₂'.back hc₃ h₀).of_later later_issueLabel rfl rfl) ⟨h₁.visible, hvisible₂⟩
    ⟨h₁.fits, h₃.fits⟩ (by omega)

/-- Code for an expression is generated from every settled state, or refused because the expression is
not proper or registers are lacking. -/
theorem decides_expression (e : Expr) : ∀ (context : DataType) (s : State), Settled s →
    Decides e context s := by
  induction e with
  | literal tag value =>
    intro context s h
    cases value with
    | integer value => exact decides_integerLiteral h
    | string raw => exact decides_stringLiteral h
  | var tag name =>
    intro context s h
    exact decides_var h
  | unary tag op e ih =>
    intro context s h
    exact decides_unary h (ih _)
  | binary tag op l r ihl ihr =>
    intro context s h
    cases op with
    | arith op => exact @tries_eager s tag context l r (.inl op) h (ihl .int) (ihr .int)
    | compare op => exact @tries_eager s tag context l r (.inr op) h (ihl .int) (ihr .int)
    | logic op => exact decides_logic h (ihl .int) (ihr .int)
  | misplaced tag kind =>
    intro context s h
    refine tries_expressionNode Found.annotated (Stage.ensures_fail.mpr fun hproper => ?_)
    exact hproper.visible.elim

/-- Code for an expression is generated exactly if as many registers are free as the expression needs;
if they are fewer, there is no available register.  It is not asked which registers are free, or what is
in the others.  Where scopes are layered, a variable needs a second register exactly if it is on the stack
and declared in a block around the innermost one. -/
theorem expression_succeeds_iff {e : Expr} (hs : Settled s)
    (hparameters : ∀ name v, s.scopes.findVariable? name = some v → Reachable s.registers v)
    (hvisible : e.Visible s.scopes) (hfits : e.Fits context) :
    ((∃ p, (expression e context s).result = .ok p) ↔ e.demand s.scopes ≤ s.registers.freeCount) ∧
    (s.registers.freeCount < e.demand s.scopes →
      (expression e context s).result = .error (.resource .noRegister)) ∧
    ResourceCause.noRegister.message = "no available register" ∧
    ∀ scope outer, s.scopes = scope :: outer → s.scopes.Layered →
      ∀ name v, s.scopes.findVariable? name = some v → (v.isOutside s.scopes = true ↔
        (∃ offset, v.storage = .stack offset) ∧ scope.vars.get? name = none) := by
  have hdecides := decides_expression e context s hs
  have hproper : Proper e context s := ⟨hvisible, hfits, .of_forall hparameters⟩
  refine ⟨⟨?_, fun hle => ?_⟩, fun hlt => ?_, rfl, ?_⟩
  · rintro ⟨p, hp⟩
    exact (hdecides.value hp).enough
  · cases hresult : (expression e context s).result with
    | ok p => exact ⟨p, rfl⟩
    | error err =>
      have hshort := (hdecides.error hresult hproper).2
      omega
  · cases hresult : (expression e context s).result with
    | ok p =>
      have hle := (hdecides.value hresult).enough
      omega
    | error err => rw [(hdecides.error hresult hproper).1]
  · intro scope outer hscopes hlayered name v hv
    rw [hscopes] at hlayered hv ⊢
    exact Variable.isOutside_iff hlayered hv

/-- A block inside the body of a procedure, which has a variable on the stack. -/
def innerBlock : ScopeStack :=
  [{ kind := .plain, stackHeight := 2 },
    { kind := .procedure, stackHeight := 1, vars := Table.empty.insert "x" ⟨"x", .int, .stack (-8), 1⟩ }]

theorem settled_innerBlock : Settled { scopes := innerBlock } := by
  refine ⟨RegisterFile.Lawful.empty, ?_⟩
  constructor <;> intro _ _ h <;> cases h

theorem eq_of_findVariable?_innerBlock {name : String} {v : Variable}
    (h : innerBlock.findVariable? name = some v) : name = "x" ∧ v = ⟨"x", .int, .stack (-8), 1⟩ := by
  obtain ⟨scope, hscope, hget⟩ := List.exists_of_findSome?_eq_some h
  rcases List.mem_cons.mp hscope with rfl | hscope
  · cases hget
  · obtain rfl := List.mem_singleton.mp hscope
    rw [Table.get?_insert] at hget
    split at hget
    case isTrue hname => exact ⟨hname, (Option.some.inj hget).symm⟩
    case isFalse => cases hget

/-- A number of ones that are added to an expression from the left, one after another. -/
def plusOnes (e : Expr) : Nat → Expr
  | 0 => e
  | count + 1 =>
    .binary default (.arith .add) (.literal default (.integer 1)) (plusOnes e count)

/-- Of eight free registers three ones take six, and a variable of the block around takes the other two;
for a fourth one there is no register. -/
theorem expression_succeeds_iff_innerBlock :
    (∃ p, (expression (plusOnes (.var default "x") 3) .int { scopes := innerBlock }).result = .ok p) ∧
    (expression (plusOnes (.var default "x") 4) .int { scopes := innerBlock }).result =
      .error (.resource .noRegister) := by
  have hstack : ∀ name v, innerBlock.findVariable? name = some v → Reachable {} v := by
    intro name v hv l hl
    obtain ⟨-, rfl⟩ := eq_of_findVariable?_innerBlock hv
    cases hl
  constructor
  · exact (expression_succeeds_iff settled_innerBlock hstack (by decide) (by decide)).1.mpr (by decide)
  · exact (expression_succeeds_iff settled_innerBlock hstack (by decide) (by decide)).2.1 (by decide)

end Expressions

end Generation

end ProcLang

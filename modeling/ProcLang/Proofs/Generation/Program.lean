import ProcLang.Proofs.Generation.Statement

/-!
What code generation for procedures and programs does.  Between the procedures of a program the
register file is empty; a procedure binds its parameters to the argument registers, and releases
them behind its last statement.
-/

namespace ProcLang

/-- What is reported of a procedure outside its code: the procedure and its body as a whole. -/
def Stmt.heads : Stmt → List Stmt
  | .procedure tag signature body => .procedure tag signature body :: body.toList
  | st => [st]

theorem Stmt.ProcedureWellFormed.shape {st : Stmt} {names : List NameScope}
    (h : st.ProcedureWellFormed names) : (∃ tag signature, st = .procedure tag signature none) ∨
      ∃ tag signature bodyTag body, st = .procedure tag signature (some (.block bodyTag body)) := by
  unfold Stmt.ProcedureWellFormed at h
  split at h
  · exact .inl ⟨_, _, rfl⟩
  · exact .inr ⟨_, _, _, _, rfl⟩
  · exact h.elim

namespace Generation

open RegisterFile (HoldsParameters IsParameter)

variable {P : Happening → Tag → NodeKind → State → Prop} {s s' : State}

/-! ### Parameters as variables -/

/-- Where the parameter at a place lives, with handles from `first` on. -/
def parameterStorage (first place : Nat) : Storage :=
  match parameterClass place with
  | .register _ => .register ⟨first + place⟩
  | .stack index => .stack (16 + 8 * index)

section Binding

variable {first height : Nat} {scope : Scope} {outer : ScopeStack}
  {bindings : List (String × DataType × ParameterClass)}

/-- Binding parameters changes the variables of a scope and nothing else. -/
theorem bindScope_eq (n : Nat) (scope : Scope) :
    bindScope n bindings scope = { scope with vars := (bindScope n bindings scope).vars } := by
  induction bindings generalizing n scope with
  | nil => rfl
  | cons b rest ih =>
    obtain ⟨name, type, cls⟩ := b
    cases cls with
    | register r => exact ih (n + 1) _
    | stack index => exact ih n _

theorem get?_bindScope_of_not_mem {name : String} (n : Nat) (scope : Scope)
    (h : name ∉ bindings.map Prod.fst) :
    (bindScope n bindings scope).vars.get? name = scope.vars.get? name := by
  induction bindings generalizing n scope with
  | nil => rfl
  | cons b rest ih =>
    obtain ⟨name', type, cls⟩ := b
    rw [List.map_cons, List.mem_cons, not_or] at h
    have hget : ∀ v : Variable, v.name = name' → (scope.declare v).vars.get? name =
        scope.vars.get? name := by
      rintro v rfl
      exact Table.get?_insert_of_ne _ _ h.1
    cases cls with
    | register r => exact (ih (n + 1) _ h.2).trans (hget _ rfl)
    | stack index => exact (ih n _ h.2).trans (hget _ rfl)

/-- Each of the bindings from a place on is passed as its place says. -/
def PassedFrom (place : Nat) (bindings : List (String × DataType × ParameterClass)) : Prop :=
  ∀ i b, bindings[i]? = some b → b.2.2 = parameterClass (place + i)

theorem PassedFrom.tail {place : Nat} {b : String × DataType × ParameterClass}
    (h : PassedFrom place (b :: bindings)) : PassedFrom (place + 1) bindings := by
  intro i b' hb
  rw [h (i + 1) b' (by simpa using hb)]
  congr 1
  omega

/-- The handle of the parameter at a place, if it has one. -/
def nextHandle (first place : Nat) : Nat := first + min place Register.arguments.length

theorem parameterClass_register {place : Nat} {r : Register}
    (h : parameterClass place = .register r) : Register.arguments[place]? = some r := by
  unfold parameterClass at h
  cases hr : Register.arguments[place]? with
  | none => simp [hr] at h
  | some r' =>
    rw [hr] at h
    exact congrArg some (ParameterClass.register.inj h)

theorem parameterClass_stack {place index : Nat} (h : parameterClass place = .stack index) :
    Register.arguments[place]? = none := by
  unfold parameterClass at h
  cases hr : Register.arguments[place]? with
  | none => rfl
  | some r' => simp [hr] at h

theorem get?_bindScope {place : Nat} (hpass : PassedFrom place bindings)
    (hnodup : (bindings.map Prod.fst).Nodup) (scope : Scope) {i : Nat}
    {b : String × DataType × ParameterClass} (hb : bindings[i]? = some b) :
    (bindScope (nextHandle first place) bindings scope).vars.get? b.1 =
      some ⟨b.1, b.2.1, parameterStorage first (place + i), scope.stackHeight⟩ := by
  induction bindings generalizing place scope i with
  | nil => simp at hb
  | cons b' rest ih =>
    obtain ⟨name, type, cls⟩ := b'
    obtain ⟨hname, hnodup⟩ := List.nodup_cons.mp hnodup
    have hcls : cls = parameterClass place := hpass 0 (name, type, cls) rfl
    have hnext : ∀ r, parameterClass place = .register r →
        nextHandle first place = first + place ∧
          nextHandle first place + 1 = nextHandle first (place + 1) := by
      intro r hr
      obtain ⟨hlt, -⟩ := List.getElem?_eq_some_iff.mp (parameterClass_register hr)
      unfold nextHandle
      omega
    have hlast : ∀ index, parameterClass place = .stack index →
        nextHandle first place = nextHandle first (place + 1) := by
      intro index hr
      have := List.getElem?_eq_none_iff.mp (parameterClass_stack hr)
      unfold nextHandle
      omega
    cases i with
    | zero =>
      obtain rfl := Option.some.inj hb
      rw [Nat.add_zero, parameterStorage, ← hcls]
      cases hc : cls with
      | register r =>
        rw [hc] at hcls
        rw [bindScope, (hnext r hcls.symm).1]
        exact (get?_bindScope_of_not_mem _ _ hname).trans (Table.get?_insert_self ..)
      | stack index =>
        rw [bindScope]
        exact (get?_bindScope_of_not_mem _ _ hname).trans (Table.get?_insert_self ..)
    | succ i =>
      have hplace : place + (i + 1) = place + 1 + i := by omega
      rw [hplace]
      have hb : rest[i]? = some b := by simpa using hb
      cases hc : cls with
      | register r =>
        rw [hc] at hcls
        rw [bindScope, (hnext r hcls.symm).2]
        exact ih hpass.tail hnodup _ hb
      | stack index =>
        rw [hc] at hcls
        rw [bindScope, hlast index hcls.symm]
        exact ih hpass.tail hnodup _ hb

/-- Parameters were bound: those with registers are claimed, and the innermost scope knows all. -/
structure ParametersBound (s : State) (first place : Nat)
    (bindings : List (String × DataType × ParameterClass)) (scope : Scope) (outer : ScopeStack)
    (ls : List Location) (s' : State) : Prop where
  params : s'.registers.HoldsParameters first (place + bindings.length)
  below : s'.registers.Below s'.nextLocation
  scopes : s'.scopes = bindScope s.nextLocation bindings scope :: outer
  covered : ∀ l r, IsParameter first (place + bindings.length) l r →
    IsParameter first place l r ∨ l ∈ ls
  stackDepth : s'.stackDepth = s.stackDepth
  nextLabel : s'.nextLabel = s.nextLabel
  constants : s'.constants = s.constants
  locations : s.nextLocation ≤ s'.nextLocation

theorem does_bindParameters : ∀ (bindings : List (String × DataType × ParameterClass)) (place : Nat)
    {s : State} {scope : Scope}, PassedFrom place bindings →
      s.registers.HoldsParameters first place → s.registers.Below s.nextLocation →
      s.nextLocation = nextHandle first place → s.scopes = scope :: outer →
      Does P (bindParameters scope.stackHeight bindings) s fun code ls s' =>
        code = [] ∧ ParametersBound s first place bindings scope outer ls s'
  | [], place, s, scope, _, hpar, hbelow, _, hs => does_return.mpr
    ⟨rfl, hpar, hbelow, hs, fun _ _ h => .inl h, rfl, rfl, rfl, Nat.le_refl _⟩
  | (name, type, cls) :: rest, place, s, scope, hpass, hpar, hbelow, hnext, hs => by
    have hlen : place + 1 + rest.length = place + ((name, type, cls) :: rest).length := by
      rw [List.length_cons]
      omega
    obtain rfl : cls = parameterClass place := hpass 0 (name, type, cls) rfl
    cases hcls : parameterClass place with
    | register r =>
      have hr := parameterClass_register hcls
      obtain ⟨hlt, -⟩ := List.getElem?_eq_some_iff.mp hr
      have hnow : s.nextLocation = first + place := by
        rw [hnext, nextHandle]
        omega
      obtain ⟨g, hclaim, hg⟩ := hpar.claim hr
      rw [← hnow] at hclaim
      have hclaim : s.issue.registers.claim r ⟨s.nextLocation⟩ true = .ok g := hclaim
      simp only [bindParameters, claimParameter, does_bind, does_freshLocation, does_get, hclaim,
        orLack, does_return, does_setRegisters, does_registerEvent, List.nil_append, List.append_nil]
      rw [does_modifyScope (by exact hs)]
      have hbelow' : g.Below (s.nextLocation + 1) := by
        have := hg.below
        rw [hnow]
        exact this
      have ih := @does_bindParameters rest (place + 1)
        { (s.issue.withRegisters g) with
          scopes := scope.declare ⟨name, type, .register ⟨s.nextLocation⟩, scope.stackHeight⟩ :: outer }
        (scope.declare ⟨name, type, .register ⟨s.nextLocation⟩, scope.stackHeight⟩) hpass.tail hg
        hbelow' (by show s.nextLocation + 1 = _; rw [hnow, nextHandle]; omega) rfl
      refine ih.mono fun code ls s' h' => ⟨h'.1, ?_⟩
      obtain ⟨hp, hb, hsc, hcov, hd, hl, hc, hloc⟩ := h'.2
      rw [hlen] at hp hcov
      refine ⟨hp, hb, hsc, fun l q hlq => ?_, hd, hl, hc, Nat.le_trans (Nat.le_succ _) hloc⟩
      rcases hcov l q hlq with hlq | hmem
      · rcases (HoldsParameters.isParameter_succ hr).mp hlq with ⟨rfl, -⟩ | hlq
        · exact .inr (by rw [hnow]; exact List.mem_cons_self)
        · exact .inl hlq
      · exact .inr (List.mem_cons_of_mem _ hmem)
    | stack index =>
      have hnone := parameterClass_stack hcls
      have hge := List.getElem?_eq_none_iff.mp hnone
      simp only [bindParameters, does_bind]
      rw [does_modifyScope hs]
      have ih := @does_bindParameters rest (place + 1)
        { s with
          scopes := scope.declare ⟨name, type, .stack (16 + 8 * index), scope.stackHeight⟩ :: outer }
        (scope.declare ⟨name, type, .stack (16 + 8 * index), scope.stackHeight⟩) hpass.tail
        (hpar.more hnone) hbelow (by show s.nextLocation = _; rw [hnext, nextHandle, nextHandle]; omega)
        rfl
      refine ih.mono fun code ls s' h' => ⟨by rw [h'.1]; rfl, ?_⟩
      obtain ⟨hp, hb, hsc, hcov, hd, hl, hc, hloc⟩ := h'.2
      rw [hlen] at hp hcov
      refine ⟨hp, hb, hsc, fun l q hlq => ?_, hd, hl, hc, hloc⟩
      rcases hcov l q hlq with ⟨i, hi, hl', hq⟩ | hmem
      · refine .inl ⟨i, ?_, hl', hq⟩
        obtain ⟨hlt, -⟩ := List.getElem?_eq_some_iff.mp hq
        omega
      · exact .inr hmem

end Binding

/-! ### Between procedures -/

/-- The state between two procedures, where some procedures were declared. -/
structure Outside (n : NameScope) (s : State) : Prop where
  registers : s.registers = {}
  program : ∃ scope, s.scopes = [scope] ∧ scope.kind = .entry ∧ scope.vars = .empty ∧
    Mirrors n scope ∧ ∀ name p, scope.procedures.get? name = some p → Conventional p

section Procedure

variable {signature : Signature} {body : List Stmt} {bodyTag tag : Tag} {options : Options}
  {n : NameScope}

theorem getElem?_bindings {i : Nat} {p : Parameter} (hp : signature.params[i]? = some p) :
    signature.bindings[i]? = some (p.name, p.type, parameterClass i) := by
  simp only [Signature.bindings, Signature.classes, classifyParameters, List.getElem?_map, List.zip]
  rw [List.getElem?_zipWith, hp]
  simp [hp]

theorem length_bindings : signature.bindings.length = signature.params.length := by
  simp [Signature.bindings, Signature.classes, classifyParameters]

theorem map_fst_bindings : signature.bindings.map Prod.fst = signature.params.map (·.name) := by
  refine List.ext_getElem? fun i => ?_
  rw [List.getElem?_map, List.getElem?_map]
  cases hp : signature.params[i]? with
  | some p => rw [getElem?_bindings hp]; rfl
  | none =>
    have hlen := List.getElem?_eq_none_iff.mp hp
    rw [← length_bindings] at hlen
    rw [List.getElem?_eq_none_iff.mpr hlen]
    rfl

theorem passedFrom_bindings : PassedFrom 0 signature.bindings := by
  intro i b hb
  obtain ⟨hlt, -⟩ := List.getElem?_eq_some_iff.mp hb
  rw [length_bindings] at hlt
  rw [getElem?_bindings (List.getElem?_eq_getElem hlt)] at hb
  rw [← Option.some.inj hb, Nat.zero_add]

/-- The label behind the body of a procedure that is generated from a state on. -/
def returnLabel (s : State) (signature : Signature) : Label :=
  ⟨s.nextLabel, signature.name ++ "_return"⟩

/-- The scope of the body of a procedure that is generated from a state on. -/
def bodyScope (s : State) (signature : Signature) (body : List Stmt) : Scope :=
  bindScope s.nextLocation signature.bindings
    (procedureScope s.scopes signature body (returnLabel s signature))

/-- The procedure that is generated from a state on. -/
def activation (s : State) (signature : Signature) (body : List Stmt) : Activation :=
  { base := (bodyScope s signature body).vars
    behind := returnLabel s signature
    first := s.nextLocation
    count := signature.params.length }

/-- A parameter as a variable of the body. -/
theorem get?_bodyScope (hnodup : (signature.params.map (·.name)).Nodup) {i : Nat} {p : Parameter}
    (hp : signature.params[i]? = some p) :
    (bodyScope s signature body).vars.get? p.name =
      some ⟨p.name, p.type, parameterStorage s.nextLocation i, s.scopes.stackHeight + 1⟩ := by
  have := @get?_bindScope s.nextLocation _ 0 passedFrom_bindings (by rw [map_fst_bindings]; exact hnodup)
    (procedureScope s.scopes signature body (returnLabel s signature)) i _ (getElem?_bindings hp)
  rw [Nat.zero_add] at this
  exact this

/-- The scope of a body is that of the procedure, with the parameters as its variables. -/
theorem bodyScope_eq : bodyScope s signature body =
    { procedureScope s.scopes signature body (returnLabel s signature) with
      vars := (bodyScope s signature body).vars } :=
  bindScope_eq ..

theorem get?_bodyScope_of_not_mem {name : String} (h : name ∉ signature.params.map (·.name)) :
    (bodyScope s signature body).vars.get? name = none := by
  rw [← map_fst_bindings] at h
  exact get?_bindScope_of_not_mem _ _ h

/-- The state in front of the first statement of a body. -/
theorem Outside.inside {t : State} {ls : List Location} {u : State} (h : Outside n s)
    (hdepth : s.stackDepth = 8) (hnodup : (signature.params.map (·.name)).Nodup)
    (ht : t = s.issueLabel.opened (procedureScope s.scopes signature body (returnLabel s signature)))
    (hb : ParametersBound t s.nextLocation 0 signature.bindings
      (procedureScope s.scopes signature body (returnLabel s signature)) s.scopes ls u) :
    Inside (activation s signature body) [{ vars := signature.params.map (·.name) }, n] false u := by
  obtain ⟨entry, hs, hkind, hvars, hmirrors, hconv⟩ := h.program
  have hscopes : u.scopes = bodyScope s signature body :: s.scopes := by
    rw [hb.scopes, ht]
    rfl
  have hbody := @bodyScope_eq s signature body
  have hkindBody : (bodyScope s signature body).kind = .procedure := by rw [hbody]; rfl
  have hend : (bodyScope s signature body).endLabel = some (returnLabel s signature) := by
    rw [hbody]
    rfl
  have hpar : u.registers.HoldsParameters s.nextLocation signature.params.length := by
    have := hb.params
    rwa [length_bindings, Nat.zero_add] at this
  have hget : ∀ {name v}, (bodyScope s signature body).vars.get? name = some v →
      ∃ i p, signature.params[i]? = some p ∧ p.name = name ∧
        v.storage = parameterStorage s.nextLocation i := by
    intro name v hv
    by_cases hmem : name ∈ signature.params.map (·.name)
    · obtain ⟨p, hp, rfl⟩ := List.mem_map.mp hmem
      obtain ⟨i, hi⟩ := List.getElem?_of_mem hp
      rw [get?_bodyScope hnodup hi] at hv
      exact ⟨i, p, hi, rfl, (congrArg Variable.storage (Option.some.inj hv)).symm⟩
    · rw [get?_bodyScope_of_not_mem hmem] at hv
      cases hv
  constructor
  · exact hpar
  · exact hb.below
  · have hprogram : Generation.depth s.scopes = 8 := by
      rw [hs, Generation.depth, if_pos hkind]
    have hbytes : (bodyScope s signature body).localBytes =
        (procedureScope s.scopes signature body (returnLabel s signature)).localBytes := by
      rw [hbody]
    rw [hb.stackDepth, ht, hscopes, Generation.depth, if_neg (by simp [hkindBody]), hprogram, hbytes]
    show s.stackDepth + 8 + _ = _
    omega
  · rw [hscopes, hs]
    refine .cons ⟨?_, by simp⟩ (.cons hmirrors .nil)
    intro name hname
    obtain ⟨p, hp, rfl⟩ := List.mem_map.mp hname
    obtain ⟨i, hi⟩ := List.getElem?_of_mem hp
    rw [get?_bodyScope hnodup hi]
    rfl
  · rw [hscopes, hs]
    intro sc hsc name v hv
    rcases List.mem_cons.mp hsc with rfl | hsc
    · obtain ⟨i, p, hi, -, hst⟩ := hget hv
      intro l hl
      rw [hst, parameterStorage] at hl
      cases hcls : parameterClass i with
      | stack index => simp [hcls] at hl
      | register r =>
        simp only [hcls] at hl
        obtain rfl := Storage.register.inj hl
        obtain ⟨hlt, -⟩ := List.getElem?_eq_some_iff.mp hi
        rw [RegisterFile.registerOf?,
          (hpar.index ⟨s.nextLocation + i⟩ r).mpr ⟨i, hlt, rfl, parameterClass_register hcls⟩]
        rfl
    · obtain rfl := List.mem_singleton.mp hsc
      rw [hvars] at hv
      cases hv
  · rw [hscopes, hs]
    intro sc hsc name p hp
    rcases List.mem_cons.mp hsc with rfl | hsc
    · rw [hbody] at hp
      cases hp
    · obtain rfl := List.mem_singleton.mp hsc
      exact hconv name p hp
  · rw [hscopes]
    simp [Exits, hkindBody, hend]
  · rw [hscopes, Bound, if_pos hkindBody]
    refine ⟨hend, fun name v hv => ⟨?_, hv⟩⟩
    obtain ⟨i, p, hi, rfl, -⟩ := hget hv
    exact List.mem_map_of_mem (List.mem_of_getElem? hi)

theorem does_scopeFor_procedure {Q : List Instr → Scope → State → Prop} :
    Does P (scopeFor (.procedure signature.name signature.returns signature.bindings) body) s Q ↔
      Q [] (procedureScope s.scopes signature body (returnLabel s signature)) s.issueLabel := by
  simp [scopeFor, Role.scopeKind, innerScope, procedureScope, returnLabel]

theorem does_closeFrame_procedure {scope : Scope} {label : Label} {name : String}
    {returns : DataType} {bindings : List (String × DataType × ParameterClass)}
    {ls : List Location} {Q : List Instr → Unit → State → Prop} (hl : scope.endLabel = some label) :
    Does P (closeFrame (.procedure name returns bindings) scope ls) s Q ↔
      Q (clearInstr :: .label label :: epilogueCode ++ [.ret]) ()
        (s.withRegisters (s.registers.releaseAll ls)) := by
  simp [closeFrame, labelIf, hl, does_releaseAll, clearInstr]

/-- The block of a procedure: in front of it and behind it the registers are empty. -/
theorem emits_procedureBlock (h : Outside n s) (hdepth : s.stackDepth = 8)
    (hnodup : (signature.params.map (·.name)).Nodup)
    (hwf : Stmt.BodyWellFormed [n] signature body)
    (hreport : ∀ happening t, t.registers = {} → t.scopes = s.scopes → P happening bodyTag .block t)
    (hwatch : ∀ st ∈ body, Watching P options (activation s signature body) st) :
    Emits P (block (.procedure signature.name signature.returns signature.bindings) bodyTag body
        (statements options body)) s fun code ds _ s' =>
      s'.registers = {} ∧ s'.scopes = s.scopes ∧ s.nextLabel < s'.nextLabel ∧
      s.constants.strings <+: s'.constants.strings ∧
      ∀ pool, s'.constants.strings <+: pool → ∃ ls, depthsOf ls = ds ∧
        ProcedureCode options pool s.scopes signature body s.nextLabel
          (.symbol signature.name :: code) s'.nextLabel ls := by
  obtain ⟨scope, hscope⟩ : ∃ scope, scope =
      procedureScope s.scopes signature body (returnLabel s signature) := ⟨_, rfl⟩
  have hempty : s.registers.HoldsParameters s.nextLocation 0 := h.registers ▸ HoldsParameters.empty
  have hbelow : s.registers.Below s.nextLocation := hempty.below
  have hend : scope.endLabel = some (returnLabel s signature) := hscope ▸ rfl
  have hscopeFor : ∀ {Q}, Emits P (scopeFor (.procedure signature.name signature.returns
      signature.bindings) body) s Q ↔ Q [] [] scope s.issueLabel :=
    emits_of_rule (fun _ => hscope ▸ does_scopeFor_procedure) callFree_nil
  have hclose : ∀ {ls t Q}, Emits P (closeFrame (.procedure signature.name signature.returns
      signature.bindings) scope ls) t Q ↔
      Q (clearInstr :: .label (returnLabel s signature) :: epilogueCode ++ [.ret]) [] ()
        (t.withRegisters (t.registers.releaseAll ls)) :=
    emits_of_rule (fun _ => does_closeFrame_procedure hend) (by simp [clearInstr])
  simp only [block, emits_bind, emits_nodeEvent, hscopeFor, emits_get,
    emits_openFrame (by simp : Role.procedure _ _ _ ≠ .entry), emits_modify, hclose, emits_setDepth,
    List.nil_append, List.append_nil]
  refine ⟨fun _ => hreport _ s h.registers rfl, ?_⟩
  refine ((@does_bindParameters P s.nextLocation s.scopes signature.bindings 0
    (s.issueLabel.opened scope) scope passedFrom_bindings hempty hbelow rfl rfl).emits
    fun c _ _ h' => h'.1 ▸ callFree_nil).mono fun c₁ _ ls s₁ h₁ => ?_
  obtain ⟨rfl, rfl, h₁⟩ := h₁
  have hin := h.inside hdepth hnodup rfl (hscope ▸ h₁)
  have hslot : ∀ st ∈ body, Slotted st s₁.scopes := by
    intro st hst
    rw [h₁.scopes, bindScope_eq, hscope]
    exact slotted_of_layout hst rfl
  refine (emits_statements body hin hwf.2 hslot hwatch).mono fun c₂ ds _ s₂ h₂ => ?_
  obtain ⟨hp₂, hscopes₂, hcode₂⟩ := h₂
  have hregs : s₂.registers.releaseAll ls = {} := by
    rw [hp₂.registers]
    refine h₁.params.releaseAll fun l r hl => ?_
    rcases h₁.covered l r hl with ⟨i, hi, -⟩ | hmem
    · exact absurd hi (Nat.not_lt_zero i)
    · exact hmem
  have hscopes : s₂.scopes.drop 1 = s.scopes := by
    rw [hscopes₂, h₁.scopes]
    rfl
  have hlabels : s.nextLabel + 1 = s₁.nextLabel := h₁.nextLabel.symm
  have hconst : s₁.constants = s.constants := h₁.constants
  refine ⟨fun _ => hreport _ _ hregs hscopes, hregs, hscopes, ?_, ?_, fun pool hpool => ?_⟩
  · show s.nextLabel < s₂.nextLabel
    have := hp₂.labels
    omega
  · exact hconst ▸ hp₂.constants
  · obtain ⟨ls', rfl, hbody⟩ := hcode₂ pool hpool
    rw [h₁.scopes, hscope, ← hlabels] at hbody
    refine ⟨_, ?_, s.nextLocation, s₁.registers, c₂, ls', hin.params, hbody, ?_, rfl⟩
    · simp
    · simp [hscope, procedureScope, returnLabel]

theorem Emits.known {α : Type} {x : Gen α} {Q : List Instr → List Nat → α → State → Prop}
    (h : Emits P x s Q) : Emits P x s fun c ds a s' => Q c ds a s' ∧ s' = (x s).state := by
  refine ⟨h.1, ?_⟩
  have h2 := h.2
  split at h2 <;> simp_all

/-- Behind a procedure it is declared, and nothing else is new. -/
theorem Outside.declared {t : State} {body : Option Stmt} (h : Outside n s)
    (hregs : t.registers = {}) (hscopes : t.scopes = scopesAfter (.procedure tag signature body) s.scopes) :
    Outside ((Stmt.procedure tag signature body).declare n) t := by
  obtain ⟨scope, hs, hkind, hvars, hmirrors, hconv⟩ := h.program
  have hget : ∀ name, (scope.declareProcedure signature.procedure).procedures.get? name =
      if name = signature.name then some signature.procedure
      else scope.procedures.get? name := fun name => Table.get?_insert ..
  refine ⟨hregs, scope.declareProcedure signature.procedure, by rw [hscopes, hs]; rfl, hkind, hvars,
    ⟨hmirrors.vars, fun name hname => ?_⟩, fun name p hp => ?_⟩
  · rw [hget]
    split_ifs with heq
    · rfl
    · rcases List.mem_cons.mp hname with rfl | hname
      · exact absurd rfl heq
      · exact hmirrors.procedures name hname
  · rw [hget] at hp
    split_ifs at hp
    · obtain rfl := Option.some.inj hp
      exact conventional_procedure signature
    · exact hconv name p hp

/-- A procedure was run: the registers are empty again, the program knows its name, further labels
are not below `least`, and the code is the procedure's. -/
def ProcedureRan (options : Options) (least : Nat) (s : State) (st : Stmt) (code : List Instr)
    (ds : List Nat) (s' : State) : Prop :=
  s'.registers = {} ∧ s'.scopes = scopesAfter st s.scopes ∧ least ≤ s'.nextLabel ∧
    s.constants.strings <+: s'.constants.strings ∧ ∀ pool, s'.constants.strings <+: pool →
      ∀ rest c n ls, ProgramCode options pool s'.scopes rest s'.nextLabel c n ls →
        ∃ ls', depthsOf ls' = ds ++ depthsOf ls ∧
          ProgramCode options pool s.scopes (st :: rest) s.nextLabel (code ++ c) n ls'

/-- The state in front of the body of a procedure, which is declared already. -/
def State.entered (s : State) (tag : Tag) (signature : Signature) : State :=
  { s with
    scopes := scopesAfter (.procedure tag signature none) s.scopes
    stackDepth := 8 }

theorem emits_procedure (h : Outside n s) (hext : signature.external = false)
    (hnodup : (signature.params.map (·.name)).Nodup)
    (hwf : Stmt.BodyWellFormed ((Stmt.procedure tag signature none).declareIn [n]) signature body)
    (hreport : ∀ happening t, t.registers = {} →
      t.scopes = scopesAfter (.procedure tag signature none) s.scopes → P happening bodyTag .block t)
    (hwatch : ∀ st ∈ body, Watching P options (activation (s.entered tag signature) signature body) st) :
    Emits P (procedure tag signature (some (blockOf options (.block bodyTag body)))) s
      fun code ds _ s' => ProcedureRan options (s.nextLabel + 1) s
        (.procedure tag signature (some (.block bodyTag body))) code ds s' := by
  obtain ⟨scope, hs, hkind, -⟩ := h.program
  have hkind' : (scope.declareProcedure signature.procedure).kind = .entry := hkind
  have hstate : { s with scopes := [scope.declareProcedure signature.procedure] }.withDepth 8 =
      s.entered tag signature := by
    rw [State.entered, hs]
    rfl
  have hglobal : ∀ {t Q}, Emits P (emit (.global signature.name)) t Q ↔
      Q [.global signature.name] [] () t := emits_of_rule (fun _ => does_emit) (by simp)
  have hsymbol : ∀ {t Q}, Emits P (emit (.symbol signature.name)) t Q ↔
      Q [.symbol signature.name] [] () t := emits_of_rule (fun _ => does_emit) (by simp)
  simp only [procedure, emits_bind, emits_modifyScope hs, hext, Bool.false_eq_true, if_false, currentScope,
    emits_get, ScopeStack.current, orFail, emits_return, hkind', if_true, hglobal, hsymbol,
    emits_setDepth, blockOf, List.nil_append, List.append_nil, hstate]
  have hout : Outside ((Stmt.procedure tag signature none).declare n) (s.entered tag signature) :=
    h.declared h.registers rfl
  refine (emits_procedureBlock hout rfl hnodup hwf hreport hwatch).mono fun code ds _ s' h' => ?_
  obtain ⟨hregs, hscopes, hlabels, hconst, hcode⟩ := h'
  refine ⟨hregs, hscopes, hlabels, hconst, fun pool hpool rest c m ls hrest => ?_⟩
  rw [show (s'.withDepth 0).scopes = _ from hscopes] at hrest
  obtain ⟨ls', rfl, hbody⟩ := hcode pool hpool
  exact ⟨_, by simp, .procedure hext hbody hrest⟩

theorem emits_external_procedure (h : Outside n s) (hext : signature.external = true) :
    Emits P (procedure tag signature none) s
      fun code ds _ s' =>
        ProcedureRan options s.nextLabel s (.procedure tag signature none) code ds s' := by
  obtain ⟨scope, hs, -⟩ := h.program
  simp only [procedure, emits_bind, emits_modifyScope hs, hext, if_true, addExtern, emits_modify,
    List.nil_append]
  have hafter : scopesAfter (.procedure tag signature none) s.scopes =
      [scope.declareProcedure signature.procedure] := by
    rw [hs, scopesAfter]
  split
  all_goals
    refine ⟨h.registers, hafter.symm, Nat.le_refl _, List.prefix_rfl, fun pool _ rest c m ls hrest => ?_⟩
    exact ⟨ls, rfl, .external (hafter ▸ hrest)⟩

/-! ### Programs -/

theorem Outside.procedureScope? (h : Outside n s) : s.scopes.procedureScope? = none := by
  obtain ⟨scope, hs, hkind, -⟩ := h.program
  simp [ScopeStack.procedureScope?, hs, hkind]

/-- Reports of the procedures and their bodies may be made whenever the registers are empty. -/
def WatchingBetween (P : Happening → Tag → NodeKind → State → Prop) (procs : List Stmt) : Prop :=
  ∀ st ∈ procs, ∀ p ∈ st.heads, ∀ happening s,
    s.registers = {} → s.scopes.procedureScope? = none → P happening p.tag p.kind s

/-- The procedure has a signature: its parameters are variables. -/
structure Activation.Of (a : Activation) (signature : Signature) : Prop where
  count : a.count = signature.params.length
  params : ∀ i p, signature.params[i]? = some p →
    ∃ v, a.base.get? p.name = some v ∧ v.storage = parameterStorage a.first i

theorem activation_of (hnodup : (signature.params.map (·.name)).Nodup) :
    (activation s signature body).Of signature :=
  ⟨rfl, fun _ _ hp => ⟨_, get?_bodyScope hnodup hp, rfl⟩⟩

/-- Reports of the statements of procedures may be made in every state between two statements; which
procedure it is can be told from the label of its end, and these labels are not below `least`. -/
def WatchingAll (P : Happening → Tag → NodeKind → State → Prop) (options : Options)
    (A : Nat → Activation) (least : Nat) (procs : List Stmt) : Prop :=
  ∀ tag signature bodyTag body, .procedure tag signature (some (.block bodyTag body)) ∈ procs →
    ∀ a, least ≤ a.behind.id → A a.behind.id = a → a.Of signature → ∀ st ∈ body, Watching P options a st

/-- Procedures were run, in the order of a program. -/
def ProgramRan (options : Options) (s : State) (procs : List Stmt) (code : List Instr)
    (ds : List Nat) (s' : State) : Prop :=
  s'.registers = {} ∧ s'.scopes.drop 1 = s.scopes.drop 1 ∧
    s.constants.strings <+: s'.constants.strings ∧ ∀ pool, s'.constants.strings <+: pool →
      ∃ ls, depthsOf ls = ds ∧
        ProgramCode options pool s.scopes procs s.nextLabel code s'.nextLabel ls

theorem emits_procedureNode {st : Stmt} {work : Gen Unit} {least : Nat} (h : Outside n s)
    (hbetween : WatchingBetween P [st]) (hst : st ∈ st.heads)
    (hdeclared : ∀ s', s'.registers = {} → s'.scopes = scopesAfter st s.scopes →
      Outside (st.declare n) s')
    (hwork : Emits P work s fun code ds _ s' => ProcedureRan options least s st code ds s') :
    Emits P (statementNode st.tag st.kind work) s fun code ds _ s' =>
      Outside (st.declare n) s' ∧ ProcedureRan options least s st code ds s' := by
  have hreport {happening t n'} (ht : Outside n' t) : P happening st.tag st.kind t :=
    hbetween st List.mem_cons_self st hst happening t ht.registers ht.procedureScope?
  simp only [statementNode, emits_bind, emits_nodeEvent, List.nil_append, List.append_nil]
  refine ⟨fun _ => hreport h, hwork.mono fun code ds _ s' h' => ?_⟩
  have hout := hdeclared s' h'.1 h'.2.1
  exact ⟨fun _ => hreport hout, hout, h'⟩

/-- A procedure and those behind it, which start in the state that it leaves. -/
theorem emits_procedures_cons {st : Stmt} {rest : List Stmt} {least : Nat}
    (hfirst : Emits P (statement options st) s fun code ds _ s' =>
      Outside (st.declare n) s' ∧ ProcedureRan options least s st code ds s')
    (hrest : ∀ s', s' = (statement options st s).state → least ≤ s'.nextLabel →
      Outside (st.declare n) s' →
      Emits P (statements options rest) s' fun code ds _ t => ProgramRan options s' rest code ds t) :
    Emits P (statements options (st :: rest)) s
      fun code ds _ s' => ProgramRan options s (st :: rest) code ds s' := by
  rw [statements]
  refine emits_bind.mpr (hfirst.known.mono fun c₁ ds₁ _ s₁ h₁ => ?_)
  obtain ⟨⟨hout, -, hscopes₁, hleast, hconst₁, hcode₁⟩, heq⟩ := h₁
  have hlaw : s₁.registers.Lawful := by
    rw [hout.registers]
    exact (@HoldsParameters.empty 0).lawful
  simp only [emits_bind, emits_checkRegisters hlaw, List.nil_append]
  refine (hrest s₁ heq hleast hout).mono fun c₂ ds₂ _ s₂ h₂ => ?_
  obtain ⟨hregs₂, hscopes₂, hconst₂, hcode₂⟩ := h₂
  refine ⟨hregs₂, ?_, hconst₁.trans hconst₂, fun pool hpool => ?_⟩
  · rw [hscopes₂, hscopes₁, drop_scopesAfter]
  · obtain ⟨ls, rfl, hbehind⟩ := hcode₂ pool hpool
    exact hcode₁ pool (hconst₂.trans hpool) rest c₂ _ ls hbehind

/-- Code for the procedures of a program.  The procedure that a label belongs to is known in
advance, as `A` has it. -/
theorem emits_procedures : ∀ (procs : List Stmt) (n : NameScope) (s : State), ∃ A : Nat → Activation,
    Outside n s → Stmt.ProceduresWellFormed [n] procs → ∀ P, WatchingBetween P procs →
      WatchingAll P options A s.nextLabel procs →
      Emits P (statements options procs) s fun code ds _ s' => ProgramRan options s procs code ds s'
  | [], _, s => by
    refine ⟨fun _ => activation s default [], fun h _ P _ _ => ?_⟩
    rw [statements]
    exact emits_return.mpr ⟨h.registers, rfl, List.prefix_rfl, fun pool _ => ⟨[], rfl, .nil⟩⟩
  | st :: rest, n, s => by
    obtain ⟨A, hA⟩ := emits_procedures rest (st.declare n) (statement options st s).state
    have hrest {P} (hb : WatchingBetween P (st :: rest)) : WatchingBetween P rest :=
      fun st' hst => hb st' (List.mem_cons_of_mem _ hst)
    have hfirst {P} (hb : WatchingBetween P (st :: rest)) : WatchingBetween P [st] :=
      fun st' hst => hb st' (List.mem_singleton.mp hst ▸ List.mem_cons_self)
    by_cases hst : st.ProcedureWellFormed [n]
    rotate_left
    · exact ⟨A, fun _ hwf => absurd hwf.1 hst⟩
    obtain ⟨tag, signature, rfl⟩ | ⟨tag, signature, bodyTag, body, rfl⟩ := hst.shape
    · refine ⟨A, fun h hwf P hb hw => emits_procedures_cons (emits_procedureNode h (hfirst hb)
        List.mem_cons_self (fun _ => h.declared) (emits_external_procedure h hwf.1.1)) ?_⟩
      rintro s' rfl hle hout
      refine hA hout hwf.2 P (hrest hb) fun tag signature bodyTag body hmem a ha => ?_
      exact hw tag signature bodyTag body (List.mem_cons_of_mem _ hmem) a (Nat.le_trans hle ha)
    · obtain ⟨a, ha⟩ : ∃ a, a = activation (s.entered tag signature) signature body := ⟨_, rfl⟩
      have hid : a.behind.id = s.nextLabel := ha ▸ rfl
      refine ⟨fun i => if i = s.nextLabel then a else A i, fun h hwf P hb hw => ?_⟩
      obtain ⟨⟨hext, -, -, hnodup, hbody⟩, hwfRest⟩ := hwf
      have hreport : ∀ happening t, t.registers = {} →
          t.scopes = scopesAfter (.procedure tag signature none) s.scopes →
          P happening bodyTag .block t := by
        intro happening t ht hscopes
        have hout := h.declared ht hscopes
        exact hb _ List.mem_cons_self (.block bodyTag body) (by simp [Stmt.heads]) happening t ht
          hout.procedureScope?
      have hwatch := hw tag signature bodyTag body List.mem_cons_self a (Nat.le_of_eq hid.symm)
        (if_pos hid) (ha ▸ activation_of hnodup)
      refine emits_procedures_cons (emits_procedureNode h (hfirst hb) List.mem_cons_self
        (fun _ => h.declared) (emits_procedure h hext hnodup hbody hreport (ha ▸ hwatch))) ?_
      rintro s' rfl hle hout
      refine hA hout hwfRest P (hrest hb) fun tag signature bodyTag body hmem a' hle' hA' => ?_
      refine hw tag signature bodyTag body (List.mem_cons_of_mem _ hmem) a' (by omega) ?_
      exact (if_neg (by omega)).trans hA'

end Procedure

section Program

variable {options : Options} {ast : Ast} {rootTag : Tag} {procs : List Stmt}

/-- The scope of a program, in front of its procedures. -/
def entryScope : Scope := { kind := .entry, stackHeight := 0 }

theorem declarations_procedures {names : List NameScope} (h : Stmt.ProceduresWellFormed names procs) :
    Stmt.declarations procs = [] := by
  induction procs generalizing names with
  | nil => rfl
  | cons st rest ih =>
    have hrest := ih h.2
    obtain ⟨_, _, rfl⟩ | ⟨_, _, _, _, rfl⟩ := h.1.shape
    · exact hrest
    · exact hrest

/-- Code for a program.  Its own block is reported with empty registers, too, and they are empty in the
end. -/
theorem emits_whole_program (hroot : ast.root = some (.block rootTag procs))
    (hwf : Stmt.ProceduresWellFormed [{}] procs) :
    ∃ A : Nat → Activation, ∀ P, WatchingBetween P (.block rootTag procs :: procs) →
      WatchingAll P options A 0 procs →
      Emits P (program options ast) {} fun code ds _ s' => s'.registers = {} ∧
        ∀ pool, s'.constants.strings <+: pool → ∃ ls, depthsOf ls = ds ∧
          ProgramCode options pool [entryScope] procs 0 code s'.nextLabel ls := by
  have hstart : Outside {} { ({} : State) with scopes := [entryScope] } := by
    refine ⟨rfl, entryScope, rfl, rfl, rfl, ⟨?_, ?_⟩, ?_⟩
    · intro name hname
      cases hname
    · intro name hname
      cases hname
    · intro name p hp
      cases hp
  obtain ⟨A, hA⟩ := @emits_procedures options procs {} { ({} : State) with scopes := [entryScope] }
  refine ⟨A, fun P hb hw => ?_⟩
  have hreport : ∀ happening s, s.registers = {} → s.scopes.procedureScope? = none →
      P happening rootTag .block s :=
    hb _ List.mem_cons_self (.block rootTag procs) List.mem_cons_self
  have hrun := hA hstart hwf P (fun st hst => hb st (List.mem_cons_of_mem _ hst)) hw
  have hscope : { kind := .entry, stackHeight := 0 : Scope }.layOut [] = entryScope := rfl
  have hbytes : ¬(entryScope.localBytes > 0) := Nat.lt_irrefl 0
  simp only [program, hroot, blockOf, block, emits_bind, emits_nodeEvent, scopeFor, emits_get,
    Role.scopeKind, declarations_procedures hwf, if_true, hscope, emits_return, openFrame, Role.params,
    bindParameters, emits_modify, emits_setDepth, closeFrame, ne_eq, not_true_eq_false, if_false,
    hbytes, List.nil_append, List.append_nil]
  refine ⟨fun _ => hreport _ _ rfl rfl, hrun.mono fun code ds _ s' h' => ?_⟩
  obtain ⟨hregs, hscopes, -, hcode⟩ := h'
  refine ⟨fun _ => hreport _ _ hregs ?_, hregs, hcode⟩
  show ScopeStack.procedureScope? (s'.scopes.drop 1) = none
  rw [hscopes]
  rfl

theorem emits_program (hroot : ast.root = some (.block rootTag procs))
    (hwf : Stmt.ProceduresWellFormed [{}] procs) :
    ∃ A : Nat → Activation, ∀ P, WatchingBetween P (.block rootTag procs :: procs) →
      WatchingAll P options A 0 procs →
      Emits P (program options ast) {} fun code ds _ s' => ∀ pool, s'.constants.strings <+: pool →
        ∃ ls, depthsOf ls = ds ∧ ProgramCode options pool [entryScope] procs 0 code s'.nextLabel ls := by
  obtain ⟨A, hA⟩ := @emits_whole_program options ast rootTag procs hroot hwf
  exact ⟨A, fun P hb hw => (hA P hb hw).mono fun _ _ _ _ h => h.2⟩

end Program

end Generation

end ProcLang

import ProcLang.Proofs.Ast.WellFormed
import ProcLang.Proofs.Generation.State

/-!
What code generation for an expression does.  An expression adds exactly one value to the register
file, in a register that was free, under a handle that is new; scopes and stack stay as they are, and
the code is as `ExprCode` describes it.
-/

namespace ProcLang.Generation

open RegisterFile (Lawful Below)

variable {P : Happening → Tag → NodeKind → State → Prop} {s s' : State}

/-- The registers in use in a state. -/
abbrev State.used (s : State) : Used := s.registers.slots.contains

/-- What a name stands for in a state. -/
abbrev State.look (s : State) : String → Option Place := view s.scopes s.registers

/-- The register file is lawful, and all its handles were issued. -/
structure Settled (s : State) : Prop where
  lawful : s.registers.Lawful
  below : s.registers.Below s.nextLocation

/-- The variable lives on the stack, or in a register now. -/
def Reachable (f : RegisterFile) (v : Variable) : Prop :=
  ∀ l, v.storage = .register l → (f.registerOf? l).isSome = true

/-- Code for an expression over names can be generated: the registers are settled, each name means a
variable, and every variable can be reached. -/
structure Ready (names : List NameScope) (s : State) : Prop extends Settled s where
  visible : ∀ name, (∃ n ∈ names, name ∈ n.vars) → (s.scopes.findVariable? name).isSome = true
  reachable : ∀ name v, s.scopes.findVariable? name = some v → Reachable s.registers v

/-- A value under a new handle was put into a register that was free; nothing else changed. -/
structure Computed (s : State) (l : Location) (r : Register) (s' : State) : Prop
    extends Later s s' where
  issued : s.nextLocation ≤ l.number
  known : l.number < s'.nextLocation
  free : s.registers.isFree r = true
  placed : s'.registers = s.registers.place r ⟨l, false⟩

/-! ### Registers in use -/

theorem free_used {f : RegisterFile} {r : Register} :
    Used.Free f.slots.contains r ↔ f.isFree r = true := by
  simp [Used.Free, RegisterFile.isFree]

theorem used_place (f : RegisterFile) (r : Register) (slot : Slot) :
    (f.place r slot).slots.contains = Used.add f.slots.contains r := by
  funext q
  simp only [Used.add, Table.contains, RegisterFile.get?_slots_place]
  by_cases h : q = r <;> simp [h]

/-! ### A new value in the file -/

section Placing

variable {r : Register} {l : Location}

theorem Settled.index_eq_none (h : Settled s) (hl : s.nextLocation ≤ l.number) :
    s.registers.index.get? l = none :=
  h.below.index_eq_none hl

theorem Computed.settled (h : Computed s l r s') (hs : Settled s) : Settled s' := by
  have hbelow : s.registers.Below s'.nextLocation := hs.below.mono h.locations
  constructor
  · rw [h.placed]
    exact hs.lawful.place h.free (hs.index_eq_none h.issued)
  · rw [h.placed]
    exact hbelow.place h.known

theorem Computed.used (h : Computed s l r s') : s'.used = s.used.add r := by
  rw [State.used, h.placed, used_place]

theorem Computed.register (h : Computed s l r s') : s'.registers.registerOf? l = some r := by
  rw [h.placed]
  exact RegisterFile.registerOf?_place_self

/-- What a handle meant before, it still means. -/
theorem Computed.registerOf? (h : Computed s l r s') (hs : Settled s) {l' : Location} {q : Register}
    (hl : s.registers.registerOf? l' = some q) : s'.registers.registerOf? l' = some q := by
  have hne : l' ≠ l := by
    rintro rfl
    rw [RegisterFile.registerOf?, hs.index_eq_none h.issued] at hl
    cases hl
  rw [h.placed, RegisterFile.registerOf?_place_of_ne hne, hl]

theorem Computed.ready {names : List NameScope} (h : Computed s l r s') (hs : Ready names s) :
    Ready names s' where
  toSettled := h.settled hs.toSettled
  visible := by
    rw [h.scopes]
    exact hs.visible
  reachable := by
    rw [h.scopes]
    intro name v hv l' hl'
    obtain ⟨q, hq⟩ := Option.isSome_iff_exists.mp (hs.reachable name v hv l' hl')
    rw [h.registerOf? hs.toSettled hq]
    rfl

theorem Computed.look {names : List NameScope} (h : Computed s l r s') (hs : Ready names s) :
    s'.look = s.look := by
  funext name
  unfold State.look view
  rw [h.scopes]
  refine Option.bind_congr fun v hv => ?_
  cases hst : v.storage with
  | stack offset => rfl
  | register l' =>
    obtain ⟨q, hq⟩ := Option.isSome_iff_exists.mp (hs.reachable name v hv l' hst)
    simp only [hq, h.registerOf? hs.toSettled hq]

theorem Settled.later (h : Settled s) (hl : s.nextLocation ≤ s'.nextLocation)
    (hregs : s'.registers = s.registers) : Settled s' := by
  constructor
  · rw [hregs]
    exact h.lawful
  · rw [hregs]
    exact h.below.mono hl

theorem Ready.later {names : List NameScope} (h : Ready names s) (hl : Later s s')
    (hregs : s'.registers = s.registers) : Ready names s' where
  toSettled := h.toSettled.later hl.locations hregs
  visible := by
    rw [hl.scopes]
    exact h.visible
  reachable := by
    rw [hl.scopes, hregs]
    exact h.reachable

/-- The last value put into the file is taken out again. -/
theorem Settled.release_place (h : Settled s) (hr : s.registers.isFree r = true)
    (hl : s.nextLocation ≤ l.number) :
    (s.registers.place r ⟨l, false⟩).release l = (some r, s.registers) :=
  RegisterFile.release_place (RegisterFile.isFree_iff.mp hr).2
    (h.index_eq_none hl) (h.below.homes_eq_none hl)

/-- The state with a value under the next handle in a register. -/
def State.withValue (s : State) (r : Register) : State :=
  { s with
    nextLocation := s.nextLocation + 1
    registers := s.registers.place r ⟨⟨s.nextLocation⟩, false⟩ }

theorem computed_withValue (hr : s.registers.isFree r = true) :
    Computed s ⟨s.nextLocation⟩ r (s.withValue r) where
  scopes := rfl
  externs := rfl
  stackDepth := rfl
  locations := Nat.le_succ _
  labels := Nat.le_refl _
  constants := List.prefix_rfl
  issued := Nat.le_refl _
  known := Nat.lt_succ_self _
  free := hr
  placed := rfl

/-- The handle just given out is put into a free register. -/
theorem does_freshRegister {Q : List Instr → Register → State → Prop} (h : Settled s)
    (hQ : ∀ r, s.registers.isFree r = true → Q [] r (s.withValue r)) :
    Does P (registerFor ⟨s.nextLocation⟩) s.issue Q :=
  does_registerFor (h.index_eq_none (Nat.le_refl _)) hQ

end Placing

/-! ### Variables -/

theorem does_hop {r : Register} {Q : List Instr → Unit → State → Prop} :
    ∀ further : Nat, Does P (hop r further) s Q ↔
      Q (List.replicate further (.mov .quad (.reg r) (.mem r 0))) () s
  | 0 => does_return
  | further + 1 => by
    rw [hop, does_bind, does_emit, does_hop further]
    rfl

/-- The place of a variable on the stack. -/
def stackPlace (scopes : ScopeStack) (v : Variable) (offset : Int) : Place :=
  ⟨v.type, .frame (scopes.stackHeight - v.stackHeight) offset⟩

/-- A state in which the memory of a variable was made an operand, and the handle that is to be
freed. -/
def Opened (s : State) (frame : Option Location) (t : State) : Prop :=
  match frame with
  | none => t = s
  | some l => l = ⟨s.nextLocation⟩ ∧ ∃ r, s.registers.isFree r = true ∧ t = s.withValue r

theorem does_addressOf {v : Variable} {offset : Int}
    {Q : List Instr → Operand × Option Location → State → Prop} (h : Settled s)
    (hQ : ∀ way operand frame t, Reach s.used (stackPlace s.scopes v offset).access way operand →
      Opened s frame t → Q way (operand, frame) t) :
    Does P (addressOf v offset) s Q := by
  simp only [addressOf, does_bind, does_get, List.nil_append]
  unfold stackPlace at hQ
  cases hk : s.scopes.stackHeight - v.stackHeight with
  | zero =>
    rw [hk] at hQ
    exact does_return.mpr (hQ [] (.mem .rbp offset) none s .here rfl)
  | succ further =>
    rw [hk] at hQ
    simp only [does_bind, does_freshLocation, does_emit, does_hop, does_return, List.nil_append,
      List.append_nil]
    refine does_freshRegister h fun r hr => ?_
    exact hQ (outward r further) (.mem r offset) _ _ (.outer (free_used.mpr hr)) ⟨rfl, r, hr, rfl⟩

theorem does_releaseIf {frame : Option Location} {t : State} {Q : List Instr → Unit → State → Prop}
    (h : Settled s) (ht : Opened s frame t)
    (hQ : ∀ s', Later s s' → s'.registers = s.registers → s'.nextLabel = s.nextLabel → Q [] () s') :
    Does P (releaseIf frame) t Q := by
  cases frame with
  | none =>
    obtain rfl := ht
    exact does_return.mpr (hQ t (Later.refl t) rfl rfl)
  | some l =>
    obtain ⟨rfl, r, hr, rfl⟩ := ht
    rw [releaseIf, does_release]
    refine hQ _ ?_ ?_ rfl
    · exact ⟨rfl, rfl, rfl, Nat.le_succ _, Nat.le_refl _, List.prefix_rfl⟩
    · exact congrArg Prod.snd (h.release_place hr (Nat.le_refl _))

/-- How a variable is reached in a state. -/
def variablePlace (s : State) (v : Variable) : Option Place :=
  match v.storage with
  | .stack offset => some (stackPlace s.scopes v offset)
  | .register l => (s.registers.registerOf? l).map fun r => ⟨v.type, .register r⟩

theorem look_eq {name : String} {v : Variable} (h : s.scopes.findVariable? name = some v) :
    s.look name = variablePlace s v := by
  simp only [State.look, view, h]
  rfl

theorem variablePlace_isSome {v : Variable} (h : Reachable s.registers v) :
    ∃ place, variablePlace s v = some place ∧ place.type = v.type := by
  unfold variablePlace
  cases hst : v.storage with
  | stack offset => exact ⟨_, rfl, rfl⟩
  | register l =>
    obtain ⟨r, hr⟩ := Option.isSome_iff_exists.mp (h l hst)
    exact ⟨_, by simp only [hr]; rfl, rfl⟩

theorem used_of_registerOf? (h : Settled s) {l : Location} {r : Register}
    (hr : s.registers.registerOf? l = some r) : s.used r = true := by
  obtain ⟨p, hp⟩ := h.lawful.held hr
  simp [State.used, Table.contains, hp]

/-- A step on a variable: the registers are as before, and the code reaches the variable first. -/
def Accessed (s : State) (place : Place) (i : Operand → Instr) (code : List Instr) (s' : State) :
    Prop :=
  Later s s' ∧ s'.registers = s.registers ∧ s'.nextLabel = s.nextLabel ∧
    ∃ way operand, Reach s.used place.access way operand ∧ code = way ++ [i operand]

theorem does_loadVariable {v : Variable} {place : Place} {dst : Register} (h : Settled s)
    (hv : variablePlace s v = some place) :
    Does P (loadVariable v dst) s fun code _ s' => Accessed s place (loadInstr place dst) code s' := by
  unfold variablePlace at hv
  unfold loadVariable
  cases hst : v.storage with
  | register l =>
    rw [hst] at hv
    obtain ⟨r, hr, rfl⟩ := Option.map_eq_some_iff.mp hv
    simp only [does_bind, does_registerOf hr, does_copy]
    exact ⟨Later.refl s, rfl, rfl, [], .reg r, .register (used_of_registerOf? h hr), rfl⟩
  | stack offset =>
    rw [hst] at hv
    obtain rfl := Option.some.inj hv
    refine does_bind.mpr (does_addressOf h fun way operand frame t hway ht => ?_)
    have hend : Does P (releaseIf frame) t fun code _ s' =>
        Accessed s (stackPlace s.scopes v offset) (loadInstr (stackPlace s.scopes v offset) dst)
          (way ++ [fetch v.type dst operand] ++ code) s' := by
      refine does_releaseIf h ht fun s' hl hregs hn => ⟨hl, hregs, hn, way, operand, hway, ?_⟩
      rw [List.append_nil]
      rfl
    cases htype : v.type <;> simp only [does_bind, does_emit] <;>
      simpa only [htype, fetch, List.append_assoc] using hend

theorem does_storeVariable {v : Variable} {place : Place} {src : Register} (h : Settled s)
    (hv : variablePlace s v = some place) :
    Does P (storeVariable v src) s
      fun code _ s' => Accessed s place (storeInstr place · src) code s' := by
  unfold variablePlace at hv
  unfold storeVariable
  cases hst : v.storage with
  | register l =>
    rw [hst] at hv
    obtain ⟨r, hr, rfl⟩ := Option.map_eq_some_iff.mp hv
    simp only [does_bind, does_registerOf hr]
    have hreach : Reach s.used (.register r) [] (.reg r) := .register (used_of_registerOf? h hr)
    cases htype : v.type <;> simp only [does_emit, does_copy] <;>
      exact ⟨Later.refl s, rfl, rfl, [], .reg r, hreach, rfl⟩
  | stack offset =>
    rw [hst] at hv
    obtain rfl := Option.some.inj hv
    refine does_bind.mpr (does_addressOf h fun way operand frame t hway ht => ?_)
    simp only [does_bind, does_emit]
    refine does_releaseIf h ht fun s' hl hregs hn => ⟨hl, hregs, hn, way, operand, hway, ?_⟩
    rw [List.append_nil]
    rfl

/-! ### Operators -/

section Operators

variable {l l₁ l₂ : Location} {r r₁ r₂ : Register} {s₁ s₂ : State}

theorem does_copyOf {Q : List Instr → Location × Register → State → Prop} (h : Settled s)
    (hl : s.registers.registerOf? l = some r)
    (hQ : ∀ dst, s.registers.isFree dst = true →
      Q [copyInstr dst r] (⟨s.nextLocation⟩, dst) (s.withValue dst)) :
    Does P (copyOf l) s Q := by
  simp only [copyOf, does_bind, does_registerOf hl, does_freshLocation, does_copy, does_return,
    List.nil_append, List.append_nil]
  exact does_freshRegister h hQ

@[simp] theorem does_setTruth {condition : Condition} {Q : List Instr → Unit → State → Prop} :
    Does P (setTruth condition r) s Q ↔ Q (truthCode condition r) () s := by
  simp only [setTruth, does_bind, does_emit, does_extend]
  rfl

@[simp] theorem does_applyUnary {op : UnaryOp} {type : DataType}
    {Q : List Instr → DataType → State → Prop} :
    Does P (applyUnary op r type) s Q ↔ Q (unaryCode op r) (unaryType op type) s := by
  cases op with
  | plus => exact does_return
  | negate =>
    simp only [applyUnary, does_bind, does_emit, does_return]
    rfl
  | not =>
    simp only [applyUnary, does_bind, does_emit, does_setTruth, does_return]
    rfl

theorem not_isFree_rdx : (!s.registers.isFree .rdx) = s.used .rdx := by
  simp [RegisterFile.isFree, Register.allocatable]

theorem does_divide {dividend divisor : Register} {Q : List Instr → Unit → State → Prop} :
    Does P (divide dividend divisor) s Q ↔ Q (divideCode s.used dividend divisor) () s := by
  simp only [divide, does_bind, does_get, not_isFree_rdx, divideCode, quotientCode]
  cases s.used .rdx with
  | true => simp
  | false => simp

@[simp] theorem does_applyEager {op : ArithOp ⊕ Comparison} {lhs rhs : Register} {t₁ t₂ : DataType}
    {Q : List Instr → DataType → State → Prop} :
    Does P (applyEager op lhs rhs t₁ t₂) s Q ↔
      Q (eagerCode s.used op lhs rhs (t₁.arith t₂)) (eagerType op t₁ t₂) s := by
  rcases op with op | op
  · simp only [applyEager, applyArith, does_bind, does_extend, does_return, List.append_nil]
    cases op with
    | add | sub | mul => exact does_emit
    | div => exact does_divide
  · simp only [applyEager, does_bind, does_emit, does_setTruth, does_return, List.append_nil]
    rfl

theorem does_truthOf {dst : Register} {Q : List Instr → Unit → State → Prop}
    (hl : s.registers.registerOf? l = some r) :
    Does P (truthOf l dst) s Q ↔ Q (nonzeroCode dst r) () s := by
  simp only [truthOf, does_bind, does_registerOf hl, does_emit, does_setTruth]
  rfl

/-! Values under one another in the file -/

theorem Computed.free_of_later (h₁ : Computed s l₁ r₁ s₁) (h₂ : Computed s₁ l₂ r₂ s₂) :
    s.registers.isFree r₂ = true ∧ r₂ ≠ r₁ := by
  have := h₂.free
  rw [h₁.placed] at this
  exact (RegisterFile.isFree_place ..).mp this

theorem Computed.number_lt (h₁ : Computed s l₁ r₁ s₁) (h₂ : Computed s₁ l₂ r₂ s₂) :
    l₁.number < l₂.number :=
  Nat.lt_of_lt_of_le h₁.known h₂.issued

theorem Computed.free_behind (h : Computed s l r s') {dst : Register}
    (hdst : s'.registers.isFree dst = true) : (s.used.add r).Free dst := by
  rw [← h.used]
  exact free_used.mpr hdst

/-- A value that was computed and is released again leaves the file as it was. -/
theorem Computed.release (h : Computed s l r s') (hs : Settled s) :
    (s'.registers.release l).2 = s.registers := by
  rw [h.placed]
  exact congrArg Prod.snd (hs.release_place h.free h.issued)

/-- Of two values the first is released: it is as if only the second had been computed. -/
theorem Computed.drop (h₁ : Computed s l₁ r₁ s₁) (h₂ : Computed s₁ l₂ r₂ s₂) (hs : Settled s) :
    Computed s l₂ r₂ (s₂.withRegisters (s₂.registers.release l₁).2) where
  toLater := h₁.toLater.trans (h₂.toLater.trans later_withRegisters)
  issued := Nat.le_trans h₁.locations h₂.issued
  known := h₂.known
  free := (h₁.free_of_later h₂).1
  placed := by
    have hne : l₁ ≠ l₂ := by
      rintro rfl
      exact Nat.lt_irrefl _ (h₁.number_lt h₂)
    have hr₂ := (RegisterFile.isFree_iff.mp h₂.free).2
    show (s₂.registers.release l₁).2 = _
    rw [h₂.placed, RegisterFile.release_place_of_ne hne hr₂ (h₁.settled hs).lawful]
    show (s₁.registers.release l₁).2.place r₂ _ = _
    rw [h₁.release hs]

/-- A value below the last one is released. -/
theorem Computed.drop_below {l₃ : Location} {r₃ : Register} (h : Computed s l₃ r₃ s') (hs : Settled s)
    (hl : l.number < s.nextLocation) :
    Computed (s.withRegisters (s.registers.release l).2) l₃ r₃
      (s'.withRegisters (s'.registers.release l).2) where
  scopes := h.scopes
  externs := h.externs
  stackDepth := h.stackDepth
  locations := h.locations
  labels := h.labels
  constants := h.constants
  issued := h.issued
  known := h.known
  free := RegisterFile.isFree_release h.free
  placed := by
    have hne : l ≠ l₃ := by
      rintro rfl
      exact Nat.lt_irrefl _ (Nat.lt_of_lt_of_le hl h.issued)
    have hr := (RegisterFile.isFree_iff.mp h.free).2
    show (s'.registers.release l).2 = _
    rw [h.placed, RegisterFile.release_place_of_ne hne hr hs.lawful]
    rfl

theorem Computed.of_later (h : Computed s₁ l r s₂) (hl : Later s s₁)
    (hregs : s₁.registers = s.registers) (hnext : s₁.nextLocation = s.nextLocation) :
    Computed s l r s₂ where
  toLater := hl.trans h.toLater
  issued := hnext ▸ h.issued
  known := h.known
  free := hregs ▸ h.free
  placed := hregs ▸ h.placed

/-- Of two values the last is released. -/
theorem Computed.back (h₁ : Computed s l₁ r₁ s₁) (h₂ : Computed s₁ l₂ r₂ s₂) (hs : Settled s) :
    Computed s l₁ r₁ (s₂.withRegisters (s₂.registers.release l₂).2) where
  toLater := h₁.toLater.trans (h₂.toLater.trans later_withRegisters)
  issued := h₁.issued
  known := Nat.lt_of_lt_of_le h₁.known h₂.locations
  free := h₁.free
  placed := (h₂.release (h₁.settled hs)).trans h₁.placed

end Operators

/-! ### Expressions -/

/-- The value of an expression was computed, by the code of the expression. -/
def Evaluated (s : State) (e : Expr) (context : DataType) (code : List Instr)
    (p : Location × DataType) (s' : State) : Prop :=
  ∃ r, Computed s p.1 r s' ∧ ∀ pool, s'.constants.strings <+: pool →
    ExprCode pool s.look s.used e context s.nextLabel code r p.2 s'.nextLabel

theorem ExprCode.cast {pool : List String} {look : String → Option Place} {used : Used} {e : Expr}
    {context type : DataType} {n n' : Nat} {code code' : List Instr} {r : Register}
    (h : ExprCode pool look used e context n code r type n') (hcode : code' = code) :
    ExprCode pool look used e context n code' r type n' :=
  hcode ▸ h

section Expressions

variable {names : List NameScope} {tag : Tag} {context : DataType} {e lhs rhs : Expr}

theorem Ready.issue (h : Ready names s) : Ready names s.issue := h.later later_issue rfl

/-- A value that was computed behind the handle of the whole can go by that handle. -/
theorem Computed.swap_eq {l : Location} {r : Register} (h : Computed s.issue l r s') (hs : Settled s) :
    s'.registers.swap r l ⟨s.nextLocation⟩ = .ok (s.registers.place r ⟨⟨s.nextLocation⟩, false⟩) := by
  have hissue : Settled s.issue := hs.later (Nat.le_succ _) rfl
  have hcut : s.issue.registers.index.get? ⟨s.nextLocation⟩ = none :=
    hs.index_eq_none (Nat.le_refl _)
  rw [h.placed]
  exact RegisterFile.swap_place h.free (hissue.index_eq_none h.issued) hcut
    (hissue.below.homes_eq_none h.issued)

theorem Computed.renamed {l : Location} {r : Register} (h : Computed s.issue l r s') :
    Computed s ⟨s.nextLocation⟩ r
      (s'.withRegisters (s.registers.place r ⟨⟨s.nextLocation⟩, false⟩)) where
  toLater := later_issue.trans (h.toLater.trans later_withRegisters)
  issued := Nat.le_refl _
  known := Nat.lt_of_lt_of_le h.issued (Nat.le_of_lt h.known)
  free := h.free
  placed := rfl

/-- A value that was computed behind the handle of the whole goes by that handle in the end. -/
theorem does_swap_result {l : Location} {r : Register} {Q : List Instr → Unit → State → Prop}
    (h : Computed s.issue l r s') (hs : Settled s)
    (hQ : Computed s ⟨s.nextLocation⟩ r
        (s'.withRegisters (s.registers.place r ⟨⟨s.nextLocation⟩, false⟩)) →
      Q [] () (s'.withRegisters (s.registers.place r ⟨⟨s.nextLocation⟩, false⟩))) :
    Does P (swap r l ⟨s.nextLocation⟩) s' Q :=
  (does_swap (h.swap_eq hs)).mpr (hQ h.renamed)

theorem Computed.annotated {l : Location} {r : Register} {id : NodeId} {a : Annotation}
    (h : Computed s l r s') :
    Computed s l r { s' with annotations := s'.annotations.insert id a } :=
  ⟨⟨h.scopes, h.externs, h.stackDepth, h.locations, h.labels, h.constants⟩, h.issued, h.known, h.free,
    h.placed⟩

theorem does_expressionNode {kind : NodeKind} {work : Location → Gen DataType}
    (hkind : kind.isStatement = false)
    (hwork : Does P (work ⟨s.nextLocation⟩) s.issue fun code type s' =>
      Evaluated s e context code (⟨s.nextLocation⟩, type) s') :
    Does P (expressionNode tag kind work) s (Evaluated s e context) := by
  have hno {h : Happening} {t : State} : kind.isStatement = true → P h tag kind t := by
    simp [hkind]
  simp only [expressionNode, does_bind, does_nodeEvent, does_freshLocation, does_annotate,
    does_return, List.nil_append, List.append_nil]
  refine ⟨hno, hwork.mono fun code type s' h => ⟨hno, ?_⟩⟩
  obtain ⟨r, hc, hcode⟩ := h
  exact ⟨r, hc.annotated, hcode⟩

theorem does_integerLiteral {value : UInt64} (h : Settled s) :
    Does P (integerLiteral tag value context ⟨s.nextLocation⟩) s.issue fun code type s' =>
      Evaluated s (.literal tag (.integer value)) context code (⟨s.nextLocation⟩, type) s' := by
  unfold integerLiteral
  split
  · exact does_refuse.mpr (.literal ..)
  · next hfits =>
    rw [Bool.not_eq_true] at hfits
    refine does_bind.mpr (does_freshRegister h fun r hr => ?_)
    have hfree : s.used.Free r := free_used.mpr hr
    split
    · next hbyte =>
      simp only [does_bind, does_emit, does_extend, does_return, List.nil_append, List.append_nil]
      exact ⟨r, computed_withValue hr, fun pool _ => .byte hbyte hfits hfree⟩
    · next hbyte =>
      simp only [does_bind, does_emit, does_return, List.nil_append, List.append_nil]
      exact ⟨r, computed_withValue hr, fun pool _ => .word (by simpa using hbyte) hfree⟩

/-- A string is at the place that its label tells, also in every longer pool. -/
theorem intern_label (pool : ConstantPool) (raw : String) :
    ∃ index, (pool.intern raw).1 = ConstantPool.label index ∧
      (pool.intern raw).2.strings[index]? = some raw ∧
      pool.strings <+: (pool.intern raw).2.strings := by
  unfold ConstantPool.intern
  cases hidx : pool.strings.idxOf? raw with
  | none => exact ⟨pool.strings.length, rfl, by simp, List.prefix_append ..⟩
  | some index =>
    obtain ⟨hlt, heq, -⟩ := List.idxOf?_eq_some_iff.mp hidx
    exact ⟨index, rfl, by simp [List.getElem?_eq_getElem hlt, heq], List.prefix_rfl⟩

theorem does_stringLiteral {raw : String} (h : Settled s) :
    Does P (stringLiteral raw ⟨s.nextLocation⟩) s.issue fun code type s' =>
      Evaluated s (.literal tag (.string raw)) context code (⟨s.nextLocation⟩, type) s' := by
  obtain ⟨index, hlabel, hindex, hprefix⟩ := intern_label s.constants raw
  simp only [stringLiteral, internString, does_bind, does_get, does_modify, does_return, does_emit,
    List.nil_append, List.append_nil]
  refine does_registerFor (h.index_eq_none (Nat.le_refl _)) fun r hr => ?_
  refine ⟨r, ⟨⟨rfl, rfl, rfl, Nat.le_succ _, Nat.le_refl _, hprefix⟩, Nat.le_refl _, Nat.lt_succ_self _,
    hr, rfl⟩, fun pool hpool => ?_⟩
  have hat : pool[index]? = some raw := by
    obtain ⟨rest, rfl⟩ := hpool
    obtain ⟨hlt, -⟩ := List.getElem?_eq_some_iff.mp hindex
    exact (List.getElem?_append_left hlt).trans hindex
  show ExprCode pool s.look s.used _ _ _ [.lea r (.data (s.constants.intern raw).1)] r .int _
  rw [hlabel]
  exact .string hat (free_used.mpr hr)

theorem does_variableValue {name : String} (h : Ready names s)
    (hname : ∃ n ∈ names, name ∈ n.vars) :
    Does P (variableValue tag name ⟨s.nextLocation⟩) s.issue fun code type s' =>
      Evaluated s (.var tag name) context code (⟨s.nextLocation⟩, type) s' := by
  obtain ⟨v, hv⟩ := Option.isSome_iff_exists.mp (h.visible name hname)
  obtain ⟨place, hplace, htype⟩ := variablePlace_isSome (h.reachable name v hv)
  have hlook : s.look name = some place := (look_eq hv).trans hplace
  have hfind : s.issue.scopes.findVariable? name = some v := hv
  simp only [variableValue, lookup, does_bind, does_get, hfind, does_return, List.nil_append,
    List.append_nil]
  refine does_freshRegister h.toSettled fun r hr => ?_
  have hc := computed_withValue hr
  have hlook' : (s.withValue r).look name = some place := by rw [hc.look h, hlook]
  refine (does_loadVariable (hc.settled h.toSettled) ((look_eq (by exact hv)).symm.trans hlook')).mono
    fun code _ s' hend => ?_
  obtain ⟨hlater, hregs, hlabel, way, operand, hway, rfl⟩ := hend
  refine ⟨r, ⟨hc.toLater.trans hlater, hc.issued, Nat.lt_of_lt_of_le hc.known hlater.locations, hr,
    hregs.trans hc.placed⟩, fun pool _ => ?_⟩
  rw [hc.used] at hway
  rw [hlabel, ← htype]
  exact .var hlook (free_used.mpr hr) hway

theorem does_unary {op : UnaryOp} (h : Ready names s)
    (he : ∀ s, Ready names s → Does P (expression e (op.operandContext context)) s
      (Evaluated s e (op.operandContext context))) :
    Does P (expression (.unary tag op e) context) s (Evaluated s (.unary tag op e) context) := by
  rw [expression]
  refine does_expressionNode rfl (does_bind.mpr ((he s.issue h.issue).mono fun code p s₁ h₁ => ?_))
  obtain ⟨r, hc₁, hcode⟩ := h₁
  have hs := h.issue.toSettled
  refine does_bind.mpr (does_copyOf (hc₁.settled hs) hc₁.register fun dst hdst => ?_)
  have hc₂ := computed_withValue hdst
  simp only [does_bind, does_applyUnary, does_release, does_return, List.nil_append, List.append_nil]
  refine does_swap_result (hc₁.drop hc₂ hs) h.toSettled fun hc => ⟨dst, hc, fun pool hpool => ?_⟩
  exact (ExprCode.unary (hcode pool hpool) (hc₁.free_behind hdst)).cast (by simp)

theorem does_eager {op : ArithOp ⊕ Comparison} (h : Ready names s)
    (hl : ∀ s, Ready names s → Does P (expression lhs .int) s (Evaluated s lhs .int))
    (hr : ∀ s, Ready names s → Does P (expression rhs .int) s (Evaluated s rhs .int)) :
    Does P (expressionNode tag .binary (eager op (expression lhs .int) (expression rhs .int))) s
      (Evaluated s (.binary tag (eagerOp op) lhs rhs) context) := by
  refine does_expressionNode rfl (does_bind.mpr ((hl s.issue h.issue).mono fun c₁ p₁ s₁ h₁ => ?_))
  obtain ⟨r₁, hc₁, hcode₁⟩ := h₁
  have hs := h.issue.toSettled
  refine does_bind.mpr (does_copyOf (hc₁.settled hs) hc₁.register fun dst hdst => ?_)
  have hc₂ := computed_withValue hdst
  have h₁ := hc₁.ready h.issue
  have h₂ := hc₂.ready h₁
  refine does_bind.mpr ((hr _ h₂).mono fun c₂ p₂ s₃ h₃ => ?_)
  obtain ⟨r₂, hc₃, hcode₂⟩ := h₃
  -- the copy stays in the file while the operands, one below it and one above, are released
  have hleft : p₁.1.number < (s₁.withValue dst).nextLocation :=
    Nat.lt_of_lt_of_le hc₁.known hc₂.locations
  have hc₃' := hc₃.drop_below h₂.toSettled hleft
  have hc := (hc₁.drop hc₂ hs).back hc₃' hs
  have hdup : s₃.registers.registerOf? ⟨s₁.nextLocation⟩ = some dst :=
    hc₃.registerOf? h₂.toSettled hc₂.register
  simp only [does_bind, does_registerOf hc₃.register, does_registerOf hdup, does_applyEager,
    does_release, does_return, List.nil_append, List.append_nil]
  refine does_swap_result hc h.toSettled fun hc => ⟨dst, hc, fun pool hpool => ?_⟩
  have hcode₁ := hcode₁ pool (hc₃.constants.trans hpool)
  have hcode₂ := hcode₂ pool hpool
  rw [hc₂.used, hc₁.used, hc₂.look h₁, hc₁.look h.issue] at hcode₂
  rw [hc₃.used, hc₂.used, hc₁.used]
  exact (ExprCode.eager hcode₁ (hc₁.free_behind hdst) hcode₂).cast (by simp)

theorem does_logic {op : LogicOp} (h : Ready names s)
    (hl : ∀ s, Ready names s → Does P (expression lhs .int) s (Evaluated s lhs .int))
    (hr : ∀ s, Ready names s → Does P (expression rhs .int) s (Evaluated s rhs .int)) :
    Does P (expressionNode tag .binary (shortCircuit op (expression lhs .int) (expression rhs .int))) s
      (Evaluated s (.binary tag (.logic op) lhs rhs) context) := by
  refine does_expressionNode rfl (does_bind.mpr (does_freshLabel.mpr ?_))
  -- the work starts behind a new handle and a new label
  have h₀ : Ready names s.issue.issueLabel := h.issue.later later_issueLabel rfl
  refine does_bind.mpr ((hl _ h₀).mono fun c₁ p₁ s₁ h₁ => ?_)
  obtain ⟨r₁, hc₁, hcode₁⟩ := h₁
  simp only [does_bind, does_freshLocation]
  refine does_freshRegister (hc₁.settled h₀.toSettled) fun dst hdst => ?_
  have hc₂ := computed_withValue hdst
  have hleft := hc₂.registerOf? (hc₁.settled h₀.toSettled) hc₁.register
  have hc₂' := hc₁.drop hc₂ h₀.toSettled
  simp only [does_truthOf hleft, does_release, does_emit]
  refine (hr _ (hc₂'.ready h₀)).mono fun c₂ p₂ s₃ h₃ => ?_
  obtain ⟨r₂, hc₃, hcode₂⟩ := h₃
  have hc := hc₂'.back hc₃ h₀.toSettled
  simp only [does_truthOf hc₃.register, does_return, List.nil_append, List.append_nil]
  refine does_swap_result (hc.of_later later_issueLabel rfl rfl) h.toSettled
    fun hc => ⟨dst, hc, fun pool hpool => ?_⟩
  have hcode₁ := hcode₁ pool (hc₃.constants.trans hpool)
  have hcode₂ := hcode₂ pool hpool
  rw [hc₂'.used, hc₂'.look h₀] at hcode₂
  exact (ExprCode.logic hcode₁ (hc₁.free_behind hdst) hcode₂).cast (by simp)

/-- Code for a well-formed expression brings its value into a register that was free. -/
theorem does_expression (e : Expr) : ∀ (context : DataType) (s : State), e.WellFormed names →
    Ready names s → Does P (expression e context) s (Evaluated s e context) := by
  induction e with
  | literal tag value =>
    intro context s _ h
    cases value with
    | integer value => exact does_expressionNode rfl (does_integerLiteral h.toSettled)
    | string raw => exact does_expressionNode rfl (does_stringLiteral h.toSettled)
  | var tag name =>
    intro context s hname h
    exact does_expressionNode rfl (does_variableValue h hname)
  | unary tag op e ih =>
    intro context s he h
    exact does_unary h fun s hs => ih _ s he hs
  | binary tag op lhs rhs ihl ihr =>
    rintro context s ⟨hl, hr⟩ h
    have hl := fun s hs => ihl .int s hl hs
    have hr := fun s hs => ihr .int s hr hs
    cases op with
    | arith op => exact @does_eager P s names tag context lhs rhs (.inl op) h hl hr
    | compare op => exact @does_eager P s names tag context lhs rhs (.inr op) h hl hr
    | logic op => exact does_logic h hl hr
  | misplaced tag kind =>
    intro context s he
    exact he.elim

end Expressions

end ProcLang.Generation

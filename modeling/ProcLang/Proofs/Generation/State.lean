import ProcLang.Proofs.Generation.Code

/-!
What the steps of code generation ensure.  The marks of interest are the reports of statements,
since a statement starts and ends with the registers in a known arrangement; errors are tolerable
if a program that was read can still run into them.
-/

namespace ProcLang

/-- The kinds of statements. -/
def NodeKind.isStatement : NodeKind → Bool
  | binary | unary | literal | var => false
  | _ => true

theorem NodeKind.name_injective : Function.Injective NodeKind.name := by
  intro a b h
  cases a <;> cases b <;> first | rfl | exact absurd h (by decide)

namespace Generation

open Stage (Ensures)

/-- The report of the start or the end of a node. -/
def nodeMark (happening : Happening) (tag : Tag) (kind : NodeKind) : Mark :=
  .event
    { mode := .codegen
      happening := happening
      span := some tag.span
      node := some tag.id
      text := some kind.name }

/-- Reports of statements are made in states as `P` says; nothing is said of the other marks. -/
def Watch (P : Happening → Tag → NodeKind → State → Prop) (m : Mark) (s : State) : Prop :=
  ∀ happening tag kind, kind.isStatement = true → m = nodeMark happening tag kind →
    P happening tag kind s

/-- The errors that remain for a well-formed program. -/
inductive Tolerable : CompileError → Prop
  | literal (span : Span) (value : UInt64) (type : DataType) :
      Tolerable (.semantic (some span) (.literalTooLarge value type))
  | voidReturn (span : Span) : Tolerable (.semantic (some span) .voidReturnsValue)
  | argumentCount (span : Span) (name : String) (expected got : Nat) :
      Tolerable (.semantic (some span) (.argumentCount name expected got))
  | stackArgument (span : Span) (number : Nat) (name : String) :
      Tolerable (.semantic (some span) (.stackArgument number name))
  | noRegister : Tolerable (.resource .noRegister)

/-- A part of code generation reports statements as `P` says, fails tolerably or ends as `Q` says of
its code, its value and the last state. -/
def Does {α : Type} (P : Happening → Tag → NodeKind → State → Prop) (x : Gen α) (s : State)
    (Q : List Instr → α → State → Prop) : Prop :=
  Ensures (Watch P) Tolerable x s fun a s' => Q (codeOf (x s).marks) a s'

variable {P : Happening → Tag → NodeKind → State → Prop} {α β : Type} {s : State}

theorem watch_instr (i : Instr) : Watch P (.instr i) s := by
  intro _ _ _ _ h
  cases h

theorem watch_register {e : Event} (he : e.node = none) : Watch P (.event e) s := by
  intro _ _ _ _ h
  rw [Mark.event.inj h] at he
  cases he

theorem watch_node {happening : Happening} {tag : Tag} {kind : NodeKind} :
    Watch P (nodeMark happening tag kind) s ↔
      (kind.isStatement = true → P happening tag kind s) := by
  constructor
  · exact fun h hk => h happening tag kind hk rfl
  · intro h happening' tag' kind' hk heq
    obtain ⟨i, p⟩ := tag
    obtain ⟨i', p'⟩ := tag'
    simp only [nodeMark, Mark.event.injEq, Event.mk.injEq, Option.some.injEq] at heq
    obtain ⟨-, rfl, rfl, hname, rfl, -⟩ := heq
    cases NodeKind.name_injective hname
    exact h hk

/-! ### Rules -/

theorem codeOf_append (ms ms' : List (Mark × State)) :
    codeOf (ms ++ ms') = codeOf ms ++ codeOf ms' :=
  List.filterMap_append

theorem Does.mono {x : Gen α} {Q Q' : List Instr → α → State → Prop} (h : Does P x s Q)
    (hQ : ∀ c a s', Q c a s' → Q' c a s') : Does P x s Q' :=
  Ensures.mono h fun a s' => hQ _ a s'

@[simp] theorem does_return {a : α} {Q : List Instr → α → State → Prop} :
    Does P (pure a) s Q ↔ Q [] a s :=
  Stage.ensures_return

@[simp] theorem does_fail {e : CompileError} {Q : List Instr → α → State → Prop} :
    Does P (Stage.fail e : Gen α) s Q ↔ Tolerable e :=
  Stage.ensures_fail

@[simp] theorem does_get {Q : List Instr → State → State → Prop} :
    Does P Stage.get s Q ↔ Q [] s s :=
  Stage.ensures_get

@[simp] theorem does_modify {f : State → State} {Q : List Instr → Unit → State → Prop} :
    Does P (Stage.modify f) s Q ↔ Q [] () (f s) :=
  Stage.ensures_modify

theorem does_bind_eq {x : Gen α} {f : α → Gen β} {Q : List Instr → β → State → Prop} :
    Does P (Stage.bind x f) s Q ↔
      Does P x s fun c a s' => Does P (f a) s' fun c' b s'' => Q (c ++ c') b s'' := by
  unfold Does
  rw [Stage.ensures_bind_eq]
  unfold Ensures Stage.bind
  rcases x s with ⟨marks, e | a, s'⟩
  · rfl
  · simp only [codeOf_append]

@[simp] theorem does_bind {x : Gen α} {f : α → Gen β} {Q : List Instr → β → State → Prop} :
    Does P (x >>= f) s Q ↔
      Does P x s fun c a s' => Does P (f a) s' fun c' b s'' => Q (c ++ c') b s'' :=
  does_bind_eq

@[simp] theorem does_map {x : Gen α} {f : α → β} {Q : List Instr → β → State → Prop} :
    Does P (f <$> x) s Q ↔ Does P x s fun c a s' => Q c (f a) s' := by
  rw [map_eq_pure_bind, does_bind]
  simp only [does_return, List.append_nil]

/-! ### Calls -/

/-- The bytes on the stack that the run has counted where it writes a call, call by call. -/
def callDepths (marks : List (Mark × State)) : List Nat :=
  marks.filterMap fun
    | (.instr (.call _), s) => some s.stackDepth
    | _ => none

theorem callDepths_append (ms ms' : List (Mark × State)) :
    callDepths (ms ++ ms') = callDepths ms ++ callDepths ms' :=
  List.filterMap_append

theorem callDepths_of_callFree {ms : List (Mark × State)} (h : CallFree (codeOf ms)) :
    callDepths ms = [] := by
  refine List.filterMap_eq_nil_iff.mpr fun p hp => ?_
  obtain ⟨m, t⟩ := p
  cases m with
  | event e => rfl
  | instr i =>
    cases i with
    | call name =>
      have hmem : .call name ∈ codeOf ms := List.mem_filterMap.mpr ⟨_, hp, rfl⟩
      exact absurd hmem (h name)
    | _ => rfl

/-- As `Does`, for a part that may write calls: `Q` also sees the depths at its calls. -/
def Emits {α : Type} (P : Happening → Tag → NodeKind → State → Prop) (x : Gen α) (s : State)
    (Q : List Instr → List Nat → α → State → Prop) : Prop :=
  Ensures (Watch P) Tolerable x s fun a s' =>
    Q (codeOf (x s).marks) (callDepths (x s).marks) a s'

section Emits

variable {Q : List Instr → List Nat → α → State → Prop}

theorem Emits.mono {x : Gen α} {Q' : List Instr → List Nat → α → State → Prop} (h : Emits P x s Q)
    (hQ : ∀ c ds a s', Q c ds a s' → Q' c ds a s') : Emits P x s Q' :=
  Ensures.mono h fun a s' => hQ _ _ a s'

/-- A part without calls has no depths at calls. -/
theorem emits_iff {x : Gen α} (h : Does P x s fun c _ _ => CallFree c) :
    Emits P x s Q ↔ Does P x s fun c a s' => Q c [] a s' := by
  unfold Emits Does Ensures at *
  refine and_congr_right fun _ => ?_
  have h := h.2
  split
  · next a ha =>
    rw [ha] at h
    rw [callDepths_of_callFree h]
  · rfl

/-- The rule of a part without calls that has a rule already. -/
theorem emits_of_rule {x : Gen α} {c : List Instr} {a : α} {s' : State}
    (h : ∀ Q, Does P x s Q ↔ Q c a s') (hc : CallFree c) : Emits P x s Q ↔ Q c [] a s' :=
  (emits_iff ((h _).mpr hc)).trans (h _)

theorem Does.emits {x : Gen α} {Q : List Instr → α → State → Prop} (h : Does P x s Q)
    (hQ : ∀ c a s', Q c a s' → CallFree c) :
    Emits P x s fun c ds a s' => ds = [] ∧ Q c a s' :=
  (emits_iff (h.mono hQ)).mpr (h.mono fun _ _ _ hq => ⟨rfl, hq⟩)

theorem emits_return {a : α} : Emits P (pure a) s Q ↔ Q [] [] a s :=
  emits_of_rule (fun _ => does_return) callFree_nil

theorem emits_get {Q : List Instr → List Nat → State → State → Prop} :
    Emits P Stage.get s Q ↔ Q [] [] s s :=
  emits_of_rule (fun _ => does_get) callFree_nil

theorem emits_modify {f : State → State} {Q : List Instr → List Nat → Unit → State → Prop} :
    Emits P (Stage.modify f) s Q ↔ Q [] [] () (f s) :=
  emits_of_rule (fun _ => does_modify) callFree_nil

theorem emits_bind_eq {x : Gen α} {f : α → Gen β} {Q : List Instr → List Nat → β → State → Prop} :
    Emits P (Stage.bind x f) s Q ↔ Emits P x s fun c ds a s' =>
      Emits P (f a) s' fun c' ds' b s'' => Q (c ++ c') (ds ++ ds') b s'' := by
  unfold Emits
  rw [Stage.ensures_bind_eq]
  unfold Ensures Stage.bind
  rcases x s with ⟨marks, e | a, s'⟩
  · rfl
  · simp only [codeOf_append, callDepths_append]

theorem emits_bind {x : Gen α} {f : α → Gen β} {Q : List Instr → List Nat → β → State → Prop} :
    Emits P (x >>= f) s Q ↔ Emits P x s fun c ds a s' =>
      Emits P (f a) s' fun c' ds' b s'' => Q (c ++ c') (ds ++ ds') b s'' :=
  emits_bind_eq

end Emits

/-! ### Changes of the state -/

namespace State

/-- The state with one more handle given out. -/
def issue (s : State) : State := { s with nextLocation := s.nextLocation + 1 }

/-- The state with one more label given out. -/
def issueLabel (s : State) : State := { s with nextLabel := s.nextLabel + 1 }

/-- The state with another number of bytes on the stack. -/
def withDepth (s : State) (bytes : Nat) : State := { s with stackDepth := bytes }

@[simp] theorem stackDepth_withDepth {bytes : Nat} : (s.withDepth bytes).stackDepth = bytes := rfl

@[simp] theorem withDepth_withDepth {bytes bytes' : Nat} :
    (s.withDepth bytes).withDepth bytes' = s.withDepth bytes' := rfl

@[simp] theorem withDepth_stackDepth : s.withDepth s.stackDepth = s := rfl

/-- The state with another register file. -/
def withRegisters (s : State) (f : RegisterFile) : State := { s with registers := f }

end State

/-! ### Marks and small changes -/

section Steps

variable {Q : List Instr → Unit → State → Prop}

@[simp] theorem does_emit {i : Instr} : Does P (emit i) s Q ↔ Q [i] () s :=
  Stage.ensures_mark.trans (and_iff_right (watch_instr i))

@[simp] theorem does_comment {options : Options} {text : String} :
    Does P (comment options text) s Q ↔ Q (note options text) () s := by
  unfold comment note
  split
  · exact does_emit
  · exact does_return

@[simp] theorem does_nodeEvent {happening : Happening} {tag : Tag} {kind : NodeKind} :
    Does P (nodeEvent happening tag kind) s Q ↔
      (kind.isStatement = true → P happening tag kind s) ∧ Q [] () s := by
  rw [← watch_node]
  exact Stage.ensures_mark

@[simp] theorem does_registerEvent {happening : Happening} {r : Register} {l : Location} :
    Does P (registerEvent happening r l) s Q ↔ Q [] () s :=
  Stage.ensures_mark.trans (and_iff_right (watch_register rfl))

@[simp] theorem does_copy {dst src : Register} :
    Does P (copy dst src) s Q ↔ Q [copyInstr dst src] () s := does_emit

@[simp] theorem does_extend {r : Register} {type : DataType} :
    Does P (extend r type) s Q ↔ Q (extendCode r type) () s := by
  cases type with
  | u8 => exact does_emit
  | s8 => exact does_emit
  | void => exact does_return
  | int => exact does_return

@[simp] theorem does_setDepth {f : Nat → Nat} :
    Does P (setDepth f) s Q ↔ Q [] () (s.withDepth (f s.stackDepth)) :=
  does_modify

@[simp] theorem does_prologue :
    Does P prologue s Q ↔ Q [.push .rbp, copyInstr .rbp .rsp] () s := by
  simp [prologue]

@[simp] theorem does_epilogue : Does P epilogue s Q ↔ Q epilogueCode () s := by
  simp [epilogue, epilogueCode]

@[simp] theorem does_adjustStack {op : AluOp} {bytes : Nat} :
    Does P (adjustStack op bytes) s Q ↔ Q [adjustInstr op bytes] () s := does_emit

@[simp] theorem does_annotate {id : NodeId} {l : Location} {type : DataType} :
    Does P (annotate id l type) s Q ↔
      Q [] () { s with annotations := s.annotations.insert id ⟨l, type⟩ } :=
  does_modify

@[simp] theorem does_freshLocation {Q : List Instr → Location → State → Prop} :
    Does P freshLocation s Q ↔
      Q [] ⟨s.nextLocation⟩ s.issue := by
  simp only [freshLocation, does_bind, does_get, does_modify, does_return]
  rfl

@[simp] theorem does_freshLabel {name : String} {Q : List Instr → Label → State → Prop} :
    Does P (freshLabel name) s Q ↔
      Q [] ⟨s.nextLabel, name⟩ s.issueLabel := by
  simp only [freshLabel, does_bind, does_get, does_modify, does_return]
  rfl

theorem does_refuse {tag : Tag} {cause : SemanticCause} {Q : List Instr → α → State → Prop} :
    Does P (refuse tag cause : Gen α) s Q ↔ Tolerable (.semantic (some tag.span) cause) :=
  does_fail

section Emits

variable {Q : List Instr → List Nat → Unit → State → Prop}

theorem emits_comment {options : Options} {text : String} :
    Emits P (comment options text) s Q ↔ Q (note options text) [] () s :=
  emits_of_rule (fun _ => does_comment) callFree_note

theorem emits_emit_call {name : String} :
    Emits P (emit (.call name)) s Q ↔ Q [.call name] [s.stackDepth] () s :=
  Stage.ensures_mark.trans (and_iff_right (watch_instr _))

theorem emits_label {l : Label} : Emits P (emit (.label l)) s Q ↔ Q [.label l] [] () s :=
  emits_of_rule (fun _ => does_emit) (by simp)

theorem emits_jmp {l : Label} : Emits P (emit (.jmp l)) s Q ↔ Q [.jmp l] [] () s :=
  emits_of_rule (fun _ => does_emit) (by simp)

theorem emits_nodeEvent {happening : Happening} {tag : Tag} {kind : NodeKind} :
    Emits P (nodeEvent happening tag kind) s Q ↔
      (kind.isStatement = true → P happening tag kind s) ∧ Q [] [] () s := by
  rw [← watch_node]
  exact Stage.ensures_mark

theorem emits_setDepth {f : Nat → Nat} :
    Emits P (setDepth f) s Q ↔ Q [] [] () (s.withDepth (f s.stackDepth)) :=
  emits_modify

theorem emits_freshLabel {name : String} {Q : List Instr → List Nat → Label → State → Prop} :
    Emits P (freshLabel name) s Q ↔ Q [] [] ⟨s.nextLabel, name⟩ s.issueLabel :=
  emits_of_rule (fun _ => does_freshLabel) callFree_nil

end Emits

/-! ### Registers -/

@[simp] theorem does_setRegisters {f : RegisterFile} :
    Does P (setRegisters f) s Q ↔ Q [] () (s.withRegisters f) :=
  does_modify

/-- A value that is new gets a free register, or there is none left. -/
theorem does_registerFor {l : Location} {Q : List Instr → Register → State → Prop}
    (hl : s.registers.index.get? l = none)
    (h : ∀ r, s.registers.isFree r = true →
      Q [] r (s.withRegisters (s.registers.place r ⟨l, false⟩))) :
    Does P (registerFor l) s Q := by
  simp only [registerFor, does_bind, does_get, RegisterFile.allocate_of_new hl]
  cases hr : s.registers.firstFreeExcept? [] with
  | none =>
    simp only [orLack, does_fail]
    exact .noRegister
  | some r =>
    have hfree := (RegisterFile.isFree_of_firstFreeExcept? hr).1
    simpa [orLack] using h r hfree

theorem does_registerOf {l : Location} {r : Register} {Q : List Instr → Register → State → Prop}
    (hl : s.registers.registerOf? l = some r) : Does P (registerOf l) s Q ↔ Q [] r s := by
  simp only [registerOf, does_bind, does_get, hl, Stage.ofOption]
  exact does_return

@[simp] theorem does_release {l : Location} :
    Does P (release l) s Q ↔ Q [] () (s.withRegisters (s.registers.release l).2) := by
  simp only [release, does_bind, does_get, does_setRegisters]
  split
  · exact does_registerEvent
  · exact does_return

theorem does_swap {r : Register} {old new : Location} {f : RegisterFile}
    (hf : s.registers.swap r old new = .ok f) :
    Does P (swap r old new) s Q ↔ Q [] () (s.withRegisters f) := by
  simp [swap, hf, orLack]

theorem does_relocate {source target : Register} {l : Location} {f : RegisterFile}
    (hf : s.registers.relocate source target = .ok (l, f)) :
    Does P (relocate source target) s Q ↔
      Q [copyInstr target source] () (s.withRegisters f) := by
  simp [relocate, hf, orLack]

end Steps

/-! ### What expressions and statements leave alone -/

/-- A later state, in which the scopes and the stack are as before: handles, labels and strings were
added at most. -/
structure Later (s s' : State) : Prop where
  scopes : s'.scopes = s.scopes
  externs : s'.externs = s.externs
  stackDepth : s'.stackDepth = s.stackDepth
  locations : s.nextLocation ≤ s'.nextLocation
  labels : s.nextLabel ≤ s'.nextLabel
  constants : s.constants.strings <+: s'.constants.strings

theorem Later.refl (s : State) : Later s s :=
  ⟨rfl, rfl, rfl, Nat.le_refl _, Nat.le_refl _, List.prefix_rfl⟩

theorem later_issue : Later s s.issue :=
  ⟨rfl, rfl, rfl, Nat.le_succ _, Nat.le_refl _, List.prefix_rfl⟩

theorem later_issueLabel : Later s s.issueLabel :=
  ⟨rfl, rfl, rfl, Nat.le_refl _, Nat.le_succ _, List.prefix_rfl⟩

theorem later_withRegisters {f : RegisterFile} : Later s (s.withRegisters f) :=
  ⟨rfl, rfl, rfl, Nat.le_refl _, Nat.le_refl _, List.prefix_rfl⟩

theorem Later.trans {s t u : State} (h : Later s t) (h' : Later t u) : Later s u where
  scopes := h'.scopes.trans h.scopes
  externs := h'.externs.trans h.externs
  stackDepth := h'.stackDepth.trans h.stackDepth
  locations := Nat.le_trans h.locations h'.locations
  labels := Nat.le_trans h.labels h'.labels
  constants := h.constants.trans h'.constants

end Generation

end ProcLang

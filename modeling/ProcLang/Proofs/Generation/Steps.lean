import ProcLang.Generation.Program
import ProcLang.Proofs.Asm.Line
import ProcLang.Proofs.Register.Session
import ProcLang.Proofs.Stage

/-!
The steps of code generation between the reports of nodes.  They are put together from a few moves: they
write instructions, ask for registers and give them back, put strings among the constants, and change what
has to do with neither.  `Step` says this of a part of code generation, along with the strings that it
comes to and what is known of its value.

Steps write no comment, import nothing, look at no option and never ask to be cancelled, and they keep the
register file lawful.  If the names they are given are neat, so are those in the instructions they write.
Most steps are quiet: they leave the scopes and what is known of the expressions alone.
-/

namespace ProcLang

/-- The labels of a scope are neat. -/
def Scope.Neat (strict : Prop) (scope : Scope) : Prop :=
  ∀ l, scope.startLabel = some l ∨ scope.endLabel = some l → ProcLang.Neat strict l.name

/-- The operand is the label of a string. -/
def Operand.isData : Operand → Bool
  | .data _ => true
  | _ => false

/-- The operands of an instruction. -/
def Instr.operandList : Instr → List Operand
  | .mov _ dst src | .alu _ _ dst src | .cmp _ dst src | .test _ dst src => [dst, src]
  | .movzx _ src | .movsx _ src | .lea _ src | .neg _ src | .idiv _ src => [src]
  | _ => []

/-- The instruction refers to a string. -/
def Instr.namesData (i : Instr) : Bool := i.operandList.any Operand.isData

namespace Generation

open Stage (Law)

/-! ### What is asked of a step -/

/-- The file is lawful, and the labels of the scopes and the imported names are neat. -/
structure State.Good (strict : Prop) (s : State) : Prop where
  lawful : s.registers.Lawful
  scopes : ∀ scope ∈ s.scopes, scope.Neat strict
  externs : ∀ name ∈ s.externs, ProcLang.Neat strict name

theorem good_of_lawful {s : State} (h : s.registers.Lawful) : s.Good False where
  lawful := h
  scopes := fun _ _ _ _ => False.elim
  externs := fun _ _ => False.elim

/-- A plain instruction, or a report of code generation that is not about a node. -/
def Mark.Plain (strict : Prop) : Mark → Prop
  | .instr i => i.Plain strict
  | .event e => e.mode = .codegen ∧ e.happening ≠ .nodeStart ∧ e.happening ≠ .nodeEnd

/-- The scopes and what is known of the expressions are as before; handles were given out at most. -/
structure State.Quiet (s s' : State) : Prop where
  scopes : s'.scopes = s.scopes
  annotations : s'.annotations = s.annotations
  locations : s.nextLocation ≤ s'.nextLocation

theorem State.Quiet.refl (s : State) : s.Quiet s := ⟨rfl, rfl, Nat.le_refl _⟩

theorem State.Quiet.trans {s t u : State} (h : s.Quiet t) (h' : t.Quiet u) : s.Quiet u :=
  ⟨h'.scopes.trans h.scopes, h'.annotations.trans h.annotations, Nat.le_trans h.locations h'.locations⟩

/-- What every step keeps, and what a quiet one keeps. -/
def law (strict quiet : Prop) : Law Mark State where
  state := State.Good strict
  mark := Mark.Plain strict
  error e := e ≠ .cancelled
  change s s' := s'.externs = s.externs ∧ (quiet → s.Quiet s')
  refl s := ⟨rfl, fun _ => .refl s⟩
  trans h h' := ⟨h'.1.trans h.1, fun hq => (h.2 hq).trans (h'.2 hq)⟩

/-! ### Moves -/

/-- A step is put together from moves.  It comes to the strings in their order, though a failure may leave
out any of them, and the values it gives are in `V`. -/
inductive Step (strict quiet : Prop) : {α : Type} → List String → (α → Prop) → Gen α → Prop
  | pure {α : Type} {V : α → Prop} {a : α} : V a → Step strict quiet [] V (Pure.pure a)
  | fail {α : Type} {raws : List String} {V : α → Prop} {e : CompileError} : e ≠ .cancelled →
    Step strict quiet raws V (Stage.fail e : Gen α)
  | seq {α β : Type} {V : α → Prop} {W : β → Prop} {raws raws' : List String} {x : Gen α} {f : α → Gen β} :
    Step strict quiet raws V x → (∀ a, V a → Step strict quiet raws' W (f a)) →
    Step strict quiet (raws ++ raws') W (x >>= f)
  | get : Step strict quiet [] (State.Good strict) Stage.get
  | modify {f : State → State} : (∀ s, (f s).registers = s.registers) →
    (∀ s, (f s).externs = s.externs) → (∀ s, (f s).constants = s.constants) → (∀ s : State, s.Quiet (f s)) →
    Step strict quiet [] (fun _ => True) (Stage.modify f)
  | setScopes {f : ScopeStack → ScopeStack} : ¬quiet →
    (∀ scopes, (∀ scope ∈ scopes, scope.Neat strict) → ∀ scope ∈ f scopes, scope.Neat strict) →
    Step strict quiet [] (fun _ => True) (Stage.modify fun s => { s with scopes := f s.scopes })
  | emit {i : Instr} : i.Plain strict → i.namesData = false → Step strict quiet [] (fun _ => True) (emit i)
  | registerFor {l : Location} : Step strict quiet [] (fun _ => True) (registerFor l)
  | claimParameter {r : Register} {l : Location} :
    Step strict quiet [] (fun _ => True) (claimParameter r l)
  | release {l : Location} : Step strict quiet [] (fun _ => True) (release l)
  | swap {r : Register} {old new : Location} : Step strict quiet [] (fun _ => True) (swap r old new)
  | relocate {source target : Register} : Step strict quiet [] (fun _ => True) (relocate source target)
  | string {raw : String} {l : Location} : Step strict quiet [raw] (· = .int) (stringLiteral raw l)

/-- A plain step: it comes to no string. -/
abbrev Plain (strict quiet : Prop) {α : Type} (x : Gen α) : Prop :=
  Step strict quiet [] (fun _ => True) x

namespace Step

variable {strict quiet : Prop} {α β : Type} {V : α → Prop} {W : β → Prop} {raws : List String}
  {x y : Gen α} {f : α → Gen β}

/-- One step behind another, whose values are known. -/
theorem given (hx : Step strict quiet [] V x) (hf : ∀ a, V a → Step strict quiet raws W (f a)) :
    Step strict quiet raws W (x >>= f) :=
  .seq hx hf

theorem bind (hx : Step strict quiet [] V x) (hf : ∀ a, Step strict quiet raws W (f a)) :
    Step strict quiet raws W (x >>= f) :=
  .seq hx fun a _ => hf a

theorem ite {c : Prop} [Decidable c] (hx : Step strict quiet raws V x) (hy : Step strict quiet raws V y) :
    Step strict quiet raws V (if c then x else y) := by
  split
  · exact hx
  · exact hy

theorem ofOption {e : CompileError} (h : e ≠ .cancelled) (a : Option α) :
    Plain strict quiet (Stage.ofOption e a : Gen α) := by
  cases a with
  | some a => exact .pure trivial
  | none => exact .fail h

theorem forEach {f : α → Gen Unit} (hf : ∀ a, Plain strict quiet (f a)) :
    ∀ as : List α, Plain strict quiet (Stage.forEach f as)
  | [] => .pure trivial
  | a :: as => bind (hf a) fun _ => forEach hf as

end Step

theorem error_resource {cause : ResourceCause} : CompileError.resource cause ≠ .cancelled :=
  fun h => by cases h

theorem error_semantic {span : Option Span} {cause : SemanticCause} :
    CompileError.semantic span cause ≠ .cancelled :=
  fun h => by cases h

/-! ### What steps keep -/

section Laws

variable {strict quiet : Prop} {α : Type} {l : Location} {r : Register}

theorem gives_registerEvent {happening : Happening} (hstart : happening ≠ .nodeStart)
    (hend : happening ≠ .nodeEnd) : (law strict quiet).Keeps (registerEvent happening r l) :=
  .mark ⟨rfl, hstart, hend⟩

theorem gives_orLack (a : Except ResourceCause α) :
    (law strict quiet).Gives (fun v => a = .ok v) (orLack a) := by
  cases a with
  | ok a => exact .pure rfl
  | error cause => exact .fail error_resource

theorem gives_setRegisters {f : RegisterFile} (hf : f.Lawful) :
    (law strict quiet).Keeps (setRegisters f) :=
  .modify fun _ hs => ⟨⟨hf, hs.scopes, hs.externs⟩, rfl, fun _ => ⟨rfl, rfl, Nat.le_refl _⟩⟩

theorem gives_registerFor : (law strict quiet).Keeps (registerFor l) := by
  refine .given .get fun s hs => .given (gives_orLack _) fun found hfound => ?_
  refine .bind (gives_setRegisters (hs.lawful.allocate hfound)) fun _ => ?_
  split
  · exact .bind (gives_registerEvent (by decide) (by decide)) fun _ => .pure trivial
  · exact .pure trivial

theorem gives_claimParameter : (law strict quiet).Keeps (claimParameter r l) := by
  refine .given .get fun s hs => .given (gives_orLack _) fun f hf => ?_
  exact .bind (gives_setRegisters (hs.lawful.claim hf)) fun _ => gives_registerEvent (by decide) (by decide)

theorem gives_release : (law strict quiet).Keeps (release l) := by
  refine .given .get fun s hs => .bind (gives_setRegisters hs.lawful.release) fun _ => ?_
  split
  · exact gives_registerEvent (by decide) (by decide)
  · exact .pure trivial

theorem gives_relocate {target : Register} : (law strict quiet).Keeps (relocate r target) := by
  refine .bind (.mark ⟨trivial, trivial⟩) fun _ => .given .get fun s hs =>
    .given (gives_orLack _) fun moved hmoved => ?_
  exact .bind (gives_setRegisters (hs.lawful.relocate hmoved)) fun _ =>
    .bind (gives_registerEvent (by decide) (by decide)) fun _ => gives_registerEvent (by decide) (by decide)

theorem neat_label (index : Nat) : Neat strict (ConstantPool.label index) :=
  .append (neat_of_all (by decide)) (neat_natural index)

theorem gives_stringLiteral {raw : String} :
    (law strict quiet).Gives (· = .int) (stringLiteral raw l) := by
  have hintern : (law strict quiet).Gives (Neat strict) (internString raw) := by
    refine .bind .get fun s => .bind (.modify fun _ hs => ?_) fun _ => .pure ?_
    · exact ⟨⟨hs.lawful, hs.scopes, hs.externs⟩, rfl, fun _ => ⟨rfl, rfl, Nat.le_refl _⟩⟩
    · split <;> exact neat_label _
  exact .given hintern fun _ hlabel => .bind gives_registerFor fun _ => .bind (.mark hlabel) fun _ => .pure rfl

end Laws

theorem Step.gives {strict quiet : Prop} {α : Type} {V : α → Prop} {raws : List String} {x : Gen α}
    (h : Step strict quiet raws V x) : (law strict quiet).Gives V x := by
  induction h with
  | pure h => exact .pure h
  | fail h => exact .fail h
  | seq _ _ ihx ihf => exact .given ihx ihf
  | get => exact .get
  | @modify f hregisters hexterns _ hquiet =>
    refine .modify fun s hs => ⟨⟨?_, ?_, ?_⟩, hexterns s, fun _ => hquiet s⟩
    · rw [hregisters]
      exact hs.lawful
    · rw [(hquiet s).scopes]
      exact hs.scopes
    · rw [hexterns]
      exact hs.externs
  | setScopes hloud h =>
    exact .modify fun s hs => ⟨⟨hs.lawful, h s.scopes hs.scopes, hs.externs⟩, rfl, fun hq => absurd hq hloud⟩
  | emit h _ => exact .mark h
  | registerFor => exact gives_registerFor
  | claimParameter => exact gives_claimParameter
  | release => exact gives_release
  | swap =>
    exact .given .get fun _ hs => .given (gives_orLack _) fun _ hf => gives_setRegisters (hs.lawful.swap hf)
  | relocate => exact gives_relocate
  | string => exact gives_stringLiteral

/-! ### Single steps -/

section Steps

variable {strict quiet : Prop} {α : Type} {raws : List String} {l : Location} {r : Register} {tag : Tag}

theorem plain_refuse {V : α → Prop} {cause : SemanticCause} :
    Step strict quiet raws V (refuse tag cause : Gen α) := .fail error_semantic

theorem plain_orFail (a : Except SemanticCause α) :
    Step strict quiet [] (fun v => a = .ok v) (orFail a) := by
  cases a with
  | ok a => exact .pure rfl
  | error cause => exact .fail error_semantic

theorem plain_orRefuse (a : Except SemanticCause α) :
    Step strict quiet [] (fun v => a = .ok v) (orRefuse tag a) := by
  cases a with
  | ok a => exact .pure rfl
  | error cause => exact plain_refuse

theorem plain_freshLocation : Plain strict quiet freshLocation :=
  .bind .get fun _ => .bind (.modify (fun _ => rfl) (fun _ => rfl) (fun _ => rfl) fun _ =>
    ⟨rfl, rfl, Nat.le_succ _⟩) fun _ => .pure trivial

theorem plain_freshLabel (name : String) :
    Step strict quiet [] (fun l => l.name = name) (freshLabel name) :=
  .bind .get fun _ => .bind (.modify (fun _ => rfl) (fun _ => rfl) (fun _ => rfl) fun _ =>
    ⟨rfl, rfl, Nat.le_refl _⟩) fun _ => .pure rfl

theorem plain_setDepth {f : Nat → Nat} : Plain strict quiet (setDepth f) :=
  .modify (fun _ => rfl) (fun _ => rfl) (fun _ => rfl) fun _ => ⟨rfl, rfl, Nat.le_refl _⟩

theorem plain_modifyScope {f : Scope → Scope} (h : ∀ scope, scope.Neat strict → (f scope).Neat strict) :
    Plain strict False (modifyScope f) := by
  refine .given .get fun s hs => .given (plain_orFail _) fun scopes hscopes => ?_
  refine .setScopes (f := fun _ => scopes) id fun _ _ scope hmem => ?_
  have hneat := hs.scopes
  cases hold : s.scopes with
  | nil =>
    rw [hold] at hscopes
    cases hscopes
  | cons first rest =>
    rw [hold] at hscopes hneat
    cases hscopes
    rcases List.mem_cons.mp hmem with rfl | hrest
    · exact h first (hneat first List.mem_cons_self)
    · exact hneat scope (List.mem_cons_of_mem first hrest)

theorem plain_currentScope : Plain strict quiet currentScope :=
  .bind .get fun s => by
    cases s.scopes.current with
    | ok scope => exact .pure trivial
    | error cause => exact .fail error_semantic

theorem plain_registerOf : Plain strict quiet (registerOf l) :=
  .bind .get fun _ => .ofOption error_resource _

theorem plain_copy {dst : Register} : Plain strict quiet (copy dst r) := .emit ⟨trivial, trivial⟩ rfl

theorem plain_prologue : Plain strict quiet prologue := .bind (.emit trivial rfl) fun _ => plain_copy

theorem plain_epilogue : Plain strict quiet epilogue := .bind plain_copy fun _ => .emit trivial rfl

theorem plain_adjustStack {op : AluOp} {bytes : Nat} : Plain strict quiet (adjustStack op bytes) :=
  .emit ⟨trivial, trivial⟩ rfl

theorem plain_extend (type : DataType) : Plain strict quiet (extend r type) := by
  cases type with
  | u8 | s8 => exact .emit trivial rfl
  | void | int => exact .pure trivial

end Steps

/-! ### Variables and operators -/

section Operators

variable {strict quiet : Prop} {v : Variable} {r : Register} {tag : Tag} {l : Location}

theorem plain_lookup {name : String} : Plain strict quiet (lookup tag name) := by
  refine .bind .get fun s => ?_
  split
  · exact .pure trivial
  · exact plain_refuse

theorem plain_hop : ∀ frames : Nat, Plain strict quiet (hop r frames)
  | 0 => .pure trivial
  | frames + 1 => .bind (.emit ⟨trivial, trivial⟩ rfl) fun _ => plain_hop frames

theorem plain_addressOf {offset : Int} :
    Step strict quiet [] (fun address => ∃ q, address.1 = .mem q offset) (addressOf v offset) := by
  refine .bind .get fun s => ?_
  split
  · exact .pure ⟨_, rfl⟩
  · exact .bind plain_freshLocation fun _ => .bind .registerFor fun _ =>
      .bind (.emit ⟨trivial, trivial⟩ rfl) fun _ => .bind (plain_hop _) fun _ => .pure ⟨_, rfl⟩

theorem plain_releaseIf (l : Option Location) : Plain strict quiet (releaseIf l) := by
  cases l with
  | some l => exact .release
  | none => exact .pure trivial

theorem plain_loadVariable : Plain strict quiet (loadVariable v r) := by
  unfold loadVariable
  split
  · exact .bind plain_registerOf fun _ => plain_copy
  · refine .given plain_addressOf fun address haddress => ?_
    obtain ⟨operand, frame⟩ := address
    obtain ⟨q, rfl⟩ := haddress
    cases v.type with
    | u8 | s8 => exact .bind (.emit trivial rfl) fun _ => plain_releaseIf _
    | int | void => exact .bind (.emit ⟨trivial, trivial⟩ rfl) fun _ => plain_releaseIf _

theorem plain_storeVariable : Plain strict quiet (storeVariable v r) := by
  unfold storeVariable
  split
  · refine .bind plain_registerOf fun dst => ?_
    split
    · exact .emit trivial rfl
    · exact .emit trivial rfl
    · exact plain_copy
    · exact plain_copy
  · refine .given plain_addressOf fun address haddress => ?_
    obtain ⟨operand, frame⟩ := address
    obtain ⟨q, rfl⟩ := haddress
    exact .bind (.emit ⟨trivial, trivial⟩ rfl) fun _ => plain_releaseIf _

theorem plain_integerLiteral {value : UInt64} {context : DataType} :
    Step strict quiet [] (· = if context.isByte then context else .int)
      (integerLiteral tag value context l) := by
  refine .ite plain_refuse (.bind .registerFor fun _ => ?_)
  split
  · exact .bind (.emit ⟨trivial, trivial⟩ rfl) fun _ => .bind (plain_extend _) fun _ => .pure rfl
  · exact .bind (.emit ⟨trivial, trivial⟩ rfl) fun _ => .pure rfl

theorem plain_variableValue {name : String} : Plain strict quiet (variableValue tag name l) :=
  .bind plain_lookup fun _ => .bind .registerFor fun _ => .bind plain_loadVariable fun _ =>
    .pure trivial

theorem plain_copyOf : Plain strict quiet (copyOf l) :=
  .bind plain_registerOf fun _ => .bind plain_freshLocation fun _ => .bind .registerFor fun _ =>
    .bind plain_copy fun _ => .pure trivial

theorem plain_setTruth {condition : Condition} : Plain strict quiet (setTruth condition r) :=
  .bind (.emit trivial rfl) fun _ => plain_extend .u8

theorem plain_applyUnary {op : UnaryOp} {type : DataType} :
    Step strict quiet [] (· = if op = .plus then type else .int) (applyUnary op r type) := by
  cases op with
  | plus => exact .pure rfl
  | negate => exact .bind (.emit trivial rfl) fun _ => .pure rfl
  | not => exact .bind (.emit ⟨trivial, trivial⟩ rfl) fun _ => .bind plain_setTruth fun _ => .pure rfl

theorem plain_divide {dividend divisor : Register} : Plain strict quiet (divide dividend divisor) := by
  have hdivisor : ∀ c : Bool, Plain strict quiet
      (emit (.idiv .quad (if c then .mem .rsp 0 else .reg divisor))) := by
    intro c
    cases c <;> exact .emit trivial rfl
  refine .bind .get fun s => .ite
    (.bind (.emit trivial rfl) fun _ => .bind plain_setDepth fun _ => ?_) ?_
  all_goals
    exact .bind plain_copy fun _ => .bind (.emit trivial rfl) fun _ =>
      .bind (hdivisor _) fun _ => .ite
        (.bind (.emit trivial rfl) fun _ => .bind plain_setDepth fun _ => plain_copy) plain_copy

theorem plain_applyArith {op : ArithOp} {lhs rhs : Register} :
    Plain strict quiet (applyArith op lhs rhs) := by
  cases op with
  | div => exact plain_divide
  | _ => exact .emit ⟨trivial, trivial⟩ rfl

theorem plain_applyEager {op : ArithOp ⊕ Comparison} {lhs rhs : Register}
    {lhsType rhsType : DataType} :
    Step strict quiet [] (· = if op.isLeft then lhsType.arith rhsType else .int)
      (applyEager op lhs rhs lhsType rhsType) := by
  cases op with
  | inl op => exact .bind plain_applyArith fun _ => .bind (plain_extend _) fun _ => .pure rfl
  | inr op =>
    exact .bind (.emit ⟨trivial, trivial⟩ rfl) fun _ => .bind plain_setTruth fun _ => .pure rfl

theorem plain_truthOf : Plain strict quiet (truthOf l r) :=
  .bind plain_registerOf fun _ => .bind (.emit ⟨trivial, trivial⟩ rfl) fun _ => plain_setTruth

theorem plain_testZero : Plain strict quiet (testZero l) :=
  .bind plain_copyOf fun _ => .bind (.emit ⟨trivial, trivial⟩ rfl) fun _ =>
    .bind .release fun _ => .release

end Operators

/-! ### Calls -/

section Calls

variable {strict quiet : Prop} {tag : Tag} {name : String}

theorem plain_argumentTargets : ∀ (params : List (DataType × ParameterClass)) (number : Nat),
    Plain strict quiet (argumentTargets tag name number params)
  | [], _ => .pure trivial
  | (_, .register _) :: rest, number =>
    .bind (plain_argumentTargets rest (number + 1)) fun _ => .pure trivial
  | (_, .stack _) :: _, _ => plain_refuse

theorem plain_spareRegister {avoid lastly : List Register} :
    Plain strict quiet (spareRegister avoid lastly) := by
  refine .bind .get fun s => ?_
  split
  · exact .pure trivial
  · exact .ofOption error_resource _

theorem plain_placeArgument {targets : List Register} {l : Location} {target : Register} :
    Plain strict quiet (placeArgument targets l target) := by
  refine .bind plain_registerOf fun current => .ite (.pure trivial) (.bind .get fun s => ?_)
  split
  · exact .bind plain_spareRegister fun _ => .bind .relocate fun _ =>
      .bind plain_registerOf fun _ => .relocate
  · exact .bind plain_registerOf fun _ => .relocate

theorem plain_pushAll : ∀ rs : List Register, Plain strict quiet (pushAll rs)
  | [] => .pure trivial
  | _ :: rest => .bind (.emit trivial rfl) fun _ => .bind plain_setDepth fun _ => plain_pushAll rest

theorem plain_popAll : ∀ rs : List Register, Plain strict quiet (popAll rs)
  | [] => .pure trivial
  | _ :: rest => .bind (.emit trivial rfl) fun _ => .bind plain_setDepth fun _ => plain_popAll rest

theorem plain_bringHome {displaced : List (Location × Register × Register)} {blocked : Register} :
    Plain strict quiet (bringHome displaced blocked) := by
  refine .bind .get fun s => ?_
  split
  · exact .relocate
  · exact .bind plain_spareRegister fun _ => .relocate

theorem plain_restoreWithin : ∀ moves : Nat, Plain strict quiet (restoreWithin moves)
  | 0 => .pure trivial
  | moves + 1 => by
    refine .bind .get fun s => ?_
    split
    · exact .pure trivial
    · exact .bind plain_bringHome fun _ => plain_restoreWithin moves

theorem plain_restoreParameters : Plain strict quiet restoreParameters :=
  .bind .get fun _ => plain_restoreWithin _

theorem plain_callSaved (h : Neat strict name) : Plain strict quiet (callSaved name) := by
  refine .bind .get fun s => .bind (plain_pushAll _) fun _ => .bind .get fun s' => .ite
    (.bind plain_adjustStack fun _ => .bind plain_setDepth fun _ => ?_) ?_
  all_goals
    exact .bind (.emit h rfl) fun _ => .ite
      (.bind plain_adjustStack fun _ => .bind plain_setDepth fun _ => plain_popAll _)
      (plain_popAll _)

/-- A procedure that is called takes as many arguments as it is given. -/
theorem plain_callee {count : Nat} :
    Step strict quiet [] (fun p => p.params.length = count) (callee tag name count) := by
  refine .bind .get fun s => ?_
  split
  · exact plain_refuse
  · split
    next h => exact .pure h
    next => exact plain_refuse

end Calls

/-! ### Frames and jumps -/

section Frames

variable {strict quiet : Prop} {role : Role} {tag : Tag}

/-- The name and the labels of a role are neat. -/
def Role.Neat (strict : Prop) : Role → Prop
  | .entry | .plain => True
  | .procedure name _ _ => ProcLang.Neat strict name
  | .loop head start behind =>
    ProcLang.Neat strict head.name ∧ ProcLang.Neat strict start.name ∧ ProcLang.Neat strict behind.name

theorem neat_return {name : String} (h : Neat strict name) : Neat strict (name ++ "_return") :=
  h.append (neat_of_all (by decide))

theorem plain_scopeFor (h : role.Neat strict) (stmts : List Stmt) :
    Step strict quiet [] (Scope.Neat strict) (scopeFor role stmts) := by
  refine .bind .get fun s => ?_
  cases role with
  | procedure name returns params =>
    refine .given (plain_freshLabel _) fun behind hbehind => .pure fun l hl => ?_
    rcases hl with hl | hl
    · cases hl
    · obtain rfl := Option.some.inj hl
      exact hbehind ▸ neat_return h
  | loop head start behind =>
    refine .pure fun l hl => ?_
    rcases hl with hl | hl
    · exact Option.some.inj hl ▸ h.2.1
    · exact Option.some.inj hl ▸ h.2.2
  | entry | plain => exact .pure fun l hl => by rcases hl with hl | hl <;> cases hl

theorem plain_openFrame {reserved : Nat} : Plain strict quiet (openFrame role reserved) := by
  refine .ite (.bind plain_prologue fun _ => .bind plain_setDepth fun _ => ?_) ?_
  all_goals exact .ite (.bind plain_adjustStack fun _ => plain_setDepth) (.pure trivial)

/-- A variable changes no label. -/
theorem neat_declare {scope : Scope} (h : scope.Neat strict) (v : Variable) :
    (scope.declare v).Neat strict := h

theorem plain_bindParameters {height : Nat} :
    ∀ params : List (String × DataType × ParameterClass),
      Plain strict False (bindParameters height params)
  | [] => .pure trivial
  | (_, _, .register _) :: rest =>
    .bind plain_freshLocation fun _ => .bind .claimParameter fun _ =>
      .bind (plain_modifyScope fun _ h => neat_declare h _) fun _ =>
      .bind (plain_bindParameters rest) fun _ => .pure trivial
  | (_, _, .stack _) :: rest =>
    .bind (plain_modifyScope fun _ h => neat_declare h _) fun _ => plain_bindParameters rest

theorem plain_labelIf {label : Option Label} (h : ∀ l, label = some l → Neat strict l.name) :
    Plain strict quiet (labelIf label) := by
  cases label with
  | some l => exact .emit (h l rfl) rfl
  | none => exact .pure trivial

theorem plain_closeFrame {scope : Scope} {parameters : List Location} (h : role.Neat strict)
    (hscope : scope.Neat strict) : Plain strict quiet (closeFrame role scope parameters) := by
  cases role with
  | entry => exact .ite plain_adjustStack (.pure trivial)
  | plain => exact plain_epilogue
  | loop head start behind =>
    exact .bind (.emit h.2.1 rfl) fun _ => .bind plain_epilogue fun _ =>
      .bind (.emit h.1 rfl) fun _ => .bind (.emit h.2.2 rfl) fun _ => plain_epilogue
  | procedure name returns params =>
    exact .bind (.emit ⟨trivial, trivial⟩ rfl) fun _ =>
      .bind (plain_labelIf fun l hl => hscope l (.inr hl)) fun _ =>
      .bind plain_epilogue fun _ => .bind (.emit trivial rfl) fun _ => .forEach (fun _ => .release) _

theorem plain_epilogues : ∀ count : Nat, Plain strict quiet (epilogues count)
  | 0 => .pure trivial
  | count + 1 => .bind plain_epilogue fun _ => plain_epilogues count

/-- A jump ends at a label of the scope. -/
theorem label_of_passage {jump : Jump} {scope : Scope} {l : Label}
    (h : ScopeStack.passage jump scope = .target (some l)) :
    scope.startLabel = some l ∨ scope.endLabel = some l := by
  unfold ScopeStack.passage at h
  split at h <;> simp_all

theorem neat_jumpTargetFrom {jump : Jump} {scopes : ScopeStack} {crossed : Nat} {found : Nat × Label}
    (h : ∀ scope ∈ scopes, scope.Neat strict)
    (hfound : ScopeStack.jumpTargetFrom jump crossed scopes = .ok found) :
    Neat strict found.2.name := by
  induction scopes generalizing crossed with
  | nil => cases hfound
  | cons scope rest ih =>
    unfold ScopeStack.jumpTargetFrom at hfound
    split at hfound
    next l hpassage =>
      cases hfound
      exact h scope List.mem_cons_self l (label_of_passage hpassage)
    next => cases hfound
    next => cases hfound
    next => exact ih (fun scope hmem => h scope (List.mem_cons_of_mem _ hmem)) hfound

theorem plain_jump {kind : Jump} : Plain strict quiet (jump tag kind) :=
  .given .get fun _ hs => .given (plain_orRefuse _) fun _ hfound =>
    .bind (plain_epilogues _) fun _ => .emit (neat_jumpTargetFrom hs.scopes hfound) rfl

end Frames

end Generation

end ProcLang

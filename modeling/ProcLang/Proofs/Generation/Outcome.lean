import ProcLang.Compilation
import ProcLang.Proofs.Generation.Program
import ProcLang.Proofs.Parsing.WellFormed

/-!
How a run of code generation can end on a program that was read, and where its registers are when it
reports the start or the end of a statement.

A program that was read is well-formed, so most errors of code generation cannot happen: the names,
jumps and parts of statements are in order, and the register file is never misused.  In front of a
statement of a procedure and behind it the register file holds the procedure's parameters and nothing
else, each in the register in which it came; between procedures the file is empty.
-/

namespace ProcLang

/-! ### Observers that refuse nothing -/

section Observer

variable {ω μ σ α : Type} {o : Observer ω} {view : μ → Option Event}

/-- The observer lets every event pass. -/
def Observer.Passive (o : Observer ω) : Prop := ∀ w event, (o.notify w event).1 = none

theorem Observer.Passive.follow (h : o.Passive) (marks : List (μ × σ)) (w : ω) :
    (o.follow view w marks).1 = none := by
  induction marks generalizing w with
  | nil => rfl
  | cons p rest ih =>
    obtain ⟨m, s⟩ := p
    unfold Observer.follow
    cases hv : view m with
    | none => exact ih w
    | some event =>
      have hn := h w event
      rcases hq : o.notify w event with ⟨_ | e, w'⟩
      · simp only [hq]
        exact ih w'
      · rw [hq] at hn
        cases hn

theorem Observer.Passive.watch (h : o.Passive) (w : ω) (run : Outcome μ σ α) :
    (o.watch view w run).1 = (run.result, run.state) := by
  have hf : (o.follow view w run.marks).1 = none := h.follow run.marks w
  unfold Observer.watch
  rcases hq : o.follow view w run.marks with ⟨_ | ⟨e, s⟩, w'⟩
  · rfl
  · rw [hq] at hf
    cases hf

end Observer

namespace Generation

variable {options : Options} {source : String} {ast : Ast} {rootTag : Tag} {procs : List Stmt}

/-- A text is a program, and a test of it succeeds. -/
def passes (file text : String) (test : Ast → Bool) : Bool :=
  match tokenize file text with
  | .error _ => false
  | .ok tokens =>
    match parse tokens with
    | .error _ => false
    | .ok ast => test ast

theorem exists_of_passes {file text : String} {test : Ast → Bool}
    (h : passes file text test = true) :
    ∃ tokens ast, tokenize file text = .ok tokens ∧ parse tokens = .ok ast ∧ test ast = true := by
  unfold passes at h
  cases ht : tokenize file text with
  | error e => simp [ht] at h
  | ok tokens =>
    cases hp : parse tokens with
    | error e => simp [ht, hp] at h
    | ok ast => exact ⟨tokens, ast, rfl, hp, by simpa [ht, hp] using h⟩

/-- A test succeeds for the signature and the statements of a procedure of a program. -/
def someProcedure (test : Signature → List Stmt → Bool) (ast : Ast) : Bool :=
  match ast.root with
  | some (.block _ procs) =>
    procs.any fun
      | .procedure _ signature (some (.block _ stmts)) => test signature stmts
      | _ => false
  | _ => false

theorem exists_of_someProcedure {test : Signature → List Stmt → Bool}
    (h : someProcedure test ast = true) (hroot : ast.root = some (.block rootTag procs)) :
    ∃ tag signature bodyTag stmts, .procedure tag signature (some (.block bodyTag stmts)) ∈ procs ∧
      test signature stmts = true := by
  rw [someProcedure, hroot] at h
  obtain ⟨st, hst, htest⟩ := List.any_eq_true.mp h
  split at htest
  case h_1 tag signature bodyTag stmts => exact ⟨tag, signature, bodyTag, stmts, hst, htest⟩
  case h_2 => cases htest

/-! ### Errors -/

theorem result_generate : (generate options source ast).result =
    (program options ast {}).result.map fun _ =>
      { source := source
        externs := (program options ast {}).state.externs
        code := codeOf (program options ast {}).marks
        constants := (program options ast {}).state.constants } := rfl

/-- Code generation that succeeds has run through the program. -/
theorem ok_generate {p : Program} (h : (generate options source ast).result = .ok p) :
    (program options ast {}).result = .ok () ∧ p =
      { source := source
        externs := (program options ast {}).state.externs
        code := codeOf (program options ast {}).marks
        constants := (program options ast {}).state.constants } := by
  rw [result_generate] at h
  cases hr : (program options ast {}).result with
  | error e =>
    rw [hr] at h
    cases h
  | ok u =>
    rw [hr] at h
    exact ⟨rfl, (Except.ok.inj h).symm⟩

theorem error_generate {e : CompileError} (h : (generate options source ast).result = .error e) :
    (program options ast {}).result = .error e := by
  rw [result_generate] at h
  cases hr : (program options ast {}).result with
  | error e' =>
    rw [hr] at h
    exact congrArg Except.error (Except.error.inj h)
  | ok a =>
    rw [hr] at h
    cases h

theorem tolerable_of_wellFormed {e : CompileError} (hwf : ast.WellFormed)
    (h : (generate options source ast).result = .error e) : Tolerable e := by
  obtain ⟨tag, procs, hroot, hprocs⟩ := hwf
  obtain ⟨A, hA⟩ := @emits_program options ast tag procs hroot hprocs
  have hrun := hA (fun _ _ _ _ => True) (fun _ _ _ _ _ _ _ _ => trivial)
    fun _ _ _ _ _ _ _ _ _ _ _ _ _ _ _ _ _ _ _ => trivial
  exact Stage.Ensures.error hrun (error_generate h)

/-- Code generation for a program that was read ends with an error for five reasons only: a literal
is too large for its type, a procedure without a value returns one, a call has the wrong number of
arguments, or one that would go on the stack, or the registers do not suffice. -/
theorem generate_error_of_parse {tokens : List Token} (hparse : parse tokens = .ok ast) {ω : Type}
    (o : Observer ω) (ho : o.Passive) (w : ω) {e : CompileError}
    (herror : (generate options source ast).result = .error e ∨
      (o.watch Mark.event? w (generate options source ast)).1.1 = .error e) :
    (∃ span value type, e = .semantic (some span) (.literalTooLarge value type) ∧
      e.text = span.text ++ ": semantic error: " ++
        ("integer literal " ++ toString value.toNat ++ " does not fit in " ++ type.name)) ∨
    (∃ span, e = .semantic (some span) .voidReturnsValue ∧
      e.text = span.text ++ ": semantic error: " ++ "void procedure returns a value") ∨
    (∃ span name expected got, e = .semantic (some span) (.argumentCount name expected got) ∧
      e.text = span.text ++ ": semantic error: " ++ ("procedure '" ++ name ++ "' expects " ++
        toString expected ++ " argument(s), got " ++ toString got)) ∨
    (∃ span number name, e = .semantic (some span) (.stackArgument number name) ∧
      e.text = span.text ++ ": semantic error: " ++ ("unsupported parameter class: argument " ++
        toString number ++ " of '" ++ name ++ "' is passed on the stack")) ∨
    (e = .resource .noRegister ∧ e.text = "codegen error: " ++ "no available register") := by
  have herror : (generate options source ast).result = .error e := by
    rcases herror with h | h
    · exact h
    · rwa [ho.watch] at h
  cases tolerable_of_wellFormed (wellFormed_of_parse hparse) herror with
  | literal span value type => exact .inl ⟨span, value, type, rfl, rfl⟩
  | voidReturn span => exact .inr (.inl ⟨span, rfl, rfl⟩)
  | argumentCount span name expected got =>
    exact .inr (.inr (.inl ⟨span, name, expected, got, rfl, rfl⟩))
  | stackArgument span number name =>
    exact .inr (.inr (.inr (.inl ⟨span, number, name, rfl, rfl⟩)))
  | noRegister => exact .inr (.inr (.inr (.inr ⟨rfl, rfl⟩)))

/-- The error of code generation for a text with a literal that is too large. -/
theorem generate_error_of_parse_tooLarge : ∃ tokens ast e,
    tokenize "t.mc" "void f() \x7b u8 x = 300; \x7d" = .ok tokens ∧ parse tokens = .ok ast ∧
    (generate {} "t.mc" ast).result = .error e ∧
    ∃ span value type, e = .semantic (some span) (.literalTooLarge value type) ∧
      e.text = span.text ++ ": semantic error: " ++
        ("integer literal " ++ toString value.toNat ++ " does not fit in " ++ type.name) := by
  have hpasses : passes "t.mc" "void f() \x7b u8 x = 300; \x7d" (fun ast =>
      match (generate {} "t.mc" ast).result with
      | .error e => e = .semantic (some ⟨"t.mc", 1, 19⟩) (.literalTooLarge 300 .u8)
      | .ok _ => false) = true := by decide +kernel
  obtain ⟨tokens, ast, htokens, hparse, htest⟩ := exists_of_passes hpasses
  cases hresult : (generate {} "t.mc" ast).result with
  | ok p => simp [hresult] at htest
  | error e =>
    simp only [hresult, decide_eq_true_eq] at htest
    refine ⟨tokens, ast, e, htokens, hparse, hresult, ?_⟩
    rcases generate_error_of_parse hparse Observer.silent (fun _ _ => rfl) () (.inl hresult) with
      h | ⟨_, h, -⟩ | ⟨_, _, _, _, h, -⟩ | ⟨_, _, _, h, -⟩ | ⟨h, -⟩
    · exact h
    all_goals
      rw [htest] at h
      cases h

/-! ### The code -/

/-- The code of a program that was read is made of the code of its procedures; the depths at its calls
are those that the run has counted. -/
theorem programCode_of_generate (hroot : ast.root = some (.block rootTag procs))
    (hwf : Stmt.ProceduresWellFormed [{}] procs) {p : Program}
    (h : (generate options source ast).result = .ok p) :
    ∃ n ls, depthsOf ls = callDepths (generate options source ast).marks ∧
      ProgramCode options p.constants.strings [entryScope] procs 0 p.code n ls := by
  obtain ⟨A, hA⟩ := @emits_program options ast rootTag procs hroot hwf
  have hrun := hA (fun _ _ _ _ => True) (fun _ _ _ _ _ _ _ _ => trivial)
    fun _ _ _ _ _ _ _ _ _ _ _ _ _ _ _ _ _ _ _ => trivial
  obtain ⟨hr, rfl⟩ := ok_generate h
  exact ⟨_, Stage.Ensures.value hrun hr _ List.prefix_rfl⟩

/-! ### Registers between statements -/

/-- A parameter of a procedure comes in a register; the scope of the procedure knows its handle. -/
def ComesIn (signature : Signature) (scope : Scope) (l : Location) (r : Register) : Prop :=
  ∃ i p v, signature.params[i]? = some p ∧ parameterClass i = .register r ∧
    scope.vars.get? p.name = some v ∧ v.storage = .register l

/-- The file holds the parameters of a procedure that come in registers and nothing else: each is
flagged and sits in its own register, and the homes are these registers. -/
structure HoldsParametersOf (signature : Signature) (scope : Scope) (f : RegisterFile) : Prop where
  slots : ∀ r slot, f.slots.get? r = some slot ↔
    ComesIn signature scope slot.location r ∧ slot.parameter = true
  index : ∀ l r, f.index.get? l = some r ↔ ComesIn signature scope l r
  homes : ∀ l r, f.homes.get? l = some r ↔ ComesIn signature scope l r
  all : ∀ i p r, signature.params[i]? = some p → parameterClass i = .register r →
    ∃ l, ComesIn signature scope l r ∧ f.slots.get? r = some ⟨l, true⟩

theorem Bound.scope {a : Activation} : ∀ {names : List NameScope} {scopes : ScopeStack},
    Bound a names scopes → ∃ scope, scopes.procedureScope? = some scope ∧
      scope.endLabel = some a.behind ∧
      ∀ name v, a.base.get? name = some v → scope.vars.get? name = some v
  | n :: names, scope :: outer, h => by
    unfold Bound at h
    split_ifs at h with hkind
    · exact ⟨scope, by simp [ScopeStack.procedureScope?, hkind], h.1, fun name v hv => (h.2 name v hv).2⟩
    · obtain ⟨scope', hfind, hscope'⟩ := Bound.scope h
      refine ⟨scope', ?_, hscope'⟩
      rw [← hfind]
      simp [ScopeStack.procedureScope?, hkind]

theorem comesIn_iff {signature : Signature} {scope : Scope} {a : Activation} {l : Location}
    {r : Register} (ha : a.Of signature)
    (hbase : ∀ name v, a.base.get? name = some v → scope.vars.get? name = some v) :
    ComesIn signature scope l r ↔ RegisterFile.IsParameter a.first a.count l r := by
  constructor
  · rintro ⟨i, p, v, hp, hcls, hv, hst⟩
    obtain ⟨v', hv', hst'⟩ := ha.params i p hp
    obtain rfl : v' = v := Option.some.inj ((hbase _ _ hv').symm.trans hv)
    obtain ⟨hlt, -⟩ := List.getElem?_eq_some_iff.mp hp
    rw [hst', parameterStorage, hcls] at hst
    exact ⟨i, ha.count ▸ hlt, (Storage.register.inj hst).symm, parameterClass_register hcls⟩
  · rintro ⟨i, hi, rfl, hr⟩
    rw [ha.count] at hi
    have hp := List.getElem?_eq_getElem hi
    obtain ⟨v, hv, hst⟩ := ha.params i _ hp
    have hcls : parameterClass i = .register r := by simp [parameterClass, hr]
    rw [parameterStorage, hcls] at hst
    exact ⟨i, _, v, hp, hcls, hbase _ _ hv, hst⟩

theorem holdsParametersOf {signature : Signature} {scope : Scope} {a : Activation}
    {f : RegisterFile} (h : f.HoldsParameters a.first a.count) (ha : a.Of signature)
    (hbase : ∀ name v, a.base.get? name = some v → scope.vars.get? name = some v) :
    HoldsParametersOf signature scope f := by
  have hiff {l r} := @comesIn_iff signature scope a l r ha hbase
  refine ⟨fun r slot => ?_, fun l r => ?_, fun l r => ?_, fun i p r hp hcls => ?_⟩
  · rw [hiff, h.slots]
  · rw [hiff, h.index]
  · rw [hiff, h.homes]
  · obtain ⟨hlt, -⟩ := List.getElem?_eq_some_iff.mp hp
    have hpar : RegisterFile.IsParameter a.first a.count ⟨a.first + i⟩ r :=
      ⟨i, ha.count ▸ hlt, rfl, parameterClass_register hcls⟩
    exact ⟨_, hiff.mpr hpar, (h.slots _ _).mpr ⟨hpar, rfl⟩⟩

/-- A run reports the start or the end of a statement, in a state. -/
def Reports (run : Outcome Mark State Program) (happening : Happening) (tag : Tag) (kind : NodeKind)
    (s : State) : Prop :=
  kind.isStatement = true ∧ (nodeMark happening tag kind, s) ∈ run.marks

/-- A statement outside the bodies of procedures: the program, a procedure or a body as a whole. -/
def IsHead (rootTag : Tag) (procs : List Stmt) (tag : Tag) (kind : NodeKind) : Prop :=
  ∃ st ∈ Stmt.block rootTag procs :: procs, ∃ p ∈ st.heads, p.tag = tag ∧ p.kind = kind

/-- A statement in the body of a procedure with a signature, at any depth. -/
def IsStatementOf (procs : List Stmt) (signature : Signature) (st : Stmt) : Prop :=
  ∃ procTag bodyTag body, Stmt.procedure procTag signature (some (.block bodyTag body)) ∈ procs ∧
    ∃ first ∈ body, st.Within first

/-- The state is outside the procedures of a program: the registers are empty. -/
def Between (s : State) : Prop := s.scopes.procedureScope? = none ∧ s.registers = {}

/-- The state is in a procedure with a signature: the registers hold its parameters. -/
def InProcedure (signature : Signature) (s : State) : Prop :=
  ∃ scope, s.scopes.procedureScope? = some scope ∧ HoldsParametersOf signature scope s.registers

/-- The label of the end of the procedure around, by which procedures can be told apart. -/
def State.procedureEnd? (s : State) : Option Label := s.scopes.procedureScope?.bind (·.endLabel)

/-- What is watched: where the registers are, and whose procedure it is. -/
def Placed (options : Options) (A : Nat → Activation) (rootTag : Tag) (procs : List Stmt)
    (happening : Happening) (tag : Tag) (kind : NodeKind) (s : State) : Prop :=
  (IsHead rootTag procs tag kind ∧ Between s) ∨
  ∃ signature st a, IsStatementOf procs signature st ∧ st.tag = tag ∧ st.kind = kind ∧
    InProcedure signature s ∧
    (happening = .nodeStart → ∃ part, IsRunOf options st part ∧ Keeps part s) ∧
    A a.behind.id = a ∧ s.procedureEnd? = some a.behind ∧ s.registers.HoldsParameters a.first a.count

theorem placed_of_reports (hroot : ast.root = some (.block rootTag procs))
    (hwf : Stmt.ProceduresWellFormed [{}] procs) : ∃ A, ∀ happening tag kind s,
      Reports (generate options source ast) happening tag kind s →
      Placed options A rootTag procs happening tag kind s := by
  obtain ⟨A, hA⟩ := @emits_program options ast rootTag procs hroot hwf
  refine ⟨A, fun happening tag kind s h => ?_⟩
  have hrun := hA (Placed options A rootTag procs) ?_ ?_
  · exact Stage.Ensures.marks hrun h.2 happening tag kind h.1 rfl
  · intro st hst p hp happening s hregs hscope
    exact Or.inl ⟨⟨st, hst, p, hp, rfl, rfl⟩, hscope, hregs⟩
  · intro procTag signature bodyTag body hmem a _ hAa ha first hfirst happening st names inLoop s
      hst hin hkeeps
    obtain ⟨scope, hscope, hend, hbase⟩ := hin.bound.scope
    refine Or.inr ⟨signature, st, a, ⟨procTag, bodyTag, body, hmem, first, hfirst, hst⟩, rfl, rfl,
      ⟨scope, hscope, holdsParametersOf hin.params ha hbase⟩, hkeeps, hAa, ?_, hin.params⟩
    rw [State.procedureEnd?, hscope]
    exact hend

/-- In front of a statement of a procedure and behind it, at any depth, the registers hold exactly the
parameters of the procedure that come in registers, each in its own one; outside procedures they are
empty.  All reports from one procedure are made with the same register file, and a statement that
succeeds leaves the file as it was at its start. -/
theorem registers_at_statements {tokens : List Token} (hparse : parse tokens = .ok ast)
    (options : Options) (source : String) :
    ∃ rootTag procs, ast.root = some (.block rootTag procs) ∧
      (∀ happening tag kind s, Reports (generate options source ast) happening tag kind s →
        (IsHead rootTag procs tag kind ∧ Between s) ∨
        ∃ signature st, IsStatementOf procs signature st ∧ st.tag = tag ∧ st.kind = kind ∧
          InProcedure signature s ∧
          (happening = .nodeStart → ∃ part, IsRunOf options st part ∧ Keeps part s)) ∧
      ∀ happening tag kind s happening' tag' kind' s',
        Reports (generate options source ast) happening tag kind s →
        Reports (generate options source ast) happening' tag' kind' s' →
        s.procedureEnd? = s'.procedureEnd? → s.registers = s'.registers := by
  obtain ⟨rootTag, procs, hroot, hwf⟩ := wellFormed_of_parse hparse
  obtain ⟨A, hA⟩ := @placed_of_reports options source ast rootTag procs hroot hwf
  refine ⟨rootTag, procs, hroot, fun happening tag kind s h => ?_,
    fun happening tag kind s happening' tag' kind' s' h h' heq => ?_⟩
  · rcases hA happening tag kind s h with hb | ⟨signature, st, a, hst, htag, hkind, hin, hkeeps, -⟩
    · exact .inl hb
    · exact .inr ⟨signature, st, hst, htag, hkind, hin, hkeeps⟩
  · rcases hA happening tag kind s h with
      ⟨-, hnone, hregs⟩ | ⟨-, -, a, -, -, -, -, -, ha, hend, hpar⟩ <;>
    rcases hA happening' tag' kind' s' h' with
      ⟨-, hnone', hregs'⟩ | ⟨-, -, a', -, -, -, -, -, ha', hend', hpar'⟩
    · rw [hregs, hregs']
    · rw [hend', State.procedureEnd?, hnone] at heq
      cases heq
    · rw [hend, State.procedureEnd?, hnone'] at heq
      cases heq
    · rw [hend, hend'] at heq
      have hbehind : a.behind = a'.behind := Option.some.inj heq
      obtain rfl : a = a' := by rw [← ha, ← ha', hbehind]
      exact hpar.unique hpar'

/-- In front of the assignment in a loop of this program, two registers hold its two parameters. -/
theorem registers_at_statements_loop : ∃ tokens ast tag s signature,
    tokenize "t.mc" "void f(int a, u8 b) \x7b while (a) \x7b a = a - b; \x7d \x7d" = .ok tokens ∧
    parse tokens = .ok ast ∧ Reports (generate {} "t.mc" ast) .nodeStart tag .assignment s ∧
    s.registers.slots.entries.length = 2 ∧ InProcedure signature s := by
  have hpasses : passes "t.mc" "void f(int a, u8 b) \x7b while (a) \x7b a = a - b; \x7d \x7d"
      (fun ast => (generate {} "t.mc" ast).marks.any fun (m, s) =>
        m = nodeMark .nodeStart ⟨4, ⟨"t.mc", 1, 35⟩⟩ .assignment ∧
          s.scopes.procedureScope? ≠ none ∧ s.registers.slots.entries.length = 2) = true := by
    decide +kernel
  obtain ⟨tokens, ast, htokens, hparse, htest⟩ := exists_of_passes hpasses
  obtain ⟨⟨m, s⟩, hmem, hs⟩ := List.any_eq_true.mp htest
  obtain ⟨rfl, hin, hlen⟩ := of_decide_eq_true hs
  obtain ⟨_, _, _, hplaced, -⟩ := registers_at_statements hparse {} "t.mc"
  rcases hplaced _ _ _ _ ⟨rfl, hmem⟩ with ⟨-, hnone, -⟩ | ⟨signature, -, -, -, -, hin', -⟩
  · exact absurd hnone hin
  · exact ⟨tokens, ast, _, s, signature, htokens, hparse, ⟨rfl, hmem⟩, hlen, hin'⟩

end Generation

end ProcLang

import Mathlib.Data.List.Forall2
import ProcLang.Proofs.Simulation.Block

/-!
The code of statements does what the statements mean.

`Simulates` compares a run of a statement with the machine.  Where the run goes on, the machine comes to
the end of the code and agrees with the variables.  Where the run ends in a jump, the machine comes to the
label of the jump, with the frames closed that lie between.  The proof is by induction on the bound of the
run, so that a further turn of a loop is a smaller case.
-/

namespace ProcLang

/-- The jump in which a run ends, if it does not go on. -/
def Meaning.Flow.jump? : Meaning.Flow → Option Jump
  | .next => none
  | .continueLoop => some .continueLoop
  | .breakLoop => some .breakLoop
  | .giveBack _ => some .giveBack

namespace Generation

open Machine (Preserves Gives)
open Meaning (Env Local Done Flow)

/-- The labels of jumps out of some scopes are in the program. -/
def Resolves (P : Image) (scopes : ScopeStack) : Prop :=
  ∀ jump crossed target, scopes.jumpTarget jump = .ok (crossed, target) →
    ∃ position, target? target P.code = some position

/-- The scopes behind some statements. -/
def scopesAfterAll (body : List Stmt) (scopes : ScopeStack) : ScopeStack :=
  body.foldl (fun scopes st => scopesAfter st scopes) scopes

section Scopes

variable {P : Image} {scope : Scope} {outer scopes : ScopeStack} {st : Stmt} {rest : List Stmt}

theorem passage_plain {jump : Jump} (hkind : scope.kind = .plain) :
    ScopeStack.passage jump scope = .pass := by
  unfold ScopeStack.passage
  rw [hkind]
  cases jump <;> rfl

/-- Statements change nothing but the names of the innermost scope. -/
theorem exists_scopesAfterAll : ∀ (body : List Stmt) (scope : Scope) (outer : ScopeStack),
    ∃ scope', scopesAfterAll body (scope :: outer) = scope' :: outer ∧ scope'.kind = scope.kind
  | [], scope, _ => ⟨scope, rfl, rfl⟩
  | st :: rest, scope, outer => by
    obtain ⟨scope₁, heq, hkind, -⟩ := scopesAfter_cases st scope outer
    obtain ⟨scope₂, heq', hkind'⟩ := exists_scopesAfterAll rest scope₁ outer
    refine ⟨scope₂, ?_, hkind'.trans hkind⟩
    rw [scopesAfterAll, List.foldl_cons, heq]
    exact heq'

theorem jumpTarget_scopesAfter (jump : Jump) :
    (scopesAfter st scopes).jumpTarget jump = scopes.jumpTarget jump := by
  cases scopes with
  | nil => rfl
  | cons scope outer =>
    obtain ⟨scope', heq, hkind, -, hstart, hend⟩ := scopesAfter_cases st scope outer
    have hpassage : ScopeStack.passage jump scope' = ScopeStack.passage jump scope := by
      unfold ScopeStack.passage
      rw [hkind, hstart, hend]
    rw [heq, ScopeStack.jumpTarget, ScopeStack.jumpTarget, ScopeStack.jumpTargetFrom,
      ScopeStack.jumpTargetFrom, hpassage]

theorem Resolves.after (h : Resolves P scopes) : Resolves P (scopesAfter st scopes) :=
  fun jump crossed target hjump => h jump crossed target (jumpTarget_scopesAfter jump ▸ hjump)

/-- A scope that passes on every jump adds no target. -/
theorem Resolves.plain (h : Resolves P scopes) (hkind : scope.kind = .plain) :
    Resolves P (scope :: scopes) := by
  intro jump crossed target hjump
  obtain ⟨-, ⟨htarget, -⟩ | ⟨-, inner, -, hinner⟩⟩ := jumpTarget_cons hjump
  · rw [passage_plain hkind] at htarget
    cases htarget
  · exact h _ _ _ hinner

/-- A loop adds the targets of its own jumps. -/
theorem Resolves.loop (h : Resolves P scopes) {body : List Stmt} {start behind : Label}
    {position position' : List Instr}
    (hscope : scope = loopScope scopes body start behind)
    (hstart : target? start P.code = some position) (hbehind : target? behind P.code = some position') :
    Resolves P (scope :: scopes) := by
  subst hscope
  intro jump crossed target hjump
  obtain ⟨-, ⟨htarget, -⟩ | ⟨-, inner, -, hinner⟩⟩ := jumpTarget_cons hjump
  · cases jump with
    | continueLoop =>
      obtain rfl : start = target := Option.some.inj (ScopeStack.Passage.target.inj htarget)
      exact ⟨_, hstart⟩
    | breakLoop =>
      obtain rfl : behind = target := Option.some.inj (ScopeStack.Passage.target.inj htarget)
      exact ⟨_, hbehind⟩
    | giveBack => cases htarget
  · exact h _ _ _ hinner

end Scopes

namespace Invocation

variable {A : Invocation} {P : Image} {m m' : Machine} {scope : Scope}
  {inner outer scopes mid after : ScopeStack} {env env' : Env} {c c₁ c₂ post : List Instr} {d d' : Done}
  {jump : Jump} {k : Config}

/-! ### Where a run ends -/

/-- A jump out of some scopes has come to its label, in the frame of the scope with this label. -/
def Jumped (A : Invocation) (P : Image) (scopes : ScopeStack) (jump : Jump) (env : Env) (k : Config) :
    Prop :=
  ∃ crossed target, scopes.jumpTarget jump = .ok (crossed, target) ∧
    target? target P.code = some k.position ∧
    A.Within (scopes.drop (crossed + 1)) (env.drop (crossed + 1)) k.machine

/-- The machine is where a run has ended: at the end of the code, or at the label of a jump, with the
value in `rax` that is given back. -/
def Arrived (A : Invocation) (P : Image) (scopes after : ScopeStack) (post : List Instr) (d : Done)
    (k : Config) : Prop :=
  match d.flow.jump? with
  | none => k.position = post ∧ A.Agree after d.env k.machine
  | some jump => A.Jumped P scopes jump d.env k ∧
      ∀ w, d.flow = .giveBack (some w) → k.machine.regs .rax = w

/-- The calls behind some others are those of a run. -/
def Called (before : List CallRecord) (calls : List Meaning.Call) (k : Config) : Prop :=
  ∃ new, k.calls = before ++ new ∧ List.Forall₂ Makes new calls

/-- The code of a statement in some scopes comes from a machine to where a run of it ends, and makes
the calls of the run. -/
def Simulates (A : Invocation) (P : Image) (scopes after : ScopeStack) (c : List Instr) (m : Machine)
    (d : Done) : Prop :=
  ∀ pre post before, P.code = pre ++ c ++ post →
    P.Eventually (fun k => Called before d.calls k ∧ A.Arrived P scopes after post d k)
      ⟨c ++ post, m, before⟩

theorem Jumped.pass (h : A.Jumped P (scope :: outer) jump env k) (hpass : ScopeStack.passage jump scope = .pass) :
    A.Jumped P outer jump env.tail k := by
  obtain ⟨crossed, target, hjump, htarget, hwithin⟩ := h
  obtain ⟨-, ⟨hstop, -⟩ | ⟨-, inner, rfl, hinner⟩⟩ := jumpTarget_cons hjump
  · rw [hpass] at hstop
    cases hstop
  · refine ⟨inner, target, hinner, htarget, ?_⟩
    rw [List.drop_tail]
    exact hwithin

theorem Jumped.of_after {st : Stmt} (h : A.Jumped P (scopesAfter st scopes) jump env k) :
    A.Jumped P scopes jump env k := by
  obtain ⟨crossed, target, hjump, htarget, hwithin⟩ := h
  rw [jumpTarget_scopesAfter] at hjump
  rw [drop_scopesAfter] at hwithin
  exact ⟨crossed, target, hjump, htarget, hwithin⟩

/-- A jump that ends at the innermost scope has come to its label there. -/
theorem Jumped.here {l : Label} {position : List Instr} (h : A.Jumped P (scope :: outer) jump env k)
    (hpassage : ScopeStack.passage jump scope = .target (some l))
    (hl : target? l P.code = some position) : k.position = position ∧ A.Within outer env.tail k.machine := by
  obtain ⟨crossed, target, hjump, htarget, hwithin⟩ := h
  obtain ⟨-, ⟨hstop, rfl⟩ | ⟨hpass, -⟩⟩ := jumpTarget_cons hjump
  · rw [hpassage] at hstop
    obtain rfl := Option.some.inj (ScopeStack.Passage.target.inj hstop)
    rw [hl] at htarget
    rw [Nat.zero_add, List.drop_one, List.drop_one] at hwithin
    exact ⟨(Option.some.inj htarget).symm, hwithin⟩
  · rw [hpassage] at hpass
    cases hpass

theorem arrived_next (hflow : d.flow = .next) :
    A.Arrived P scopes after post d k ↔ k.position = post ∧ A.Agree after d.env k.machine := by
  rw [Arrived, hflow]
  rfl

theorem arrived_jump (hjump : d.flow.jump? = some jump) :
    A.Arrived P scopes after post d k ↔ A.Jumped P scopes jump d.env k ∧
      ∀ w, d.flow = .giveBack (some w) → k.machine.regs .rax = w := by
  rw [Arrived, hjump]

theorem called_nil (before : List CallRecord) (position : List Instr) (m : Machine) :
    Called before [] ⟨position, m, before⟩ :=
  ⟨[], (List.append_nil _).symm, .nil⟩

theorem Called.append {before : List CallRecord} {calls calls' : List Meaning.Call} {k' : Config}
    (h : Called before calls k) (h' : Called k.calls calls' k') : Called before (calls ++ calls') k' := by
  obtain ⟨new, hnew, hmakes⟩ := h
  obtain ⟨new', hnew', hmakes'⟩ := h'
  exact ⟨new ++ new', by rw [hnew', hnew, List.append_assoc], List.rel_append hmakes hmakes'⟩

/-! ### Putting code together -/

/-- Code that runs to its end. -/
theorem simulates_of_through {calls : List Meaning.Call}
    (h : P.Through c m fun m' new => A.Agree after env m' ∧ List.Forall₂ Makes new calls) :
    A.Simulates P scopes after c m ⟨env, .next, calls⟩ := by
  intro pre post before hcode
  refine (h pre post before hcode).mono ?_
  rintro k ⟨hpos, new, hcalls, hagree, hmakes⟩
  exact ⟨⟨new, hcalls, hmakes⟩, hpos, hagree⟩

/-- Code that runs to its end without calls. -/
theorem simulates_of_straight (h : P.Straight c m (A.Agree after env)) :
    A.Simulates P scopes after c m (Meaning.quiet env .next) :=
  simulates_of_through (Image.Through.mono h fun _ _ ⟨hnew, hagree⟩ => ⟨hagree, hnew ▸ .nil⟩)

/-- Code in front of other code. -/
theorem Simulates.behind {Q : Machine → Prop} (h₁ : P.Straight c₁ m Q)
    (h₂ : ∀ m₁, Q m₁ → A.Simulates P scopes after c₂ m₁ d) :
    A.Simulates P scopes after (c₁ ++ c₂) m d := by
  intro pre post before hcode
  rw [List.append_assoc]
  refine (h₁ pre (c₂ ++ post) before (by simpa using hcode)).trans ?_
  rintro ⟨position, m₁, calls⟩ ⟨rfl, new, rfl, rfl, hm₁⟩
  rw [List.append_nil]
  exact h₂ m₁ hm₁ (pre ++ c₁) post before (by simpa using hcode)

/-- A run that goes on, and what comes behind it. -/
theorem Simulates.append (h₁ : A.Simulates P inner mid c₁ m d) (hflow : d.flow = .next)
    (h₂ : ∀ m₁, A.Agree mid d.env m₁ → A.Simulates P scopes after c₂ m₁ d') :
    A.Simulates P scopes after (c₁ ++ c₂) m (d'.behind d.calls) := by
  intro pre post before hcode
  rw [List.append_assoc]
  refine (h₁ pre (c₂ ++ post) before (by simpa using hcode)).trans ?_
  rintro ⟨position, m₁, calls⟩ ⟨hcalled, harrived⟩
  obtain ⟨rfl, hagree⟩ := (arrived_next hflow).mp harrived
  refine (h₂ m₁ hagree (pre ++ c₁) post calls (by simpa using hcode)).mono ?_
  rintro k ⟨hcalled', harrived'⟩
  exact ⟨hcalled.append hcalled', harrived'⟩

theorem next_of_jump? {flow : Flow} (h : flow.jump? = none) : flow = .next := by
  cases flow <;> first | rfl | cases h

/-- Code behind a run: it is come to if the run goes on, and left alone if the run ends in a jump. -/
theorem Simulates.finish (h : A.Simulates P inner mid c₁ m d)
    (hrest : d.flow = .next → ∀ m₁, A.Agree mid d.env m₁ → P.Straight c₂ m₁ (A.Agree after env))
    (hjump : ∀ {jump k}, d.flow.jump? = some jump → A.Jumped P inner jump d.env k →
      A.Jumped P scopes jump env k) :
    A.Simulates P scopes after (c₁ ++ c₂) m { d with env := env } := by
  by_cases hflow : d.flow = .next
  · have hquiet : ∀ m₁, A.Agree mid d.env m₁ →
        A.Simulates P scopes after c₂ m₁ (Meaning.quiet env .next) :=
      fun m₁ hm₁ => simulates_of_straight (hrest hflow m₁ hm₁)
    have hd : (Meaning.quiet env .next).behind d.calls = { d with env := env } := by
      rw [hflow]
      simp [Meaning.quiet, Done.behind]
    rw [← hd]
    exact h.append hflow hquiet
  · intro pre post before hcode
    rw [List.append_assoc]
    refine (h pre (c₂ ++ post) before (by simpa using hcode)).mono ?_
    rintro k ⟨hcalled, harrived⟩
    refine ⟨hcalled, ?_⟩
    cases hj : d.flow.jump? with
    | none => exact absurd (next_of_jump? hj) hflow
    | some jump =>
      obtain ⟨hjumped, hrax⟩ := (arrived_jump hj).mp harrived
      have hj' : Flow.jump? { d with env := env }.flow = some jump := hj
      exact (arrived_jump hj').mpr ⟨hjump hj hjumped, hrax⟩

theorem Simulates.of_after {st : Stmt} (h : A.Simulates P (scopesAfter st scopes) after c m d) :
    A.Simulates P scopes after c m d := by
  intro pre post before hcode
  refine (h pre post before hcode).mono ?_
  rintro k ⟨hcalled, harrived⟩
  refine ⟨hcalled, ?_⟩
  cases hj : d.flow.jump? with
  | none =>
    have hflow := next_of_jump? hj
    exact (arrived_next hflow).mpr ((arrived_next hflow).mp harrived)
  | some jump =>
    obtain ⟨hjumped, hrax⟩ := (arrived_jump hj).mp harrived
    exact (arrived_jump hj).mpr ⟨hjumped.of_after, hrax⟩

/-! ### Jumps -/

/-- The code of a jump closes frames and goes to the label. -/
theorem Agree.simulates_jump {crossed : Nat} {target : Label} {flow : Flow} (h : A.Agree scopes env m)
    (hjump : scopes.jumpTarget jump = .ok (crossed, target)) (hresolves : Resolves P scopes)
    (hflow : flow.jump? = some jump) (hrax : ∀ w, flow = .giveBack (some w) → m.regs .rax = w) :
    A.Simulates P scopes after (epiloguesCode crossed ++ [.jmp target]) m (Meaning.quiet env flow) := by
  refine .behind (h.closeAll hjump) fun m₁ ⟨hwithin, hrax₁⟩ => ?_
  intro pre post before hcode
  obtain ⟨position, hposition⟩ := hresolves _ _ _ hjump
  refine .jump hposition (.now ⟨called_nil _ _ _, (arrived_jump hflow).mpr ⟨?_, fun w hw => ?_⟩⟩)
  · exact ⟨crossed, target, hjump, hposition, hwithin⟩
  · exact hrax₁.trans (hrax w hw)

/-! ### Blocks -/

/-- A block has no variables at first. -/
theorem holds_nil {base : Int} (hvars : scope.vars = .empty) : A.Holds m base scope [] :=
  ⟨fun _ => by rw [hvars]; rfl, fun hv => by rw [hvars] at hv; cases hv⟩

theorem stackNeed_openCode (reserved : Nat) : stackNeed (openCode reserved) = 8 + reserved := by
  unfold openCode
  split_ifs with h
  · simp [Instr.reserved, copyInstr, adjustInstr]
  · obtain rfl : reserved = 0 := by omega
    rfl

/-- A block within a frame. -/
theorem Agree.simulates_framed {body : List Stmt} (h : A.Agree scopes env m)
    (hroom : stackNeed (framed (innerScope .plain scopes body).localBytes c) + depth scopes ≤ A.top + 8)
    (hbody : ∀ m₁, A.Agree (innerScope .plain scopes body :: scopes) ([] :: env) m₁ →
      A.Simulates P (innerScope .plain scopes body :: scopes)
        (scopesAfterAll body (innerScope .plain scopes body :: scopes)) c m₁ d) :
    A.Simulates P scopes scopes (framed (innerScope .plain scopes body).localBytes c) m
      { d with env := d.env.tail } := by
  have hkind : (innerScope .plain scopes body).kind = .plain := rfl
  rw [framed, stackNeed_append, stackNeed_append, stackNeed_openCode] at hroom
  rw [framed, List.append_assoc]
  have hopen : P.Straight (openCode (innerScope .plain scopes body).localBytes) m
      (A.Agree (innerScope .plain scopes body :: scopes) ([] :: env)) :=
    h.open (framed_innerScope (by decide) (by decide)) (by omega)
      fun _ _ _ _ => holds_nil rfl
  refine .behind hopen fun m₁ hm₁ => ?_
  obtain ⟨scope', hafter, hkind'⟩ := exists_scopesAfterAll body (innerScope .plain scopes body) scopes
  have hinner := hbody m₁ hm₁
  rw [hafter] at hinner
  refine hinner.finish (fun _ m₂ hm₂ => ?_) fun _ hjumped => hjumped.pass (passage_plain hkind)
  have hentry : scope'.kind ≠ .entry := by
    rw [hkind', hkind]
    decide
  exact (hm₂.within hentry).close.mono fun _ hm₃ => hm₃.1

/-! ### Conditions -/

section Conditions

variable {pool : List String} {strings : String → Word} {condition : Expr} {n n' : Nat} {w : Word}
  {target : Label}

theorem exec_test (labels : String → Word) (m : Machine) (r : Register) :
    m.exec labels (.test .quad (.reg r) (.reg r)) =
      some (m.withFlags (some ⟨m.regs r == 0, (m.regs r).msb, false⟩)) := by
  simp only [Machine.exec, Machine.read, Width.cut_quad, BitVec.and_self, Width.bits,
    BitVec.setWidth_eq]
  rfl

/-- A condition is zero, and the code goes to the label, or it is not, and the code goes on. -/
theorem Agree.eventually_skip {goal : Config → Prop} {pre : List Instr} {calls : List CallRecord}
    (h : A.Agree scopes env m) (hunique : P.Unique) (hpool : P.Holds pool strings)
    (hskip : SkipCode pool (view scopes A.file) A.used condition target n c n')
    (hw : Meaning.eval strings env condition = some w)
    (hroom : stackNeed c + depth scopes ≤ A.top + 8) (hcode : P.code = pre ++ c ++ post)
    (hnonzero : w ≠ 0 → ∀ m₁, A.Agree scopes env m₁ → P.Eventually goal ⟨post, m₁, calls⟩)
    (hzero : w = 0 → ∃ position, target? target P.code = some position ∧
      ∀ m₁, A.Agree scopes env m₁ → P.Eventually goal ⟨position, m₁, calls⟩) :
    P.Eventually goal ⟨c ++ post, m, calls⟩ := by
  obtain ⟨c₁, r, type, dst, hexpr, hdst, rfl⟩ := hskip
  have hrsp := h.rsp
  rw [stackNeed_append] at hroom
  have hvalue := hexpr.straight hunique hpool (sound_used A) h.sees hw (by omega)
  rw [List.append_assoc]
  refine (hvalue pre _ calls (by simpa using hcode)).trans ?_
  rintro ⟨position, m₁, calls₁⟩ ⟨rfl, new, rfl, rfl, hm₁⟩
  rw [List.append_nil]
  refine .next (exec_copy _ _ _ _) (.next (exec_test _ _ _) ?_)
  rw [Machine.regs_set_self, hm₁.result]
  have hagree : A.Agree scopes env ((m₁.set dst w).withFlags (some ⟨w == 0, w.msb, false⟩)) :=
    h.keeps ((hm₁.keeps hexpr.free).trans ((Gives.set hdst.1).keeps hdst.of_add).withFlags)
  by_cases hzero' : w = 0
  · obtain ⟨position, hposition, hgoal⟩ := hzero hzero'
    refine .branch rfl (fun _ => hposition) (fun _ => hgoal _ hagree) fun hfalse => ?_
    exact absurd hzero' (beq_eq_false_iff_ne.mp hfalse)
  · have hnever : (w == 0) ≠ true := by simpa using hzero'
    have htarget : Condition.holds .e ⟨w == 0, w.msb, false⟩ = true →
        target? target P.code = some post := fun htrue => absurd htrue hnever
    exact .branch rfl htarget (fun htrue => absurd htrue hnever) fun _ => hnonzero hzero' _ hagree

theorem straight_note (options : Options) (text : String) :
    P.Straight (note options text) m (· = m) := by
  unfold note
  split_ifs
  · exact .one rfl rfl
  · exact .nil rfl

/-- A jump over some code. -/
theorem straight_jumpOver {Q : Machine → Prop} {l : Label} (hunique : P.Unique) (h : Q m) :
    P.Straight (.jmp l :: c ++ [.label l]) m Q := by
  intro pre post calls hcode
  have htarget : target? l P.code = some (.label l :: post) :=
    hunique.target? (pre ++ .jmp l :: c) (by simpa using hcode)
  exact .jump htarget (.next rfl (.now ⟨rfl, [], (List.append_nil _).symm, rfl, h⟩))

variable {options : Options} {text : String} (hunique : P.Unique) (hpool : P.Holds pool strings)
  (hskip : SkipCode pool (view scopes A.file) A.used condition target n c₁ n')
  (hw : Meaning.eval strings env condition = some w) (hroom : stackNeed c₁ + depth scopes ≤ A.top + 8)
  (hthen : w ≠ 0 → ∀ m₁, A.Agree scopes env m₁ → A.Simulates P scopes scopes c₂ m₁ d)

include hunique hpool hskip hw hroom hthen

/-- A branch without an alternative. -/
theorem Agree.simulates_branch (h : A.Agree scopes env m)
    (helse : w = 0 → d = Meaning.quiet env .next) :
    A.Simulates P scopes scopes (note options text ++ c₁ ++ c₂ ++ [.label target]) m d := by
  rw [List.append_assoc, List.append_assoc]
  refine .behind (straight_note _ _) fun m₁ hm₁ => ?_
  subst hm₁
  intro pre post before hcode
  have hcode₁ : P.code = pre ++ c₁ ++ (c₂ ++ [.label target] ++ post) := by simpa using hcode
  rw [List.append_assoc]
  refine h.eventually_skip hunique hpool hskip hw hroom hcode₁ ?_ ?_
  · intro hnonzero m₂ hm₂
    have hboth : A.Simulates P scopes scopes (c₂ ++ [.label target]) m₂ d :=
      (hthen hnonzero m₂ hm₂).finish (fun _ m₃ hm₃ => .one rfl hm₃) fun _ hjumped => hjumped
    exact hboth (pre ++ c₁) post before (by simpa using hcode)
  · intro hzero
    refine ⟨.label target :: post, hunique.target? (pre ++ c₁ ++ c₂) (by simpa using hcode), ?_⟩
    intro m₂ hm₂
    rw [helse hzero]
    exact .next rfl (.now ⟨called_nil _ _ _, rfl, hm₂⟩)

/-- A branch with an alternative. -/
theorem Agree.simulates_branchElse {done : Label} {c₃ : List Instr} (h : A.Agree scopes env m)
    (helse : w = 0 → ∀ m₁, A.Agree scopes env m₁ → A.Simulates P scopes scopes c₃ m₁ d) :
    A.Simulates P scopes scopes (note options text ++ c₁ ++ c₂ ++
      .jmp done :: .label target :: c₃ ++ [.label done]) m d := by
  have hcode' : note options text ++ c₁ ++ c₂ ++ .jmp done :: .label target :: c₃ ++ [.label done] =
      note options text ++ (c₁ ++ (c₂ ++ (.jmp done :: (.label target :: c₃) ++ [.label done]))) := by
    simp
  rw [hcode']
  refine .behind (straight_note _ _) fun m₁ hm₁ => ?_
  subst hm₁
  intro pre post before hcode
  have hcode₁ : P.code = pre ++ c₁ ++
      (c₂ ++ (.jmp done :: (.label target :: c₃) ++ [.label done]) ++ post) := by simpa using hcode
  rw [List.append_assoc]
  refine h.eventually_skip hunique hpool hskip hw hroom hcode₁ ?_ ?_
  · intro hnonzero m₂ hm₂
    have hboth : A.Simulates P scopes scopes
        (c₂ ++ (.jmp done :: (.label target :: c₃) ++ [.label done])) m₂ d :=
      (hthen hnonzero m₂ hm₂).finish (fun _ m₃ hm₃ => straight_jumpOver hunique hm₃)
        fun _ hjumped => hjumped
    exact hboth (pre ++ c₁) post before (by simpa using hcode)
  · intro hzero
    refine ⟨.label target :: c₃ ++ [.label done] ++ post,
      hunique.target? (pre ++ c₁ ++ c₂ ++ [.jmp done]) (by simpa using hcode), ?_⟩
    intro m₂ hm₂
    have hboth : A.Simulates P scopes scopes (c₃ ++ [.label done]) m₂ d :=
      (helse hzero m₂ hm₂).finish (fun _ m₃ hm₃ => .one rfl hm₃) fun _ hjumped => hjumped
    refine .next rfl ?_
    exact hboth (pre ++ c₁ ++ c₂ ++ [.jmp done, .label target]) post before (by simpa using hcode)

end Conditions

/-! ### Loops -/

section Loops

variable {pool : List String} {strings : String → Word} {condition : Expr} {n n' : Nat}
  {tag bodyTag : Tag} {body : List Stmt} {head start behind exit : Label}

/-- The code of a loop from its head on. -/
def loopCode (head start behind exit : Label) (reserved : Nat) (c₁ c₂ : List Instr) : List Instr :=
  .label head :: c₁ ++ openCode reserved ++ c₂ ++ .label start :: epilogueCode ++
    .jmp head :: .label behind :: epilogueCode ++ [.label exit]

/-- A turn of a loop: the condition is zero; or the body goes on, to a further turn; or it breaks the
loop; or it returns. -/
theorem exec_loop {fuel : Nat}
    (h : Meaning.exec strings fuel env (.loop tag condition (.block bodyTag body)) = some d) :
    ∃ f w, fuel = f + 1 ∧ Meaning.eval strings env condition = some w ∧
      (w = 0 ∧ d = Meaning.quiet env .next ∨
        w ≠ 0 ∧ ∃ g e, f = g + 1 ∧ Meaning.execAll strings g ([] :: env) body = some e ∧
          ((e.flow = .next ∨ e.flow = .continueLoop) ∧ (∃ d',
              Meaning.exec strings f e.env.tail (.loop tag condition (.block bodyTag body)) = some d' ∧
              d = d'.behind e.calls) ∨
            e.flow = .breakLoop ∧ d = { e with env := e.env.tail, flow := .next } ∨
            ∃ value, e.flow = .giveBack value ∧ d = { e with env := e.env.tail })) := by
  cases fuel with
  | zero => cases h
  | succ f =>
    obtain ⟨w, hw, h⟩ := Option.bind_eq_some_iff.mp h
    refine ⟨f, w, rfl, hw, ?_⟩
    by_cases hzero : w = 0
    · rw [if_pos hzero] at h
      exact .inl ⟨hzero, (Option.some.inj h).symm⟩
    · rw [if_neg hzero] at h
      obtain ⟨e', he, h⟩ := Option.bind_eq_some_iff.mp h
      cases f with
      | zero => cases he
      | succ g =>
        obtain ⟨e, hbody, he⟩ := Option.bind_eq_some_iff.mp he
        obtain rfl := Option.some.inj he
        refine .inr ⟨hzero, g, e, rfl, hbody, ?_⟩
        cases hflow : e.flow with
        | next =>
          simp only [hflow] at h
          obtain ⟨d', hd', h⟩ := Option.bind_eq_some_iff.mp h
          exact .inl ⟨.inl rfl, d', hd', (Option.some.inj h).symm⟩
        | continueLoop =>
          simp only [hflow] at h
          obtain ⟨d', hd', h⟩ := Option.bind_eq_some_iff.mp h
          exact .inl ⟨.inr rfl, d', hd', (Option.some.inj h).symm⟩
        | breakLoop =>
          simp only [hflow] at h
          exact .inr (.inl ⟨rfl, (Option.some.inj h).symm⟩)
        | giveBack value =>
          simp only [hflow] at h
          exact .inr (.inr ⟨value, rfl, (Option.some.inj h).symm⟩)

/-- The end of a turn: the frame of the body is closed behind a label. -/
theorem Within.eventually_close {goal : Config → Prop} {l : Label} {calls : List CallRecord}
    (h : A.Within scopes env m) {pre : List Instr}
    (hcode : P.code = pre ++ .label l :: epilogueCode ++ post)
    (hgoal : ∀ m', A.Agree scopes env m' → P.Eventually goal ⟨post, m', calls⟩) :
    P.Eventually goal ⟨.label l :: epilogueCode ++ post, m, calls⟩ := by
  refine .next rfl ((h.close (pre ++ [.label l]) post calls (by simpa using hcode)).trans ?_)
  rintro ⟨position, m', calls'⟩ ⟨rfl, new, rfl, rfl, hm', -⟩
  rw [List.append_nil]
  exact hgoal m' hm'

/-- A body that goes on or continues the loop comes to the end of the turn. -/
theorem Arrived.turn {position : List Instr} (hscope : scope = loopScope scopes body start behind)
    (hstart : target? start P.code = some position) (hflow : d.flow = .next ∨ d.flow = .continueLoop)
    (h : A.Arrived P (scope :: scopes) (scopesAfterAll body (scope :: scopes)) position d k) :
    k.position = position ∧ A.Within scopes d.env.tail k.machine := by
  rcases hflow with hflow | hflow
  · obtain ⟨hposition, hagree⟩ := (arrived_next hflow).mp h
    obtain ⟨scope', hafter, hkind⟩ := exists_scopesAfterAll body scope scopes
    have hentry : scope'.kind ≠ .entry := by
      rw [hkind, hscope]
      simp [loopScope, innerScope, Scope.layOut]
    exact ⟨hposition, (hafter ▸ hagree).within hentry⟩
  · have hjump : d.flow.jump? = some .continueLoop := by rw [hflow]; rfl
    exact ((arrived_jump hjump).mp h).1.here (by rw [hscope]; rfl) hstart

/-- The turns of a loop, one after another. -/
theorem simulates_loop {fuel : Nat} (hunique : P.Unique) (hpool : P.Holds pool strings)
    (hscope : scope = loopScope scopes body start behind)
    (hskip : SkipCode pool (view scopes A.file) A.used condition exit n c₁ n')
    (hroom : stackNeed c₁ + depth scopes ≤ A.top + 8)
    (hopen : 8 + scope.localBytes + depth scopes ≤ A.top + 8) (hresolves : Resolves P scopes)
    (hbody : Resolves P (scope :: scopes) → ∀ {g env m e}, g < fuel →
      Meaning.execAll strings g ([] :: env) body = some e →
      A.Agree (scope :: scopes) ([] :: env) m →
      A.Simulates P (scope :: scopes) (scopesAfterAll body (scope :: scopes)) c₂ m e) :
    ∀ {f : Nat} {env : Env} {m : Machine} {d : Done}, f ≤ fuel →
      Meaning.exec strings f env (.loop tag condition (.block bodyTag body)) = some d →
      A.Agree scopes env m →
      A.Simulates P scopes scopes (loopCode head start behind exit scope.localBytes c₁ c₂) m d := by
  intro f
  induction f with
  | zero =>
    intro env m d _ hd
    cases hd
  | succ f ih =>
    intro env m d hle hd h pre post before hcode
    obtain ⟨_, w, hf, hw, hturn⟩ := exec_loop hd
    obtain rfl := Nat.succ.inj hf
    -- the positions of the labels
    have hhead : target? head P.code =
        some (loopCode head start behind exit scope.localBytes c₁ c₂ ++ post) :=
      hunique.target? pre (by simpa [loopCode] using hcode)
    have hexit : target? exit P.code = some (.label exit :: post) :=
      hunique.target? (pre ++ (.label head :: c₁ ++ openCode scope.localBytes ++ c₂ ++
        .label start :: epilogueCode ++ .jmp head :: .label behind :: epilogueCode))
        (by simpa [loopCode] using hcode)
    have hbehind : target? behind P.code = some (.label behind :: epilogueCode ++ .label exit :: post) :=
      hunique.target? (pre ++ (.label head :: c₁ ++ openCode scope.localBytes ++ c₂ ++
        .label start :: epilogueCode ++ [.jmp head])) (by simpa [loopCode] using hcode)
    have hstart : target? start P.code = some (.label start :: epilogueCode ++
        (.jmp head :: .label behind :: epilogueCode ++ .label exit :: post)) :=
      hunique.target? (pre ++ (.label head :: c₁ ++ openCode scope.localBytes ++ c₂))
        (by simpa [loopCode] using hcode)
    have hsplit : loopCode head start behind exit scope.localBytes c₁ c₂ ++ post =
        .label head :: (c₁ ++ (openCode scope.localBytes ++ (c₂ ++ (.label start :: epilogueCode ++
          (.jmp head :: .label behind :: epilogueCode ++ .label exit :: post))))) := by
      simp [loopCode]
    rw [hsplit]
    refine .next rfl ?_
    have hcode₁ : P.code = (pre ++ [.label head]) ++ c₁ ++ (openCode scope.localBytes ++ (c₂ ++
        (.label start :: epilogueCode ++
          (.jmp head :: .label behind :: epilogueCode ++ .label exit :: post)))) := by
      simpa [loopCode] using hcode
    refine h.eventually_skip hunique hpool hskip hw hroom hcode₁ (fun hnonzero m₁ hm₁ => ?_)
      fun hzero => ⟨_, hexit, fun m₁ hm₁ => ?_⟩
    · rcases hturn with ⟨hzero, -⟩ | ⟨-, g, e, rfl, hexec, hend⟩
      · exact absurd hzero hnonzero
      have hopened : P.Straight (openCode scope.localBytes) m₁
          (A.Agree (scope :: scopes) ([] :: env)) :=
        hm₁.open (framed_loopScope hscope) hopen fun _ _ _ _ => holds_nil (hscope ▸ rfl)
      refine (hopened (pre ++ .label head :: c₁) _ before (by simpa [loopCode] using hcode)).trans ?_
      rintro ⟨_, m₂, _⟩ ⟨rfl, _, rfl, rfl, hm₂⟩
      have hsim := hbody (hresolves.loop hscope hstart hbehind) (by omega) hexec hm₂
      rw [List.append_nil]
      refine (hsim (pre ++ .label head :: c₁ ++ openCode scope.localBytes) _ before
        (by simpa [loopCode] using hcode)).trans ?_
      rintro ⟨position, m₃, calls⟩ ⟨hcalled, harrived⟩
      rcases hend with ⟨hflow, d', hd', rfl⟩ | ⟨hflow, rfl⟩ | ⟨value, hflow, rfl⟩
      · -- the body goes on to the end of the turn, by itself or by a jump
        obtain ⟨rfl, hwithin⟩ := harrived.turn hscope hstart hflow
        have hcode₂ : P.code = pre ++ (.label head :: c₁ ++ openCode scope.localBytes ++ c₂) ++
            .label start :: epilogueCode ++
              (.jmp head :: .label behind :: epilogueCode ++ .label exit :: post) := by
          simpa [loopCode] using hcode
        refine hwithin.eventually_close hcode₂ fun m₄ hm₄ => .jump hhead ?_
        refine (ih (by omega) hd' hm₄ pre post calls hcode).mono ?_
        rintro k ⟨hcalled', harrived'⟩
        exact ⟨hcalled.append hcalled', harrived'⟩
      · have hjump : e.flow.jump? = some .breakLoop := by rw [hflow]; rfl
        obtain ⟨rfl, hwithin⟩ := ((arrived_jump hjump).mp harrived).1.here (by rw [hscope]; rfl) hbehind
        have hcode₂ : P.code = pre ++ (.label head :: c₁ ++ openCode scope.localBytes ++ c₂ ++
            .label start :: epilogueCode ++ [.jmp head]) ++ .label behind :: epilogueCode ++
              .label exit :: post := by
          simpa [loopCode] using hcode
        exact hwithin.eventually_close hcode₂ fun m₄ hm₄ => .next rfl (.now ⟨hcalled, rfl, hm₄⟩)
      · have hjump : e.flow.jump? = some .giveBack := by rw [hflow]; rfl
        obtain ⟨hjumped, hrax⟩ := (arrived_jump hjump).mp harrived
        have hjump' : Flow.jump? { e with env := e.env.tail }.flow = some .giveBack := hjump
        refine .now ⟨hcalled, (arrived_jump hjump').mpr ⟨hjumped.pass ?_, hrax⟩⟩
        rw [hscope]
        rfl
    · rcases hturn with ⟨-, rfl⟩ | ⟨hnonzero, -⟩
      · exact .next rfl (.now ⟨called_nil _ _ _, rfl, hm₁⟩)
      · exact absurd hzero hnonzero

end Loops

/-! ### Statements -/

section Statements

variable {options : Options} {pool : List String} {strings : String → Word} {fuel : Nat}
  {inLoop : Bool} {names : List NameScope} {n n' : Nat} {ls : List Spot} {st : Stmt}
  {body rest : List Stmt}

/-- Runs with a bound are simulated by the code of what they run. -/
structure Covered (A : Invocation) (P : Image) (options : Options) (pool : List String)
    (strings : String → Word) (fuel : Nat) : Prop where
  stmt : ∀ {scopes st rest inLoop names n c n' ls env m d},
    StmtCode options pool A.file scopes st n c n' ls → st.WellFormed inLoop names →
    HasRoom scopes (st :: rest) → Resolves P scopes → stackNeed c + depth scopes ≤ A.top + 8 →
    Meaning.exec strings fuel env st = some d → A.Agree scopes env m →
    A.Simulates P scopes (scopesAfter st scopes) c m d
  all : ∀ {scopes body inLoop names n c n' ls env m d},
    StmtsCode options pool A.file scopes body n c n' ls → Stmt.AllWellFormed inLoop names body →
    HasRoom scopes body → Resolves P scopes → stackNeed c + depth scopes ≤ A.top + 8 →
    Meaning.execAll strings fuel env body = some d → A.Agree scopes env m →
    A.Simulates P scopes (scopesAfterAll body scopes) c m d

/-- `rax` is never in use. -/
theorem Agree.set_rax (h : A.Agree scopes env m) (w : Word) : A.Agree scopes env (m.set .rax w) := by
  refine h.keeps ⟨⟨rfl, rfl, fun _ _ => rfl⟩, fun q hq => Machine.regs_set_of_ne _ _ _ ?_⟩
  exact (ne_of_allocatable (sound_used A q hq)).1

theorem Agree.simulates_call {name : String} {args : List Expr} {p : Procedure} {bytes : Nat}
    {values : List Word} (h : A.Agree scopes env m) (hunique : P.Unique) (hpool : P.Holds pool strings)
    (hlen : p.params.length = args.length)
    (hcall : CallCode pool (view scopes A.file) A.file.locationIn? (depth scopes) name
      (args.zip (p.params.map (·.1))) n c n' bytes)
    (hvalues : args.mapM (Meaning.eval strings env) = some values)
    (hroom : stackNeed c + depth scopes ≤ A.top + 8) :
    A.Simulates P scopes scopes c m ⟨env, .next, [⟨name, values⟩]⟩ := by
  have hused : Holding.used A.file.locationIn? = A.used := used_locationIn? A.file
  have hrsp := h.rsp
  have hfst : (args.zip (p.params.map (·.1))).map Prod.fst = args :=
    List.map_fst_zip (by simp [hlen])
  refine simulates_of_through ((hcall.through hunique hpool (hused ▸ sound_used A)
    (apart_locationIn? A.lawful) (hused ▸ h.sees) (hfst ▸ hvalues) (by omega)).mono ?_)
  rintro m' new ⟨hkeeps, record, rfl, hmakes⟩
  exact ⟨h.keeps (hused ▸ hkeeps), .cons hmakes .nil⟩

/-- A block, with a bound that leaves less for its statements. -/
theorem simulates_block (ih : ∀ f < fuel, A.Covered P options pool strings f) {f : Nat} {tag : Tag}
    (hf : f ≤ fuel)
    (hcode : StmtsCode options pool A.file (innerScope .plain scopes body :: scopes) body n c n' ls)
    (hwf : (Stmt.block tag body).WellFormed inLoop names) (hresolves : Resolves P scopes)
    (hroom : stackNeed (framed (innerScope .plain scopes body).localBytes c) + depth scopes ≤ A.top + 8)
    (hd : Meaning.exec strings f env (.block tag body) = some d) (h : A.Agree scopes env m) :
    A.Simulates P scopes scopes (framed (innerScope .plain scopes body).localBytes c) m d := by
  cases f with
  | zero => cases hd
  | succ g =>
    obtain ⟨e, he, hd⟩ := Option.bind_eq_some_iff.mp hd
    obtain rfl := Option.some.inj hd
    refine h.simulates_framed hroom fun m₁ hm₁ => ?_
    have hframed : A.Framed (innerScope .plain scopes body) scopes :=
      framed_innerScope (by decide) (by decide)
    refine (ih g (by omega)).all hcode hwf.2 ⟨_, _, rfl, hframed.kind, room_innerScope hwf.1⟩
      (hresolves.plain rfl) ?_ he hm₁
    rw [framed, stackNeed_append, stackNeed_append, stackNeed_openCode] at hroom
    rw [depth_cons hframed]
    omega

/-- What stands behind `else`. -/
theorem simulates_else (ih : ∀ f < fuel, A.Covered P options pool strings f) {f : Nat} (hf : f < fuel)
    (hcode : ElseCode options pool A.file scopes st n c n' ls) (hwf : st.WellFormed inLoop names)
    (hhas : HasRoom scopes rest) (hresolves : Resolves P scopes)
    (hroom : stackNeed c + depth scopes ≤ A.top + 8)
    (hd : Meaning.exec strings f env st = some d) (h : A.Agree scopes env m) :
    A.Simulates P scopes scopes c m d := by
  cases hcode with
  | block hbody => exact simulates_block ih (Nat.le_of_lt hf) hbody hwf hresolves hroom hd h
  | branch hbranch => 
    have hstmt := (ih f hf).stmt hbranch hwf (hhas.of_declarations rfl) hresolves hroom hd h
    rwa [scopesAfter_eq (by simp [Stmt.kind])] at hstmt

/-- A declaration, with a value or without. -/
theorem Agree.simulates_declaration {tag : Tag} {name : String} {type : DataType} {init : Option Expr}
    {offset : Int} (h : A.Agree (scope :: outer) env m) (hunique : P.Unique)
    (hpool : P.Holds pool strings)
    (hoffset : scope.layout.get? tag.id = some offset)
    (hnone : init = none → c = [])
    (hsome : ∀ value, init = some value → AssignCode pool (view (scope :: outer) A.file) A.used
      ⟨type, .frame 0 offset⟩ value n c n')
    (htype : type ≠ .void) (hkind : scope.kind ≠ .entry)
    (hslot : Room scope (.declaration tag name type init :: rest))
    (hroom : stackNeed c + depth (scope :: outer) ≤ A.top + 8)
    (hd : Meaning.exec strings (fuel + 1) env (.declaration tag name type init) = some d) :
    A.Simulates P (scope :: outer)
      (scope.declare (declaredVariable scope tag name type) :: outer) c m d := by
  have hrsp := h.rsp
  cases init with
  | none =>
    obtain rfl := Option.some.inj hd
    rw [hnone rfl]
    exact simulates_of_straight (.nil (h.declare hkind htype hslot))
  | some value =>
    obtain ⟨w, hw, hd⟩ := Option.bind_eq_some_iff.mp hd
    obtain rfl := Option.some.inj hd
    refine simulates_of_straight (((hsome value rfl).straight hunique hpool htype (sound_used A) h.sees
      hw (by omega)).mono ?_)
    rintro m' ⟨m₁, hkeeps, rfl⟩
    exact (h.keeps hkeeps).define hkind htype hslot hoffset

theorem Agree.simulates_assignment {tag : Tag} {name : String} {value : Expr} {place : Place}
    (h : A.Agree scopes env m) (hunique : P.Unique) (hpool : P.Holds pool strings)
    (hplace : view scopes A.file name = some place)
    (hassign : AssignCode pool (view scopes A.file) A.used place value n c n')
    (hroom : stackNeed c + depth scopes ≤ A.top + 8)
    (hd : Meaning.exec strings (fuel + 1) env (.assignment tag name value) = some d) :
    A.Simulates P scopes scopes c m d := by
  have hrsp := h.rsp
  obtain ⟨w, hw, hd⟩ := Option.bind_eq_some_iff.mp hd
  obtain ⟨env', henv', hd⟩ := Option.bind_eq_some_iff.mp hd
  obtain rfl := Option.some.inj hd
  obtain ⟨-, -, -, htype⟩ := h.sees.typed hplace
  refine simulates_of_straight ((hassign.straight hunique hpool htype (sound_used A) h.sees hw
    (by omega)).mono ?_)
  rintro m' ⟨m₁, hkeeps, rfl⟩
  exact (h.keeps hkeeps).assign hplace henv'

/-- A return with a value, which goes to `rax`. -/
theorem Agree.simulates_giveBack {value : Expr} {context type : DataType} {r : Register}
    {crossed : Nat} {target : Label} {w : Word} (h : A.Agree scopes env m) (hunique : P.Unique)
    (hpool : P.Holds pool strings)
    (hjump : scopes.jumpTarget .giveBack = .ok (crossed, target)) (hresolves : Resolves P scopes)
    (hexpr : ExprCode pool (view scopes A.file) A.used value context n c r type n')
    (hw : Meaning.eval strings env value = some w)
    (hroom : stackNeed c + depth scopes ≤ A.top + 8) :
    A.Simulates P scopes after (c ++ copyInstr .rax r :: epiloguesCode crossed ++ [.jmp target]) m
      (Meaning.quiet env (.giveBack (some w))) := by
  have hrsp := h.rsp
  have hcode : c ++ copyInstr .rax r :: epiloguesCode crossed ++ [.jmp target] =
      c ++ ([copyInstr .rax r] ++ (epiloguesCode crossed ++ [.jmp target])) := by simp
  rw [hcode]
  refine .behind (hexpr.straight hunique hpool (sound_used A) h.sees hw (by omega)) fun m₁ hm₁ => ?_
  have hcopy : P.Straight [copyInstr .rax r] m₁ (· = m₁.set .rax w) := by
    refine .one (exec_copy _ _ _ _) ?_
    rw [hm₁.result]
  refine .behind hcopy fun m₂ hm₂ => ?_
  subst hm₂
  refine ((h.keeps (hm₁.keeps hexpr.free)).set_rax w).simulates_jump hjump hresolves rfl ?_
  rintro w' hw'
  obtain rfl := Option.some.inj (Flow.giveBack.inj hw')
  exact Machine.regs_set_self _ _ _

/-- A statement is simulated if those within it are, with smaller bounds. -/
theorem simulates_stmt (hunique : P.Unique) (hpool : P.Holds pool strings)
    (ih : ∀ f < fuel + 1, A.Covered P options pool strings f)
    (hcode : StmtCode options pool A.file scopes st n c n' ls) (hwf : st.WellFormed inLoop names)
    (hhas : HasRoom scopes (st :: rest)) (hresolves : Resolves P scopes)
    (hroom : stackNeed c + depth scopes ≤ A.top + 8)
    (hd : Meaning.exec strings (fuel + 1) env st = some d) (h : A.Agree scopes env m) :
    A.Simulates P scopes (scopesAfter st scopes) c m d := by
  cases hcode with
  | block hbody =>
    rw [stackNeed_append] at hroom
    rw [scopesAfter_eq (by simp [Stmt.kind])]
    refine .behind (straight_note _ _) fun m₁ hm₁ => ?_
    subst hm₁
    exact simulates_block ih (Nat.le_refl _) hbody hwf hresolves (by omega) hd h
  | @procedure _ tag signature =>
    obtain ⟨scope, outer, rfl, hkind, -⟩ := hhas
    obtain rfl := Option.some.inj hd
    exact simulates_of_straight (.nil (h.declareProcedure hkind _))
  | call _ hlen hcall =>
    rw [stackNeed_append] at hroom
    rw [scopesAfter_eq (by simp [Stmt.kind])]
    obtain ⟨values, hvalues, hd⟩ := Option.bind_eq_some_iff.mp hd
    obtain rfl := Option.some.inj hd
    refine .behind (straight_note _ _) fun m₁ hm₁ => ?_
    subst hm₁
    exact h.simulates_call hunique hpool hlen hcall hvalues (by omega)
  | @declaration scope outer tag name type init offset _ c _ hoffset hinit =>
    rw [stackNeed_append] at hroom
    obtain ⟨_, _, heq, hkind, hslot⟩ := hhas
    obtain ⟨rfl, rfl⟩ := List.cons.inj heq
    refine .behind (straight_note _ _) fun m₁ hm₁ => ?_
    subst hm₁
    have hnone : init = none → c = [] := by
      rintro rfl
      exact hinit.1
    have hsome : ∀ value, init = some value → AssignCode pool (view (scope :: outer) A.file) A.used
        ⟨type, .frame 0 offset⟩ value n c n' := by
      rintro value rfl
      exact hinit
    exact h.simulates_declaration hunique hpool hoffset hnone hsome hwf.1 hkind hslot (by omega) hd
  | assignment hplace hassign =>
    rw [stackNeed_append] at hroom
    rw [scopesAfter_eq (by simp [Stmt.kind])]
    refine .behind (straight_note _ _) fun m₁ hm₁ => ?_
    subst hm₁
    exact h.simulates_assignment hunique hpool hplace hassign (by omega) hd
  | branch hskip hbody => 
    simp only [stackNeed_append] at hroom
    rw [scopesAfter_eq (by simp [Stmt.kind])]
    obtain ⟨w, hw, hd⟩ := Option.bind_eq_some_iff.mp hd
    refine h.simulates_branch hunique hpool hskip hw (by omega) (fun hnonzero m₁ hm₁ => ?_)
      fun hzero => ?_
    · rw [if_pos hnonzero] at hd
      exact simulates_block ih (Nat.le_succ _) hbody hwf.2.2 hresolves (by omega) hd hm₁
    · rw [if_neg (not_not_intro hzero)] at hd
      exact (Option.some.inj hd).symm
  | branchElse hskip hbody helse =>
    simp only [stackNeed_append, stackNeed_cons] at hroom
    rw [scopesAfter_eq (by simp [Stmt.kind])]
    obtain ⟨w, hw, hd⟩ := Option.bind_eq_some_iff.mp hd
    refine h.simulates_branchElse hunique hpool hskip hw (by omega) (fun hnonzero m₁ hm₁ => ?_)
      fun hzero m₁ hm₁ => ?_
    · rw [if_pos hnonzero] at hd
      exact simulates_block ih (Nat.le_succ _) hbody hwf.2.1.2 hresolves (by omega) hd hm₁
    · rw [if_neg (not_not_intro hzero)] at hd
      exact simulates_else ih (Nat.lt_succ_self _) helse hwf.2.2.2 hhas hresolves (by omega) hd hm₁
  | @loop _ _ _ _ body head start behind exit scope c₁ c₂ _ _ _ _ _ _ _ _ hscope hskip hbody =>
    have hloop : note options "while" ++ .label head :: c₁ ++ openCode scope.localBytes ++ c₂ ++
        .label start :: epilogueCode ++ .jmp head :: .label behind :: epilogueCode ++ [.label exit] =
        note options "while" ++ loopCode head start behind exit scope.localBytes c₁ c₂ := by
      simp [loopCode]
    rw [hloop] at hroom ⊢
    rw [loopCode] at hroom
    simp only [stackNeed_append, stackNeed_cons, stackNeed_openCode] at hroom
    rw [scopesAfter_eq (by simp [Stmt.kind])]
    refine .behind (straight_note _ _) fun m₁ hm₁ => ?_
    subst hm₁
    have hframed : A.Framed scope scopes := framed_loopScope hscope
    have hslots : Room scope body := hscope ▸ room_loopScope hwf.2.2.1
    refine simulates_loop hunique hpool hscope hskip (by omega) (by omega) hresolves
      (fun hresolves' {g _ _ _} hg he hm => ?_) (Nat.le_refl _) hd h
    refine (ih g hg).all hbody hwf.2.2.2 ⟨_, _, rfl, hframed.kind, hslots⟩ hresolves' ?_ he hm
    rw [depth_cons hframed]
    omega
  | continueLoop hjump | breakLoop hjump | giveBack hjump =>
    obtain rfl := Option.some.inj hd
    exact h.simulates_jump hjump hresolves rfl fun w hw => by cases hw
  | giveBackValue hjump _ hexpr =>
    simp only [stackNeed_append, stackNeed_cons] at hroom
    obtain ⟨w, hw, hd⟩ := Option.bind_eq_some_iff.mp hd
    obtain rfl := Option.some.inj hd
    exact h.simulates_giveBack hunique hpool hjump hresolves hexpr hw (by omega)

/-- Statements one after another. -/
theorem simulates_all (ih : ∀ f < fuel + 1, A.Covered P options pool strings f)
    (hcode : StmtsCode options pool A.file scopes body n c n' ls)
    (hwf : Stmt.AllWellFormed inLoop names body) (hhas : HasRoom scopes body)
    (hresolves : Resolves P scopes) (hroom : stackNeed c + depth scopes ≤ A.top + 8)
    (hd : Meaning.execAll strings (fuel + 1) env body = some d) (h : A.Agree scopes env m) :
    A.Simulates P scopes (scopesAfterAll body scopes) c m d := by
  cases hcode with
  | nil =>
    obtain rfl := Option.some.inj hd
    exact simulates_of_straight (.nil h)
  | @cons _ st rest _ _ _ _ _ _ _ hfirst hrest =>
    rw [stackNeed_append] at hroom
    obtain ⟨e, he, hd⟩ := Option.bind_eq_some_iff.mp hd
    have hsim := (ih fuel (Nat.lt_succ_self _)).stmt hfirst hwf.1 hhas hresolves (by omega) he h
    by_cases hflow : e.flow = .next
    · rw [hflow] at hd
      obtain ⟨d', hd', hd⟩ := Option.bind_eq_some_iff.mp hd
      obtain rfl := Option.some.inj hd
      refine hsim.append hflow fun m₁ hm₁ => ?_
      have hsim' := (ih fuel (Nat.lt_succ_self _)).all hrest hwf.2 hhas.after hresolves.after
        (by rw [depth_scopesAfter]; omega) hd' hm₁
      exact hsim'.of_after
    · have hd : e = d := by
        cases hj : e.flow with
        | next => exact absurd hj hflow
        | _ =>
          rw [hj] at hd
          exact Option.some.inj hd
      subst hd
      exact hsim.finish (fun hnext => absurd hnext hflow) fun _ hjumped => hjumped

/-- Every run is simulated. -/
theorem covered (hunique : P.Unique) (hpool : P.Holds pool strings)
    (fuel : Nat) : A.Covered P options pool strings fuel := by
  induction fuel using Nat.strongRecOn with
  | ind fuel ih =>
    cases fuel with
    | zero =>
      constructor
      · intro scopes st rest inLoop names n c n' ls env m d _ _ _ _ _ hd
        cases hd
      · intro scopes body inLoop names n c n' ls env m d _ _ _ _ _ hd
        cases hd
    | succ fuel => exact ⟨simulates_stmt hunique hpool ih, simulates_all ih⟩

end Statements

end Invocation

end Generation

end ProcLang

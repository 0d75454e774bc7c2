import ProcLang.Proofs.Simulation.Expression

/-!
Divisions that fail.  The value of an expression is missing where a variable has none, and where a
division that is evaluated fails: by zero, or because the quotient is too large.  `Meaning.Fails` is the
second.  The code of an expression that fails so comes to the division in question and does not get
past it: `Image.Faulting` says that every run of a piece of code, wherever it stands, stops at one of the
divisions of the piece.
-/

namespace ProcLang

/-! ### Expressions that fail -/

/-- The variables have values, and the operands are expressions. -/
def Expr.Valued (env : Meaning.Env) : Expr → Prop
  | literal .. => True
  | var _ name => ∃ x w, env.find? name = some x ∧ x.value = some w
  | unary _ _ e => e.Valued env
  | binary _ _ l r => l.Valued env ∧ r.Valued env
  | misplaced .. => False

namespace Meaning

variable {strings : String → Word} {env : Env} {e l r : Expr} {tag : Tag}

/-- The right operand is evaluated behind a left one with some value. -/
def rightNeeded : BinaryOp → Word → Bool
  | .logic op, a => !decides op a
  | .arith _, _ | .compare _, _ => true

/-- There is no quotient: the divisor is zero, or the quotient is too large. -/
def NoQuotient (a b : Word) : Prop := b = 0 ∨ a = BitVec.intMin 64 ∧ b = -1

/-- A division fails that is evaluated for the value of an expression. -/
inductive Fails (strings : String → Word) (env : Env) : Expr → Prop
  | unary {tag op e} : Fails strings env e → Fails strings env (.unary tag op e)
  | left {tag op l r} : Fails strings env l → Fails strings env (.binary tag op l r)
  | right {tag op l r a} : eval strings env l = some a → rightNeeded op a = true →
      Fails strings env r → Fails strings env (.binary tag op l r)
  | divide {tag l r a b} : eval strings env l = some a → eval strings env r = some b →
      NoQuotient a b → Fails strings env (.binary tag (.arith .div) l r)

theorem arith_div_eq_none_iff {a b : Word} : arith .div a b = none ↔ NoQuotient a b := by
  rw [arith, NoQuotient]
  split_ifs with h
  · simpa using h
  · simpa using h

/-- An expression that fails has no value. -/
theorem Fails.eval_eq_none (h : Fails strings env e) : eval strings env e = none := by
  induction h with
  | unary _ ih => rw [eval, ih, Option.map_none]
  | @left tag op l r _ ih => cases op <;> simp [eval, ih]
  | @right tag op l r a ha hneeded _ ih =>
    cases op with
    | arith op | compare op => simp [eval, ha, ih]
    | logic op =>
      have hopen : decides op a = false := by simpa [rightNeeded] using hneeded
      simp [eval, ha, ih, hopen]
  | divide ha hb hno =>
    simp [eval, ha, hb, arith_div_eq_none_iff.mpr hno]

/-- An expression whose variables have values has no value only if it fails. -/
theorem fails_of_eval_eq_none (h : e.Valued env) (hnone : eval strings env e = none) :
    Fails strings env e := by
  induction e with
  | literal tag value => cases value <;> cases hnone
  | var tag name =>
    obtain ⟨x, w, hx, hw⟩ := h
    rw [eval, hx, Option.bind_some, hw] at hnone
    cases hnone
  | unary tag op e ih => exact .unary (ih h (Option.map_eq_none_iff.mp hnone))
  | binary tag op l r ihl ihr =>
    cases ha : eval strings env l with
    | none => exact .left (ihl h.1 ha)
    | some a =>
      -- the left operand has a value: the right one fails, or the operator does
      by_cases hneeded : rightNeeded op a = true
      · cases hb : eval strings env r with
        | none => exact .right ha hneeded (ihr h.2 hb)
        | some b =>
          cases op with
          | compare op => simp [eval, ha, hb] at hnone
          | logic op =>
            have hopen : decides op a = false := by simpa [rightNeeded] using hneeded
            simp [eval, ha, hb, hopen] at hnone
          | arith op =>
            have hno : arith op a b = none := by simpa [eval, ha, hb] using hnone
            cases op with
            | div => exact .divide ha hb (arith_div_eq_none_iff.mp hno)
            | _ => cases hno
      · cases op with
        | arith op | compare op => exact absurd rfl hneeded
        | logic op =>
          have hdecided : decides op a = true := by simpa [rightNeeded] using hneeded
          simp [eval, ha, hdecided] at hnone
  | misplaced tag kind => exact h.elim

theorem Fails.of_binary {op : BinaryOp} (h : Fails strings env (.binary tag op l r)) :
    Fails strings env l ∨
    (∃ a, eval strings env l = some a ∧ rightNeeded op a = true ∧ Fails strings env r) ∨
    (op = .arith .div ∧ ∃ a b, eval strings env l = some a ∧ eval strings env r = some b ∧ NoQuotient a b) := by
  cases h with
  | left h => exact .inl h
  | right ha hneeded h => exact .inr (.inl ⟨_, ha, hneeded, h⟩)
  | divide ha hb hno => exact .inr (.inr ⟨rfl, _, _, ha, hb, hno⟩)

end Meaning

/-- A word that is extended with its sign cannot be divided where there is no quotient. -/
theorem Word.divide_signWord_eq_none {a b : Word} (h : Meaning.NoQuotient a b) :
    divide (signWord a) a b = none := by
  rcases h with rfl | ⟨rfl, rfl⟩
  · simp [divide]
  · decide

/-! ### Runs that stop at a division -/

namespace Image

variable {P : Image} {c c₁ c₂ : List Instr} {m m' : Machine} {i : Instr}

/-- The machine stands before a division of the piece of code, which has no result. -/
def Halted (P : Image) (c post : List Instr) (k : Config) : Prop :=
  ∃ done divisor rest, c = done ++ .idiv .quad divisor :: rest ∧
    k.position = .idiv .quad divisor :: rest ++ post ∧
    k.machine.exec P.labels (.idiv .quad divisor) = none

/-- There is no step from there. -/
theorem Halted.not_step {post : List Instr} {k k' : Config} (h : P.Halted c post k) : ¬ P.Step k k' := by
  obtain ⟨done, divisor, rest, -, hposition, hexec⟩ := h
  obtain ⟨position, machine, calls⟩ := k
  obtain rfl : position = _ := hposition
  intro hstep
  cases hstep with
  | next hexec' =>
    rw [hexec] at hexec'
    cases hexec'

/-- Every run of a piece of code, wherever it stands, stops at one of its divisions. -/
def Faulting (P : Image) (c : List Instr) (m : Machine) : Prop :=
  ∀ pre post calls, P.code = pre ++ c ++ post → P.Eventually (P.Halted c post) ⟨c ++ post, m, calls⟩

namespace Faulting

theorem one {divisor : Operand} (h : m.exec P.labels (.idiv .quad divisor) = none) :
    P.Faulting [.idiv .quad divisor] m :=
  fun _ _ _ _ => .now ⟨[], divisor, [], rfl, rfl, h⟩

/-- What comes behind does not matter. -/
theorem append (h : P.Faulting c₁ m) (c₂ : List Instr) : P.Faulting (c₁ ++ c₂) m := by
  intro pre post calls hcode
  have hrun := h pre (c₂ ++ post) calls (by simpa using hcode)
  rw [List.append_assoc]
  refine hrun.mono fun k hk => ?_
  obtain ⟨done, divisor, rest, rfl, hposition, hexec⟩ := hk
  exact ⟨done, divisor, rest ++ c₂, by simp, by simpa using hposition, hexec⟩

/-- What comes before is gone through. -/
theorem behind {Q : Machine → Prop} (h₁ : P.Straight c₁ m Q) (h₂ : ∀ m₁, Q m₁ → P.Faulting c₂ m₁) :
    P.Faulting (c₁ ++ c₂) m := by
  intro pre post calls hcode
  have hrun := h₁ pre (c₂ ++ post) calls (by simpa using hcode)
  rw [List.append_assoc]
  refine hrun.trans fun k hk => ?_
  obtain ⟨position, m₁, calls₁⟩ := k
  obtain ⟨hposition, new, -, -, hQ⟩ := hk
  obtain rfl : position = c₂ ++ post := hposition
  refine (h₂ m₁ hQ (pre ++ c₁) post calls₁ (by simpa using hcode)).mono fun k hk => ?_
  obtain ⟨done, divisor, rest, rfl, hposition, hexec⟩ := hk
  exact ⟨c₁ ++ done, divisor, rest, by simp, hposition, hexec⟩

theorem cons (hexec : m.exec P.labels i = some m') (h : P.Faulting c m') : P.Faulting (i :: c) m := by
  have hone : P.Straight [i] m (· = m') := .one hexec rfl
  exact behind hone fun _ hm => hm ▸ h

/-- A conditional jump that is not taken. -/
theorem pass {condition : Condition} {l : Label} {flags : Flags} (hflags : m.flags = some flags)
    (hc : condition.holds flags = false) (h : P.Faulting c m) :
    P.Faulting (.jcc condition l :: c) m := by
  intro pre post calls hcode
  have htaken : ∀ {α : Prop}, condition.holds flags = true → α := by
    intro _ htrue
    rw [hc] at htrue
    cases htrue
  have htarget : condition.holds flags = true → target? l P.code = some [] := htaken
  refine .branch hflags htarget htaken fun _ => ?_
  refine (h (pre ++ [.jcc condition l]) post calls (by simpa using hcode)).mono fun k hk => ?_
  obtain ⟨done, divisor, rest, rfl, hposition, hexec⟩ := hk
  exact ⟨.jcc condition l :: done, divisor, rest, rfl, hposition, hexec⟩

end Faulting

end Image

namespace Generation

open Machine (Preserves Gives)

/-! ### The code of expressions that fail -/

section Division

variable {P : Image} {used : Used} {m : Machine} {lhs rhs : Register}

theorem faulting_quotient {dividend : Register} {divisor : Operand} {b : Word}
    (hdivisor : ∀ m' : Machine, (∀ r, r ≠ .rax → r ≠ .rdx → m'.regs r = m.regs r) → m'.mem = m.mem →
      m'.read P.labels .quad divisor = b)
    (hno : Meaning.NoQuotient (m.regs dividend) b) : P.Faulting (quotientCode dividend divisor) m := by
  have hread := hdivisor ((m.set .rax (m.regs dividend)).set .rdx (m.regs dividend).signWord)
    (fun r hrax hrdx => by simp [hrax, hrdx]) rfl
  have hidiv : ((m.set .rax (m.regs dividend)).set .rdx (m.regs dividend).signWord).exec P.labels
      (.idiv .quad divisor) = none := by
    simp only [Machine.exec, hread]
    simp [Word.divide_signWord_eq_none hno]
  exact .cons (exec_copy _ _ _ _) (.cons rfl (.one hidiv))

theorem faulting_divide (hused : used.Sound) (hlhs : used lhs = true) (hrhs : used rhs = true)
    (hno : Meaning.NoQuotient (m.regs lhs) (m.regs rhs)) : P.Faulting (divideCode used lhs rhs) m := by
  by_cases hrdx : used .rdx = true
  · rw [divideCode, if_pos hrdx]
    have hlhs' : (m.pushed (m.regs .rdx)).regs lhs = m.regs lhs :=
      Machine.regs_pushed_of_ne (ne_of_allocatable (hused lhs hlhs)).2.2
    have hquotient : P.Faulting _ (m.pushed (m.regs .rdx)) :=
      faulting_quotient (read_divisor_pushed hused hrhs) (hlhs' ▸ hno)
    exact .cons rfl (hquotient.append _)
  · rw [divideCode, if_neg hrdx]
    have hne : rhs ≠ .rdx := fun h => hrdx (h ▸ hrhs)
    exact (faulting_quotient (read_divisor hused hrhs hne) hno).append _

end Division

section Expressions

variable {pool : List String} {look : String → Option Place} {strings : String → Word}
  {env : Meaning.Env} {used : Used} {e : Expr} {context type : DataType} {n n' : Nat}
  {code : List Instr} {r : Register} {P : Image}

/-- A failure behind an operand and its copy. -/
theorem faulting_copied {c rest : List Instr} {m : Machine} {a : Word} {dst : Register}
    (h : P.Straight c m (Gives used r a m)) (hr : used.Free r) (hdst : (used.add r).Free dst)
    (hrest : ∀ m₁, Preserves used m m₁ → m₁.regs dst = a → P.Faulting rest m₁) :
    P.Faulting (c ++ copyInstr dst r :: rest) m := by
  refine .behind h fun m₁ hm₁ => .cons (exec_copy _ _ _ _) (hrest _ ?_ ?_)
  · exact (hm₁.keeps hr).trans ((Gives.set hdst.1).keeps hdst.of_add)
  · rw [Machine.regs_set_self, hm₁.result]

/-- A failure behind an operand that does not decide a logical operator. -/
theorem faulting_undecided {c rest : List Instr} {m : Machine} {a : Word} {dst : Register} {op : LogicOp}
    {l : Label} (h : P.Straight c m (Gives used r a m)) (hr : used.Free r) (hdst : (used.add r).Free dst)
    (hopen : Meaning.decides op a = false) (hrest : ∀ m₁, Preserves used m m₁ → P.Faulting rest m₁) :
    P.Faulting (c ++ (nonzeroCode dst r ++ .cmp .quad (.reg dst) (.imm 0) :: .jcc op.decided l :: rest)) m := by
  refine .behind h fun m₁ hm₁ => .behind (straight_nonzero used hdst.1 r) fun m₂ hm₂ => ?_
  have hkeeps : Preserves used m m₂ := (hm₁.keeps hr).trans (hm₂.keeps hdst.of_add)
  have htruth : m₂.regs dst = .ofTruth (a != 0) := by rw [hm₂.result, hm₁.result]
  refine .cons (exec_cmp_zero _ _ _) (.pass rfl ?_ (hrest _ hkeeps.withFlags))
  rw [htruth, holds_decided, hopen]

/-- The code of an expression that fails stops at a division. -/
theorem ExprCode.faulting (hunique : P.Unique) (hpool : P.Holds pool strings)
    (h : ExprCode pool look used e context n code r type n') :
    ∀ {m : Machine}, used.Sound → Sees used look env m → Meaning.Fails strings env e →
      stackNeed code ≤ (m.regs .rsp).toNat → P.Faulting code m := by
  induction h with
  | byte | word | string | var =>
    intro m _ _ hfails
    cases hfails
  | unary hcode hdst ih =>
    intro m hused hsees hfails hroom
    rw [stackNeed_append] at hroom
    cases hfails with
    | unary hfails => exact (ih hused hsees hfails (by omega)).append _
  | @eager used _ op l r _ _ _ _ c₁ c₂ r₁ r₂ t₁ t₂ dst hcode₁ hdst hcode₂ ih₁ ih₂ =>
    intro m hused hsees hfails hroom
    simp only [stackNeed_append, stackNeed_cons] at hroom
    have hcode : c₁ ++ copyInstr dst r₁ :: c₂ ++
        eagerCode (((used.add r₁).add dst).add r₂) op dst r₂ (t₁.arith t₂) =
        c₁ ++ copyInstr dst r₁ ::
          (c₂ ++ eagerCode (((used.add r₁).add dst).add r₂) op dst r₂ (t₁.arith t₂)) := by simp
    rw [hcode]
    have hused' : ((used.add r₁).add dst).Sound := (hused.add hcode₁.free.1).add hdst.1
    have hsees' : ∀ {m₁}, Preserves used m m₁ → Sees ((used.add r₁).add dst) look env m₁ :=
      fun hkeeps => hsees.keeps hkeeps fun q hq => Used.le_add (Used.le_add hq)
    rcases hfails.of_binary with hfails | ⟨a, ha, -, hfails⟩ | ⟨hop, a, b, ha, hb, hno⟩
    · exact (ih₁ hused hsees hfails (by omega)).append _
    · have hleft := hcode₁.straight hunique hpool hused hsees ha (by omega)
      refine faulting_copied hleft hcode₁.free hdst fun m₁ hkeeps _ => ?_
      exact (ih₂ hused' (hsees' hkeeps) hfails (by rw [hkeeps.rsp]; omega)).append _
    · have hleft := hcode₁.straight hunique hpool hused hsees ha (by omega)
      refine faulting_copied hleft hcode₁.free hdst fun m₁ hkeeps hm₁ => ?_
      have hright := hcode₂.straight hunique hpool hused' (hsees' hkeeps) hb (by rw [hkeeps.rsp]; omega)
      refine .behind hright fun m₂ hm₂ => ?_
      have hdst₂ : m₂.regs dst = a :=
        ((hm₂.keeps hcode₂.free).regs dst (Used.add_self _ _)).trans hm₁
      obtain rfl : op = .inl .div := by
        cases op with
        | inl op => exact congrArg Sum.inl (BinaryOp.arith.inj hop)
        | inr op => cases hop
      rw [← hdst₂, ← hm₂.result] at hno
      exact (faulting_divide (hused'.add hcode₂.free.1) (Used.le_add (Used.add_self _ _))
        (Used.add_self _ _) hno).append _
  | @logic used _ op l r _ n _ _ c₁ c₂ r₁ r₂ t₁ t₂ dst hcode₁ hdst hcode₂ ih₁ ih₂ =>
    intro m hused hsees hfails hroom
    simp only [stackNeed_append, stackNeed_cons] at hroom
    have hcode : c₁ ++ nonzeroCode dst r₁ ++ .cmp .quad (.reg dst) (.imm 0) ::
        .jcc op.decided ⟨n, op.labelName⟩ :: c₂ ++ nonzeroCode dst r₂ ++ [.label ⟨n, op.labelName⟩] =
        c₁ ++ (nonzeroCode dst r₁ ++ .cmp .quad (.reg dst) (.imm 0) ::
          .jcc op.decided ⟨n, op.labelName⟩ :: (c₂ ++ (nonzeroCode dst r₂ ++
            [.label ⟨n, op.labelName⟩]))) := by simp
    rw [hcode]
    rcases hfails.of_binary with hfails | ⟨a, ha, hneeded, hfails⟩ | ⟨hop, -⟩
    · exact (ih₁ hused hsees hfails (by omega)).append _
    · have hopen : Meaning.decides op a = false := by simpa [Meaning.rightNeeded] using hneeded
      have hleft := hcode₁.straight hunique hpool hused hsees ha (by omega)
      refine faulting_undecided hleft hcode₁.free hdst hopen fun m₁ hkeeps => ?_
      exact (ih₂ (hused.add hdst.1) (hsees.keeps hkeeps fun _ => Used.le_add) hfails
        (by rw [hkeeps.rsp]; omega)).append _
    · cases hop

end Expressions

end Generation

end ProcLang

import ProcLang.Proofs.Generation.Demand
import ProcLang.Proofs.Simulation.Fault
import ProcLang.Proofs.Simulation.Frame

/-!
Expressions in a state of code generation.  Whatever expression is turned into code from a settled state,
the register file has one value more behind it, and the code computes that value: in every machine that
has the values of the variables where the state says, the code puts the value of the expression into the
register and keeps all that is in use, or the value is missing because a division fails, and the code
stops at a division.
-/

namespace ProcLang

/-! ### Visible names -/

/-- The names of the variables of some scopes. -/
def ScopeStack.names (scopes : ScopeStack) : List NameScope :=
  scopes.map fun scope => { vars := scope.vars.entries.map Prod.fst }

theorem ScopeStack.mem_names_iff {scopes : ScopeStack} {name : String} :
    (∃ n ∈ scopes.names, name ∈ n.vars) ↔ (scopes.findVariable? name).isSome = true := by
  rw [findVariable?, List.findSome?_isSome_iff]
  constructor
  · rintro ⟨n, hn, hname⟩
    obtain ⟨scope, hscope, rfl⟩ := List.mem_map.mp hn
    obtain ⟨⟨key, v⟩, hv, rfl⟩ := List.mem_map.mp hname
    refine ⟨scope, hscope, ?_⟩
    rw [(scope.vars.mem_entries_iff key v).mp hv]
    rfl
  · rintro ⟨scope, hscope, hsome⟩
    obtain ⟨v, hv⟩ := Option.isSome_iff_exists.mp hsome
    refine ⟨_, List.mem_map_of_mem hscope, ?_⟩
    exact List.mem_map_of_mem ((scope.vars.mem_entries_iff name v).mpr hv)

theorem Expr.Visible.wellFormed {scopes : ScopeStack} {e : Expr} (h : e.Visible scopes) :
    e.WellFormed scopes.names := by
  induction e with
  | literal => exact trivial
  | var tag name => exact ScopeStack.mem_names_iff.mpr h
  | unary tag op e ih => exact ih h
  | binary tag op l r ihl ihr => exact ⟨ihl h.1, ihr h.2⟩
  | misplaced => exact h.elim

/-! ### Links -/

/-- A chain of links is the same in a memory that has the same links. -/
theorem Memory.follow_congr {mem mem' : Memory} : ∀ {n : Nat} {p : Word},
    (∀ i, i < n → ∀ b : Int, (mem.follow i p).toNat ≤ b → mem' b = mem b) →
    mem'.follow n p = mem.follow n p
  | 0, _, _ => rfl
  | n + 1, p, h => by
    have hlink : mem'.load p.toNat 8 = mem.load p.toNat 8 :=
      load_congr fun b hb _ => h 0 (Nat.succ_pos n) b hb
    rw [follow, follow, hlink]
    exact follow_congr fun i hi => h (i + 1) (Nat.succ_lt_succ hi)

namespace Generation

open Machine (Preserves)
open Invocation (frameOf)

/-! ### Variables in a machine -/

/-- The machine has a word as the value of a variable: a parameter in its register, another variable in
the frame of its block, to which the links from `rbp` lead.  The links and the variable are in the memory
from `rsp` on. -/
def Stores (s : State) (m : Machine) (v : Variable) (w : Word) : Prop :=
  match v.storage with
  | .register l => ∃ r, s.registers.registerOf? l = some r ∧ m.regs r = w
  | .stack offset =>
    (∀ i, i < s.scopes.stackHeight - v.stackHeight →
      (m.regs .rsp).toNat ≤ (m.mem.follow i (m.regs .rbp)).toNat) ∧
    ((m.regs .rsp).toNat : Int) ≤ (frameOf m s.scopes (m.regs .rbp) v).toNat + offset ∧
    v.type.normalize (m.mem.load ((frameOf m s.scopes (m.regs .rbp) v).toNat + offset) v.type.size) = w

/-- Every variable that is visible in a state has a value, and the machine has it. -/
def Carries (s : State) (env : Meaning.Env) (m : Machine) : Prop :=
  ∀ name v, s.scopes.findVariable? name = some v → v.type ≠ .void ∧
    ∃ w, env.find? name = some ⟨name, v.type, some w⟩ ∧ Stores s m v w

section Variables

variable {s : State} {env : Meaning.Env} {m m' : Machine} {v : Variable} {w : Word} {name : String}

theorem Stores.keeps (h : Stores s m v w) (hs : Settled s) (hkeeps : Preserves s.used m m') :
    Stores s m' v w := by
  unfold Stores at *
  cases hst : v.storage with
  | register l =>
    rw [hst] at h
    obtain ⟨r, hr, hw⟩ := h
    exact ⟨r, hr, (hkeeps.regs r (used_of_registerOf? hs hr)).trans hw⟩
  | stack offset =>
    rw [hst] at h
    obtain ⟨hlinks, hslot, hw⟩ := h
    have hfollow : ∀ n, n ≤ s.scopes.stackHeight - v.stackHeight →
        m'.mem.follow n (m'.regs .rbp) = m.mem.follow n (m.regs .rbp) := by
      intro n hn
      rw [hkeeps.rbp]
      refine Memory.follow_congr fun i hi b hb => hkeeps.mem b ?_
      have := hlinks i (by omega)
      omega
    have hframe : frameOf m' s.scopes (m'.regs .rbp) v = frameOf m s.scopes (m.regs .rbp) v :=
      hfollow _ (Nat.le_refl _)
    refine ⟨fun i hi => ?_, ?_, ?_⟩
    · rw [hkeeps.rsp, hfollow i (Nat.le_of_lt hi)]
      exact hlinks i hi
    · rw [hkeeps.rsp, hframe]
      exact hslot
    · rw [hframe, Memory.load_congr fun b hb _ => hkeeps.mem b (by omega)]
      exact hw

theorem Stores.contents_eq {place : Place} (h : Stores s m v w) (hplace : variablePlace s v = some place) :
    contents m place = w := by
  unfold Stores at h
  unfold variablePlace at hplace
  cases hst : v.storage with
  | register l =>
    rw [hst] at h hplace
    obtain ⟨r, hr, hw⟩ := h
    simp only [hr, Option.map_some] at hplace
    obtain rfl := Option.some.inj hplace
    exact hw
  | stack offset =>
    rw [hst] at h hplace
    obtain rfl := Option.some.inj hplace
    exact h.2.2

theorem exists_of_look {place : Place} (h : s.look name = some place) :
    ∃ v, s.scopes.findVariable? name = some v ∧ variablePlace s v = some place := by
  cases hv : s.scopes.findVariable? name with
  | none => simp [State.look, view, hv] at h
  | some v => exact ⟨v, rfl, (look_eq hv).symm.trans h⟩

theorem Carries.reachable (h : Carries s env m) (hv : s.scopes.findVariable? name = some v) :
    Reachable s.registers v := by
  obtain ⟨-, w, -, hstores⟩ := h name v hv
  intro l hl
  rw [Stores, hl] at hstores
  obtain ⟨r, hr, -⟩ := hstores
  rw [hr]
  rfl

theorem Carries.sees (h : Carries s env m) (hs : Settled s) : Sees s.used s.look env m where
  typed := by
    intro name place hplace
    obtain ⟨v, hv, hplace⟩ := exists_of_look hplace
    obtain ⟨hvoid, w, hx, -⟩ := h name v hv
    obtain ⟨place', hplace', htype⟩ := variablePlace_isSome (h.reachable hv)
    obtain rfl := Option.some.inj (hplace.symm.trans hplace')
    exact ⟨_, hx, htype.symm, htype ▸ hvoid⟩
  value := by
    intro m' hkeeps name place x w hplace hx hw
    obtain ⟨v, hv, hplace⟩ := exists_of_look hplace
    obtain ⟨-, w', hx', hstores⟩ := h name v hv
    obtain rfl := Option.some.inj (hx'.symm.trans hx)
    obtain rfl := Option.some.inj hw
    exact (hstores.keeps hs hkeeps).contents_eq hplace

theorem Carries.valued {e : Expr} (h : Carries s env m) (he : e.Visible s.scopes) : e.Valued env := by
  induction e with
  | literal => exact trivial
  | var tag name =>
    obtain ⟨v, hv⟩ := Option.isSome_iff_exists.mp he
    obtain ⟨-, w, hx, -⟩ := h name v hv
    exact ⟨_, w, hx, rfl⟩
  | unary tag op e ih => exact ih he
  | binary tag op l r ihl ihr => exact ⟨ihl he.1, ihr he.2⟩
  | misplaced => exact he.elim

end Variables

/-! ### The code of an expression -/

section Expressions

variable {s : State} {e : Expr} {context type : DataType} {l : Location}

/-- The code that was generated for an expression computes its value, and disturbs nothing.  The register
file is the one before with the value in a register that was free.  If the machine has the values of all
visible variables, and there is room on the stack, then a division fails and the code stops at a division,
or none fails and the code comes to its end: the register has the value of the expression there, and all
registers in use, `rbp`, `rsp` and the memory from `rsp` on are as before.  The code may stand anywhere in
a program in which no label is given twice; by itself it is such a program. -/
theorem expression_evaluates (hs : Settled s) (hok : (expression e context s).result = .ok (l, type)) :
    ∃ r, s.registers.isFree r = true ∧ s.registers.registerOf? l = none ∧
      (expression e context s).state.registers = s.registers.place r ⟨l, false⟩ ∧
      ∀ env m, Carries s env m → stackNeed (codeOf (expression e context s).marks) ≤ (m.regs .rsp).toNat →
        (∀ labels, (Image.mk (codeOf (expression e context s).marks) labels).Unique) ∧
        ∀ (P : Image) (strings : String → Word), P.Unique →
          (∀ i raw, (expression e context s).state.constants.strings[i]? = some raw →
            P.labels (ConstantPool.label i) = strings raw) →
          Meaning.Fails strings env e ∧ P.Faulting (codeOf (expression e context s).marks) m ∨
          ¬ Meaning.Fails strings env e ∧ ∃ v, Meaning.eval strings env e = some v ∧
            P.Straight (codeOf (expression e context s).marks) m fun m' =>
              m'.regs r = v ∧ Preserves s.used m m' := by
  have hfound := (decides_expression e context s hs).value hok
  obtain ⟨r, hc⟩ := hfound.computed
  refine ⟨r, hc.free, hs.index_eq_none hc.issued, hc.placed, fun env m hcarries hroom => ?_⟩
  have hready : Ready s.scopes.names s :=
    ⟨hs, fun name hname => ScopeStack.mem_names_iff.mp hname, fun _ _ hv => hcarries.reachable hv⟩
  have hdoes := does_expression (P := fun _ _ _ _ => True) e context s hfound.visible.wellFormed hready
  obtain ⟨r', hc', hcode⟩ := Stage.Ensures.value hdoes hok
  obtain rfl : r' = r := by
    have hr' := hc'.register
    rw [hc.register] at hr'
    exact (Option.some.inj hr').symm
  have hcode := hcode _ List.prefix_rfl
  refine ⟨fun labels => hcode.fresh.count_le_one, fun P strings hunique hpool => ?_⟩
  have hsound : Used.Sound s.used := sound_contains hs.lawful
  have hsees := hcarries.sees hs
  by_cases hfails : Meaning.Fails strings env e
  · left
    exact ⟨hfails, hcode.faulting hunique (hpool _ _) hsound hsees hfails hroom⟩
  · right
    refine ⟨hfails, ?_⟩
    cases hv : Meaning.eval strings env e with
    | none => exact absurd (Meaning.fails_of_eval_eq_none (hcarries.valued hfound.visible) hv) hfails
    | some v =>
      refine ⟨v, rfl, (hcode.straight hunique (hpool _ _) hsound hsees hv hroom).mono fun m' hm' => ?_⟩
      exact ⟨hm'.result, hm'.keeps hcode.free⟩

/-- The machine in the inner block: `rbp` is linked to the frame around, where the variable is. -/
def innerMachine (x : BitVec 8) : Machine where
  regs r := if r = .rbp ∨ r = .rsp then 4096 else 0
  flags := none
  mem a := if a = 4097 then 32 else if a = 8184 then x else 0

theorem carries_innerMachine (x : BitVec 8) :
    Carries { scopes := innerBlock } [[⟨"x", .int, some (x.setWidth 64)⟩]] (innerMachine x) := by
  intro name v hv
  obtain ⟨rfl, rfl⟩ := eq_of_findVariable?_innerBlock hv
  have hframe : frameOf (innerMachine x) innerBlock 4096 ⟨"x", .int, .stack (-8), 1⟩ = 8192 := by
    simp [frameOf, innerMachine, innerBlock, ScopeStack.stackHeight, Memory.follow, Memory.load]
  refine ⟨by decide, x.setWidth 64, rfl, ?_, ?_, ?_⟩
  · intro i hi
    obtain rfl : i = 0 := Nat.lt_one_iff.mp hi
    exact Nat.le_refl _
  · show (4096 : Int) ≤ (frameOf (innerMachine x) innerBlock 4096 ⟨"x", .int, .stack (-8), 1⟩).toNat + -8
    rw [hframe]
    decide
  · show DataType.normalize .int ((innerMachine x).mem.load
      ((frameOf (innerMachine x) innerBlock 4096 ⟨"x", .int, .stack (-8), 1⟩).toNat + -8) 8) = _
    rw [hframe]
    simp [innerMachine, Memory.load, DataType.normalize]

/-- The quotient of a number and the variable. -/
def sevenOver : Expr :=
  .binary default (.arith .div) (.literal default (.integer 7)) (.var default "x")

/-- The code of the quotient, alone. -/
def sevenOverImage : Image :=
  ⟨codeOf (expression sevenOver .int { scopes := innerBlock }).marks, fun _ => 0⟩

/-- Behind the links the variable is found: if it is zero then the machine stops at the division, and if it
is two then the code comes to its end with a three. -/
theorem expression_evaluates_innerBlock :
    sevenOverImage.Eventually
      (fun k => sevenOverImage.Halted sevenOverImage.code [] k ∧ ∀ k', ¬ sevenOverImage.Step k k')
      ⟨sevenOverImage.code, innerMachine 0, []⟩ ∧
    ∃ r, sevenOverImage.Straight sevenOverImage.code (innerMachine 2) fun m' => m'.regs r = 3 := by
  obtain ⟨p, hok⟩ : ∃ p, (expression sevenOver .int { scopes := innerBlock }).result = .ok p := ⟨_, rfl⟩
  obtain ⟨r, -, -, -, hruns⟩ := expression_evaluates settled_innerBlock hok
  have hroom : stackNeed sevenOverImage.code ≤ 4096 := by decide
  have hrun := fun x => hruns _ _ (carries_innerMachine x) hroom
  have hunique : sevenOverImage.Unique := (hrun 0).1 _
  -- there are no strings in the expression, so they may be anywhere
  have hrun := fun x => (hrun x).2 sevenOverImage (fun _ => 0) hunique fun _ _ _ => rfl
  have hzero : Meaning.Fails (fun _ => 0) [[⟨"x", .int, some (BitVec.setWidth 64 (0 : BitVec 8))⟩]] sevenOver :=
    .divide rfl rfl (.inl rfl)
  have htwo : Meaning.eval (fun _ => 0) [[⟨"x", .int, some (BitVec.setWidth 64 (2 : BitVec 8))⟩]] sevenOver =
      some 3 := by decide
  constructor
  · rcases hrun 0 with ⟨-, hfaulting⟩ | ⟨hfails, -⟩
    · exact (hfaulting [] [] [] (by simp [sevenOverImage])).mono fun k hk => ⟨hk, fun k' => hk.not_step⟩
    · exact absurd hzero hfails
  · rcases hrun 2 with ⟨hfails, -⟩ | ⟨-, v, hv, hstraight⟩
    · exact absurd (hfails.eval_eq_none.symm.trans htwo) (by decide)
    · obtain rfl := Option.some.inj (hv.symm.trans htwo)
      exact ⟨r, hstraight.mono fun m' hm' => hm'.1⟩

end Expressions

end Generation

end ProcLang

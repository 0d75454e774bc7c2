import ProcLang.Proofs.Simulation.Evaluation
import ProcLang.Proofs.Simulation.Statement

/-!
Calls in a state of code generation.  Whatever call is turned into code in a procedure whose parameters are
at home, the code brings the values of the arguments into the argument registers, all of them at once, and
everything home again behind the call, whatever the called procedure did.
-/

namespace ProcLang.Generation

open Invocation (straight_note)
open RegisterFile (HoldsParameters IsParameter)

section Calls

variable {s : State} {options : Options} {tag : Tag} {name : String} {args : List Expr}

/-! ### Calls that succeed -/

theorem tries_argumentTargets {tag : Tag} {name : String} :
    ∀ (params : List (DataType × ParameterClass)) (number : Nat),
      Tries (fun _ => True) (argumentTargets tag name number params) s fun _ s' => s' = s
  | [], _ => tries_return.mpr rfl
  | (_, .register _) :: rest, number => by
    refine tries_bind.mpr ((tries_argumentTargets rest (number + 1)).mono (fun _ => id) ?_)
    rintro _ _ rfl
    exact tries_return.mpr rfl
  | (_, .stack _) :: _, _ => Stage.ensures_fail.mpr trivial

theorem tries_argumentValues : ∀ {args : List (Expr × DataType)} {s : State}, Settled s →
    Tries (fun _ => True) (argumentValues args) s fun _ _ => ∀ p ∈ args, p.1.Visible s.scopes
  | [], _, _ => tries_return.mpr (by simp)
  | (e, type) :: rest, s, hs => by
    refine tries_bind.mpr ((decides_expression e type s hs).mono (fun _ _ => trivial) fun p s₁ hfound => ?_)
    obtain ⟨r, hc⟩ := hfound.computed
    refine tries_bind.mpr ((tries_argumentValues (hc.settled hs)).mono (fun _ => id) fun ls s₂ hrest => ?_)
    refine tries_return.mpr fun q hq => ?_
    rcases List.mem_cons.mp hq with rfl | hq
    · exact hfound.visible
    · exact hc.scopes ▸ hrest q hq

/-- A call succeeds only if the procedure is known and every variable in the arguments is. -/
theorem tries_call (hs : Settled s) :
    Tries (fun _ => True) (call options tag name args) s fun _ _ =>
      (s.scopes.findProcedure? name).isSome = true ∧ ∀ e ∈ args, e.Visible s.scopes := by
  refine tries_bind.mpr (tries_bind.mpr (Stage.ensures_get.mpr ?_))
  cases hp : s.scopes.findProcedure? name with
  | none => exact Stage.ensures_fail.mpr trivial
  | some p =>
    show Tries _ (if p.params.length = args.length then _ else _) s _
    split
    case isFalse => exact Stage.ensures_fail.mpr trivial
    case isTrue hcount =>
      refine tries_return.mpr (tries_bind.mpr ((tries_argumentTargets p.params 1).mono (fun _ => id) ?_))
      rintro targets _ rfl
      refine tries_step (fun _ => does_comment) (tries_bind.mpr ((tries_argumentValues hs).mono
        (fun _ => id) fun ls s₁ hvisible => Stage.ensures_of_forall fun _ _ => ⟨rfl, fun e he => ?_⟩))
      have hfst : (args.zip (p.params.map (·.1))).map Prod.fst = args := List.map_fst_zip (by simp [hcount])
      rw [← hfst] at he
      obtain ⟨q, hq, rfl⟩ := List.mem_map.mp he
      exact hvisible q hq

/-- What a call that succeeds in a procedure with its parameters at home leaves: the same registers, and
the code of the call. -/
theorem exists_callCode {first count : Nat} (hs : Settled s)
    (hparams : s.registers.HoldsParameters first count)
    (hvars : ∀ name v, s.scopes.findVariable? name = some v → Reachable s.registers v)
    (hconv : ∀ p, s.scopes.findProcedure? name = some p → Conventional p)
    (hok : (call options tag name args s).result = .ok ()) :
    (call options tag name args s).state.registers = s.registers ∧ (∀ e ∈ args, e.Visible s.scopes) ∧
    ∃ types c bytes, (args.zip types).map Prod.fst = args ∧
      CallCode (call options tag name args s).state.constants.strings s.look s.registers.locationIn?
        s.stackDepth name (args.zip types) s.nextLabel c (call options tag name args s).state.nextLabel bytes ∧
      codeOf (call options tag name args s).marks = note options ("call " ++ name) ++ c := by
  obtain ⟨hknown, hvisible⟩ := (tries_call hs).value hok
  obtain ⟨p, hp⟩ := Option.isSome_iff_exists.mp hknown
  have hready : Ready s.scopes.names s :=
    ⟨hs, fun name hname => ScopeStack.mem_names_iff.mp hname, hvars⟩
  obtain ⟨-, hregs, hcount, hcode⟩ := Stage.Ensures.value (emits_call (P := fun _ _ _ _ => True) hparams
    hready (fun e he => (hvisible e he).wellFormed) hp (hconv p hp)) hok
  obtain ⟨c, bytes, hcall, hmarks, -⟩ := hcode _ List.prefix_rfl
  exact ⟨hregs, hvisible, _, c, bytes, List.map_fst_zip (by simp [hcount]), hcall, hmarks⟩

/-! ### Values of the arguments -/

section Values

variable {strings : String → Word} {env : Meaning.Env}

theorem exists_values : ∀ {args : List Expr}, (∀ e ∈ args, ∃ v, Meaning.eval strings env e = some v) →
    ∃ values, args.mapM (Meaning.eval strings env) = some values ∧
      args.map (Meaning.eval strings env) = values.map some
  | [], _ => ⟨[], rfl, rfl⟩
  | e :: rest, h => by
    obtain ⟨v, hv⟩ := h e List.mem_cons_self
    obtain ⟨values, hmapM, hmap⟩ := exists_values fun e he => h e (List.mem_cons_of_mem _ he)
    exact ⟨v :: values, by simp [hv, hmapM], by simp [hv, hmap]⟩

/-- The arguments have values if their variables have values and no division fails. -/
theorem Carries.exists_values {m : Machine} (h : Carries s env m)
    (hvisible : ∀ e ∈ args, e.Visible s.scopes) (hfine : ∀ e ∈ args, ¬ Meaning.Fails strings env e) :
    ∃ values, args.mapM (Meaning.eval strings env) = some values ∧
      args.map (Meaning.eval strings env) = values.map some := by
  refine Generation.exists_values fun e he => Option.ne_none_iff_exists'.mp fun hnone => hfine e he ?_
  exact Meaning.fails_of_eval_eq_none (h.valued (hvisible e he)) hnone

/-- Each argument register has the value of its argument. -/
theorem Passes.argument {values : List Word} {m : Machine} {i : Nat} {e : Expr} (h : Passes values m)
    (hmap : args.map (Meaning.eval strings env) = values.map some) (he : args[i]? = some e) :
    ∃ r, Register.arguments[i]? = some r ∧ Meaning.eval strings env e = some (m.regs r) := by
  have hi := congrArg (·[i]?) hmap
  simp only [List.getElem?_map, he, Option.map_some] at hi
  obtain ⟨v, hv, heval⟩ := Option.map_eq_some_iff.mp hi.symm
  rw [← h.args, List.getElem?_map] at hv
  obtain ⟨r, hr, rfl⟩ := Option.map_eq_some_iff.mp hv
  rw [List.getElem?_take] at hr
  split at hr
  case isTrue => exact ⟨r, hr, heval.symm⟩
  case isFalse => cases hr

end Values

/-! ### Up to the call, and behind it -/

/-- The code that was generated for a call passes the arguments and gives everything back.  The parameters
of the procedure around are in their registers before, and the register file is the same behind.  There
is one call in the code.  If the machine has the values of all visible variables, there is room on the
stack and no division fails in an argument, then the code in front comes to the call, and each argument
register has the value of its argument there, in terms of the variables before, and `rax` is zero.
Whatever the called procedure leaves, if it keeps `rbp`, `rsp` and the memory from `rsp` on, the code
behind comes to its end: every parameter is in its register with the word it had, and `rbp`, `rsp` and the
memory from `rsp` on are as before.  The code may stand anywhere in a program in which no label is given
twice; by itself it is such a program. -/
theorem call_passes_and_restores {first count : Nat} (hs : Settled s)
    (hparams : s.registers.HoldsParameters first count)
    (hvars : ∀ name v, s.scopes.findVariable? name = some v → Reachable s.registers v)
    (hconv : ∀ p, s.scopes.findProcedure? name = some p → Conventional p)
    (hok : (call options tag name args s).result = .ok ()) :
    (call options tag name args s).state.registers = s.registers ∧
    ∃ front behind, codeOf (call options tag name args s).marks = front ++ .call name :: behind ∧
      CallFree front ∧ CallFree behind ∧
      (∀ labels, (Image.mk (codeOf (call options tag name args s).marks) labels).Unique) ∧
      ∀ (P : Image) (strings : String → Word) (env : Meaning.Env) (m : Machine), P.Unique →
        (∀ i raw, (call options tag name args s).state.constants.strings[i]? = some raw →
          P.labels (ConstantPool.label i) = strings raw) →
        Carries s env m → (∀ e ∈ args, ¬ Meaning.Fails strings env e) →
        stackNeed (codeOf (call options tag name args s).marks) ≤ (m.regs .rsp).toNat →
        P.Around front behind m
          (fun m₁ => m₁.regs .rax = 0 ∧ ∀ (i : Nat) e, args[i]? = some e →
            ∃ r, Register.arguments[i]? = some r ∧ Meaning.eval strings env e = some (m₁.regs r))
          fun m₂ => (∀ l home, IsParameter first count l home → m₂.regs home = m.regs home) ∧
            m.Returned m₂ := by
  obtain ⟨hregs, hvisible, types, c, bytes, hfst, hcall, hmarks⟩ :=
    exists_callCode hs hparams hvars hconv hok
  have hused : Holding.used s.registers.locationIn? = s.used := used_locationIn? s.registers
  obtain ⟨front, behind, rfl, hfront, hbehind, haround⟩ :=
    hcall.around (hused ▸ sound_contains hs.lawful) (apart_locationIn? hs.lawful)
  rw [hmarks]
  refine ⟨hregs, note options ("call " ++ name) ++ front, behind, by simp, by simpa using hfront, hbehind,
    fun labels => (hcall.fresh.congr (by simp [labelIds_note])).count_le_one, ?_⟩
  intro P strings env m hunique hpool hcarries hfine hroom
  obtain ⟨values, hvalues, hmap⟩ := hcarries.exists_values hvisible hfine
  rw [stackNeed_append] at hroom
  refine .before (straight_note options ("call " ++ name)) fun m₀ hm₀ => ?_
  subst hm₀
  have hrun := haround hunique (hpool _ _) (hused ▸ hcarries.sees hs) (hfst ▸ hvalues) (by omega)
  refine hrun.mono (fun m₁ hpasses => ⟨hpasses.rax, fun i e he => hpasses.argument hmap he⟩)
    fun m₂ hkeeps => ⟨fun l home hhome => ?_, hkeeps.toReturned⟩
  have hat : s.registers.registerOf? l = some home := (hparams.index l home).mpr hhome
  exact hkeeps.regs home (hused ▸ used_of_registerOf? hs hat)

/-- The state in a procedure with the parameters `a` and `b`, which knows a procedure of two parameters. -/
def twoParameters : State :=
  let a : Variable := ⟨"a", .int, .register ⟨0⟩, 1⟩
  let b : Variable := ⟨"b", .int, .register ⟨1⟩, 1⟩
  let f : Procedure := ⟨"f", .int, [(.int, .register .rdi), (.int, .register .rsi)], true⟩
  { registers :=
      { slots := (Table.empty.insert .rdi ⟨⟨0⟩, true⟩).insert .rsi ⟨⟨1⟩, true⟩
        index := (Table.empty.insert ⟨0⟩ .rdi).insert ⟨1⟩ .rsi
        homes := (Table.empty.insert ⟨0⟩ .rdi).insert ⟨1⟩ .rsi }
    scopes :=
      [{ kind := .procedure, stackHeight := 1, vars := (Table.empty.insert "a" a).insert "b" b },
        { kind := .entry, stackHeight := 0, procedures := Table.empty.insert "f" f }]
    nextLocation := 2
    stackDepth := 8 }

theorem holdsParameters_twoParameters : twoParameters.registers.HoldsParameters 0 2 := by
  obtain ⟨f, hf, hone⟩ := (@HoldsParameters.empty 0).claim (r := .rdi) rfl
  obtain ⟨g, hg, htwo⟩ := hone.claim (r := .rsi) rfl
  obtain rfl := Except.ok.inj hf
  obtain rfl := Except.ok.inj hg
  exact htwo

theorem settled_twoParameters : Settled twoParameters :=
  ⟨holdsParameters_twoParameters.lawful, holdsParameters_twoParameters.below⟩

theorem eq_of_findVariable?_twoParameters {name : String} {v : Variable}
    (h : twoParameters.scopes.findVariable? name = some v) :
    name = "a" ∧ v = ⟨"a", .int, .register ⟨0⟩, 1⟩ ∨ name = "b" ∧ v = ⟨"b", .int, .register ⟨1⟩, 1⟩ := by
  obtain ⟨scope, hscope, hget⟩ := List.exists_of_findSome?_eq_some h
  rcases List.mem_cons.mp hscope with rfl | hscope
  · rw [Table.get?_insert, Table.get?_insert] at hget
    split at hget
    case isTrue hname => exact .inr ⟨hname, (Option.some.inj hget).symm⟩
    case isFalse =>
      split at hget
      case isTrue hname => exact .inl ⟨hname, (Option.some.inj hget).symm⟩
      case isFalse => cases hget
  · obtain rfl := List.mem_singleton.mp hscope
    cases hget

/-- The machine in the procedure: the parameters are 7 and 9. -/
def sevenNine : Machine where
  regs r := if r = .rdi then 7 else if r = .rsi then 9 else 4096
  flags := none
  mem _ := 0

theorem carries_sevenNine :
    Carries twoParameters [[⟨"a", .int, some 7⟩, ⟨"b", .int, some 9⟩]] sevenNine := by
  intro name v hv
  rcases eq_of_findVariable?_twoParameters hv with ⟨rfl, rfl⟩ | ⟨rfl, rfl⟩
  · exact ⟨by decide, 7, rfl, .rdi, rfl, rfl⟩
  · exact ⟨by decide, 9, rfl, .rsi, rfl, rfl⟩

/-- The parameters, the other way round. -/
def swapped : List Expr := [.var default "b", .var default "a"]

/-- The code of the call with the parameters the other way round, alone. -/
def swapImage : Image := ⟨codeOf (call {} default "f" swapped twoParameters).marks, fun _ => 0⟩

/-- The parameters change places in front of the call, and are back behind it. -/
theorem call_passes_and_restores_swapped :
    ∃ front behind, swapImage.code = front ++ .call "f" :: behind ∧
      swapImage.Around front behind sevenNine
        (fun m₁ => m₁.regs .rdi = 9 ∧ m₁.regs .rsi = 7 ∧ m₁.regs .rax = 0)
        fun m₂ => m₂.regs .rdi = 7 ∧ m₂.regs .rsi = 9 ∧ sevenNine.Returned m₂ := by
  have hconv : ∀ p, twoParameters.scopes.findProcedure? "f" = some p → Conventional p := by
    intro p hp i q hq
    obtain rfl := Option.some.inj hp
    rcases i with _ | _ | i
    · obtain rfl := Option.some.inj hq
      rfl
    · obtain rfl := Option.some.inj hq
      rfl
    · cases hq
  have hok : (call {} default "f" swapped twoParameters).result = .ok () := rfl
  obtain ⟨-, front, behind, hcode, -, -, hunique, hruns⟩ := call_passes_and_restores settled_twoParameters
    holdsParameters_twoParameters (fun _ _ hv => carries_sevenNine.reachable hv) hconv hok
  refine ⟨front, behind, hcode, ?_⟩
  have hfine : ∀ e ∈ swapped, ¬ Meaning.Fails (fun _ => 0) [[⟨"a", .int, some 7⟩, ⟨"b", .int, some 9⟩]] e := by
    intro e he hfails
    have hnone := hfails.eval_eq_none
    simp only [swapped, List.mem_cons, List.not_mem_nil, or_false] at he
    rcases he with rfl | rfl <;> cases hnone
  have hrun := hruns swapImage (fun _ => 0) _ _ (hunique _) (fun _ _ _ => rfl) carries_sevenNine hfine
    (by decide)
  refine hrun.mono (fun m₁ hm₁ => ?_) fun m₂ hm₂ => ?_
  · obtain ⟨hrax, hargs⟩ := hm₁
    obtain ⟨r₀, hr₀, hb⟩ := hargs 0 _ rfl
    obtain ⟨r₁, hr₁, ha⟩ := hargs 1 _ rfl
    obtain rfl := Option.some.inj hr₀
    obtain rfl := Option.some.inj hr₁
    exact ⟨(Option.some.inj hb).symm, (Option.some.inj ha).symm, hrax⟩
  · obtain ⟨hhome, hreturned⟩ := hm₂
    exact ⟨hhome ⟨0⟩ .rdi ⟨0, by decide, rfl, rfl⟩, hhome ⟨1⟩ .rsi ⟨1, by decide, rfl, rfl⟩, hreturned⟩

end Calls

end ProcLang.Generation

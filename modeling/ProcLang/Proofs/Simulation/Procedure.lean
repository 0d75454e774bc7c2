import ProcLang.Proofs.Generation.Outcome
import ProcLang.Proofs.Simulation.Statement
import ProcLang.Proofs.Stack.Discipline

/-!
The code of a procedure does what the procedure means.

A procedure is called with its parameters in the argument registers and, behind those, on the stack.
Once its frame is open the machine agrees with the parameters, so the simulation of its statements
applies.  At the end the frame is closed, and the machine returns with the value in `rax`.
-/

namespace ProcLang

open Generation Meaning

/-- The words that a procedure is called with: those that come in registers are there, cut to their
types, and the others are on the stack, above the return address. -/
structure Machine.Given (m : Machine) (signature : Signature) (args : List Word) : Prop where
  length : args.length = signature.params.length
  register : ∀ {i p w r}, signature.params[i]? = some p → args[i]? = some w →
    parameterClass i = .register r → m.regs r = p.type.normalize w
  stack : ∀ {i p w k}, signature.params[i]? = some p → args[i]? = some w →
    parameterClass i = .stack k →
    p.type.normalize (m.mem.load ((m.regs .rsp).toNat + 8 + 8 * k) p.type.size) = p.type.normalize w

namespace Generation

/-- A procedure that was started in a machine returns: the pointers are as they were, the value that it
gives back is in `rax`, the calls are those of its run, and the memory from the return address on is as
it was, but for its parameters there. -/
structure Returns (signature : Signature) (start : Machine) (value : Option Word) (calls : List Call)
    (k : Config) : Prop where
  position : ∃ rest, k.position = .ret :: rest
  rsp : k.machine.regs .rsp = start.regs .rsp
  rbp : k.machine.regs .rbp = start.regs .rbp
  rax : ∀ w, value = some w → k.machine.regs .rax = w
  calls : List.Forall₂ Makes k.calls calls
  outside : ∀ a : Int, (start.regs .rsp).toNat ≤ a →
    (a < (start.regs .rsp).toNat + 8 ∨ (start.regs .rsp).toNat + 8 + 8 * signature.stackSlots ≤ a) →
    k.machine.mem a = start.mem a

/-! ### Parameters as variables -/

section Parameters

variable {signature : Signature} {body : List Stmt} {scopes : ScopeStack} {first : Nat}
  {f : RegisterFile} {behind : Label} {args : List Word} {name : String} {v : Variable}

/-- The variable that a parameter is at first. -/
theorem find?_parameters {i : Nat} {p : Parameter} {w : Word}
    (hnodup : (signature.params.map (·.name)).Nodup) (hp : signature.params[i]? = some p)
    (hw : args[i]? = some w) : (Meaning.parameters signature args).find? (·.name == p.name) =
      some ⟨p.name, p.type, some (p.type.normalize w)⟩ := by
  unfold Meaning.parameters
  generalize signature.params = params at hnodup hp
  induction params generalizing i args with
  | nil => simp at hp
  | cons q rest ih =>
    obtain ⟨hq, hnodup⟩ := List.nodup_cons.mp hnodup
    cases args with
    | nil => simp at hw
    | cons w' args =>
      cases i with
      | zero =>
        obtain rfl := Option.some.inj hp
        obtain rfl := Option.some.inj hw
        simp
      | succ i =>
        have hp : rest[i]? = some p := by simpa using hp
        have hne : q.name ≠ p.name := fun heq =>
          hq (List.mem_map.mpr ⟨p, List.mem_of_getElem? hp, heq.symm⟩)
        rw [List.zipWith_cons_cons, List.find?_cons_of_neg (by simpa using hne)]
        exact ih (by simpa using hw) hnodup hp

theorem find?_parameters_eq_none (hmem : name ∉ signature.params.map (·.name)) :
    (Meaning.parameters signature args).find? (·.name == name) = none := by
  refine List.find?_eq_none.mpr fun x hx => ?_
  obtain ⟨i, hi⟩ := List.getElem?_of_mem hx
  rw [Meaning.parameters, List.getElem?_zipWith] at hi
  cases hp : signature.params[i]? with
  | none => simp [hp] at hi
  | some p =>
    cases hw : args[i]? with
    | none => simp [hp, hw] at hi
    | some w =>
      simp only [hp, hw, Option.some.injEq] at hi
      rw [← hi, beq_iff_eq]
      exact fun heq => hmem (heq ▸ List.mem_map.mpr ⟨p, List.mem_of_getElem? hp, rfl⟩)

end Parameters

/-! ### Procedures -/

namespace Invocation

section Procedures

variable {A : Invocation} {P : Image} {m : Machine} {signature : Signature} {body : List Stmt}
  {scope : Scope} {first : Nat} {behind : Label} {args : List Word} {k : Config}

/-- Once the frame of a procedure is open, its parameters have their values. -/
theorem holds_parameters {base : Int} (hnodup : (signature.params.map (·.name)).Nodup)
    (hfile : A.file.HoldsParameters first signature.params.length)
    (hgiven : A.start.Given signature args)
    (hregs : ∀ r, r ≠ .rbp → r ≠ .rsp → m.regs r = A.start.regs r)
    (hmem : ∀ a : Int, (A.start.regs .rsp).toNat ≤ a → m.mem a = A.start.mem a)
    (hbase : base + 8 = A.top) :
    A.Holds m base (boundScope first signature [scope] body behind)
      (Meaning.parameters signature args) := by
  have hargs : ∀ {i p}, signature.params[i]? = some p → ∃ w, args[i]? = some w := fun {i p} hp => by
    have hlt := (List.getElem?_eq_some_iff.mp hp).1
    exact ⟨_, List.getElem?_eq_getElem (hgiven.length ▸ hlt)⟩
  refine ⟨fun name => ?_, fun {name v x w} hv hx hw => ?_⟩
  · by_cases hmem : name ∈ signature.params.map (·.name)
    · obtain ⟨p, hp, rfl⟩ := List.mem_map.mp hmem
      obtain ⟨i, hi⟩ := List.getElem?_of_mem hp
      obtain ⟨w, hw⟩ := hargs hi
      rw [get?_boundScope hnodup hi, find?_parameters hnodup hi hw]
      rfl
    · rw [find?_parameters_eq_none hmem]
      rw [boundScope, get?_bindScope_of_not_mem _ _ (map_fst_bindings ▸ hmem)]
      rfl
  · obtain ⟨i, p, hp, rfl, rfl⟩ := exists_of_get?_boundScope hnodup hv
    obtain ⟨w', hw'⟩ := hargs hp
    rw [find?_parameters hnodup hp hw'] at hx
    obtain rfl := Option.some.inj hx
    obtain rfl := Option.some.inj hw
    unfold valueOf
    dsimp only
    cases hstorage : parameterStorage first i with
    | register l =>
      obtain ⟨rfl, r, hr⟩ := parameterStorage_register hstorage
      have hargument := parameterClass_register hr
      have hlt := (List.getElem?_eq_some_iff.mp hp).1
      have hfound : A.file.registerOf? ⟨first + i⟩ = some r :=
        (hfile.index _ _).mpr ⟨i, hlt, rfl, hargument⟩
      have hne := ne_of_allocatable (RegisterFile.mem_allocatable_of_arguments hargument)
      simp only [hfound, Option.map_some]
      rw [hregs r hne.2.1 hne.2.2, hgiven.register hp hw' hr]
    | stack offset =>
      obtain ⟨hcls, -, rfl⟩ := parameterStorage_stack hstorage
      have haddress : base + (16 + 8 * (i - Register.arguments.length : Nat)) =
          (A.start.regs .rsp).toNat + 8 + 8 * (i - Register.arguments.length : Nat) := by
        have htop : A.top = (A.start.regs .rsp).toNat := rfl
        omega
      simp only [haddress]
      rw [Memory.load_congr fun a ha _ => hmem a (by omega), hgiven.stack hp hw' hcls]

theorem Agree.entry (hkind : scope.kind = .entry) (hvars : scope.vars = .empty) :
    A.Agree [scope] [] A.start where
  rsp := by
    rw [depth, if_pos hkind]
    rfl
  stored := .entry hkind hvars
  outside _ _ _ := rfl

/-- Where the last frame is closed, the pointers are those of the caller again. -/
theorem Agree.pointers {env : Env} (h : A.Agree [scope] env m) (hkind : scope.kind = .entry) :
    m.regs .rsp = A.start.regs .rsp ∧ m.regs .rbp = A.start.regs .rbp := by
  obtain ⟨hrsp, hstored, -⟩ := h
  rw [depth, if_pos hkind] at hrsp
  refine ⟨BitVec.eq_of_toNat_eq (Nat.add_right_cancel hrsp), ?_⟩
  generalize m.regs .rbp = p at hstored
  cases hstored with
  | entry => rfl
  | frame hframed => exact absurd hkind hframed.kind

/-- The end of a procedure, from its label on. -/
theorem Within.returns {env : Env} {l : Label} {value : Option Word} {calls : List Call}
    {records : List CallRecord} {pre post : List Instr} (h : A.Within [scope] env m)
    (hkind : scope.kind = .entry) (hslots : A.slots = signature.stackSlots)
    (hcode : P.code = pre ++ .label l :: epilogueCode ++ .ret :: post)
    (hrax : ∀ w, value = some w → m.regs .rax = w) (hcalls : List.Forall₂ Makes records calls) :
    P.Eventually (Returns signature A.start value calls) ⟨.label l :: epilogueCode ++ .ret :: post, m, records⟩ := by
  refine .next rfl ((h.close (pre ++ [.label l]) _ records (by simpa using hcode)).mono ?_)
  rintro ⟨position, m', records'⟩ ⟨rfl, _, rfl, rfl, hagree, hrax'⟩
  obtain ⟨hrsp, hrbp⟩ := hagree.pointers hkind
  refine ⟨⟨post, rfl⟩, hrsp, hrbp, fun w hw => hrax'.trans (hrax w hw), by simpa using hcalls, ?_⟩
  intro a ha hnot
  refine hagree.outside a ha ?_
  rintro ⟨j, hj, hlow, hhigh⟩
  have htop : A.top = (A.start.regs .rsp).toNat := rfl
  omega

/-- The code of a procedure runs as the procedure does, and returns. -/
theorem eventually_returns {options : Options} {pool : List String} {strings : String → Word}
    {n n' fuel : Nat} {ls : List Spot} {c pre post : List Instr} {names : List NameScope}
    {value : Option Word} {calls : List Call} (hunique : P.Unique) (hpool : P.Holds pool strings)
    (hkind : scope.kind = .entry) (hvars : scope.vars = .empty)
    (hfile : A.file.HoldsParameters first signature.params.length)
    (hslots : A.slots = signature.stackSlots)
    (hbody : StmtsCode options pool A.file (boundScope first signature [scope] body behind :: [scope])
      body n c n' ls)
    (hnodup : (signature.params.map (·.name)).Nodup) (htypes : ∀ p ∈ signature.params, p.type ≠ .void)
    (hwf : Stmt.BodyWellFormed names signature body)
    (hcode : P.code = pre ++ .symbol signature.name ::
      openCode (innerScope .procedure [scope] body).localBytes ++ c ++
      clearInstr :: .label behind :: epilogueCode ++ [.ret] ++ post)
    (hroom : stackNeed P.code ≤ A.top) (hgiven : A.start.Given signature args)
    (hrun : Meaning.run strings fuel signature body args = some (value, calls)) :
    P.Eventually (Returns signature A.start value calls) ⟨.symbol signature.name ::
      openCode (innerScope .procedure [scope] body).localBytes ++ c ++
      clearInstr :: .label behind :: epilogueCode ++ [.ret] ++ post, A.start, []⟩ := by
  have hbound : (boundScope first signature [scope] body behind).localBytes =
      (innerScope .procedure [scope] body).localBytes := by
    rw [boundScope_eq]
    rfl
  have hprocedure : (boundScope first signature [scope] body behind).kind = .procedure := by
    rw [boundScope_eq]
    rfl
  have hdepth : depth [scope] = 8 := by rw [depth, if_pos hkind]
  have hframed : A.Framed (boundScope first signature [scope] body behind) [scope] := by
    rw [Invocation.Framed, hslots]
    exact framed_boundScope hnodup htypes hfile hdepth
  have hlast : P.code = (pre ++ .symbol signature.name ::
      openCode (innerScope .procedure [scope] body).localBytes ++ c ++ [clearInstr]) ++
      .label behind :: epilogueCode ++ .ret :: post := by
    simpa using hcode
  have hend : target? behind P.code = some (.label behind :: epilogueCode ++ .ret :: post) :=
    hunique.target? _ (hlast.trans (List.append_assoc _ _ _))
  have hreturn : ScopeStack.passage .giveBack (boundScope first signature [scope] body behind) =
      .target (some behind) := by
    rw [boundScope_eq]
    rfl
  have hresolves : Resolves P [boundScope first signature [scope] body behind, scope] := by
    intro jump crossed target hjump
    obtain ⟨-, ⟨hpassage, -⟩ | ⟨hpassage, -⟩⟩ := jumpTarget_cons hjump
    · cases jump with
      | giveBack =>
        rw [hreturn] at hpassage
        obtain rfl := Option.some.inj (ScopeStack.Passage.target.inj hpassage)
        exact ⟨_, hend⟩
      | _ => simp [ScopeStack.passage, hprocedure] at hpassage
    · cases jump <;> simp [ScopeStack.passage, hprocedure] at hpassage
  rw [hcode] at hroom
  simp only [stackNeed_append, stackNeed_cons, stackNeed_openCode] at hroom
  obtain ⟨d, hd, hrun⟩ := Option.bind_eq_some_iff.mp hrun
  have hopen : P.Straight (openCode (boundScope first signature [scope] body behind).localBytes) A.start
      (A.Agree [boundScope first signature [scope] body behind, scope]
        [Meaning.parameters signature args]) :=
    (Agree.entry hkind hvars).open hframed (by omega) fun m' hregs hmem hrbp =>
      holds_parameters hnodup hfile hgiven hregs hmem (by omega)
  rw [hbound] at hopen
  have hsplit : .symbol signature.name :: openCode (innerScope .procedure [scope] body).localBytes ++ c ++
      clearInstr :: .label behind :: epilogueCode ++ [.ret] ++ post =
      .symbol signature.name :: (openCode (innerScope .procedure [scope] body).localBytes ++ (c ++
        (clearInstr :: (.label behind :: epilogueCode ++ .ret :: post)))) := by simp
  rw [hsplit]
  refine .next rfl ((hopen (pre ++ [.symbol signature.name]) _ [] (by simpa using hcode)).trans ?_)
  rintro ⟨_, m₁, _⟩ ⟨rfl, _, rfl, rfl, hm₁⟩
  have hsim := (covered hunique hpool fuel).all hbody hwf.2
    ⟨_, _, rfl, hframed.kind, room_boundScope hnodup hwf.1⟩ hresolves
    (by rw [depth_cons hframed]; omega) hd hm₁
  refine (hsim (pre ++ .symbol signature.name ::
    openCode (innerScope .procedure [scope] body).localBytes) _ _ (by simpa using hcode)).trans ?_
  rintro ⟨position, m₂, records⟩ ⟨⟨new, hnew, hmakes⟩, harrived⟩
  have hrecords : records = new := by simpa using hnew
  subst hrecords
  cases hflow : d.flow with
  | next =>
    rw [hflow] at hrun
    obtain ⟨rfl, rfl⟩ := Prod.mk.inj (Option.some.inj hrun)
    obtain ⟨rfl, hagree⟩ := (arrived_next hflow).mp harrived
    obtain ⟨scope', hafter, hkind'⟩ := exists_scopesAfterAll body
      (boundScope first signature [scope] body behind) [scope]
    rw [hafter] at hagree
    obtain ⟨flags, hclear⟩ := exec_clear P.labels m₂
    have hwithin : A.Within [scope] d.env.tail ((m₂.set .rax 0).withFlags flags) :=
      ((hagree.set_rax 0).keeps (Machine.Preserves.refl _ _).withFlags).within
        (by rw [hkind', hprocedure]; decide)
    refine .next hclear (hwithin.returns hkind hslots hlast (fun w hw => ?_) hmakes)
    rw [Machine.regs_withFlags, Machine.regs_set_self]
    exact Option.some.inj hw
  | continueLoop | breakLoop =>
    rw [hflow] at hrun
    cases hrun
  | giveBack result =>
    rw [hflow] at hrun
    obtain ⟨rfl, rfl⟩ := Prod.mk.inj (Option.some.inj hrun)
    have hjump : d.flow.jump? = some .giveBack := by rw [hflow]; rfl
    obtain ⟨hjumped, hrax⟩ := (arrived_jump hjump).mp harrived
    obtain ⟨rfl, hwithin⟩ := hjumped.here hreturn hend
    refine hwithin.returns hkind hslots hlast (fun w hw => hrax w ?_) hmakes
    rw [hflow, hw]

end Procedures

end Invocation

/-! ### Programs -/

section Programs

variable {options : Options} {source : String} {ast : Ast}

/-- The code of a procedure does what the procedure means.  It is started at its symbol with its
parameters in place and room on the stack.  Where its run comes to an end, with some value and some
calls, the machine comes to a return with this value and these calls, whatever the called procedures do. -/
theorem meaning_preservation {tokens : List Token} (hparse : parse tokens = .ok ast) {p : Program}
    (hgen : (generate options source ast).result = .ok p) :
    ∃ rootTag procs, ast.root = some (.block rootTag procs) ∧
      ∀ tag signature body, .procedure tag signature body ∈ procs → signature.external = false →
      ∃ bodyTag stmts first, body = some (.block bodyTag stmts) ∧
        position? (.symbol signature.name) p.code = some first ∧
        ∀ labels strings : String → Word,
          (∀ i raw, p.constants.strings[i]? = some raw → labels (ConstantPool.label i) = strings raw) →
        ∀ (m : Machine) (args : List Word), m.Given signature args →
          stackNeed p.code ≤ (m.regs .rsp).toNat →
        ∀ fuel value calls, Meaning.run strings fuel signature stmts args = some (value, calls) →
          Image.Eventually ⟨p.code, labels⟩ (Returns signature m value calls) ⟨first, m, []⟩ := by
  obtain ⟨rootTag, procs, hroot, hwf⟩ := wellFormed_of_parse hparse
  obtain ⟨n, ls, -, hcode⟩ := programCode_of_generate hroot hwf hgen
  refine ⟨rootTag, procs, hroot, fun tag signature body hmem hext => ?_⟩
  obtain ⟨bodyTag, body, rfl⟩ := block_of_mem_procedures hwf hmem hext
  obtain ⟨pre, c, post, scopes', n₁, n₂, ls₁, ls₂, ls₃, heq, hpre, -, -, hout, hproc⟩ :=
    hcode.procedure_of_mem ⟨entryScope, rfl, rfl, rfl, rfl, rfl⟩ hwf hmem
  obtain ⟨htypes, hnodup, names, hbody⟩ := wellFormed_of_mem_procedures hwf hmem
  obtain ⟨scope, rfl, hkind, -, -, hvars⟩ := hout
  obtain ⟨first, f, c, _, hfile, hstmts, rfl, -⟩ := hproc
  refine ⟨bodyTag, body, .symbol signature.name ::
    openCode (innerScope .procedure [scope] body).localBytes ++ c ++
    clearInstr :: .label ⟨n₁, signature.name ++ "_return"⟩ :: epilogueCode ++ [.ret] ++ post, rfl, ?_, ?_⟩
  · rw [heq, List.append_assoc]
    exact position?_append hpre
  · intro labels strings hpool m args hgiven hroom fuel value calls hrun
    let A : Invocation := ⟨f, hfile.lawful, signature.stackSlots, m⟩
    have hunique : Image.Unique ⟨p.code, labels⟩ := hcode.fresh.count_le_one
    exact Invocation.eventually_returns (A := A) hunique (fun h => hpool _ _ h) hkind hvars hfile rfl
      hstmts hnodup htypes hbody (by simpa using heq) hroom hgiven hrun

/-- A machine in which a procedure is called with 3 and 44. -/
def calledMachine : Machine where
  regs
    | .rdi => 3
    | .rsi => 44
    | _ => 1000
  flags := none
  mem _ := 0

theorem given_called {signature : Signature} (h : signature.params.map (·.type) = [.int, .u8]) :
    calledMachine.Given signature [3, 44] := by
  have htype : ∀ {i : Nat} {p : Parameter}, signature.params[i]? = some p →
      [DataType.int, .u8][i]? = some p.type :=
    fun hp => by rw [← h, List.getElem?_map, hp]; rfl
  refine ⟨by simpa using (congrArg List.length h).symm, ?_, ?_⟩
  · intro i p w r hp hw hr
    match i, htype hp, hw, hr with
    | 0, htype, hw, hr =>
      obtain rfl := Option.some.inj hw
      obtain rfl : .rdi = r := ParameterClass.register.inj hr
      rw [← Option.some.inj htype]
      rfl
    | 1, htype, hw, hr =>
      obtain rfl := Option.some.inj hw
      obtain rfl : .rsi = r := ParameterClass.register.inj hr
      rw [← Option.some.inj htype]
      rfl
  · intro i p w k hp hw hk
    match i, hw, hk with
    | 0, _, hk => cases hk
    | 1, _, hk => cases hk

/-- A loop that is left in its third turn, with a call in each. -/
theorem meaning_preservation_loop : ∃ tokens ast p first signature,
    tokenize "t.mc"
      "extern void g(int a); int f(int a, u8 b) \x7b int s = 0; while (a) \x7b s = s + b / 2; g(s); if (s > 50) \x7b break; \x7d \x7d return s; \x7d" =
      .ok tokens ∧ parse tokens = .ok ast ∧ (generate {} "t.mc" ast).result = .ok p ∧
    position? (.symbol "f") p.code = some first ∧
    Image.Eventually ⟨p.code, fun _ => 0⟩
      (Returns signature calledMachine (some 66) [⟨"g", [22]⟩, ⟨"g", [44]⟩, ⟨"g", [66]⟩])
      ⟨first, calledMachine, []⟩ := by
  have hpasses : passes "t.mc"
      "extern void g(int a); int f(int a, u8 b) \x7b int s = 0; while (a) \x7b s = s + b / 2; g(s); if (s > 50) \x7b break; \x7d \x7d return s; \x7d"
      (fun ast =>
        someProcedure (fun signature body =>
          signature.name == "f" && !signature.external &&
            signature.params.map (·.type) == [.int, .u8] &&
            Meaning.run (fun _ => 0) 20 signature body [3, 44] ==
              some (some 66, [⟨"g", [22]⟩, ⟨"g", [44]⟩, ⟨"g", [66]⟩])) ast &&
        (generate {} "t.mc" ast).result.toOption.any fun p => stackNeed p.code ≤ 1000) = true := by
    decide +kernel
  obtain ⟨tokens, ast, htokens, hparse, htest⟩ := exists_of_passes hpasses
  rw [Bool.and_eq_true] at htest
  cases hgen : (generate {} "t.mc" ast).result with
  | error e => simp [hgen, Except.toOption] at htest
  | ok p =>
    rw [hgen] at htest
    have hroom : stackNeed p.code ≤ 1000 := by simpa [Except.toOption] using htest.2
    obtain ⟨rootTag, procs, hroot, hprocs⟩ := meaning_preservation hparse hgen
    obtain ⟨tag, signature, bodyTag, body, hmem, hsignature⟩ := exists_of_someProcedure htest.1 hroot
    simp only [Bool.and_eq_true, beq_iff_eq, Bool.not_eq_true'] at hsignature
    obtain ⟨⟨⟨hname, hext⟩, htypes⟩, hrun⟩ := hsignature
    obtain ⟨_, stmts, first, hbody, hfirst, hall⟩ := hprocs tag signature _ hmem hext
    obtain ⟨-, rfl⟩ := Stmt.block.inj (Option.some.inj hbody)
    rw [hname] at hfirst
    exact ⟨tokens, ast, p, first, signature, htokens, hparse, hgen, hfirst,
      hall _ _ (fun _ _ _ => rfl) calledMachine [3, 44] (given_called htypes) hroom 20 _ _ hrun⟩

end Programs

end Generation

end ProcLang

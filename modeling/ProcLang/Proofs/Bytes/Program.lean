import ProcLang.Proofs.Bytes.Statement
import ProcLang.Proofs.Generation.Symbols

/-!
What a program passes at its calls.

The call instructions of a program are its call sites, in order.  In every run of a procedure whose own
parameters are in the ranges of their types, the argument registers of each call are in the ranges of
the types of the argument expressions.  An argument is not cut to the type of its parameter: where the
two types differ, a parameter of a byte type may get a number that is no byte.
-/

namespace ProcLang

/-! ### The call sites of a program -/

namespace Stmt

/-- The calls of the procedures of a program, in order. -/
def procedureSites (T : Typing) : List Stmt → List CallSite
  | [] => []
  | .procedure tag signature (some (.block _ body)) :: rest =>
    callSitesOf ((T.after (.procedure tag signature none)).enter signature) body ++
      procedureSites (T.after (.procedure tag signature none)) rest
  | first :: rest => procedureSites (T.after first) rest

end Stmt

/-- The calls of a program, in order. -/
def Ast.callSites (ast : Ast) : List CallSite :=
  Stmt.procedureSites ⟨fun _ => .int, fun _ => []⟩ ast.procedures

/-- The arguments for parameters of a byte type have the types of the parameters. -/
def CallSite.Exact (site : CallSite) : Prop :=
  ∀ (i : Nat) (type : DataType), site.params[i]? = some type → type.isByte = true →
    site.args[i]? = some type

theorem Machine.Passes.of_exact {m : Machine} {site : CallSite} (h : m.Passes site.args)
    (hexact : site.Exact) : m.Passes site.params := by
  intro i type r htype hr
  cases hbyte : type.isByte with
  | true => exact h i type r (hexact i type htype hbyte) hr
  | false =>
    cases type with
    | int => trivial
    | void => trivial
    | u8 => cases hbyte
    | s8 => cases hbyte

theorem Machine.passes_singleton {m : Machine} {type : DataType} :
    m.Passes [type] ↔ type.Fits (m.regs .rdi) := by
  refine ⟨fun h => h 0 type .rdi rfl rfl, fun h i type' r htype hr => ?_⟩
  cases i with
  | zero =>
    obtain rfl := Option.some.inj htype
    obtain rfl := Option.some.inj hr
    exact h
  | succ i => simp at htype

namespace Generation

/-! ### Procedures -/

/-- The type of the parameter that comes in a register. -/
def parameterType (signature : Signature) (q : Register) : DataType :=
  ((signature.params[Register.arguments.idxOf q]?).map (·.type)).getD .int

section Procedures

variable {options : Options} {pool : List String} {signature : Signature} {body : List Stmt}
  {scopes : ScopeStack} {T : Typing} {n n' : Nat} {c : List Instr} {ls : List Spot}

theorem parameterType_eq {i : Nat} {p : Parameter} {q : Register}
    (hq : Register.arguments[i]? = some q) (hp : signature.params[i]? = some p) :
    parameterType signature q = p.type := by
  have hmem : q ∈ Register.arguments := List.mem_of_getElem? hq
  have hidx : Register.arguments.idxOf q = i :=
    RegisterFile.arguments_inj (List.getElem?_idxOf hmem) hq
  rw [parameterType, hidx, hp]
  rfl

/-- The variable of a parameter, in the scope of its procedure. -/
theorem exists_of_findVariable? {first : Nat} {behind : Label} {name : String} {v : Variable}
    (hscopes : Outermost scopes) (hnodup : (signature.params.map (·.name)).Nodup)
    (hv : ScopeStack.findVariable? (boundScope first signature scopes body behind :: scopes) name =
      some v) :
    ∃ (i : Nat) (p : Parameter), signature.params[i]? = some p ∧ name = p.name ∧ v.type = p.type ∧
      v.storage = parameterStorage first i := by
  obtain ⟨scope, rfl, -, -, -, hvars⟩ := hscopes
  cases hget : (boundScope first signature [scope] body behind).vars.get? name with
  | none =>
    rw [findVariable?_cons_none hget] at hv
    simp [ScopeStack.findVariable?, hvars] at hv
  | some v' =>
    rw [findVariable?_cons_some hget] at hv
    obtain rfl := Option.some.inj hv
    obtain ⟨i, p, hp, hname, rfl⟩ := exists_of_get?_boundScope hnodup hget
    exact ⟨i, p, hp, hname, rfl, rfl⟩

theorem describes_enter {first : Nat} {behind : Label} (hscopes : Outermost scopes)
    (hnodup : (signature.params.map (·.name)).Nodup) (hT : T.Describes scopes) :
    (T.enter signature).Describes (boundScope first signature scopes body behind :: scopes) := by
  refine ⟨fun {name v} hv => ?_, fun hp => hT.params ?_⟩
  · obtain ⟨i, p, hp, rfl, htype, -⟩ := exists_of_findVariable? hscopes hnodup hv
    rw [htype]
    exact Typing.vars_enter hnodup (List.mem_of_getElem? hp)
  · rwa [findProcedure?_cons_empty (by rw [boundScope_eq]; rfl)] at hp

/-- The only exit of a procedure is its end. -/
theorem eq_of_exitOf {first : Nat} {behind l : Label} (hscopes : Outermost scopes)
    (h : ExitOf (boundScope first signature scopes body behind :: scopes) l) : l = behind := by
  obtain ⟨scope, rfl, hkind, -⟩ := hscopes
  obtain ⟨jump, crossed, hjump⟩ := h
  obtain ⟨-, ⟨htarget, -⟩ | ⟨-, inner, -, hinner⟩⟩ := jumpTarget_cons hjump
  · rw [boundScope_eq] at htarget
    cases jump with
    | giveBack => exact (Option.some.inj (ScopeStack.Passage.target.inj htarget)).symm
    | continueLoop => cases htarget
    | breakLoop => cases htarget
  · exact absurd hkind (jumpTarget_cons hinner).1

section Setting

variable {A : Setting} {first : Nat} (hfile : A.file.HoldsParameters first signature.params.length)
  (htypes : A.types = parameterType signature)

include hfile htypes

theorem binds_enter {behind : Label} (hscopes : Outermost scopes)
    (hnodup : (signature.params.map (·.name)).Nodup) :
    A.Binds (boundScope first signature scopes body behind :: scopes) := by
  intro name v l q hv hstorage hl
  obtain ⟨i, p, hp, -, htype, hplace⟩ := exists_of_findVariable? hscopes hnodup hv
  obtain ⟨rfl, r, hr⟩ := parameterStorage_register (hplace.symm.trans hstorage)
  obtain ⟨j, -, hj, hq⟩ := (hfile.index _ _).mp hl
  have hij : first + i = first + j := congrArg Location.number hj
  obtain rfl : i = j := by omega
  rw [htypes, htype, parameterType_eq hq hp]

theorem inRange_enter {m : Machine} (hm : m.Passes (signature.params.map (·.type))) : A.InRange m := by
  intro q hq
  obtain ⟨slot, hslot⟩ := Option.isSome_iff_exists.mp hq
  obtain ⟨⟨i, hi, -, hargument⟩, -⟩ := (hfile.slots _ _).mp hslot
  have hp : signature.params[i]? = some signature.params[i] := List.getElem?_eq_getElem hi
  rw [htypes, parameterType_eq hargument hp]
  exact hm i _ q (by rw [List.getElem?_map, hp]; rfl) hargument

end Setting

theorem sited_procedure {A : Setting} {part : List CallSite} {behind : Label} (name : String)
    (reserved : Nat) (hbody : A.Sited (· = behind) part c) :
    A.Sited (fun _ => False) part
      (.symbol name :: openCode reserved ++ c ++ clearInstr :: .label behind :: epilogueCode) := by
  let K : Label → Prop := fun l => l = behind ∨ False
  have hsymbol : A.Sited K [] [.symbol name] := .setsNone rfl
  have hclear : A.Sited K [] [clearInstr] := .sets rfl (A.used_eq_false (by decide))
  have hfront : A.Sited K part (.symbol name :: openCode reserved ++ c ++ [clearInstr]) :=
    ((hsymbol.append (sited_open reserved)).append (hbody.exits fun _ => .inl)).before hclear
  have hlast : A.Sited K [] (.label behind :: epilogueCode) :=
    (sited_label behind).append sited_epilogue
  have hcode : .symbol name :: openCode reserved ++ c ++ clearInstr :: .label behind :: epilogueCode =
      (.symbol name :: openCode reserved ++ c ++ [clearInstr]) ++ .label behind :: epilogueCode := by
    simp
  rw [hcode]
  refine .hide (fun l hl => ?_) (hfront.before hlast)
  subst hl
  exact ⟨_, part, _, [], rfl, (List.append_nil part).symm, hfront.count, hlast⟩

/-- A procedure whose parameters are in the ranges of their types passes such arguments at its calls,
and its calls are its call sites. -/
theorem ProcedureCode.passing {P : Image} (hunique : P.Unique) (sites : List CallSite)
    (hscopes : Outermost scopes) (hnodup : (signature.params.map (·.name)).Nodup)
    (hT : T.Describes scopes)
    (h : ProcedureCode options pool scopes signature body n c n' ls) :
    c.countP Instr.isCall = (Stmt.callSitesOf (T.enter signature) body).length ∧
    ∀ {pre post m}, P.code = pre ++ c ++ post →
      Listed sites (pre.countP Instr.isCall) (Stmt.callSitesOf (T.enter signature) body) →
      m.Passes (signature.params.map (·.type)) →
      ∀ steps calls, P.SafeFor (Passing sites) steps ⟨c ++ post, m, calls⟩ := by
  obtain ⟨first, f, c, _, hfile, hbody, rfl, -⟩ := h
  let A : Setting := ⟨P, hunique, sites, f, hfile.lawful, parameterType signature⟩
  have hstmts : A.Sited (ExitOf _) (Stmt.callSitesOf (T.enter signature) body) c :=
    StmtsCode.sited hbody (describes_enter hscopes hnodup hT) (binds_enter hfile rfl hscopes hnodup)
  have hfront := sited_procedure signature.name (innerScope .procedure scopes body).localBytes
    (hstmts.exits fun _ hl => eq_of_exitOf hscopes hl)
  refine ⟨?_, fun {pre post m} hcode hlisted hm steps calls => ?_⟩
  · rw [List.countP_append, hfront.count]
    rfl
  · -- nothing is behind the return
    have hret : ∀ {b m'}, P.Guards (Passing sites) (fun _ => False) A.InRange b [.ret] m'
        fun _ => False := .one rfl rfl fun _ hexec => by cases hexec
    have hguards := (hfront.guards hlisted (inRange_enter hfile rfl hm)).append fun _ _ => hret
    exact hguards steps pre post calls hcode rfl (fun _ _ _ _ => False.elim) fun _ => False.elim

/-! ### Programs -/

/-- The code of a procedure stands in the code of its program behind as many calls as its call sites
stand behind others. -/
theorem ProgramCode.procedure_at {P : Image} {names : NameScope} {procs : List Stmt}
    {tag bodyTag : Tag} {code : List Instr} (hunique : P.Unique)
    (h : ProgramCode options pool scopes procs n code n' ls) (hscopes : Outermost scopes)
    (hT : T.Describes scopes) (hwf : Stmt.ProceduresWellFormed [names] procs)
    (hmem : .procedure tag signature (some (.block bodyTag body)) ∈ procs) :
    ∃ (pre c post : List Instr) (scopes' : ScopeStack) (T' : Typing) (n₁ n₂ : Nat) (ls' : List Spot)
      (part₁ part₂ : List CallSite), code = pre ++ c ++ post ∧
      .symbol signature.name ∉ pre ∧ Outermost scopes' ∧ T'.Describes scopes' ∧
      ProcedureCode options pool scopes' signature body n₁ c n₂ ls' ∧
      Stmt.procedureSites T procs = part₁ ++ (Stmt.callSitesOf (T'.enter signature) body ++ part₂) ∧
      pre.countP Instr.isCall = part₁.length := by
  induction h generalizing names T with
  | nil => cases hmem
  | external _ ih =>
    rcases List.mem_cons.mp hmem with heq | hmem
    · cases heq
    · exact ih hscopes.after (hT.after _) hwf.2 hmem
  | @procedure scopes tag' signature' bodyTag' body' rest n₁ c₁ n₂ c₂ n₃ ls ls' _ hproc _ ih =>
    have hT' := hT.after (.procedure tag' signature' none)
    rcases List.mem_cons.mp hmem with heq | hmem
    · obtain ⟨rfl, rfl, hbody⟩ := Stmt.procedure.inj heq
      obtain ⟨rfl, rfl⟩ := Stmt.block.inj (Option.some.inj hbody)
      exact ⟨[.global signature.name], c₁, c₂, _, _, n₁, n₂, ls, [], _, rfl, by simp, hscopes.after,
        hT', hproc, rfl, rfl⟩
    · obtain ⟨pre, c, post, scopes', T', m₁, m₂, ls'', part₁, part₂, rfl, hpre, hout, hdescribes,
        hcode, hparts, hcount⟩ := ih hscopes.after hT' hwf.2 hmem
      obtain ⟨htypes, hnodup, _, hbody⟩ := wellFormed_of_mem_procedures hwf List.mem_cons_self
      have hcount₁ := (hproc.passing hunique [] hscopes.after hnodup hT').1
      have hsymbols := hproc.symbols hscopes.after htypes hnodup hbody
      have hne : signature.name ≠ signature'.name := fun heq =>
        not_mem_procedures hwf.2 hmem (by simp [Stmt.declareIn]) (heq ▸ List.mem_cons_self)
      have hnot : .symbol signature.name ∉ c₁ := fun hin => by
        have hin' : signature.name ∈ c₁.filterMap Instr.symbol? :=
          List.mem_filterMap.mpr ⟨_, hin, rfl⟩
        rw [hsymbols, List.mem_singleton] at hin'
        exact hne hin'
      refine ⟨.global signature'.name :: c₁ ++ pre, c, post, scopes', T', m₁, m₂, ls'',
        Stmt.callSitesOf ((T.after (.procedure tag' signature' none)).enter signature') body' ++ part₁,
        part₂, by simp, by simp [hnot, hpre], hout, hdescribes, hcode, ?_, ?_⟩
      · rw [Stmt.procedureSites, hparts, List.append_assoc]
      · rw [List.countP_append, List.length_append, List.countP_cons_of_neg (by simp [Instr.isCall]),
          hcount₁, hcount]

end Procedures

section Programs

variable {options : Options} {source : String} {ast : Ast}

/-- What a procedure passes at its calls.  It is started at its symbol with the parameters that come in
registers in the ranges of their types.  Wherever a run of it comes to a call, and be it one that does
not end, the call has a call site in the program, and the argument registers are in the ranges of the
types of the arguments there.  They are in the ranges of the parameters' types if the arguments for
parameters of a byte type have the types of the parameters. -/
theorem call_arguments_in_range {tokens : List Token} (hparse : parse tokens = .ok ast) {p : Program}
    (hgen : (generate options source ast).result = .ok p) {tag bodyTag : Tag} {signature : Signature}
    {body : List Stmt} (hmem : .procedure tag signature (some (.block bodyTag body)) ∈ ast.procedures)
    {m : Machine} (hm : m.Passes (signature.params.map (·.type))) :
    ∃ start, position? (.symbol signature.name) p.code = some start ∧
      ∀ labels name rest m' calls,
        Image.LowRun ⟨p.code, labels⟩ ⟨start, m, []⟩ ⟨.call name :: rest, m', calls⟩ →
        ∃ front site, p.code = front ++ .call name :: rest ∧
          ast.callSites[front.countP Instr.isCall]? = some site ∧ site.name = name ∧
          m'.Passes site.args ∧ (site.Exact → m'.Passes site.params) := by
  obtain ⟨rootTag, procs, hroot, hwf⟩ := wellFormed_of_parse hparse
  obtain ⟨n, ls, -, hcode⟩ := programCode_of_generate hroot hwf hgen
  have hprocs : ast.procedures = procs := by rw [Ast.procedures, hroot]
  rw [hprocs] at hmem
  have hunique : ∀ labels, Image.Unique ⟨p.code, labels⟩ := fun _ => hcode.fresh.count_le_one
  have hout : Outermost [entryScope] := ⟨entryScope, rfl, rfl, rfl, rfl, rfl⟩
  have hT : Typing.Describes ⟨fun _ => .int, fun _ => []⟩ [entryScope] := by
    constructor <;> intros <;> contradiction
  obtain ⟨pre, c, post, scopes, T, n₁, n₂, ls', part₁, part₂, heq, hpre, hscopes, hdescribes, hproc,
    hparts, hcount⟩ := hcode.procedure_at (hunique fun _ => 0) hout hT hwf hmem
  obtain ⟨-, hnodup, -⟩ := wellFormed_of_mem_procedures hwf hmem
  have hlisted : Listed ast.callSites (pre.countP Instr.isCall)
      (Stmt.callSitesOf (T.enter signature) body) := by
    have hall : Listed ast.callSites 0
        (part₁ ++ (Stmt.callSitesOf (T.enter signature) body ++ part₂)) := by
      intro i site hi
      rw [Nat.zero_add, Ast.callSites, hprocs, hparts, hi]
    rw [hcount]
    simpa using hall.right.left
  have hstart : ∃ c', c = .symbol signature.name :: c' := by
    obtain ⟨_, _, c, _, -, -, rfl, -⟩ := hproc
    exact ⟨_, rfl⟩
  obtain ⟨c', rfl⟩ := hstart
  refine ⟨.symbol signature.name :: c' ++ post, ?_, fun labels name rest m' calls hrun => ?_⟩
  · rw [heq, List.append_assoc]
    exact position?_append hpre
  · have hsafe := (hproc.passing (hunique labels) ast.callSites hscopes hnodup hdescribes).2 heq
      hlisted hm
    obtain ⟨front, hfront, site, hsite, hname, hpasses⟩ :=
      Image.admits_of_safeFor (fun steps => hsafe steps []) hrun name rest rfl
    exact ⟨front, site, hfront, hsite, hname, hpasses, hpasses.of_exact⟩

/-- Run code that does not jump up to its next call, with the stack pointer in the lower half of the
addresses. -/
def walk (labels : String → Word) : List Instr → Machine → Option (List Instr × Machine)
  | [], _ => none
  | i :: rest, m =>
    if i.isCall then some (i :: rest, m)
    else (m.exec labels i).bind fun m' =>
      if (m'.regs .rsp).toNat < 2 ^ 63 then walk labels rest m' else none

theorem lowRun_of_walk {P : Image} {c c' : List Instr} {m m' : Machine} {calls : List CallRecord}
    (h : walk P.labels c m = some (c', m')) : P.LowRun ⟨c, m, calls⟩ ⟨c', m', calls⟩ := by
  induction c generalizing m with
  | nil => cases h
  | cons i rest ih =>
    unfold walk at h
    split_ifs at h with hcall
    · obtain ⟨rfl, rfl⟩ := Prod.mk.inj (Option.some.inj h)
      exact .refl
    · obtain ⟨m₁, hexec, h⟩ := Option.bind_eq_some_iff.mp h
      split_ifs at h with hlow
      exact .head ⟨.next hexec, hlow⟩ (ih h)

/-- A machine in which a procedure is called with a word. -/
def startMachine (w : Word) : Machine where
  regs
    | .rdi => w
    | _ => 1000
  flags := none
  mem _ := 0

/-- The second procedure of a program, `g` with a parameter of a type, has the only call of the program;
started with a word it comes to the call with another word. -/
def callsWith (text : String) (type : DataType) (site : CallSite) (w w' : Word) : Bool :=
  passes "t.mc" text fun ast =>
    (match ast.procedures with
      | [_, .procedure _ signature (some (.block _ _))] =>
        signature.name == "g" && signature.params.map (·.type) == [type]
      | _ => false) &&
    (ast.callSites == [site] &&
      (generate {} "t.mc" ast).result.toOption.any fun p =>
        (position? (.symbol "g") p.code).any fun start =>
          (walk (fun _ => 0) start (startMachine w)).any fun (c, m') =>
            c.head? == some (.call site.name) && m'.regs .rdi == w')

theorem exists_of_callsWith {text : String} {type : DataType} {site : CallSite} {w w' : Word}
    (h : callsWith text type site w w' = true) :
    ∃ tokens ast p tag signature bodyTag body start rest m',
      tokenize "t.mc" text = .ok tokens ∧ parse tokens = .ok ast ∧
      (generate {} "t.mc" ast).result = .ok p ∧
      .procedure tag signature (some (.block bodyTag body)) ∈ ast.procedures ∧
      signature.name = "g" ∧ signature.params.map (·.type) = [type] ∧ ast.callSites = [site] ∧
      position? (.symbol signature.name) p.code = some start ∧
      Image.LowRun ⟨p.code, fun _ => 0⟩ ⟨start, startMachine w, []⟩ ⟨.call site.name :: rest, m', []⟩ ∧
      m'.regs .rdi = w' := by
  obtain ⟨tokens, ast, htokens, hparse, htest⟩ := exists_of_passes h
  obtain ⟨hprocs, htest⟩ := Bool.and_eq_true_iff.mp htest
  obtain ⟨hsites, htest⟩ := Bool.and_eq_true_iff.mp htest
  cases hgen : (generate {} "t.mc" ast).result with
  | error e => simp [hgen, Except.toOption] at htest
  | ok p =>
    rw [hgen, Except.toOption, Option.any_some] at htest
    obtain ⟨start, hstart, htest⟩ := (Option.any_eq_true _ _).mp htest
    obtain ⟨⟨c, m'⟩, hwalk, htest⟩ := (Option.any_eq_true _ _).mp htest
    obtain ⟨hhead, hvalue⟩ := Bool.and_eq_true_iff.mp htest
    cases c with
    | nil => simp at hhead
    | cons i rest =>
      obtain rfl : i = .call site.name := by simpa using hhead
      split at hprocs
      case h_2 => cases hprocs
      case h_1 first tag signature bodyTag body hprocedures =>
        obtain ⟨hname, htypes⟩ := Bool.and_eq_true_iff.mp hprocs
        rw [← eq_of_beq hname] at hstart
        exact ⟨tokens, ast, p, tag, signature, bodyTag, body, start, rest, m', htokens, hparse, hgen,
          by simp [hprocedures], eq_of_beq hname, eq_of_beq htypes, eq_of_beq hsites, hstart,
          lowRun_of_walk hwalk, eq_of_beq hvalue⟩

/-- The sum of two bytes is passed as a byte. -/
theorem call_arguments_in_range_sum : ∃ tokens ast p start rest m',
    tokenize "t.mc" "void f(u8 x) \x7b \x7d void g(u8 y) \x7b f(y + y); \x7d" = .ok tokens ∧
    parse tokens = .ok ast ∧ (generate {} "t.mc" ast).result = .ok p ∧
    position? (.symbol "g") p.code = some start ∧
    Image.LowRun ⟨p.code, fun _ => 0⟩ ⟨start, startMachine 200, []⟩ ⟨.call "f" :: rest, m', []⟩ ∧
    m'.regs .rdi = 144 ∧ m'.Passes [.u8] := by
  have hcalls : callsWith "void f(u8 x) \x7b \x7d void g(u8 y) \x7b f(y + y); \x7d" .u8
      ⟨"f", [.u8], [.u8]⟩ 200 144 = true := by decide +kernel
  obtain ⟨tokens, ast, p, tag, signature, bodyTag, body, start, rest, m', htokens, hparse, hgen, hmem,
    hname, htypes, hsites, hstart, hrun, hvalue⟩ := exists_of_callsWith hcalls
  have hm : (startMachine 200).Passes (signature.params.map (·.type)) := by
    rw [htypes]
    exact Machine.passes_singleton.mpr (by decide)
  obtain ⟨start', hstart', hruns⟩ := call_arguments_in_range hparse hgen hmem hm
  obtain rfl : start' = start := Option.some.inj (hstart'.symm.trans hstart)
  obtain ⟨front, site, -, hsite, -, hpasses, -⟩ := hruns _ _ _ _ _ hrun
  rw [hsites] at hsite
  obtain rfl : _ = site := List.mem_singleton.mp (List.mem_of_getElem? hsite) |>.symm
  exact ⟨tokens, ast, p, start', rest, m', htokens, hparse, hgen, hname ▸ hstart', hrun, hvalue,
    hpasses⟩

/-- An argument of another type is not cut to the type of its parameter: 300 is passed as a byte. -/
theorem call_argument_not_cut : ∃ tokens ast p tag signature bodyTag body start rest m',
    tokenize "t.mc" "void f(u8 x) \x7b \x7d void g(int y) \x7b f(y); \x7d" = .ok tokens ∧
    parse tokens = .ok ast ∧ (generate {} "t.mc" ast).result = .ok p ∧
    .procedure tag signature (some (.block bodyTag body)) ∈ ast.procedures ∧
    (startMachine 300).Passes (signature.params.map (·.type)) ∧
    position? (.symbol signature.name) p.code = some start ∧
    Image.LowRun ⟨p.code, fun _ => 0⟩ ⟨start, startMachine 300, []⟩ ⟨.call "f" :: rest, m', []⟩ ∧
    ast.callSites = [⟨"f", [.u8], [.int]⟩] ∧ ¬ m'.Passes [.u8] := by
  have hcalls : callsWith "void f(u8 x) \x7b \x7d void g(int y) \x7b f(y); \x7d" .int
      ⟨"f", [.u8], [.int]⟩ 300 300 = true := by decide +kernel
  obtain ⟨tokens, ast, p, tag, signature, bodyTag, body, start, rest, m', htokens, hparse, hgen, hmem,
    -, htypes, hsites, hstart, hrun, hvalue⟩ := exists_of_callsWith hcalls
  refine ⟨tokens, ast, p, tag, signature, bodyTag, body, start, rest, m', htokens, hparse, hgen, hmem,
    ?_, hstart, hrun, hsites, ?_⟩
  · rw [htypes]
    exact Machine.passes_singleton.mpr trivial
  · rw [Machine.passes_singleton, hvalue]
    decide

end Programs

end Generation

end ProcLang

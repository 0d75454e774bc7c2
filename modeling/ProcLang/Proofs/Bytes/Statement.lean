import Mathlib.Logic.Function.Basic
import ProcLang.Proofs.Bytes.Call
import ProcLang.Proofs.Simulation.Statement

/-!
The call sites of a program, and what the code of statements passes there.

A call site has the types of its arguments, as they are read off the program.  `Sited` says of a piece
of code that its calls are some call sites, in order, that the argument registers are in the ranges of
the arguments' types at each of them, and that the parameters in registers stay in the ranges of theirs.
It is closed under the ways in which the code of a statement is put together.
-/

namespace ProcLang

/-! ### Call sites -/

/-- The types of the names at a place of a program: of the variables, and of the parameters of the
procedures. -/
structure Typing where
  vars : String → DataType
  params : String → List DataType

namespace Typing

/-- The types behind a statement. -/
def after (T : Typing) : Stmt → Typing
  | .declaration _ name type _ => { T with vars := Function.update T.vars name type }
  | .procedure _ signature _ =>
    { T with params := Function.update T.params signature.name (signature.params.map (·.type)) }
  | _ => T

/-- The types in the body of a procedure; its parameters are the only variables. -/
def enter (T : Typing) (signature : Signature) : Typing :=
  { T with vars := fun name => ((signature.params.find? (·.name == name)).map (·.type)).getD .int }

end Typing

/-- A call in a program: what is called, the types of its parameters, and the types of the arguments. -/
structure CallSite where
  name : String
  params : List DataType
  args : List DataType
deriving DecidableEq

namespace Stmt

mutual

/-- The calls of a statement, in order. -/
def callSites (T : Typing) : Stmt → List CallSite
  | .block _ body => callSitesOf T body
  | .call _ name args =>
    [⟨name, T.params name, Generation.argumentTypes T.vars (args.zip (T.params name))⟩]
  | .branch _ _ thenBranch none => thenBranch.callSites T
  | .branch _ _ thenBranch (some elseBranch) => thenBranch.callSites T ++ elseBranch.callSites T
  | .loop _ _ body => body.callSites T
  | _ => []

/-- The calls of statements, in order. -/
def callSitesOf (T : Typing) : List Stmt → List CallSite
  | [] => []
  | first :: rest => first.callSites T ++ callSitesOf (T.after first) rest

end

end Stmt

/-! ### Types and scopes -/

section Scopes

variable {T : Typing} {scope : Scope} {outer scopes : ScopeStack} {name : String}

theorem findVariable?_declare (v : Variable) :
    ScopeStack.findVariable? (scope.declare v :: outer) name =
      if name = v.name then some v else ScopeStack.findVariable? (scope :: outer) name := by
  unfold ScopeStack.findVariable?
  rw [List.findSome?_cons, List.findSome?_cons]
  split_ifs with h
  · rw [h, Scope.declare, Table.get?_insert_self]
  · rw [Scope.declare, Table.get?_insert_of_ne _ _ h]

theorem findProcedure?_declareProcedure (p : Procedure) :
    ScopeStack.findProcedure? (scope.declareProcedure p :: outer) name =
      if name = p.name then some p else ScopeStack.findProcedure? (scope :: outer) name := by
  unfold ScopeStack.findProcedure?
  rw [List.findSome?_cons, List.findSome?_cons]
  split_ifs with h
  · rw [h, Scope.declareProcedure, Table.get?_insert_self]
  · rw [Scope.declareProcedure, Table.get?_insert_of_ne _ _ h]

theorem findProcedure?_cons_empty (h : scope.procedures = .empty) :
    ScopeStack.findProcedure? (scope :: outer) name = outer.findProcedure? name := by
  simp [ScopeStack.findProcedure?, h]

theorem findVariable?_cons_empty (h : scope.vars = .empty) :
    ScopeStack.findVariable? (scope :: outer) name = outer.findVariable? name := by
  simp [ScopeStack.findVariable?, h]

theorem map_fst_params (signature : Signature) :
    signature.procedure.params.map (·.1) = signature.params.map (·.type) := by
  refine List.map_fst_zip ?_
  simp [Signature.classes, classifyParameters]

theorem Typing.vars_enter {signature : Signature} {p : Parameter}
    (hnodup : (signature.params.map (·.name)).Nodup) (hp : p ∈ signature.params) :
    (T.enter signature).vars p.name = p.type := by
  have hfound : (signature.params.find? (·.name == p.name)).isSome :=
    List.find?_isSome.mpr ⟨p, hp, by simp⟩
  obtain ⟨p', hp'⟩ := Option.isSome_iff_exists.mp hfound
  have hname : p'.name = p.name := by simpa using List.find?_some hp'
  obtain rfl : p' = p := List.inj_on_of_nodup_map hnodup (List.mem_of_find?_eq_some hp') hp hname
  show ((signature.params.find? (·.name == p'.name)).map (·.type)).getD .int = p'.type
  rw [hp']
  rfl

/-- The types of the names are those that the scopes have. -/
structure Typing.Describes (T : Typing) (scopes : ScopeStack) : Prop where
  vars : ∀ {name v}, scopes.findVariable? name = some v → T.vars name = v.type
  params : ∀ {name p}, scopes.findProcedure? name = some p → T.params name = p.params.map (·.1)

theorem Typing.Describes.inner (h : T.Describes scopes) (hvars : scope.vars = .empty)
    (hprocs : scope.procedures = .empty) : T.Describes (scope :: scopes) where
  vars hv := h.vars (findVariable?_cons_empty hvars ▸ hv)
  params hp := h.params (findProcedure?_cons_empty hprocs ▸ hp)

theorem Typing.Describes.after (h : T.Describes scopes) (st : Stmt) :
    (T.after st).Describes (Generation.scopesAfter st scopes) := by
  cases scopes with
  | nil => exact ⟨fun hv => by simp [Generation.scopesAfter, ScopeStack.findVariable?] at hv,
      fun hp => by simp [Generation.scopesAfter, ScopeStack.findProcedure?] at hp⟩
  | cons scope outer =>
    cases st with
    | declaration tag x type init =>
      refine ⟨fun {name v} hv => ?_, h.params⟩
      rw [Generation.scopesAfter, findVariable?_declare] at hv
      split_ifs at hv with hname
      · obtain rfl := Option.some.inj hv
        obtain rfl : name = x := hname
        exact Function.update_self ..
      · exact (Function.update_of_ne hname ..).trans (h.vars hv)
    | procedure tag signature body =>
      refine ⟨h.vars, fun {name p} hp => ?_⟩
      rw [Generation.scopesAfter, findProcedure?_declareProcedure] at hp
      split_ifs at hp with hname
      · obtain rfl := Option.some.inj hp
        obtain rfl : name = signature.name := hname
        exact (Function.update_self ..).trans (map_fst_params signature).symm
      · exact (Function.update_of_ne hname ..).trans (h.params hp)
    | _ => exact h

end Scopes

namespace Generation

/-- The variable that a place belongs to. -/
theorem exists_of_view {scopes : ScopeStack} {f : RegisterFile} {name : String} {place : Place}
    (h : view scopes f name = some place) :
    ∃ v, scopes.findVariable? name = some v ∧ v.type = place.type ∧
      ∀ q, place.access = .register q → ∃ l, v.storage = .register l ∧ f.registerOf? l = some q := by
  obtain ⟨v, hv, hplace⟩ := Option.bind_eq_some_iff.mp h
  refine ⟨v, hv, ?_⟩
  cases hstorage : v.storage with
  | stack offset =>
    rw [hstorage] at hplace
    obtain rfl := Option.some.inj hplace
    exact ⟨rfl, fun q hq => by cases hq⟩
  | register l =>
    rw [hstorage] at hplace
    obtain ⟨r, hr, rfl⟩ := Option.map_eq_some_iff.mp hplace
    exact ⟨rfl, fun q hq => ⟨l, rfl, Access.register.inj hq ▸ hr⟩⟩

theorem vars_eq_of_view {T : Typing} {scopes : ScopeStack} (h : T.Describes scopes)
    {f : RegisterFile} {name : String} {place : Place} (hview : view scopes f name = some place) :
    T.vars name = place.type := by
  obtain ⟨v, hv, htype, -⟩ := exists_of_view hview
  rw [h.vars hv, htype]

/-! ### Exits -/

/-- A jump out of the scopes goes to the label. -/
def ExitOf (scopes : ScopeStack) (l : Label) : Prop :=
  ∃ jump crossed, scopes.jumpTarget jump = .ok (crossed, l)

section Exits

variable {scope : Scope} {scopes : ScopeStack} {l : Label}

theorem ExitOf.after {st : Stmt} (h : ExitOf (scopesAfter st scopes) l) : ExitOf scopes l := by
  obtain ⟨jump, crossed, hjump⟩ := h
  exact ⟨jump, crossed, jumpTarget_scopesAfter jump ▸ hjump⟩

theorem ExitOf.plain (h : ExitOf (scope :: scopes) l) (hkind : scope.kind = .plain) :
    ExitOf scopes l := by
  obtain ⟨jump, crossed, hjump⟩ := h
  obtain ⟨-, ⟨htarget, -⟩ | ⟨-, inner, -, hinner⟩⟩ := jumpTarget_cons hjump
  · rw [passage_plain hkind] at htarget
    cases htarget
  · exact ⟨jump, inner, hinner⟩

theorem ExitOf.loop {body : List Stmt} {start behind : Label}
    (h : ExitOf (loopScope scopes body start behind :: scopes) l) :
    l = start ∨ l = behind ∨ ExitOf scopes l := by
  obtain ⟨jump, crossed, hjump⟩ := h
  obtain ⟨-, ⟨htarget, -⟩ | ⟨-, inner, -, hinner⟩⟩ := jumpTarget_cons hjump
  · cases jump with
    | continueLoop => exact .inl (Option.some.inj (ScopeStack.Passage.target.inj htarget)).symm
    | breakLoop => exact .inr (.inl (Option.some.inj (ScopeStack.Passage.target.inj htarget)).symm)
    | giveBack => cases htarget
  · exact .inr (.inr ⟨jump, inner, hinner⟩)

end Exits

/-! ### Code with call sites -/

/-- The call with a number is at the call site with this number, and the argument registers are in the
ranges of the arguments' types. -/
def Passing (sites : List CallSite) (k : Nat) (name : String) (m : Machine) : Prop :=
  ∃ site, sites[k]? = some site ∧ site.name = name ∧ m.Passes site.args

/-- Some call sites stand in others from a number on. -/
def Listed (sites : List CallSite) (k : Nat) (part : List CallSite) : Prop :=
  ∀ i site, part[i]? = some site → sites[k + i]? = some site

section Listed

variable {sites part₁ part₂ : List CallSite} {b : Nat}

theorem Listed.left (h : Listed sites b (part₁ ++ part₂)) : Listed sites b part₁ := by
  intro i site hi
  have hlt := (List.getElem?_eq_some_iff.mp hi).1
  exact h i site (by rw [List.getElem?_append_left hlt, hi])

theorem Listed.right (h : Listed sites b (part₁ ++ part₂)) :
    Listed sites (b + part₁.length) part₂ := by
  intro i site hi
  rw [Nat.add_assoc]
  refine h (part₁.length + i) site ?_
  rw [List.getElem?_append_right (Nat.le_add_right _ _), Nat.add_sub_cancel_left, hi]

end Listed

/-- A procedure of a program: the code of the program and its call sites, the registers with the
parameters of the procedure, and the types of the parameters there. -/
structure Setting where
  image : Image
  unique : image.Unique
  sites : List CallSite
  file : RegisterFile
  lawful : file.Lawful
  types : Register → DataType

namespace Setting

variable (A : Setting)

/-- The registers that the parameters are in. -/
abbrev used : Used := A.file.slots.contains

/-- The parameters in registers are in the ranges of their types. -/
def InRange (m : Machine) : Prop := ∀ q, A.used q = true → (A.types q).Fits (m.regs q)

/-- The parameters in registers have the types that the scopes have. -/
def Binds (scopes : ScopeStack) : Prop :=
  ∀ {name v l q}, scopes.findVariable? name = some v → v.storage = .register l →
    A.file.registerOf? l = some q → A.types q = v.type

/-- The calls of the code are some call sites, in order.  The code may be left to the labels of `K`. -/
structure Sited (K : Label → Prop) (part : List CallSite) (c : List Instr) : Prop where
  count : c.countP Instr.isCall = part.length
  guards : ∀ {b m}, Listed A.sites b part → A.InRange m →
    A.image.Guards (Passing A.sites) K A.InRange b c m A.InRange

variable {A} {K K' : Label → Prop} {part part₁ part₂ : List CallSite} {c c₁ c₂ : List Instr}
  {m m' : Machine} {scope : Scope} {outer scopes : ScopeStack} {b : Nat}

theorem InRange.keeps (h : A.InRange m) (hkeeps : ∀ q, A.used q = true → m'.regs q = m.regs q) :
    A.InRange m' := by
  intro q hq
  rw [hkeeps q hq]
  exact h q hq

theorem Binds.inner (h : A.Binds scopes) (hvars : scope.vars = .empty) : A.Binds (scope :: scopes) :=
  fun hv => h (findVariable?_cons_empty hvars ▸ hv)

/-- A declared variable is on the stack. -/
theorem Binds.after (h : A.Binds scopes) (st : Stmt) : A.Binds (scopesAfter st scopes) := by
  cases scopes with
  | nil => exact h
  | cons scope outer =>
    cases st with
    | declaration tag x type init =>
      intro name v l q hv hstorage hl
      rw [scopesAfter, findVariable?_declare] at hv
      split_ifs at hv with hname
      · obtain rfl := Option.some.inj hv
        cases hstorage
      · exact h hv hstorage hl
    | _ => exact h

theorem Binds.ranged (h : A.Binds scopes) (hm : A.InRange m) :
    Ranged A.used (view scopes A.file) m := by
  intro name place q hview haccess
  obtain ⟨v, hv, htype, hregister⟩ := exists_of_view hview
  obtain ⟨l, hstorage, hl⟩ := hregister q haccess
  have hq : A.used q = true := contains_of_registerOf? A.lawful hl
  refine ⟨hq, ?_⟩
  rw [← htype, ← h hv hstorage hl]
  exact hm q hq

namespace Sited

theorem nil : A.Sited K [] [] := ⟨rfl, fun _ hm => .nil hm⟩

theorem append (h₁ : A.Sited K part₁ c₁) (h₂ : A.Sited K part₂ c₂) :
    A.Sited K (part₁ ++ part₂) (c₁ ++ c₂) where
  count := by rw [List.countP_append, List.length_append, h₁.count, h₂.count]
  guards hlisted hm := (h₁.guards hlisted.left hm).append fun m₁ hm₁ =>
    h₂.guards (h₁.count ▸ hlisted.right) hm₁

/-- Code without calls behind code with some. -/
theorem before (h₁ : A.Sited K part c₁) (h₂ : A.Sited K [] c₂) : A.Sited K part (c₁ ++ c₂) := by
  simpa using h₁.append h₂

theorem exits (h : A.Sited K part c) (hK : ∀ l, K l → K' l) : A.Sited K' part c :=
  ⟨h.count, fun hlisted hm => (h.guards hlisted hm).exits hK⟩

theorem free (hfree : CallFree c) (h : ∀ {b m}, A.InRange m →
    A.image.Guards (Passing A.sites) K A.InRange b c m A.InRange) : A.Sited K [] c :=
  ⟨hfree.countP_isCall, fun _ hm => h hm⟩

/-- Code may jump to labels of its own, if what is behind each of them is code with call sites. -/
theorem hide {own : Label → Prop}
    (hown : ∀ l, own l → ∃ c₁ part₁ c₂ part₂, c = c₁ ++ .label l :: c₂ ∧ part = part₁ ++ part₂ ∧
      c₁.countP Instr.isCall = part₁.length ∧
      A.Sited (fun l => own l ∨ K l) part₂ (.label l :: c₂))
    (h : A.Sited (fun l => own l ∨ K l) part c) : A.Sited K part c := by
  refine ⟨h.count, fun {b m} hlisted hm => .labels A.unique (fun l hl => ?_) (h.guards hlisted hm)⟩
  obtain ⟨c₁, part₁, c₂, part₂, hc, rfl, hcount, h₂⟩ := hown l hl
  exact ⟨c₁, c₂, hc, fun m' hm' => h₂.guards (hcount ▸ hlisted.right) hm'⟩

theorem jump {l : Label} (hl : K l) : A.Sited K [] [.jmp l] :=
  .free (by simp) fun hm => .jump hl hm

theorem branch {condition : Condition} {l : Label} (hl : K l) : A.Sited K [] [.jcc condition l] :=
  .free (by simp) fun hm => .branch hl hm hm

/-- An instruction that keeps the registers with parameters. -/
theorem one {i : Instr} (hjump : i.jumpsTo? = none) (hcall : i.isCall = false)
    (h : ∀ {m m' : Machine}, m.exec A.image.labels i = some m' →
      ∀ q, A.used q = true → m'.regs q = m.regs q) : A.Sited K [] [i] :=
  ⟨by simp [hcall], fun _ hm => .one hjump hcall fun _ hexec _ => hm.keeps (h hexec)⟩

theorem sets {i : Instr} {r : Register} (hi : i.sets? = some r) (hr : A.used r = false) :
    A.Sited K [] [i] :=
  .one (Instr.plain_of_sets? hi).1 (Instr.plain_of_sets? hi).2 fun hexec q hq =>
    Machine.regs_of_sets? hi hexec fun hqr => by simp [hqr, hr] at hq

theorem setsNone {i : Instr} (hi : i.setsNone = true) : A.Sited K [] [i] :=
  .one (Instr.plain_of_setsNone hi).1 (Instr.plain_of_setsNone hi).2 fun hexec q _ =>
    congrFun (Machine.regs_of_setsNone hi hexec) q

theorem push (r : Register) : A.Sited K [] [.push r] := by
  refine .one rfl rfl fun hexec q hq => ?_
  obtain rfl := Option.some.inj hexec
  exact Machine.regs_pushed_of_ne (ne_of_allocatable (sound_contains A.lawful q hq)).2.2

theorem pop {r : Register} (hr : A.used r = false) : A.Sited K [] [.pop r] := by
  refine .one rfl rfl fun hexec q hq => ?_
  obtain rfl := Option.some.inj hexec
  have hqr : q ≠ r := fun hqr => by simp [hqr, hr] at hq
  rw [Machine.regs_set_of_ne _ _ _ hqr,
    Machine.regs_set_of_ne _ _ _ (ne_of_allocatable (sound_contains A.lawful q hq)).2.2]

end Sited

/-- No parameter is in a register that is not allocated. -/
theorem used_eq_false (A : Setting) {r : Register} (hr : r ∉ Register.allocatable) :
    A.used r = false := by
  cases h : A.used r with
  | false => rfl
  | true => exact absurd (sound_contains A.lawful r h) hr

end Setting

/-! ### Parts of statements -/

section Parts

variable {A : Setting} {K : Label → Prop} {options : Options} {pool : List String}
  {scopes : ScopeStack} {n n' : Nat} {code : List Instr} {part : List CallSite}

theorem sited_note (text : String) : A.Sited K [] (note options text) := by
  unfold note
  split
  · exact .setsNone rfl
  · exact .nil

theorem sited_open (reserved : Nat) : A.Sited K [] (openCode reserved) := by
  have hrsp : A.used .rsp = false := A.used_eq_false (by decide)
  have hrbp : A.used .rbp = false := A.used_eq_false (by decide)
  have hcopy : A.Sited K [] [copyInstr .rbp .rsp] := .sets rfl hrbp
  have hfront : A.Sited K [] [.push .rbp, copyInstr .rbp .rsp] :=
    (Setting.Sited.push .rbp).append hcopy
  unfold openCode
  split
  · have hadjust : A.Sited K [] [adjustInstr .sub reserved] := .sets rfl hrsp
    exact hfront.append hadjust
  · exact hfront

theorem sited_epilogue : A.Sited K [] epilogueCode := by
  have hcopy : A.Sited K [] [copyInstr .rsp .rbp] := .sets rfl (A.used_eq_false (by decide))
  exact hcopy.append (.pop (A.used_eq_false (by decide)))

theorem sited_epilogues : ∀ count, A.Sited K [] (epiloguesCode count)
  | 0 => .nil
  | count + 1 => by
    rw [epiloguesCode, List.replicate_succ, List.flatten_cons]
    exact sited_epilogue.append (sited_epilogues count)

theorem sited_framed (reserved : Nat) (h : A.Sited K part code) :
    A.Sited K part (framed reserved code) :=
  ((sited_open reserved).append h).before sited_epilogue

theorem ExprCode.sited {value : Expr} {context type : DataType} {r : Register}
    (h : ExprCode pool (view scopes A.file) A.used value context n code r type n')
    (hbinds : A.Binds scopes) : A.Sited K [] code :=
  .free h.callFree fun hm =>
    (h.guards A.unique (sound_contains A.lawful) (hbinds.ranged hm)).mono fun _ h' =>
      hm.keeps fun _ hq => h'.keeps h.free hq

theorem Reach.sited {used : Used} {access : Access} {o : Operand} (h : Reach used access code o)
    (hle : ∀ q, A.used q = true → used q = true) : A.Sited K [] code :=
  .free h.callFree fun hm => h.guards.mono fun _ h' => hm.keeps fun q hq => h' q (hle q hq)

/-- A store leaves a parameter in the range of its type. -/
theorem sited_store {place : Place} {way : List Instr} {dst : Operand} {r : Register} {used : Used}
    (hreach : Reach used place.access way dst)
    (hplace : ∀ q, place.access = .register q → A.types q = place.type) :
    A.Sited K [] [storeInstr place dst r] := by
  obtain ⟨type, access⟩ := place
  cases access with
  | frame out offset =>
    cases hreach with
    | here | outer _ => exact .setsNone rfl
  | register q =>
    refine .free callFree_fetch fun {b m} hm => ?_
    have hfetch : A.image.Guards (Passing A.sites) K A.InRange b [fetch type q (.reg r)] m
        (Machine.Yields A.used q type m) := guards_fetch type q (.reg r)
    refine hfetch.mono fun m' h' p hp => ?_
    by_cases hpq : p = q
    · rw [hpq, hplace q rfl]
      exact h'.fits
    · rw [h'.others p hp hpq]
      exact hm p hp

theorem AssignCode.sited {place : Place} {value : Expr}
    (h : AssignCode pool (view scopes A.file) A.used place value n code n')
    (hbinds : A.Binds scopes)
    (hplace : ∀ q, place.access = .register q → A.types q = place.type) : A.Sited K [] code := by
  obtain ⟨c, r, type, way, dst, hvalue, hreach, rfl⟩ := h
  exact ((hvalue.sited hbinds).append (hreach.sited fun _ => Used.le_add)).append
    (sited_store hreach hplace)

theorem SkipCode.sited {condition : Expr} {target : Label}
    (h : SkipCode pool (view scopes A.file) A.used condition target n code n')
    (hbinds : A.Binds scopes) (htarget : K target) : A.Sited K [] code := by
  obtain ⟨c, r, type, dst, hvalue, hdst, rfl⟩ := h
  have hcopy : A.Sited K [] [copyInstr dst r] := .sets rfl hdst.of_add.2
  have htest : A.Sited K [] [.test .quad (.reg dst) (.reg dst)] := .setsNone rfl
  exact (hvalue.sited hbinds).append (hcopy.append (htest.append (.branch htarget)))

/-- The code of a jump out of the scopes. -/
theorem sited_jump {jump : Jump} {crossed : Nat} {target : Label}
    (h : scopes.jumpTarget jump = .ok (crossed, target)) :
    A.Sited (ExitOf scopes) [] (epiloguesCode crossed ++ [.jmp target]) :=
  (sited_epilogues crossed).append (.jump ⟨jump, crossed, h⟩)

/-- The code of a call is at its call site. -/
theorem CallCode.sited {depth bytes : Nat} {name : String} {args : List (Expr × DataType)}
    {T : Typing} {params : List DataType}
    (h : CallCode pool (view scopes A.file) A.file.locationIn? depth name args n code n' bytes)
    (hT : T.Describes scopes) (hbinds : A.Binds scopes) :
    A.Sited K [⟨name, params, argumentTypes T.vars args⟩] code := by
  have hused : Holding.used A.file.locationIn? = A.used := used_locationIn? A.file
  refine ⟨?_, fun {b m} hlisted hm => ?_⟩
  · exact h.countP_isCall
  · have hG : ∀ m' : Machine, m'.Passes (argumentTypes T.vars args) → (Passing A.sites) b name m' :=
      fun m' hm' => ⟨_, hlisted 0 _ rfl, rfl, hm'⟩
    refine (h.guards A.unique (vars_eq_of_view hT) (hused ▸ sound_contains A.lawful)
      (apart_locationIn? A.lawful) (hused ▸ hbinds.ranged hm) hG).mono fun m' h' => hm.keeps ?_
    rwa [hused] at h'

theorem sited_label (l : Label) : A.Sited K [] [.label l] := .setsNone rfl

theorem sited_branch {c₁ c₂ : List Instr} {target : Label} (text : String)
    (hskip : ∀ {K'}, K' target → A.Sited K' [] c₁) (hthen : A.Sited K part c₂) :
    A.Sited K part (note options text ++ c₁ ++ c₂ ++ [.label target]) := by
  have hfront : A.Sited (fun l => l = target ∨ K l) part (note options text ++ c₁ ++ c₂) :=
    ((sited_note text).append (hskip (.inl rfl))).append (hthen.exits fun _ => .inr)
  refine .hide (fun l hl => ?_) (hfront.before (sited_label target))
  subst hl
  exact ⟨_, part, [], [], rfl, (List.append_nil part).symm, hfront.count, sited_label l⟩

theorem sited_branchElse {c₁ c₂ c₃ : List Instr} {otherwise behind : Label}
    {part₁ part₂ : List CallSite} (text : String)
    (hskip : ∀ {K'}, K' otherwise → A.Sited K' [] c₁) (hthen : A.Sited K part₁ c₂)
    (helse : A.Sited K part₂ c₃) :
    A.Sited K (part₁ ++ part₂) (note options text ++ c₁ ++ c₂ ++
      .jmp behind :: .label otherwise :: c₃ ++ [.label behind]) := by
  have hthen' : A.Sited (fun l => (l = otherwise ∨ l = behind) ∨ K l) part₁
      (note options text ++ c₁ ++ c₂ ++ [.jmp behind]) :=
    (((sited_note text).append (hskip (.inl (.inl rfl)))).append (hthen.exits fun _ => .inr)).before
      (.jump (.inl (.inr rfl)))
  have helse' : A.Sited (fun l => (l = otherwise ∨ l = behind) ∨ K l) part₂ (.label otherwise :: c₃) :=
    (sited_label otherwise).append (helse.exits fun _ => .inr)
  have hcode : note options text ++ c₁ ++ c₂ ++ .jmp behind :: .label otherwise :: c₃ ++
      [.label behind] = note options text ++ c₁ ++ c₂ ++ [.jmp behind] ++ (.label otherwise :: c₃) ++
        [.label behind] := by simp
  rw [hcode]
  refine .hide (fun l hl => ?_) ((hthen'.append helse').before (sited_label behind))
  rcases hl with rfl | rfl
  · refine ⟨_, part₁, c₃ ++ [.label behind], part₂, List.append_assoc .., rfl, hthen'.count, ?_⟩
    exact helse'.before (sited_label behind)
  · exact ⟨_, part₁ ++ part₂, [], [], rfl, (List.append_nil _).symm, (hthen'.append helse').count,
      sited_label l⟩

theorem sited_loop {c₁ c₂ : List Instr} {head start behind exit : Label} {reserved : Nat}
    (text : String) (hskip : ∀ {K'}, K' exit → A.Sited K' [] c₁)
    (hbody : A.Sited (fun l => l = start ∨ l = behind ∨ K l) part c₂) :
    A.Sited K part (note options text ++ .label head :: c₁ ++ openCode reserved ++ c₂ ++
      .label start :: epilogueCode ++ .jmp head :: .label behind :: epilogueCode ++ [.label exit]) := by
  let K' : Label → Prop := fun l => (l = head ∨ l = start ∨ l = behind ∨ l = exit) ∨ K l
  -- the parts from each label to the next
  have hhead : A.Sited K' part (.label head :: c₁ ++ openCode reserved ++ c₂) := by
    refine (((sited_label head).append (hskip ?_)).append (sited_open reserved)).append
      (hbody.exits fun l hl => ?_)
    · exact .inl (.inr (.inr (.inr rfl)))
    · rcases hl with hl | hl | hl
      · exact .inl (.inr (.inl hl))
      · exact .inl (.inr (.inr (.inl hl)))
      · exact .inr hl
  have hstart : A.Sited K' [] (.label start :: epilogueCode ++ [.jmp head]) :=
    ((sited_label start).append sited_epilogue).append (.jump (.inl (.inl rfl)))
  have hbehind : A.Sited K' [] (.label behind :: epilogueCode) :=
    (sited_label behind).append sited_epilogue
  have hexit : A.Sited K' [] [.label exit] := sited_label exit
  have hcode : note options text ++ .label head :: c₁ ++ openCode reserved ++ c₂ ++
      .label start :: epilogueCode ++ .jmp head :: .label behind :: epilogueCode ++ [.label exit] =
      note options text ++ ((.label head :: c₁ ++ openCode reserved ++ c₂) ++
        ((.label start :: epilogueCode ++ [.jmp head]) ++
          ((.label behind :: epilogueCode) ++ [.label exit]))) := by simp
  have htail := hstart.append (hbehind.append hexit)
  rw [hcode]
  refine .hide (fun l hl => ?_) ((sited_note text).append (hhead.before htail))
  rcases hl with rfl | rfl | rfl | rfl
  · exact ⟨_, [], _, part, rfl, rfl, (sited_note text : A.Sited K' [] _).count, hhead.before htail⟩
  · refine ⟨_, part, _, [], (List.append_assoc ..).symm, (List.append_nil part).symm, ?_, htail⟩
    exact ((sited_note text : A.Sited K' [] _).append hhead).count
  · refine ⟨note options text ++ ((.label head :: c₁ ++ openCode reserved ++ c₂) ++
      (.label start :: epilogueCode ++ [.jmp head])), part, _, [], by simp,
      (List.append_nil part).symm, ?_, hbehind.append hexit⟩
    exact ((sited_note text : A.Sited K' [] _).append (hhead.before hstart)).count
  · refine ⟨note options text ++ ((.label head :: c₁ ++ openCode reserved ++ c₂) ++
      ((.label start :: epilogueCode ++ [.jmp head]) ++ (.label behind :: epilogueCode))), part, [], [],
      by simp, (List.append_nil part).symm, ?_, hexit⟩
    exact ((sited_note text : A.Sited K' [] _).append
      (hhead.before (hstart.append hbehind))).count

end Parts

/-! ### Statements -/

section Statements

variable {A : Setting} {options : Options} {pool : List String}

/-- A block within the scopes. -/
theorem sited_inner {scopes : ScopeStack} {body : List Stmt} {part : List CallSite} {c : List Instr}
    (h : A.Sited (ExitOf (innerScope .plain scopes body :: scopes)) part c) :
    A.Sited (ExitOf scopes) part (framed (innerScope .plain scopes body).localBytes c) :=
  sited_framed _ (h.exits fun _ hl => hl.plain rfl)

mutual

/-- The calls of a statement's code are the call sites of the statement. -/
theorem StmtCode.sited : ∀ {scopes : ScopeStack} {st : Stmt} {n n' : Nat} {code : List Instr}
    {ls : List Spot}, StmtCode options pool A.file scopes st n code n' ls → ∀ {T : Typing},
      T.Describes scopes → A.Binds scopes → A.Sited (ExitOf scopes) (st.callSites T) code
  | _, _, _, _, _, _, .block h, T, hT, hbinds => by
    rw [Stmt.callSites]
    exact (sited_note _).append (sited_inner (h.sited (hT.inner rfl rfl) (hbinds.inner rfl)))
  | _, _, _, _, _, _, .procedure, _, _, _ => .nil
  | _, _, _, _, _, _, .call hp _ h, T, hT, hbinds => by
    rw [Stmt.callSites, hT.params hp]
    exact (sited_note _).append (h.sited hT hbinds)
  | _, _, _, _, _, _, @StmtCode.declaration _ _ _ _ _ _ _ _ none _ _ _ _ _ h, _, _, _ => by
    rw [h.1]
    exact (sited_note _).append .nil
  | _, _, _, _, _, _, @StmtCode.declaration _ _ _ _ _ _ _ _ (some _) _ _ _ _ _ h, _, _, hbinds =>
    (sited_note _).append (AssignCode.sited h hbinds fun q hq => by cases hq)
  | _, _, _, _, _, _, .assignment hview h, _, _, hbinds => by
    refine (sited_note _).append (h.sited hbinds fun q hq => ?_)
    obtain ⟨v, hv, htype, hregister⟩ := exists_of_view hview
    obtain ⟨l, hstorage, hl⟩ := hregister q hq
    rw [← htype, hbinds hv hstorage hl]
  | _, _, _, _, _, _, .branch hskip hthen, _, hT, hbinds => by
    rw [Stmt.callSites, Stmt.callSites]
    exact sited_branch _ (hskip.sited hbinds)
      (sited_inner (hthen.sited (hT.inner rfl rfl) (hbinds.inner rfl)))
  | _, _, _, _, _, _, .branchElse hskip hthen helse, _, hT, hbinds => by
    rw [Stmt.callSites, Stmt.callSites]
    exact sited_branchElse _ (hskip.sited hbinds)
      (sited_inner (hthen.sited (hT.inner rfl rfl) (hbinds.inner rfl))) (helse.sited hT hbinds)
  | _, _, _, _, _, _, .loop _ _ _ _ hscope hskip hbody, _, hT, hbinds => by
    subst hscope
    rw [Stmt.callSites, Stmt.callSites]
    exact sited_loop _ (hskip.sited hbinds)
      ((hbody.sited (hT.inner rfl rfl) (hbinds.inner rfl)).exits fun _ hl => hl.loop)
  | _, _, _, _, _, _, .continueLoop h, _, _, _ => sited_jump h
  | _, _, _, _, _, _, .breakLoop h, _, _, _ => sited_jump h
  | _, _, _, _, _, _, .giveBack h, _, _, _ => sited_jump h
  | scopes, _, _, _, _, _, @StmtCode.giveBackValue _ _ _ _ _ _ _ _ _ r _ _ _ h _ hvalue, _, _,
      hbinds => by
    have hcopy : A.Sited (ExitOf scopes) [] [copyInstr .rax r] :=
      .sets rfl (A.used_eq_false (by decide))
    rw [List.append_assoc]
    exact (hvalue.sited hbinds).append (hcopy.append (sited_jump h))

theorem ElseCode.sited : ∀ {scopes : ScopeStack} {st : Stmt} {n n' : Nat} {code : List Instr}
    {ls : List Spot}, ElseCode options pool A.file scopes st n code n' ls → ∀ {T : Typing},
      T.Describes scopes → A.Binds scopes → A.Sited (ExitOf scopes) (st.callSites T) code
  | _, _, _, _, _, _, .block h, _, hT, hbinds => by
    rw [Stmt.callSites]
    exact sited_inner (h.sited (hT.inner rfl rfl) (hbinds.inner rfl))
  | _, _, _, _, _, _, .branch h, _, hT, hbinds => h.sited hT hbinds

theorem StmtsCode.sited : ∀ {scopes : ScopeStack} {body : List Stmt} {n n' : Nat}
    {code : List Instr} {ls : List Spot}, StmtsCode options pool A.file scopes body n code n' ls →
    ∀ {T : Typing}, T.Describes scopes → A.Binds scopes →
      A.Sited (ExitOf scopes) (Stmt.callSitesOf T body) code
  | _, _, _, _, _, _, .nil, _, _, _ => by
    rw [Stmt.callSitesOf]
    exact .nil
  | _, _, _, _, _, _, @StmtsCode.cons _ _ _ _ st _ _ _ _ _ _ _ _ h hrest, _, hT, hbinds => by
    rw [Stmt.callSitesOf]
    exact (h.sited hT hbinds).append
      ((hrest.sited (hT.after st) (hbinds.after st)).exits fun _ hl => hl.after)

end

end Statements

end Generation

end ProcLang

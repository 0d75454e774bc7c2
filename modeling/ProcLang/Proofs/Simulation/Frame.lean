import ProcLang.Proofs.Generation.Call
import ProcLang.Proofs.Simulation.Call
import ProcLang.Proofs.Simulation.Layout

/-!
The frames of a procedure that runs.

Every block around has a frame.  `rbp` points to the frame of the innermost one, and each frame starts
with the pointer to the one around it, down to the pointer of the caller.  `Stored` says so, and that
each variable that has a value has it in its slot or its register; `Agree` adds where `rsp` is, and that
the memory of the caller is as it was.  The code that opens and closes frames and stores into variables
keeps this up.
-/

namespace ProcLang.Generation

open Machine (Preserves Gives Returned)
open Meaning (Env Local)

theorem eight_le_depth : ∀ scopes : ScopeStack, 8 ≤ depth scopes
  | [] => Nat.le_refl _
  | scope :: outer => by
    unfold depth
    split_ifs <;> omega

section Files

variable {f : RegisterFile} (hf : f.Lawful)

include hf

theorem sound_contains : Used.Sound f.slots.contains := by
  intro r hr
  obtain ⟨slot, hslot⟩ := Option.isSome_iff_exists.mp hr
  exact hf.allocatable hslot

theorem contains_of_registerOf? {l : Location} {r : Register} (h : f.registerOf? l = some r) :
    f.slots.contains r = true := by
  rw [← used_locationIn?, Holding.used, locationIn?_of_registerOf? hf h]
  rfl

theorem apart_locationIn? : Holding.Apart f.locationIn? := by
  intro r q l hr hq
  obtain ⟨slot, hslot, rfl⟩ := Option.map_eq_some_iff.mp hr
  obtain ⟨slot', hslot', heq⟩ := Option.map_eq_some_iff.mp hq
  have hindex := hf.indexed hslot
  rw [← heq, hf.indexed hslot'] at hindex
  exact (Option.some.inj hindex).symm

end Files

/-- A procedure that was called: the registers with its parameters, the number of its parameters on
the stack, and the machine at its start. -/
structure Invocation where
  file : RegisterFile
  lawful : file.Lawful
  slots : Nat
  start : Machine

namespace Invocation

variable (A : Invocation)

/-- The registers that the parameters are in. -/
abbrev used : Used := A.file.slots.contains

/-- The address of the return address. -/
def top : Nat := (A.start.regs .rsp).toNat

/-- A byte of a parameter on the stack. -/
def OfParameter (a : Int) : Prop :=
  ∃ k : Nat, k < A.slots ∧ A.top + 8 + 8 * k ≤ a ∧ a < A.top + 16 + 8 * k

/-- The value of a variable of a frame at an address. -/
def valueOf (m : Machine) (base : Int) (v : Variable) : Option Word :=
  match v.storage with
  | .stack offset => some (v.type.normalize (m.mem.load (base + offset) v.type.size))
  | .register l => (A.file.registerOf? l).map m.regs

/-- The variables of a scope are those of a block, and have their values. -/
structure Holds (m : Machine) (base : Int) (scope : Scope) (vars : List Local) : Prop where
  typed : ∀ name,
    (scope.vars.get? name).map (·.type) = (vars.find? (·.name == name)).map (·.type)
  value : ∀ {name v x w}, scope.vars.get? name = some v → vars.find? (·.name == name) = some x →
    x.value = some w → A.valueOf m base v = some w

/-- A scope that has a frame of the procedure. -/
abbrev Framed (scope : Scope) (outer : ScopeStack) : Prop :=
  ProcLang.Framed A.file A.slots scope outer

/-- `Stored m scopes env p`: the frames of some scopes hold the variables of blocks, and `p` is the
pointer to the innermost frame. -/
inductive Stored (m : Machine) : ScopeStack → Env → Word → Prop
  | entry {scope} : scope.kind = .entry → scope.vars = .empty →
      Stored m [scope] [] (A.start.regs .rbp)
  | frame {scope outer vars env p} : A.Framed scope outer → p.toNat + depth outer = A.top →
      A.Holds m p.toNat scope vars → Stored m outer env (m.mem.load p.toNat 8) →
      Stored m (scope :: outer) (vars :: env) p

/-- The machine within some scopes agrees with the variables of blocks. -/
structure Agree (scopes : ScopeStack) (env : Env) (m : Machine) : Prop where
  rsp : (m.regs .rsp).toNat + depth scopes = A.top + 8
  stored : A.Stored m scopes env (m.regs .rbp)
  outside : ∀ a : Int, A.top ≤ a → ¬ A.OfParameter a → m.mem a = A.start.mem a

variable {A} {m m' : Machine} {scope : Scope} {outer scopes : ScopeStack} {vars : List Local}
  {env env' : Env} {p : Word} {base : Int} {name : String} {v u : Variable} {w : Word}

/-! ### Slots -/

theorem used_of_registerOf? {l : Location} {r : Register} (h : A.file.registerOf? l = some r) :
    A.used r = true :=
  contains_of_registerOf? A.lawful h

/-- Registers of different variables are different. -/
theorem register_ne {l k : Location} {r q : Register} (hl : A.file.registerOf? l = some r)
    (hk : A.file.registerOf? k = some q) (hne : l ≠ k) : r ≠ q := by
  intro hrq
  have hin := locationIn?_of_registerOf? A.lawful hl
  rw [hrq, locationIn?_of_registerOf? A.lawful hk] at hin
  exact hne (Option.some.inj hin).symm

theorem depth_cons (h : A.Framed scope outer) :
    depth (scope :: outer) = 8 + scope.localBytes + depth outer :=
  if_neg h.kind

/-- A slot is in the reserved bytes of its frame, or it is the slot of a parameter. -/
theorem Framed.slot {offset : Int} (h : A.Framed scope outer) (hbase : base + depth outer = A.top)
    (hv : scope.vars.get? name = some v) (hstorage : v.storage = .stack offset) :
    (A.top + 8 : Int) ≤ base + offset + depth (scope :: outer) ∧
      (base + offset + v.type.size ≤ base ∨
        scope.kind = .procedure ∧ A.top + 8 ≤ base + offset ∧
          ∀ a, base + offset ≤ a → a < base + offset + v.type.size → A.OfParameter a) := by
  rw [depth_cons h]
  rcases h.laid.stack hv hstorage with ⟨hlow, hhigh⟩ | ⟨hkind, k, hk, hoffset⟩
  · exact ⟨by omega, .inl (by omega)⟩
  · have hdepth := h.only hkind
    have hsize := v.type.size_le_eight
    refine ⟨by omega, .inr ⟨hkind, by omega, fun a ha ha' => ⟨k, hk, by omega, by omega⟩⟩⟩

/-- What is looked at in the frames of some scopes: memory from `rsp` on, and parameters. -/
theorem valueOf_congr (hregs : ∀ r, A.used r = true → m'.regs r = m.regs r)
    (hmem : ∀ {offset}, v.storage = .stack offset →
      ∀ a, base + offset ≤ a → a < base + offset + v.type.size → m'.mem a = m.mem a) :
    A.valueOf m' base v = A.valueOf m base v := by
  unfold valueOf
  cases hstorage : v.storage with
  | stack offset =>
    simp only
    rw [Memory.load_congr (hmem hstorage)]
  | register l =>
    simp only
    cases hr : A.file.registerOf? l with
    | none => rfl
    | some r => exact congrArg some (hregs r (used_of_registerOf? hr))

theorem Stored.congr (h : A.Stored m scopes env p)
    (hregs : ∀ r, A.used r = true → m'.regs r = m.regs r)
    (hmem : ∀ a : Int, A.top + 8 ≤ a + depth scopes → m'.mem a = m.mem a) :
    A.Stored m' scopes env p := by
  induction h with
  | entry hkind hvars => exact .entry hkind hvars
  | @frame scope outer vars env p hframed hp hholds _ ih =>
    have hdepth := depth_cons hframed
    have hbase : (p.toNat : Int) + depth outer = A.top := by omega
    have hlink : m'.mem.load p.toNat 8 = m.mem.load p.toNat 8 := by
      refine Memory.load_congr fun a ha _ => hmem a ?_
      have := eight_le_depth outer
      omega
    refine .frame hframed hp ⟨hholds.typed, fun hv hx hw => ?_⟩ ?_
    · rw [valueOf_congr hregs fun hstorage a ha _ => hmem a ?_]
      · exact hholds.value hv hx hw
      · have := (hframed.slot hbase hv hstorage).1
        omega
    · rw [hlink]
      exact ih fun a ha => hmem a (by omega)

/-! ### Looking up variables -/

/-- Where nothing but the return address is on the stack there are no variables. -/
theorem Stored.findVariable?_eq_none (h : A.Stored m scopes env p) (hdepth : depth scopes = 8) :
    scopes.findVariable? name = none := by
  cases h with
  | entry _ hvars => simp [ScopeStack.findVariable?, hvars]
  | @frame scope outer _ _ _ hframed _ _ _ =>
    have := depth_cons hframed
    have := eight_le_depth outer
    omega

/-- Nothing of the machine is looked at there. -/
theorem Stored.of_depth (h : A.Stored m scopes env p) (hdepth : depth scopes = 8) :
    A.Stored m' scopes env p := by
  cases h with
  | entry hkind hvars => exact .entry hkind hvars
  | @frame scope outer _ _ _ hframed _ _ _ =>
    have := depth_cons hframed
    have := eight_le_depth outer
    omega

theorem Holds.find?_of_some (h : A.Holds m base scope vars) (hv : scope.vars.get? name = some v) :
    ∃ x, vars.find? (·.name == name) = some x ∧ x.type = v.type := by
  have htyped := h.typed name
  rw [hv, Option.map_some] at htyped
  exact Option.map_eq_some_iff.mp htyped.symm

theorem Holds.find?_of_none (h : A.Holds m base scope vars) (hv : scope.vars.get? name = none) :
    vars.find? (·.name == name) = none := by
  have htyped := h.typed name
  rw [hv, Option.map_none] at htyped
  exact Option.map_eq_none_iff.mp htyped.symm

theorem find?_cons_some {x : Local} (h : vars.find? (·.name == name) = some x) :
    Env.find? (vars :: env) name = some x := by
  simp [Env.find?, h]

theorem find?_cons_none (h : vars.find? (·.name == name) = none) :
    Env.find? (vars :: env) name = env.find? name := by
  simp [Env.find?, h]

theorem Stored.seated (h : A.Stored m scopes env p) : Seated A.file A.slots scopes := by
  induction h with
  | entry hkind hvars => exact .entry hkind hvars
  | frame hframed _ _ _ ih => exact .frame hframed ih

/-- The frame of a variable: the pointer that the links from `p` lead to. -/
def frameOf (m : Machine) (scopes : ScopeStack) (p : Word) (v : Variable) : Word :=
  m.mem.follow (scopes.stackHeight - v.stackHeight) p

theorem frameOf_here (h : A.Framed scope outer) (hv : scope.vars.get? name = some v) :
    frameOf m (scope :: outer) p v = p := by
  have hheight := h.laid.height hv
  have hzero : ScopeStack.stackHeight (scope :: outer) - v.stackHeight = 0 := by
    show scope.stackHeight - v.stackHeight = 0
    omega
  rw [frameOf, hzero]
  rfl

theorem frameOf_outer (h : A.Framed scope outer) (hle : v.stackHeight ≤ outer.stackHeight) :
    frameOf m (scope :: outer) p v = frameOf m outer (m.mem.load p.toNat 8) v := by
  have hheight := h.height
  have hsucc : ScopeStack.stackHeight (scope :: outer) - v.stackHeight =
      outer.stackHeight - v.stackHeight + 1 := by
    show scope.stackHeight - v.stackHeight = _
    omega
  rw [frameOf, hsucc]
  rfl

/-- A name that means a variable of the scopes means one of the blocks, of the same type. -/
theorem Stored.typed (h : A.Stored m scopes env p) (hv : scopes.findVariable? name = some v) :
    ∃ x, env.find? name = some x ∧ x.type = v.type ∧ v.type ≠ .void := by
  induction h with
  | entry _ hvars => simp [ScopeStack.findVariable?, hvars] at hv
  | @frame scope outer _ _ _ hframed _ hholds _ ih =>
    cases hget : scope.vars.get? name with
    | some v' =>
      rw [findVariable?_cons_some hget] at hv
      obtain rfl := Option.some.inj hv
      obtain ⟨x, hx, htype⟩ := hholds.find?_of_some hget
      exact ⟨x, find?_cons_some hx, htype, hframed.laid.typed hget⟩
    | none =>
      rw [findVariable?_cons_none hget] at hv
      rw [find?_cons_none (hholds.find?_of_none hget)]
      exact ih hv

/-- A variable has its value in its frame. -/
theorem Stored.value {x : Local} (h : A.Stored m scopes env p)
    (hv : scopes.findVariable? name = some v) (hx : env.find? name = some x)
    (hw : x.value = some w) : A.valueOf m (frameOf m scopes p v).toNat v = some w := by
  induction h with
  | entry _ hvars => simp [ScopeStack.findVariable?, hvars] at hv
  | @frame scope outer _ _ _ hframed _ hholds hstored ih =>
    cases hget : scope.vars.get? name with
    | some v' =>
      rw [findVariable?_cons_some hget] at hv
      obtain rfl := Option.some.inj hv
      obtain ⟨x', hx', -⟩ := hholds.find?_of_some hget
      rw [find?_cons_some hx'] at hx
      obtain rfl := Option.some.inj hx
      rw [frameOf_here hframed hget]
      exact hholds.value hget hx' hw
    | none =>
      rw [findVariable?_cons_none hget] at hv
      rw [find?_cons_none (hholds.find?_of_none hget)] at hx
      rw [frameOf_outer hframed (hstored.seated.height_le hv)]
      exact ih hv hx

/-- What code takes a name for, by where the variable lives. -/
theorem exists_of_view {place : Place} (h : view scopes A.file name = some place) :
    ∃ v, scopes.findVariable? name = some v ∧ place.type = v.type ∧
      ((∃ offset, v.storage = .stack offset ∧
          place.access = .frame (scopes.stackHeight - v.stackHeight) offset) ∨
        ∃ l r, v.storage = .register l ∧ A.file.registerOf? l = some r ∧ place.access = .register r) := by
  obtain ⟨v, hv, hplace⟩ := Option.bind_eq_some_iff.mp h
  refine ⟨v, hv, ?_⟩
  cases hstorage : v.storage with
  | stack offset =>
    simp only [hstorage] at hplace
    obtain rfl := Option.some.inj hplace
    exact ⟨rfl, .inl ⟨offset, rfl, rfl⟩⟩
  | register l =>
    simp only [hstorage] at hplace
    obtain ⟨r, hr, rfl⟩ := Option.map_eq_some_iff.mp hplace
    exact ⟨rfl, .inr ⟨l, r, rfl, hr, rfl⟩⟩

theorem valueOf_frameOf {place : Place} (h : view scopes A.file name = some place) :
    ∃ v, scopes.findVariable? name = some v ∧ place.type = v.type ∧
      A.valueOf m (frameOf m scopes (m.regs .rbp) v).toNat v = some (contents m place) := by
  obtain ⟨v, hv, htype, ⟨offset, hstorage, haccess⟩ | ⟨l, r, hstorage, hr, haccess⟩⟩ :=
    exists_of_view h
  · refine ⟨v, hv, htype, ?_⟩
    simp only [valueOf, hstorage, contents, haccess, htype, frameOf]
  · refine ⟨v, hv, htype, ?_⟩
    simp only [valueOf, hstorage, contents, haccess, hr, Option.map_some]

/-- The variables keep their values while the code of an expression runs. -/
theorem Agree.keeps (h : A.Agree scopes env m) (hkeeps : Preserves A.used m m') :
    A.Agree scopes env m' where
  rsp := by rw [hkeeps.rsp]; exact h.rsp
  stored := by
    rw [hkeeps.rbp]
    refine h.stored.congr hkeeps.regs fun a ha => hkeeps.mem a ?_
    have := h.rsp
    omega
  outside a ha hnot := by
    have hrsp := h.rsp
    have hdepth := eight_le_depth scopes
    rw [hkeeps.mem a (by omega)]
    exact h.outside a ha hnot

theorem Agree.sees (h : A.Agree scopes env m) : Sees A.used (view scopes A.file) env m where
  typed hplace := by
    obtain ⟨v, hv, htype, -⟩ := exists_of_view hplace
    obtain ⟨x, hx, hxtype, hvoid⟩ := h.stored.typed hv
    exact ⟨x, hx, hxtype.trans htype.symm, htype ▸ hvoid⟩
  value := by
    intro m' hkeeps name place x w hplace hx hw
    obtain ⟨v, hv, -, hcontents⟩ := valueOf_frameOf hplace
    have hvalue := (h.keeps hkeeps).stored.value hv hx hw
    rw [hcontents] at hvalue
    exact Option.some.inj hvalue

theorem sound_used (A : Invocation) : A.used.Sound := sound_contains A.lawful

/-! ### Storing into variables -/

theorem normalize_load_store {type : DataType} (htype : type ≠ .void) (mem : Memory) (a : Int)
    (w : Word) : type.normalize ((mem.store a type.size w).load a type.size) = type.normalize w := by
  have hbyte : ((mem.store a 1 w).load a 1).setWidth 8 = w.setWidth 8 := by
    rw [Memory.setWidth_load Nat.one_pos, Memory.store, if_pos (by omega)]
    simp
  cases type with
  | void => exact absurd rfl htype
  | int => exact congrArg _ Memory.load_store_eight
  | u8 | s8 => exact DataType.normalize_congr rfl hbyte

/-- A word is stored in a variable of a frame, and nothing else changes in memory or in the registers
of parameters. -/
structure Writes (A : Invocation) (m : Machine) (base : Int) (v : Variable) (w : Word) (m' : Machine) :
    Prop where
  value : A.valueOf m' base v = some (v.type.normalize w)
  regs : ∀ r, A.used r = true → (∀ l, v.storage = .register l → A.file.registerOf? l ≠ some r) →
    m'.regs r = m.regs r
  mem : ∀ a, (∀ offset, v.storage = .stack offset → a < base + offset ∨ base + offset + v.type.size ≤ a) →
    m'.mem a = m.mem a

theorem Writes.stack {offset : Int} (hstorage : v.storage = .stack offset) (htype : v.type ≠ .void) :
    A.Writes m base v w { m with mem := m.mem.store (base + offset) v.type.size w } where
  value := by simp only [valueOf, hstorage, normalize_load_store htype]
  regs _ _ _ := rfl
  mem a ha := Memory.store_of_outside (ha offset hstorage)

theorem Writes.register {l : Location} {r : Register} (hstorage : v.storage = .register l)
    (hr : A.file.registerOf? l = some r) : A.Writes m base v w (m.set r (v.type.normalize w)) where
  value := by simp only [valueOf, hstorage, hr, Option.map_some, Machine.regs_set_self]
  regs q _ hq := Machine.regs_set_of_ne _ _ _ fun hqr => hq l hstorage (hqr ▸ hr)
  mem _ _ := rfl

/-- A store leaves a variable of the same frame alone that is apart from it. -/
theorem Writes.valueOf_of_apart (h : A.Writes m base v w m') (hapart : v.Apart u) :
    A.valueOf m' base u = A.valueOf m base u := by
  cases hu : u.storage with
  | stack offset =>
    simp only [valueOf, hu]
    rw [Memory.load_congr fun a ha ha' => h.mem a fun place hv => ?_]
    simp only [Variable.Apart, hv, hu] at hapart
    omega
  | register k =>
    simp only [valueOf, hu]
    cases hr : A.file.registerOf? k with
    | none => rfl
    | some r =>
      refine congrArg some (h.regs r (used_of_registerOf? hr) fun l hv hl => ?_)
      simp only [Variable.Apart, hv, hu] at hapart
      exact register_ne hl hr hapart rfl

/-- A store into a variable of a scope changes the value of one variable of the block. -/
theorem Holds.write {vars' : List Local} {x : Local} (h : A.Holds m base scope vars)
    (hlaid : Laid A.file A.slots scope) (hv : scope.vars.get? name = some v)
    (hwrites : A.Writes m base v w m') (hx : vars'.find? (·.name == name) = some x)
    (htype : x.type = v.type) (hvalue : x.value = some (v.type.normalize w))
    (hothers : ∀ other, other ≠ name →
      vars'.find? (·.name == other) = vars.find? (·.name == other)) :
    A.Holds m' base scope vars' := by
  refine ⟨fun other => ?_, fun {other u y w'} hu hy hw' => ?_⟩
  · by_cases hother : other = name
    · rw [hother, hv, hx, Option.map_some, Option.map_some, htype]
    · rw [hothers other hother]
      exact h.typed other
  · by_cases hother : other = name
    · rw [hother, hv] at hu
      rw [hother, hx] at hy
      obtain rfl := Option.some.inj hu
      obtain rfl := Option.some.inj hy
      rw [hwrites.value, ← hvalue, hw']
    · rw [hothers other hother] at hy
      rw [hwrites.valueOf_of_apart (hlaid.apart (Ne.symm hother) hv hu)]
      exact h.value hu hy hw'

/-- The frame of a scope with other variables is as far as it goes: the link at its start and the frames
around stay. -/
theorem Stored.write {vars' : List Local} (hframed : A.Framed scope outer)
    (hp : p.toNat + depth outer = A.top) (hstored : A.Stored m outer env (m.mem.load p.toNat 8))
    (hv : scope.vars.get? name = some v) (hwrites : A.Writes m p.toNat v w m')
    (hholds : A.Holds m' p.toNat scope vars') : A.Stored m' (scope :: outer) (vars' :: env) p := by
  have hbase : (p.toNat : Int) + depth outer = A.top := by omega
  have hlink : m'.mem.load p.toNat 8 = m.mem.load p.toNat 8 := by
    refine Memory.load_congr fun a ha ha' => hwrites.mem a fun offset hstorage => ?_
    have hdepth := eight_le_depth outer
    rcases (hframed.slot hbase hv hstorage).2 with hlow | ⟨-, hhigh, -⟩
    · omega
    · omega
  refine .frame hframed hp hholds ?_
  rw [hlink]
  by_cases hkind : scope.kind = .procedure
  · exact hstored.of_depth (hframed.only hkind)
  · refine hstored.congr (fun r hr => hwrites.regs r hr fun l hl => ?_) fun a ha => ?_
    · exact absurd (hframed.laid.register hv hl).1 hkind
    · refine hwrites.mem a fun offset hstorage => ?_
      rcases (hframed.slot hbase hv hstorage).2 with hlow | ⟨hprocedure, -⟩
      · omega
      · exact absurd hprocedure hkind

/-- The slot of a variable is above `rsp`, and below the return address or in a parameter. -/
theorem Stored.slot {offset : Int} (h : A.Stored m scopes env p)
    (hv : scopes.findVariable? name = some v) (hstorage : v.storage = .stack offset) :
    (A.top + 8 : Int) ≤ (frameOf m scopes p v).toNat + offset + depth scopes ∧
      ∀ a : Int, (frameOf m scopes p v).toNat + offset ≤ a →
        a < (frameOf m scopes p v).toNat + offset + v.type.size → a < A.top ∨ A.OfParameter a := by
  induction h with
  | entry _ hvars => simp [ScopeStack.findVariable?, hvars] at hv
  | @frame scope outer vars env p hframed hp _ hstored ih =>
    have hbase : (p.toNat : Int) + depth outer = A.top := by omega
    cases hget : scope.vars.get? name with
    | some v' =>
      rw [findVariable?_cons_some hget] at hv
      obtain rfl := Option.some.inj hv
      rw [frameOf_here hframed hget]
      obtain ⟨hlow, hslot⟩ := hframed.slot hbase hget hstorage
      refine ⟨hlow, fun a ha ha' => ?_⟩
      rcases hslot with hhigh | ⟨-, -, hparameter⟩
      · exact .inl (by omega)
      · exact .inr (hparameter a ha ha')
    | none =>
      rw [findVariable?_cons_none hget] at hv
      rw [frameOf_outer hframed (hstored.seated.height_le hv)]
      obtain ⟨hlow, hslot⟩ := ih hv
      have hdepth := depth_cons hframed
      exact ⟨by omega, hslot⟩

theorem find?_update {x : Local} (hx : vars.find? (·.name == name) = some x) (value : Local → Option Word) :
    (vars.map fun x => if x.name = name then { x with value := value x } else x).find?
      (·.name == name) = some { x with value := value x } := by
  have hcomp : ((fun x : Local => x.name == name) ∘
      fun x : Local => if x.name = name then { x with value := value x } else x) =
      fun x => x.name == name := by
    funext x
    by_cases h : x.name = name <;> simp [h]
  have hname : x.name = name := by simpa using List.find?_some hx
  rw [List.find?_map, hcomp, hx, Option.map_some, if_pos hname]

theorem find?_update_of_ne {other : String} (hother : other ≠ name) (value : Local → Option Word) :
    (vars.map fun x => if x.name = name then { x with value := value x } else x).find?
      (·.name == other) = vars.find? (·.name == other) := by
  have hcomp : ((fun x : Local => x.name == other) ∘
      fun x : Local => if x.name = name then { x with value := value x } else x) =
      fun x => x.name == other := by
    funext x
    by_cases h : x.name = name <;> simp [h]
  rw [List.find?_map, hcomp]
  cases hx : vars.find? (·.name == other) with
  | none => rfl
  | some x =>
    have hname : x.name = other := by simpa using List.find?_some hx
    rw [Option.map_some, if_neg (by rw [hname]; exact hother)]

theorem assign_of_some {x : Local} (hx : vars.find? (·.name == name) = some x) :
    Env.assign name w (vars :: env) =
      some (vars.map (fun x =>
        if x.name = name then { x with value := some (x.type.normalize w) } else x) :: env) := by
  rw [Env.assign, if_pos]
  exact List.any_eq_true.mpr ⟨x, List.mem_of_find?_eq_some hx, by simpa using List.find?_some hx⟩

theorem assign_of_none (hx : vars.find? (·.name == name) = none) :
    Env.assign name w (vars :: env) = (Env.assign name w env).map (vars :: ·) := by
  rw [Env.assign, if_neg]
  intro hany
  obtain ⟨x, hmem, hname⟩ := List.any_eq_true.mp hany
  exact List.find?_eq_none.mp hx x hmem hname

/-- A store into a frame further out leaves the variables of a scope alone. -/
theorem Holds.of_outer (h : A.Holds m p.toNat scope vars) (hframed : A.Framed scope outer)
    (hp : p.toNat + depth outer = A.top) (hkind : scope.kind ≠ .procedure)
    (hwrites : A.Writes m base v w m')
    (hslot : ∀ {offset}, v.storage = .stack offset → A.top + 8 ≤ base + offset + depth outer) :
    A.Holds m' p.toNat scope vars := by
  have hbase : (p.toNat : Int) + depth outer = A.top := by omega
  refine ⟨h.typed, fun {other u x w'} hu hx hw => ?_⟩
  rw [← h.value hu hx hw]
  cases hstorage : u.storage with
  | stack place =>
    simp only [valueOf, hstorage]
    rw [Memory.load_congr fun a _ ha' => hwrites.mem a fun offset hv => ?_]
    have hlow := hslot hv
    rcases (hframed.slot hbase hu hstorage).2 with hhigh | ⟨hprocedure, -⟩
    · omega
    · exact absurd hprocedure hkind
  | register l => exact absurd (hframed.laid.register hu hstorage).1 hkind

/-- A store into the variable that a name means is an assignment to it. -/
theorem Stored.assign (h : A.Stored m scopes env p) : ∀ {env' : Env},
    scopes.findVariable? name = some v → Env.assign name w env = some env' →
      A.Writes m (frameOf m scopes p v).toNat v w m' → A.Stored m' scopes env' p := by
  induction h with
  | entry _ hvars =>
    intro env' hv
    simp [ScopeStack.findVariable?, hvars] at hv
  | @frame scope outer vars env p hframed hp hholds hstored ih =>
    intro env' hv hassign hwrites
    cases hget : scope.vars.get? name with
    | some v' =>
      rw [findVariable?_cons_some hget] at hv
      obtain rfl := Option.some.inj hv
      obtain ⟨x, hx, htype⟩ := hholds.find?_of_some hget
      rw [assign_of_some hx] at hassign
      obtain rfl := Option.some.inj hassign
      rw [frameOf_here hframed hget] at hwrites
      refine .write hframed hp hstored hget hwrites (hholds.write hframed.laid hget hwrites
        (find?_update hx _) htype ?_ fun other hother => find?_update_of_ne hother _)
      exact congrArg (fun type : DataType => some (type.normalize w)) htype
    | none =>
      rw [findVariable?_cons_none hget] at hv
      rw [assign_of_none (hholds.find?_of_none hget)] at hassign
      obtain ⟨inner, hinner, rfl⟩ := Option.map_eq_some_iff.mp hassign
      rw [frameOf_outer hframed (hstored.seated.height_le hv)] at hwrites
      have hkind : scope.kind ≠ .procedure := fun hkind => by
        rw [hstored.findVariable?_eq_none (hframed.only hkind)] at hv
        cases hv
      have hslot : ∀ {offset}, v.storage = .stack offset → (A.top + 8 : Int) ≤
          (frameOf m outer (m.mem.load p.toNat 8) v).toNat + offset + depth outer :=
        fun hstorage => (hstored.slot hv hstorage).1
      have hlink : m'.mem.load p.toNat 8 = m.mem.load p.toNat 8 := by
        refine Memory.load_congr fun a _ ha' => hwrites.mem a fun offset hstorage => ?_
        have hlow := hslot hstorage
        omega
      refine .frame hframed hp (hholds.of_outer hframed hp hkind hwrites hslot) ?_
      rw [hlink]
      exact ih hv hinner hwrites

end Invocation

end ProcLang.Generation

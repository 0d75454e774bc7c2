import ProcLang.Proofs.Simulation.Frame

/-!
Blocks and variables in the machine: the code that opens and closes a frame, that declares a variable
and that assigns to one.

A frame is closed from its pointer alone.  `Within` therefore says nothing about the frame itself, only
that `rbp` points to it and that the frames around are in order.  It is what holds where a jump comes to
the end of a block.
-/

namespace ProcLang

/-- The machine with a word stored in a place, cut to the type of the place. -/
def Machine.assigned (m : Machine) (place : Generation.Place) (w : Word) : Machine :=
  match place.access with
  | .register r => m.set r (place.type.normalize w)
  | .frame out offset =>
    { m with mem := m.mem.store ((m.mem.follow out (m.regs .rbp)).toNat + offset) place.type.size w }

namespace Generation

open Machine (Preserves Gives)
open Meaning (Env Local)

/-! ### Targets of jumps -/

section Targets

open ScopeStack (jumpTargetFrom passage)

theorem jumpTargetFrom_succ (jump : Jump) (k : Nat) : ∀ scopes : ScopeStack,
    jumpTargetFrom jump (k + 1) scopes =
      (jumpTargetFrom jump k scopes).map fun (crossed, l) => (crossed + 1, l)
  | [] => rfl
  | scope :: outer => by
    unfold jumpTargetFrom
    cases passage jump scope with
    | target label => cases label <;> rfl
    | stop => rfl
    | pass => exact jumpTargetFrom_succ jump (k + 1) outer

/-- A jump ends at a scope, or passes it and goes on outwards. -/
theorem jumpTarget_cons {jump : Jump} {scope : Scope} {outer : ScopeStack} {crossed : Nat}
    {target : Label} (h : ScopeStack.jumpTarget (scope :: outer) jump = .ok (crossed, target)) :
    scope.kind ≠ .entry ∧
      (passage jump scope = .target (some target) ∧ crossed = 0 ∨
        passage jump scope = .pass ∧ ∃ inner, crossed = inner + 1 ∧
          outer.jumpTarget jump = .ok (inner, target)) := by
  rw [ScopeStack.jumpTarget, jumpTargetFrom] at h
  refine ⟨fun hkind => ?_, ?_⟩
  · have hstop : passage jump scope = .stop := by
      cases jump <;> simp [passage, hkind]
    rw [hstop] at h
    cases h
  · cases hp : passage jump scope with
    | stop => rw [hp] at h; cases h
    | target label =>
      rw [hp] at h
      cases label with
      | none => cases h
      | some label =>
        obtain ⟨rfl, rfl⟩ := Prod.mk.inj (Except.ok.inj h)
        exact .inl ⟨rfl, rfl⟩
    | pass =>
      rw [hp] at h
      have h : jumpTargetFrom jump (0 + 1) outer = .ok (crossed, target) := h
      rw [jumpTargetFrom_succ] at h
      cases hinner : jumpTargetFrom jump 0 outer with
      | error e => rw [hinner] at h; cases h
      | ok found =>
        rw [hinner] at h
        obtain ⟨rfl, rfl⟩ := Prod.mk.inj (Except.ok.inj h)
        exact .inr ⟨rfl, found.1, rfl, hinner⟩

end Targets

/-! ### Stores -/

section Stores

variable {P : Image} {m : Machine} {place : Place} {r : Register} {way : List Instr} {dst : Operand}

theorem exec_store_mem (labels : String → Word) (m : Machine) {type : DataType} (htype : type ≠ .void)
    (base src : Register) (offset : Int) :
    m.exec labels (.mov (if type.isByte then .byte else .quad) (.mem base offset) (.reg src)) =
      some { m with mem := m.mem.store ((m.regs base).toNat + offset) type.size (m.regs src) } := by
  have hbyte : ∀ a w, m.mem.store a 1 (Width.byte.cut w) = m.mem.store a 1 w := by
    intro a w
    funext b
    unfold Memory.store
    split_ifs with hb
    · obtain rfl : b = a := by omega
      simp [Width.cut, Width.bits]
    · rfl
  cases type with
  | void => exact absurd rfl htype
  | int => rfl
  | u8 | s8 => exact congrArg some (congrArg (Machine.mk _ _) (hbyte _ _))

/-- A register is stored in a place that is reached. -/
theorem Reach.store {used : Used} (h : Reach (used.add r) place.access way dst)
    (htype : place.type ≠ .void) :
    P.Straight (way ++ [storeInstr place dst r]) m fun m' =>
      ∃ m₁, Preserves used m m₁ ∧ m' = m₁.assigned place (m.regs r) := by
  refine h.straight.append fun m₁ ⟨hkeeps, hmem, haims⟩ => ?_
  have hr : m₁.regs r = m.regs r := hkeeps.regs r (Used.add_self _ _)
  obtain ⟨type, access⟩ := place
  refine .one ?_ ⟨m₁, hkeeps.mono fun _ => Used.le_add, rfl⟩
  cases access with
  | register q => 
    rw [← hr]
    exact exec_fetch_reg _ _ _ _ _
  | frame out offset =>
    obtain ⟨base, rfl, hbase⟩ := haims
    refine (exec_store_mem _ _ htype _ _ _).trans ?_
    simp only [Machine.assigned, hbase, hr, hmem, hkeeps.rbp]

/-- The code of an assignment stores the value of its expression. -/
theorem AssignCode.straight {pool : List String} {look : String → Option Place}
    {strings : String → Word} {env : Env} {used : Used} {value : Expr} {n n' : Nat}
    {code : List Instr} {w : Word} (hunique : P.Unique) (hpool : P.Holds pool strings)
    (h : AssignCode pool look used place value n code n') (htype : place.type ≠ .void)
    (hused : used.Sound) (hsees : Sees used look env m)
    (hw : Meaning.eval strings env value = some w) (hroom : stackNeed code ≤ (m.regs .rsp).toNat) :
    P.Straight code m fun m' => ∃ m₁, Preserves used m m₁ ∧ m' = m₁.assigned place w := by
  obtain ⟨c, r, type, way, dst, hcode, hway, rfl⟩ := h
  rw [List.append_assoc, stackNeed_append] at hroom
  rw [List.append_assoc]
  refine (hcode.straight hunique hpool hused hsees hw (by omega)).append fun m₁ hm₁ => ?_
  refine (hway.store htype).mono fun m' ⟨m₂, hkeeps, hm'⟩ => ?_
  rw [hm₁.result] at hm'
  exact ⟨m₂, (hm₁.keeps hcode.free).trans hkeeps, hm'⟩

end Stores

namespace Invocation

variable {A : Invocation} {P : Image} {m m' : Machine} {scope : Scope} {outer scopes : ScopeStack}
  {vars : List Local} {env env' : Env} {name : String} {type : DataType} {w : Word}

/-! ### Opening a frame -/

theorem Agree.rsp_pushed (h : A.Agree scopes env m) (hroom : 8 + depth scopes ≤ A.top + 8)
    (word : Word) : ((m.pushed word).regs .rsp).toNat + depth scopes = A.top := by
  have hrsp := h.rsp
  rw [Machine.toNat_rsp_pushed (by omega)]
  omega

theorem toNat_sub_ofNat {word : Word} {bytes : Nat} (h : bytes ≤ word.toNat) :
    (word - BitVec.ofNat 64 bytes).toNat = word.toNat - bytes := by
  have hlt : bytes < 2 ^ 64 := Nat.lt_of_le_of_lt h word.isLt
  have hbytes : (BitVec.ofNat 64 bytes).toNat = bytes := by
    rw [BitVec.toNat_ofNat, Nat.mod_eq_of_lt hlt]
  rw [BitVec.toNat_sub_of_le (by rw [BitVec.le_def, hbytes]; exact h), hbytes]

/-- What the code in front of a block leaves: the frame pointer of the block around is pushed, `rbp`
points to it, and some bytes are reserved. -/
structure Opened (m : Machine) (reserved : Nat) (m' : Machine) : Prop where
  rbp : m'.regs .rbp = (m.pushed (m.regs .rbp)).regs .rsp
  rsp : (m'.regs .rsp).toNat + reserved = (m'.regs .rbp).toNat
  regs : ∀ r, r ≠ .rbp → r ≠ .rsp → m'.regs r = m.regs r
  mem : m'.mem = (m.pushed (m.regs .rbp)).mem

theorem straight_open {reserved : Nat} (hroom : 8 + reserved ≤ (m.regs .rsp).toNat) :
    P.Straight (openCode reserved) m (Opened m reserved) := by
  have hrsp : ((m.pushed (m.regs .rbp)).regs .rsp).toNat = (m.regs .rsp).toNat - 8 :=
    Machine.toNat_rsp_pushed (by omega)
  refine .cons rfl (.cons (exec_copy _ _ _ _) ?_)
  have hregs : ∀ r, r ≠ .rbp → r ≠ .rsp → ((m.pushed (m.regs .rbp)).set .rbp
      ((m.pushed (m.regs .rbp)).regs .rsp)).regs r = m.regs r := fun r hrbp hrsp => by
    rw [Machine.regs_set_of_ne _ _ _ hrbp, Machine.regs_pushed_of_ne hrsp]
  by_cases hpos : reserved > 0
  · rw [if_pos hpos]
    obtain ⟨flags, hsub⟩ := exec_adjust P.labels ((m.pushed (m.regs .rbp)).set .rbp
      ((m.pushed (m.regs .rbp)).regs .rsp)) .sub reserved
    refine .one hsub ⟨rfl, ?_, fun r hr hr' => ?_, rfl⟩
    · show ((m.pushed (m.regs .rbp)).regs .rsp - BitVec.ofNat 64 reserved).toNat + reserved =
        ((m.pushed (m.regs .rbp)).regs .rsp).toNat
      rw [toNat_sub_ofNat (by omega)]
      omega
    · rw [Machine.regs_withFlags, Machine.regs_set_of_ne _ _ _ hr']
      exact hregs r hr hr'
  · rw [if_neg hpos]
    obtain rfl : reserved = 0 := by omega
    exact .nil ⟨rfl, rfl, hregs, rfl⟩

/-- A block is entered with its variables, if they are there once the frame is open. -/
theorem Agree.open (h : A.Agree scopes env m) (hframed : A.Framed scope scopes)
    (hroom : 8 + scope.localBytes + depth scopes ≤ A.top + 8)
    (hholds : ∀ m', (∀ r, r ≠ .rbp → r ≠ .rsp → m'.regs r = m.regs r) →
      (∀ a : Int, (m.regs .rsp).toNat ≤ a → m'.mem a = m.mem a) →
      (m'.regs .rbp).toNat + depth scopes = A.top → A.Holds m' (m'.regs .rbp).toNat scope vars) :
    P.Straight (openCode scope.localBytes) m (A.Agree (scope :: scopes) (vars :: env)) := by
  have hrsp := h.rsp
  refine (straight_open (by omega)).mono fun m' hm' => ?_
  have hrbp : (m'.regs .rbp).toNat + depth scopes = A.top := by
    rw [hm'.rbp]
    exact h.rsp_pushed (by omega) _
  have hmem : ∀ a : Int, (m.regs .rsp).toNat ≤ a → m'.mem a = m.mem a := fun a ha => by
    rw [hm'.mem]
    exact Machine.mem_pushed (by omega) ha
  have hlink : m'.mem.load (m'.regs .rbp).toNat 8 = m.regs .rbp := by
    rw [hm'.mem, hm'.rbp]
    exact Machine.load_pushed
  refine ⟨?_, .frame hframed hrbp (hholds m' hm'.regs hmem hrbp) ?_, fun a ha hnot => ?_⟩
  · rw [depth_cons hframed]
    have := hm'.rsp
    omega
  · rw [hlink]
    refine h.stored.congr (fun r hr => ?_) fun a ha => hmem a (by omega)
    have hne := ne_of_allocatable (sound_used A r hr)
    exact hm'.regs r hne.2.1 hne.2.2
  · have := eight_le_depth scopes
    rw [hmem a (by omega)]
    exact h.outside a ha hnot

/-! ### Closing frames -/

/-- `rbp` points to a frame right above those of some scopes. -/
structure Within (A : Invocation) (outer : ScopeStack) (env : Env) (m : Machine) : Prop where
  rbp : (m.regs .rbp).toNat + depth outer = A.top
  stored : A.Stored m outer env (m.mem.load (m.regs .rbp).toNat 8)
  outside : ∀ a : Int, A.top ≤ a → ¬ A.OfParameter a → m.mem a = A.start.mem a

theorem Agree.within (h : A.Agree (scope :: outer) env m) (hkind : scope.kind ≠ .entry) :
    A.Within outer env.tail m := by
  obtain ⟨-, hstored, houtside⟩ := h
  generalize hp : m.regs .rbp = p at hstored
  cases hstored with
  | entry hentry => exact absurd hentry hkind
  | frame _ hrbp _ houter => exact ⟨hp ▸ hrbp, hp ▸ houter, houtside⟩

/-- A frame is closed: the frames around are in order, and only the two pointers have changed. -/
theorem Within.close (h : A.Within outer env m) :
    P.Straight epilogueCode m fun m' => A.Agree outer env m' ∧ m'.regs .rax = m.regs .rax := by
  have hrbp := h.rbp
  have hdepth := eight_le_depth outer
  have hlt : (m.regs .rbp).toNat + 8 < 2 ^ 64 := by
    have : A.top < 2 ^ 64 := (A.start.regs .rsp).isLt
    omega
  have hpop : (m.regs .rbp + 8).toNat = (m.regs .rbp).toNat + 8 := by
    rw [BitVec.toNat_add]
    exact Nat.mod_eq_of_lt hlt
  refine .cons (exec_copy _ _ _ _) (.one rfl ⟨⟨?_, ?_, h.outside⟩, rfl⟩)
  · show (m.regs .rbp + 8).toNat + depth outer = A.top + 8
    omega
  · refine h.stored.congr (fun r hr => ?_) fun _ _ => rfl
    obtain ⟨-, hrbp, hrsp⟩ := ne_of_allocatable (sound_used A r hr)
    rw [Machine.regs_set_of_ne _ _ _ hrbp, Machine.regs_set_of_ne _ _ _ hrsp,
      Machine.regs_set_of_ne _ _ _ hrsp]

/-- A jump closes the frames up to the scope with its label, and stays in the frame of this one. -/
theorem Agree.closeAll {jump : Jump} {target : Label} : ∀ {scopes : ScopeStack} {env : Env}
    {crossed : Nat} {m : Machine}, scopes.jumpTarget jump = .ok (crossed, target) →
      A.Agree scopes env m → P.Straight (epiloguesCode crossed) m fun m' =>
        A.Within (scopes.drop (crossed + 1)) (env.drop (crossed + 1)) m' ∧
          m'.regs .rax = m.regs .rax
  | [], _, _, _, hjump, _ => by cases hjump
  | scope :: outer, env, _, m, hjump, h => by
    obtain ⟨hkind, ⟨-, rfl⟩ | ⟨-, inner, rfl, hinner⟩⟩ := jumpTarget_cons hjump
    · refine .nil ⟨?_, rfl⟩
      rw [List.drop_succ_cons, List.drop_zero, List.drop_one]
      exact h.within hkind
    · refine (h.within hkind).close.append fun m₁ ⟨hm₁, hrax₁⟩ => ?_
      refine (closeAll hinner hm₁).mono fun m₂ ⟨hm₂, hrax₂⟩ => ⟨?_, hrax₂.trans hrax₁⟩
      rwa [List.drop_tail] at hm₂

/-! ### Declarations -/

section Declarations

variable {tag : Tag} {init : Option Expr} {rest : List Stmt} {offset : Int}

/-- A declared variable has no value at first. -/
theorem Holds.declare {base : Int} (h : A.Holds m base scope vars) :
    A.Holds m base (scope.declare (declaredVariable scope tag name type))
      (⟨name, type, none⟩ :: vars) := by
  refine ⟨fun other => ?_, fun {other v x w} hv hx hw => ?_⟩
  · rw [get?_declared, List.find?_cons]
    by_cases hother : name = other
    · simp [hother, declaredVariable]
    · simp only [beq_eq_false_iff_ne.mpr hother, if_neg (Ne.symm hother)]
      exact h.typed other
  · rw [get?_declared] at hv
    rw [List.find?_cons] at hx
    by_cases hother : name = other
    · simp only [hother, beq_self_eq_true, Option.some.injEq] at hx
      rw [← hx] at hw
      cases hw
    · simp only [beq_eq_false_iff_ne.mpr hother] at hx
      rw [if_neg (Ne.symm hother)] at hv
      exact h.value hv hx hw

/-- A declaration without a value. -/
theorem Agree.declare (h : A.Agree (scope :: outer) env m) (hkind : scope.kind ≠ .entry)
    (htype : type ≠ .void) (hroom : Room scope (.declaration tag name type init :: rest)) :
    A.Agree (scope.declare (declaredVariable scope tag name type) :: outer)
      (env.declare ⟨name, type, none⟩) m := by
  obtain ⟨hrsp, hstored, houtside⟩ := h
  refine ⟨hrsp, ?_, houtside⟩
  generalize m.regs .rbp = p at hstored
  cases hstored with
  | entry hentry => exact absurd hentry hkind
  | frame hframed hp hholds houter => exact .frame (hframed.declare htype hroom) hp hholds.declare houter

/-- A declared procedure changes no variable. -/
theorem Agree.declareProcedure (h : A.Agree (scope :: outer) env m) (hkind : scope.kind ≠ .entry)
    (p : Procedure) : A.Agree (scope.declareProcedure p :: outer) env m := by
  obtain ⟨hrsp, hstored, houtside⟩ := h
  refine ⟨hrsp, ?_, houtside⟩
  generalize m.regs .rbp = q at hstored
  cases hstored with
  | entry hentry => exact absurd hentry hkind
  | frame hframed hp hholds houter =>
    exact .frame (hframed.declareProcedure p) hp ⟨hholds.typed, hholds.value⟩ houter

end Declarations

/-! ### Assignments -/

theorem Agree.assign {place : Place} (h : A.Agree scopes env m)
    (hplace : view scopes A.file name = some place) (hassign : env.assign name w = some env') :
    A.Agree scopes env' (m.assigned place w) := by
  obtain ⟨type, access⟩ := place
  obtain ⟨v, hv, rfl, ⟨offset, hstorage, rfl⟩ | ⟨l, r, hstorage, hr, rfl⟩⟩ := exists_of_view hplace
  · obtain ⟨-, -, -, hvoid⟩ := h.stored.typed hv
    have hslot := h.stored.slot hv hstorage
    refine ⟨h.rsp, h.stored.assign hv hassign (.stack hstorage hvoid), fun a ha hnot => ?_⟩
    rw [← h.outside a ha hnot]
    refine Memory.store_of_outside ?_
    by_contra hin
    unfold frameOf at hslot
    dsimp only at hin
    rcases hslot.2 a (by omega) (by omega) with hlow | hparameter
    · omega
    · exact hnot hparameter
  · have hne := ne_of_allocatable (sound_used A r (used_of_registerOf? hr))
    have hrbp : (m.set r (v.type.normalize w)).regs .rbp = m.regs .rbp :=
      Machine.regs_set_of_ne _ _ _ (Ne.symm hne.2.1)
    refine ⟨?_, ?_, h.outside⟩
    · show ((m.set r (v.type.normalize w)).regs .rsp).toNat + _ = _
      rw [Machine.regs_set_of_ne _ _ _ (Ne.symm hne.2.2)]
      exact h.rsp
    · show A.Stored _ scopes env' ((m.set r (v.type.normalize w)).regs .rbp)
      rw [hrbp]
      exact h.stored.assign hv hassign (.register hstorage hr)

/-- A declaration with a value: the word is stored in the slot of the new variable. -/
theorem Agree.define {tag : Tag} {init : Option Expr} {rest : List Stmt} {offset : Int}
    (h : A.Agree (scope :: outer) env m) (hkind : scope.kind ≠ .entry) (htype : type ≠ .void)
    (hroom : Room scope (.declaration tag name type init :: rest))
    (hoffset : scope.layout.get? tag.id = some offset) :
    A.Agree (scope.declare (declaredVariable scope tag name type) :: outer)
      (env.declare ⟨name, type, some (type.normalize w)⟩) (m.assigned ⟨type, .frame 0 offset⟩ w) := by
  obtain ⟨hrsp, hstored, houtside⟩ := h
  have hstorage : (declaredVariable scope tag name type).storage = .stack offset :=
    storage_declared hoffset
  have hget : (scope.declare (declaredVariable scope tag name type)).vars.get? name =
      some (declaredVariable scope tag name type) := by
    rw [get?_declared, if_pos rfl]
  generalize hrbp : m.regs .rbp = p at hstored
  have hassigned : A.Writes m p.toNat (declaredVariable scope tag name type) w
      (m.assigned ⟨type, .frame 0 offset⟩ w) := by
    rw [← hrbp]
    exact .stack hstorage htype
  cases hstored with
  | entry hentry => exact absurd hentry hkind
  | @frame _ _ vars env _ hframed hp hholds houter =>
    have hframed' := hframed.declare htype hroom
    have hholds' : A.Holds m p.toNat (scope.declare (declaredVariable scope tag name type))
      (⟨name, type, none⟩ :: vars) := hholds.declare
    refine ⟨hrsp, ?_, fun a ha hnot => ?_⟩
    · show A.Stored _ _ _ (m.regs .rbp)
      rw [hrbp]
      refine .write hframed' hp houter hget hassigned (hholds'.write hframed'.laid hget hassigned
        (x := ⟨name, type, some (type.normalize w)⟩) (by simp) rfl rfl fun other hother => ?_)
      simp [beq_eq_false_iff_ne.mpr (Ne.symm hother)]
    · rw [← houtside a ha hnot]
      refine hassigned.mem a fun place hplace => .inr ?_
      obtain ⟨offset', hoffset', -, hhigh⟩ := hroom.stacked.inside (List.mem_cons_self (a := (tag.id, type)))
      rw [hoffset] at hoffset'
      obtain rfl := Option.some.inj hoffset'
      rw [hstorage] at hplace
      obtain rfl := Storage.stack.inj hplace
      have hdepth := eight_le_depth outer
      show (p.toNat : Int) + offset + type.size ≤ a
      omega

end Invocation

end Generation

end ProcLang

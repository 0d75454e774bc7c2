import ProcLang.Proofs.Simulation.Expression

/-!
The code of a call passes the values of its arguments and gives everything back.

The arguments are computed into free registers and moved to the argument registers; what was there is
moved out of the way, saved on the stack around the call, and moved back.  Every register thus holds
behind the call what it held in front of it, whatever the called procedure did.
-/

namespace ProcLang.Generation

open Machine (Preserves Gives Returned)

variable {P : Image} {pool : List String} {look : String → Option Place} {strings : String → Word}
  {env : Meaning.Env} {used : Used} {args : List (Expr × DataType)} {n n' : Nat} {code : List Instr}
  {rs : List Register}

/-! ### Arguments -/

/-- The arguments come into free registers, each into another one. -/
theorem ArgsCode.free (h : ArgsCode pool look used args n code rs n') :
    rs.Nodup ∧ ∀ r ∈ rs, used.Free r := by
  induction h with
  | nil => simp
  | @cons used _ _ _ _ _ _ _ _ r _ rs hcode _ ih =>
    obtain ⟨hnodup, hfree⟩ := ih
    refine ⟨List.nodup_cons.mpr ⟨fun hr => ?_, hnodup⟩, fun q hq => ?_⟩
    · exact (hfree r hr).ne (Used.add_self used r) rfl
    · rcases List.mem_cons.mp hq with rfl | hq
      · exact hcode.free
      · exact (hfree q hq).of_add

theorem ArgsCode.straight (hunique : P.Unique) (hpool : P.Holds pool strings)
    (h : ArgsCode pool look used args n code rs n') :
    ∀ {m : Machine} {values : List Word}, used.Sound → Sees used look env m →
      (args.map Prod.fst).mapM (Meaning.eval strings env) = some values →
      stackNeed code ≤ (m.regs .rsp).toNat →
      P.Straight code m fun m' => Preserves used m m' ∧ rs.map m'.regs = values := by
  induction h with
  | nil =>
    intro m values _ _ hvalues _
    exact .nil ⟨.refl _ m, Option.some.inj hvalues⟩
  | @cons used e _ rest _ _ _ _ _ r _ rs hcode _ ih =>
    intro m values hused hsees hvalues hroom
    rw [List.map_cons, List.mapM_cons] at hvalues
    obtain ⟨v, hv, hvalues⟩ := Option.bind_eq_some_iff.mp hvalues
    obtain ⟨vs, hvs, hvalues⟩ := Option.bind_eq_some_iff.mp hvalues
    obtain rfl : v :: vs = values := Option.some.inj hvalues
    rw [stackNeed_append] at hroom
    refine (hcode.straight hunique hpool hused hsees hv (by omega)).append fun m₁ hm₁ => ?_
    have hkeeps₁ := hm₁.keeps hcode.free
    have hroom₁ := hkeeps₁.rsp
    refine (ih (hused.add hcode.free.1) (hsees.keeps hkeeps₁ fun _ => Used.le_add) hvs
      (by rw [hroom₁]; omega)).mono fun m₂ ⟨hkeeps₂, hm₂⟩ => ⟨?_, ?_⟩
    · exact hkeeps₁.trans (hkeeps₂.mono fun _ => Used.le_add)
    · rw [List.map_cons, hm₂, hkeeps₂.regs r (Used.add_self _ _), hm₁.result]

/-! ### Moves -/

/-- The registers hold the values that belong to the handles in them. -/
def Holding.Valued (h : Holding) (val : Location → Word) (m : Machine) : Prop :=
  ∀ {r l}, h r = some l → m.regs r = val l

/-- A handle is in one register only. -/
def Holding.Apart (h : Holding) : Prop := ∀ {r q l}, h r = some l → h q = some l → r = q

variable {h h' : Holding} {val : Location → Word} {m : Machine}

theorem Holding.Apart.valued (hapart : h.Apart) (m : Machine) : ∃ val, h.Valued val m := by
  classical
  refine ⟨fun l => if hl : ∃ r, h r = some l then m.regs hl.choose else 0, fun {r l} hr => ?_⟩
  have hl : ∃ r, h r = some l := ⟨r, hr⟩
  show m.regs r = if hl : ∃ r, h r = some l then m.regs hl.choose else 0
  rw [dif_pos hl, hapart hr hl.choose_spec]

theorem Holding.Valued.map_eq (hval : h.Valued val m) :
    ∀ {rs : List Register} {ls : List Location}, rs.map h = ls.map some → rs.map m.regs = ls.map val
  | [], [], _ => rfl
  | [], _ :: _, heq => by cases heq
  | _ :: _, [], heq => by cases heq
  | _ :: _, _ :: _, heq => by
    obtain ⟨hr, hrs⟩ := List.cons.inj heq
    rw [List.map_cons, List.map_cons, hval hr, hval.map_eq hrs]

theorem Holding.Valued.move (hval : h.Valued val m) (dst src : Register) :
    (h.move dst src).Valued val (m.set dst (m.regs src)) := by
  intro r l hr
  unfold Holding.move at hr
  split_ifs at hr with hrd hrs
  · rw [hrd, Machine.regs_set_self]
    exact hval hr
  · rw [Machine.regs_set_of_ne _ _ _ hrd]
    exact hval hr

theorem Holding.Valued.forget {ls : List Location} (hval : h.Valued val m) : (h.forget ls).Valued val m :=
  fun hr => hval (Option.filter_eq_some_iff.mp hr).1

theorem Moves.straight {moves : List (Register × Register)} (hmoves : Moves h moves h') :
    ∀ {m : Machine}, h.Valued val m →
      P.Straight (moveCode moves) m fun m' => h'.Valued val m' ∧ m.Returned m' := by
  induction hmoves with
  | nil => exact fun hval => .nil ⟨hval, .refl _⟩
  | @cons h dst src rest h' hdst _ _ ih =>
    intro m hval
    refine .cons (exec_copy _ _ _ _)
      ((ih (hval.move dst src)).mono fun m' ⟨hm', hreturned⟩ => ⟨hm', ?_⟩)
    exact (Returned.set hdst _).trans hreturned

/-- Values are moved to registers that can be allocated. -/
theorem Moves.sound {moves : List (Register × Register)} (hmoves : Moves h moves h')
    (hsound : h.used.Sound) : h'.used.Sound := by
  induction hmoves with
  | nil => exact hsound
  | @cons h dst src rest h' hdst _ _ ih =>
    refine ih fun r hr => ?_
    unfold Holding.used Holding.move at hr
    split_ifs at hr with hrd hrs
    · exact hrd ▸ hdst
    · exact absurd hr (by simp)
    · exact hsound r hr

/-! ### New values -/

section PutAll

variable {ls : List Location} {r : Register} {l : Location}

theorem Holding.putAll_of_not_mem : ∀ {rs : List Register} {ls : List Location} {h : Holding},
    r ∉ rs → h.putAll (rs.zip ls) r = h r
  | [], _, _, _ => rfl
  | _ :: _, [], _, _ => rfl
  | q :: rs, l :: ls, h, hr => by
    obtain ⟨hne, hr⟩ := not_or.mp fun hmem => hr (List.mem_cons.mpr hmem)
    rw [List.zip_cons_cons, putAll, putAll_of_not_mem hr, put, if_neg hne]

theorem Holding.map_putAll : ∀ {rs : List Register} {ls : List Location} {h : Holding}, rs.Nodup →
    ls.length = rs.length → rs.map (h.putAll (rs.zip ls)) = ls.map some
  | [], [], _, _, _ => rfl
  | [], _ :: _, _, _, hlen => by cases hlen
  | _ :: _, [], _, _, hlen => by cases hlen
  | r :: rs, l :: ls, h, hnodup, hlen => by
    obtain ⟨hr, hnodup⟩ := List.nodup_cons.mp hnodup
    rw [List.zip_cons_cons, putAll, List.map_cons, List.map_cons, putAll_of_not_mem hr, put,
      if_pos rfl, map_putAll hnodup (Nat.succ.inj hlen)]

theorem Holding.Apart.putAll : ∀ {rs : List Register} {ls : List Location} {h : Holding}, h.Apart →
    ls.Nodup → (∀ r, ∀ l ∈ ls, h r ≠ some l) → (h.putAll (rs.zip ls)).Apart
  | [], _, _, hapart, _, _ => hapart
  | _ :: _, [], _, hapart, _, _ => hapart
  | q :: rs, l :: ls, h, hapart, hnodup, hnew => by
    obtain ⟨hl, hnodup⟩ := List.nodup_cons.mp hnodup
    refine putAll (h := h.put q l) (fun {r r' l'} hr hr' => ?_) hnodup fun r l' hl' => ?_
    · unfold put at hr hr'
      split_ifs at hr hr' with h₁ h₂ h₂
      · rw [h₁, h₂]
      · exact absurd (hr'.trans hr.symm) (hnew _ l List.mem_cons_self)
      · exact absurd (hr.trans hr'.symm) (hnew _ l List.mem_cons_self)
      · exact hapart hr hr'
    · unfold put
      split_ifs
      · rintro heq
        exact hl (Option.some.inj heq ▸ hl')
      · exact hnew r l' (List.mem_cons_of_mem _ hl')

theorem Holding.sound_putAll : ∀ {rs : List Register} {ls : List Location} {h : Holding},
    h.used.Sound → (∀ r ∈ rs, r ∈ Register.allocatable) → (h.putAll (rs.zip ls)).used.Sound
  | [], _, _, hsound, _ => hsound
  | _ :: _, [], _, hsound, _ => hsound
  | q :: rs, l :: ls, h, hsound, hrs => by
    refine sound_putAll (h := h.put q l) (fun r hr => ?_) fun r hr => hrs r (List.mem_cons_of_mem _ hr)
    unfold used put at hr
    split_ifs at hr with hrq
    · exact hrq ▸ hrs q List.mem_cons_self
    · exact hsound r hr

end PutAll

/-! ### The call -/

theorem exec_clear (labels : String → Word) (m : Machine) :
    ∃ flags, m.exec labels clearInstr = some ((m.set .rax 0).withFlags flags) := by
  simp only [clearInstr, Machine.exec, Machine.write, Option.map_some, AluOp.apply, BitVec.xor_self]
  exact ⟨_, rfl⟩

theorem exec_adjust (labels : String → Word) (m : Machine) (op : AluOp) (bytes : Nat) :
    ∃ flags, m.exec labels (adjustInstr op bytes) =
      some ((m.set .rsp (op.apply (m.regs .rsp) (BitVec.ofNat 64 bytes))).withFlags flags) := by
  simp only [adjustInstr, Machine.exec, Machine.read, Machine.write, Width.cut_quad, Option.map_some,
    Width.insert, BitVec.ofInt_natCast]
  exact ⟨_, rfl⟩

/-- What returns with the stack moved by 8 bytes returns when the stack is moved back. -/
theorem returned_adjust {m₂ : Machine} {flags flags' : Option Flags} (h8 : 8 ≤ (m.regs .rsp).toNat)
    (h : ((m.set .rsp (m.regs .rsp - 8)).withFlags flags).Returned m₂) :
    m.Returned ((m₂.set .rsp (m₂.regs .rsp + 8)).withFlags flags') := by
  have hrsp : m₂.regs .rsp = m.regs .rsp - 8 := h.rsp
  refine ⟨h.rbp, ?_, fun a ha => h.mem a ?_⟩
  · show m₂.regs .rsp + 8 = m.regs .rsp
    rw [hrsp, BitVec.sub_add_cancel]
  · show ((m.regs .rsp - 8).toNat : Int) ≤ a
    have hsp : (m.regs .rsp - 8).toNat = (m.regs .rsp).toNat - 8 := BitVec.toNat_sub_of_le h8
    omega

/-- A call, with the stack moved by 8 bytes around it or not. -/
theorem around_padded {A : Machine → Prop} (padded : Bool)
    (hroom : padded = true → 8 ≤ (m.regs .rsp).toNat)
    (hA : ∀ m₁ : Machine, (∀ r, r ≠ .rsp → m₁.regs r = m.regs r) → A m₁) :
    P.Around (if padded then [adjustInstr .sub 8] else []) (if padded then [adjustInstr .add 8] else [])
      m A m.Returned := by
  cases padded with
  | false => exact .call (hA m fun _ _ => rfl) fun _ hreturned => hreturned
  | true =>
    obtain ⟨flags, hsub⟩ := exec_adjust P.labels m .sub 8
    have hone : P.Straight [adjustInstr .sub 8] m
        (· = (m.set .rsp (m.regs .rsp - 8)).withFlags flags) := .one hsub rfl
    refine hone.mono fun m₁ hm₁ => ⟨hA m₁ fun r hr => ?_, fun m₂ hreturned => ?_⟩
    · rw [hm₁]
      exact Machine.regs_set_of_ne _ _ _ hr
    · subst hm₁
      obtain ⟨flags', hadd⟩ := exec_adjust P.labels m₂ .add 8
      exact .one hadd (returned_adjust (hroom rfl) hreturned)

/-- What returns behind a push returns behind the pop, and the registers have their words again. -/
theorem returned_pop {r : Register} {saved : List Register} {m₂ m₃ : Machine}
    (hsaved : ∀ q ∈ r :: saved, q ∈ Register.allocatable) (h8 : 8 ≤ (m.regs .rsp).toNat)
    (h : (m.pushed (m.regs r)).Returned m₂)
    (hwords : ∀ q ∈ saved, m₂.regs q = (m.pushed (m.regs r)).regs q)
    (hpop : m₂.exec P.labels (.pop r) = some m₃) :
    (∀ q ∈ r :: saved, m₃.regs q = m.regs q) ∧ m.Returned m₃ := by
  obtain ⟨-, hbp, hsp⟩ := ne_of_allocatable (hsaved r List.mem_cons_self)
  obtain rfl := Option.some.inj hpop
  have hload : m₂.mem.load (m₂.regs .rsp).toNat 8 = m.regs r := by
    rw [h.rsp, Memory.load_congr fun a ha _ => h.mem a ha]
    exact Machine.load_pushed
  refine ⟨fun q hq => ?_, ?_, ?_, fun a ha => ?_⟩
  · by_cases hqr : q = r
    · rw [hqr, Machine.regs_set_self, hload]
    · have hqsp := (ne_of_allocatable (hsaved q hq)).2.2
      rw [Machine.regs_set_of_ne _ _ _ hqr, Machine.regs_set_of_ne _ _ _ hqsp,
        hwords q ((List.mem_cons.mp hq).resolve_left hqr), Machine.regs_pushed_of_ne hqsp]
  · rw [Machine.regs_set_of_ne _ _ _ hbp.symm]
    exact h.rbp
  · rw [Machine.regs_set_of_ne _ _ _ hsp.symm, Machine.regs_set_self, h.rsp, Machine.rsp_pushed,
      BitVec.sub_add_cancel]
  · have hrsp := Machine.toNat_rsp_pushed (w := m.regs r) h8
    exact (h.mem a (by omega)).trans (Machine.mem_pushed h8 ha)

/-- Registers are saved in front of a call and have their words again behind it. -/
theorem around_saved {front behind : List Instr} {A : Machine → Prop} :
    ∀ {saved : List Register} {m : Machine}, (∀ r ∈ saved, r ∈ Register.allocatable) →
      8 * saved.length ≤ (m.regs .rsp).toNat →
      (∀ m₁ : Machine, (∀ r, r ≠ .rsp → m₁.regs r = m.regs r) →
        (m₁.regs .rsp).toNat + 8 * saved.length = (m.regs .rsp).toNat →
        P.Around front behind m₁ A m₁.Returned) →
      P.Around (saved.map .push ++ front) (behind ++ saved.reverse.map .pop) m A
        fun m' => (∀ r ∈ saved, m'.regs r = m.regs r) ∧ m.Returned m'
  | [], m, _, _, hinner => by
    simpa using hinner m (fun _ _ => rfl) rfl
  | r :: saved, m, hsaved, hroom, hinner => by
    rw [List.length_cons] at hroom
    have h8 : 8 ≤ (m.regs .rsp).toNat := by omega
    have hsp := Machine.toNat_rsp_pushed (w := m.regs r) h8
    have hregs : ∀ q, q ≠ .rsp → (m.pushed (m.regs r)).regs q = m.regs q :=
      fun q hq => Machine.regs_pushed_of_ne hq
    have hrest : P.Around (saved.map .push ++ front) (behind ++ saved.reverse.map .pop)
        (m.pushed (m.regs r)) A fun m' =>
          (∀ q ∈ saved, m'.regs q = (m.pushed (m.regs r)).regs q) ∧ (m.pushed (m.regs r)).Returned m' :=
      around_saved (fun q hq => hsaved q (List.mem_cons_of_mem _ hq)) (by omega)
        fun m₁ hm₁ hsp₁ => hinner m₁ (fun q hq => (hm₁ q hq).trans (hregs q hq))
          (by rw [List.length_cons]; omega)
    have hpush : P.Straight [.push r] m (· = m.pushed (m.regs r)) := .one rfl rfl
    have hpushes : (r :: saved).map Instr.push ++ front = [.push r] ++ (saved.map .push ++ front) := by simp
    have hpops : behind ++ (r :: saved).reverse.map Instr.pop =
        (behind ++ saved.reverse.map .pop) ++ [.pop r] := by simp
    rw [hpushes, hpops]
    refine .before hpush fun m₁ hm₁ => ?_
    subst hm₁
    refine hrest.after fun m₂ hm₂ => ?_
    exact .one rfl (returned_pop (P := P) hsaved h8 hm₂.2 hm₂.1 rfl)

/-- A recorded call is a call of the program: it has the name, and its arguments come first. -/
def Makes (record : CallRecord) (call : Meaning.Call) : Prop :=
  record.name = call.name ∧ record.args.take call.args.length = call.args

theorem stackNeed_savedCallCode (depth : Nat) (saved : List Register) (name : String) :
    stackNeed (savedCallCode depth saved name) =
      8 * saved.length + if (depth + 8 * saved.length) % 16 != 0 then 8 else 0 := by
  have hpush : ∀ rs : List Register, stackNeed (rs.map .push) = 8 * rs.length := by
    intro rs
    induction rs with
    | nil => rfl
    | cons r rs ih =>
      rw [List.map_cons, stackNeed_cons, ih, List.length_cons, Instr.reserved]
      omega
  have hpop : ∀ rs : List Register, stackNeed (rs.map .pop) = 0 := by
    intro rs
    induction rs with
    | nil => rfl
    | cons r rs ih => rw [List.map_cons, stackNeed_cons, ih]; rfl
  simp only [savedCallCode, stackNeed_append, stackNeed_cons, hpush, hpop]
  split_ifs <;> rfl

/-- The code in front of a call with registers saved around it. -/
def saveCode (depth : Nat) (saved : List Register) : List Instr :=
  saved.map .push ++ if (depth + 8 * saved.length) % 16 != 0 then [adjustInstr .sub 8] else []

/-- The code behind a call with registers saved around it. -/
def restoreCode (depth : Nat) (saved : List Register) : List Instr :=
  (if (depth + 8 * saved.length) % 16 != 0 then [adjustInstr .add 8] else []) ++ saved.reverse.map .pop

theorem savedCallCode_eq (depth : Nat) (saved : List Register) (name : String) :
    savedCallCode depth saved name = saveCode depth saved ++ .call name :: restoreCode depth saved := by
  simp [savedCallCode, saveCode, restoreCode]

theorem callFree_saveCode {depth : Nat} {saved : List Register} : CallFree (saveCode depth saved) := by
  refine callFree_append.mpr ⟨callFree_of_forall (by simp), ?_⟩
  split <;> simp [adjustInstr]

theorem callFree_restoreCode {depth : Nat} {saved : List Register} :
    CallFree (restoreCode depth saved) := by
  refine callFree_append.mpr ⟨?_, callFree_of_forall (by simp)⟩
  split <;> simp [adjustInstr]

/-- A call with registers saved around it. -/
theorem around_savedCall {depth : Nat} {saved : List Register} {A : Machine → Prop} (name : String)
    (hsaved : ∀ r ∈ saved, r ∈ Register.allocatable)
    (hroom : stackNeed (savedCallCode depth saved name) ≤ (m.regs .rsp).toNat)
    (hA : ∀ m₁ : Machine, (∀ r, r ≠ .rsp → m₁.regs r = m.regs r) → A m₁) :
    P.Around (saveCode depth saved) (restoreCode depth saved) m A fun m' =>
      (∀ r ∈ saved, m'.regs r = m.regs r) ∧ m.Returned m' := by
  rw [stackNeed_savedCallCode] at hroom
  refine around_saved hsaved (by omega) fun m₁ hm₁ hsp => around_padded _ (fun hpadded => ?_) ?_
  · rw [if_pos hpadded] at hroom
    omega
  · exact fun m₂ hm₂ => hA m₂ fun r hr => (hm₂ r hr).trans (hm₁ r hr)

/-- The words in the argument registers are those that are to be passed, and `rax` is zero. -/
structure Passes (values : List Word) (m : Machine) : Prop where
  args : (Register.arguments.take values.length).map m.regs = values
  rax : m.regs .rax = 0

theorem Passes.congr {values : List Word} {m m' : Machine} (h : Passes values m)
    (hregs : ∀ r, r ≠ .rsp → m'.regs r = m.regs r) : Passes values m' where
  args := by
    have hargs : ∀ r ∈ Register.arguments, r ≠ .rsp := by decide
    rw [List.map_congr_left fun r hr => hregs r (hargs r (List.mem_of_mem_take hr)), h.args]
  rax := (hregs .rax (by decide)).trans h.rax

/-- A call with the values of its arguments in place: `rax` is cleared, and all values are where they were
behind the call. -/
theorem around_cleared {depth : Nat} {ls : List Location} (name : String) (hsound : h.used.Sound)
    (hval : h.Valued val m) (hplaced : (Register.arguments.take ls.length).map h = ls.map some)
    (hroom : stackNeed (savedCallCode depth (Register.allocatable.filter h.used) name) ≤
      (m.regs .rsp).toNat) :
    P.Around ([clearInstr] ++ saveCode depth (Register.allocatable.filter h.used))
      (restoreCode depth (Register.allocatable.filter h.used)) m (Passes (ls.map val))
      fun m' => h.Valued val m' ∧ m.Returned m' := by
  obtain ⟨flags, hclear⟩ := exec_clear P.labels m
  have hclear : P.Straight [clearInstr] m (· = (m.set .rax 0).withFlags flags) := .one hclear rfl
  refine .before hclear fun m₁ hm₁ => ?_
  have hregs : ∀ r, r ≠ .rax → m₁.regs r = m.regs r := fun r hr => by
    rw [hm₁]
    exact Machine.regs_set_of_ne _ _ _ hr
  have hreturned : m.Returned m₁ :=
    ⟨hregs _ (by decide), hregs _ (by decide), fun _ _ => by rw [hm₁]; rfl⟩
  have hval₁ : h.Valued val m₁ := fun {r l} hr => by
    have hused : r ∈ Register.allocatable := hsound r (by simp [Holding.used, hr])
    rw [hregs r (ne_of_allocatable hused).1, hval hr]
  have hpasses : Passes (ls.map val) m₁ := by
    refine ⟨?_, ?_⟩
    · rw [List.length_map, hval₁.map_eq hplaced]
    · rw [hm₁]
      exact Machine.regs_set_self m .rax 0
  have hcall := around_savedCall (P := P) name (fun r hr => (List.mem_filter.mp hr).1)
    (hreturned.rsp ▸ hroom) fun _ => hpasses.congr
  refine hcall.mono (fun _ => id) fun m₂ hm₂ => ⟨fun {r l} hr => ?_, hreturned.trans hm₂.2⟩
  have hused : h.used r = true := by simp [Holding.used, hr]
  rw [hm₂.1 r (List.mem_filter.mpr ⟨hsound r hused, hused⟩), hval₁ hr]

/-- The code of a call passes the values of the arguments, and keeps what is in use. -/
theorem CallCode.around {depth bytes : Nat} {name : String}
    (hcall : CallCode pool look h depth name args n code n' bytes) (hsound : h.used.Sound)
    (hapart : h.Apart) :
    ∃ front behind, code = front ++ .call name :: behind ∧ CallFree front ∧ CallFree behind ∧
      ∀ {P : Image} {strings : String → Word} {env : Meaning.Env} {m : Machine} {values : List Word},
        P.Unique → P.Holds pool strings → Sees h.used look env m →
        (args.map Prod.fst).mapM (Meaning.eval strings env) = some values →
        stackNeed code ≤ (m.regs .rsp).toNat →
        P.Around front behind m (Passes values) (Preserves h.used m) := by
  obtain ⟨-, c, rs, ls, there, back, h', hargs, hlen, hnodup, hnew, hthere, hplaced, hback, -, rfl⟩ :=
    hcall
  obtain ⟨hrs, hfree⟩ := hargs.free
  have hsound₁ : (h.putAll (rs.zip ls)).used.Sound :=
    Holding.sound_putAll hsound fun r hr => (hfree r hr).1
  have hapart₁ : (h.putAll (rs.zip ls)).Apart := hapart.putAll hnodup hnew
  refine ⟨c ++ (moveCode there ++ ([clearInstr] ++ saveCode depth (Register.allocatable.filter h'.used))),
    restoreCode depth (Register.allocatable.filter h'.used) ++ moveCode back, by simp [savedCallCode_eq],
    ?_, ?_, ?_⟩
  · simp [hargs.callFree, callFree_moveCode, callFree_saveCode, clearInstr]
  · simp [callFree_moveCode, callFree_restoreCode]
  intro P strings env m values hunique hpool hsees hvalues hroom
  simp only [stackNeed_append, stackNeed_cons] at hroom
  -- the arguments, each in a register of its own
  refine .before (hargs.straight hunique hpool hsound hsees hvalues (by omega)) fun m₁ hm₁ => ?_
  obtain ⟨hkeeps₁, hm₁⟩ := hm₁
  obtain ⟨val, hval₁⟩ := hapart₁.valued m₁
  obtain rfl : ls.map val = values := by rw [← hval₁.map_eq (Holding.map_putAll hrs hlen), hm₁]
  -- the moves to the argument registers, the call, and the moves back
  refine .before (hthere.straight hval₁) fun m₂ hm₂ => ?_
  obtain ⟨hval₂, hreturned₂⟩ := hm₂
  have hsp₂ : m₂.regs .rsp = m.regs .rsp := hreturned₂.rsp.trans hkeeps₁.rsp
  refine (around_cleared name (hthere.sound hsound₁) hval₂ hplaced (by rw [hsp₂]; omega)).after
    fun m₃ hm₃ => ?_
  obtain ⟨hval₃, hreturned₃⟩ := hm₃
  refine (hback.straight hval₃.forget).mono fun m₄ hm₄ => ?_
  obtain ⟨hval₄, hreturned₄⟩ := hm₄
  refine ⟨hkeeps₁.toReturned.trans (hreturned₂.trans (hreturned₃.trans hreturned₄)), fun q hq => ?_⟩
  obtain ⟨l, hl⟩ := Option.isSome_iff_exists.mp hq
  have hq₁ : h.putAll (rs.zip ls) q = some l := by
    rw [Holding.putAll_of_not_mem fun hmem => (hfree q hmem).ne hq rfl, hl]
  rw [hval₄ hl, ← hval₁ hq₁, hkeeps₁.regs q hq]

/-- The code of a call makes the call, and keeps what is in use. -/
theorem CallCode.through {depth bytes : Nat} {name : String} {values : List Word} (hunique : P.Unique)
    (hpool : P.Holds pool strings)
    (hcall : CallCode pool look h depth name args n code n' bytes) (hsound : h.used.Sound)
    (hapart : h.Apart)
    (hsees : Sees h.used look env m)
    (hvalues : (args.map Prod.fst).mapM (Meaning.eval strings env) = some values)
    (hroom : stackNeed code ≤ (m.regs .rsp).toNat) :
    P.Through code m fun m' new =>
      Preserves h.used m m' ∧ ∃ record, new = [record] ∧ Makes record ⟨name, values⟩ := by
  obtain ⟨front, behind, hcode, -, -, haround⟩ := hcall.around hsound hapart
  have haround := haround hunique hpool hsees hvalues hroom
  rw [hcode]
  refine (haround.through name).mono fun m' new hnew => ?_
  obtain ⟨hkeeps, m₁, hpasses, rfl⟩ := hnew
  refine ⟨hkeeps, _, rfl, rfl, ?_⟩
  show (Register.arguments.map m₁.regs).take values.length = values
  rw [← List.map_take, hpasses.args]

end ProcLang.Generation

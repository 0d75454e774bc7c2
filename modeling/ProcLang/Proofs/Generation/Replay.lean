import ProcLang.Proofs.Generation.Erasure
import ProcLang.Proofs.Register.Shuffle

/-!
The reports on registers, replayed.  Who takes a register for occupied when it is reported set, and for
free when it is reported cleared, always knows which registers are occupied: no register is set twice or
cleared twice, and whenever a node starts or ends the registers that the file has in use are those of the
replay.  Each move of code generation reports just what it does to the file, so this holds of every run,
also of one that fails.
-/

namespace ProcLang.Generation

open RegisterFile (Lawful Relocated relocated_of_ok isFree_iff isFree_of_firstFreeExcept?)

/-! ### Replaying reports -/

/-- No register is in use. -/
def Used.none : Used := fun _ => false

/-- One register less in use. -/
def Used.remove (used : Used) (r : Register) : Used := fun q => q != r && used q

/-- The registers in use behind a report. -/
def Used.heard (used : Used) (e : Event) : Used :=
  match e.happening, e.register with
  | .parameterSet, some r | .registerSet, some r => used.add r
  | .registerCleared, some r => used.remove r
  | _, _ => used

/-- The registers in use behind some reports. -/
def Used.replay (used : Used) (events : List Event) : Used := events.foldl heard used

/-- The reports among marks, in order. -/
def reports (marks : List (Mark × State)) : List Event := marks.filterMap (·.1.event?)

theorem reports_append (ms ms' : List (Mark × State)) : reports (ms ++ ms') = reports ms ++ reports ms' :=
  List.filterMap_append

theorem replay_append {used : Used} (es es' : List Event) :
    used.replay (es ++ es') = (used.replay es).replay es' :=
  List.foldl_append

/-- A report is fair to a listener: what is set was free, what is cleared was in use, and when a node
starts or ends, the registers in use are those of the file. -/
structure Fair (used : Used) (e : Event) (f : RegisterFile) : Prop where
  set : e.happening = .parameterSet ∨ e.happening = .registerSet →
    ∃ r, e.register = some r ∧ used r = false
  cleared : e.happening = .registerCleared → ∃ r, e.register = some r ∧ used r = true
  node : e.happening = .nodeStart ∨ e.happening = .nodeEnd → ∀ r, used r = true ↔ r ∈ f.occupied

/-- All reports among marks are fair to a listener who takes some registers for occupied before. -/
def Faithful (used : Used) (marks : List (Mark × State)) : Prop :=
  ∀ before e s after, marks = before ++ (.event e, s) :: after →
    Fair (used.replay (reports before)) e s.registers

section Faithful

variable {used : Used} {marks marks' : List (Mark × State)} {s : State} {e : Event} {i : Instr}

theorem faithful_nil : Faithful used [] := by
  intro before e s after h
  simp at h

theorem faithful_instr (h : Faithful used marks) : Faithful used ((.instr i, s) :: marks) := by
  intro before e t after heq
  cases before with
  | nil => cases heq
  | cons first before =>
    obtain ⟨rfl, htail⟩ := List.cons.inj heq
    exact h before e t after htail

theorem faithful_event (he : Fair used e s.registers) (h : Faithful (used.heard e) marks) :
    Faithful used ((.event e, s) :: marks) := by
  intro before e' t after heq
  cases before with
  | nil =>
    cases heq
    exact he
  | cons first before =>
    obtain ⟨rfl, htail⟩ := List.cons.inj heq
    exact h before e' t after htail

theorem Faithful.append (h : Faithful used marks) (h' : Faithful (used.replay (reports marks)) marks') :
    Faithful used (marks ++ marks') := by
  intro before e s after heq
  rcases List.append_eq_append_iff.mp heq with ⟨front, rfl, hfront⟩ | ⟨back, hmarks, hback⟩
  · have hfair := h' front e s after hfront
    rwa [reports_append, replay_append]
  · cases back with
    | nil =>
      rw [List.append_nil] at hmarks
      subst hmarks
      have hfair := h' [] e s after hback.symm
      exact hfair
    | cons first back =>
      obtain ⟨rfl, -⟩ := List.cons.inj hback
      exact h before e s back hmarks

end Faithful

/-! ### Moves -/

/-- A run from a state has reported faithfully what it did to the registers, and left the file lawful. -/
structure Told {α : Type} (s : State) (run : Outcome Mark State α) : Prop where
  faithful : Faithful s.used run.marks
  lawful : ∀ a, run.result = .ok a → run.state.registers.Lawful
  used : ∀ a, run.result = .ok a → run.state.used = s.used.replay (reports run.marks)

/-- A part of code generation reports faithfully what it does to a lawful file. -/
def Tells {α : Type} (x : Gen α) : Prop := ∀ s : State, s.registers.Lawful → Told s (x s)

section Moves

variable {α β : Type} {x : Gen α} {f : α → Gen β} {l : Location} {r : Register} {s : State}

/-- The registers in use are known of a lawful file. -/
theorem mem_occupied {f : RegisterFile} (hf : f.Lawful) : f.slots.contains r = true ↔ r ∈ f.occupied := by
  rw [RegisterFile.occupied, List.mem_filter]
  refine ⟨fun h => ⟨?_, h⟩, fun h => h.2⟩
  obtain ⟨slot, hslot⟩ := Option.isSome_iff_exists.mp h
  exact hf.allocatable hslot

theorem tells_bind {V : α → Prop}
    (hV : ∀ s : State, s.registers.Lawful → ∀ a, (x s).result = .ok a → V a) (hx : Tells x)
    (hf : ∀ a, V a → Tells (f a)) : Tells (x >>= f) := by
  intro s hs
  have hV := hV s hs
  have hx := hx s hs
  change Told s (Stage.bind x f s)
  unfold Stage.bind
  generalize x s = run at hV hx ⊢
  rcases run with ⟨marks, err | a, s'⟩
  · exact ⟨hx.faithful, fun _ h => (by cases h), fun _ h => (by cases h)⟩
  have hused := hx.used a rfl
  have hrest := hf a (hV a rfl) s' (hx.lawful a rfl)
  refine ⟨hx.faithful.append (hused ▸ hrest.faithful), hrest.lawful, fun b hb => ?_⟩
  rw [hrest.used b hb, hused, reports_append, replay_append]

theorem tells_then (hx : Tells x) (hf : ∀ a, Tells (f a)) : Tells (x >>= f) :=
  tells_bind (V := fun _ => True) (fun _ _ _ _ => trivial) hx fun a _ => hf a

/-- A run that leaves no mark and the registers as they are. -/
theorem told_of_silent {run : Outcome Mark State α} (hs : s.registers.Lawful) (hmarks : run.marks = [])
    (hregisters : ∀ a, run.result = .ok a → run.state.registers = s.registers) : Told s run where
  faithful := hmarks ▸ faithful_nil
  lawful a ha := hregisters a ha ▸ hs
  used a ha := by rw [State.used, hregisters a ha, hmarks]; rfl

theorem tells_emit {i : Instr} : Tells (emit i) :=
  fun _ hs => ⟨faithful_instr faithful_nil, fun _ _ => hs, fun _ _ => rfl⟩

theorem tells_node {happening : Happening} {tag : Tag} {kind : NodeKind}
    (h : happening = .nodeStart ∨ happening = .nodeEnd) : Tells (nodeEvent happening tag kind) := by
  intro s hs
  refine ⟨faithful_event ⟨?_, ?_, fun _ r => mem_occupied hs⟩ faithful_nil, fun _ _ => hs, fun _ _ => ?_⟩
  · rcases h with rfl | rfl <;> rintro (h | h) <;> cases h
  · rcases h with rfl | rfl <;> intro h <;> cases h
  · rcases h with rfl | rfl <;> rfl

/-! ### Registers set and cleared -/

/-- The report on a register. -/
def registerReport (happening : Happening) (r : Register) (l : Location) : Event :=
  { mode := .codegen, happening := happening, register := some r, location := some l }

section Reports

variable {used : Used} {file : RegisterFile} {happening : Happening}

theorem fair_set (h : happening = .parameterSet ∨ happening = .registerSet) (hr : used r = false) :
    Fair used (registerReport happening r l) file := by
  refine ⟨fun _ => ⟨r, rfl, hr⟩, ?_, ?_⟩
  · rcases h with rfl | rfl <;> intro h <;> cases h
  · rcases h with rfl | rfl <;> rintro (h | h) <;> cases h

theorem fair_cleared (hr : used r = true) : Fair used (registerReport .registerCleared r l) file := by
  refine ⟨?_, fun _ => ⟨r, rfl, hr⟩, ?_⟩ <;> rintro (h | h) <;> cases h

theorem heard_set (h : happening = .parameterSet ∨ happening = .registerSet) :
    used.heard (registerReport happening r l) = used.add r := by
  rcases h with rfl | rfl <;> rfl

theorem used_eq_false (h : file.slots.get? r = none) : file.slots.contains r = false := by
  rw [Table.contains, h]
  rfl

theorem used_eq_true {slot : Slot} (h : file.slots.get? r = some slot) : file.slots.contains r = true := by
  rw [Table.contains, h]
  rfl

end Reports

/-! ### The registers in use, after a change of the file -/

section Changes

variable {f g : RegisterFile}

theorem used_erase (slots : Table Register Slot) (r : Register) :
    (slots.erase r).contains = Used.remove slots.contains r := by
  funext q
  simp only [Used.remove, Table.contains, Table.get?_erase]
  by_cases h : q = r <;> simp [h]

/-- A register that was claimed was free. -/
theorem claimed_of_ok {parameter : Bool} (h : f.claim r l parameter = .ok g) :
    f.slots.get? r = none ∧ g.slots = (f.place r ⟨l, parameter⟩).slots := by
  unfold RegisterFile.claim at h
  split at h
  case isFalse => cases h
  split at h
  · cases h
  next hfree =>
  split at h
  · cases h
  · cases h
    refine ⟨hfree, ?_⟩
    cases parameter <;> rfl

theorem used_swap {old new : Location} (h : f.swap r old new = .ok g) :
    g.slots.contains = f.slots.contains := by
  obtain ⟨p, hswapped⟩ := RegisterFile.swapped_of_ok h
  funext q
  simp only [Table.contains, hswapped.slots]
  by_cases hq : q = r
  · simp [hq, hswapped.held]
  · simp [hq]

theorem used_relocated {source target : Register} {slot : Slot} (h : Relocated f target source slot g) :
    g.slots.contains = (Used.remove f.slots.contains source).add target := by
  funext q
  simp only [Used.add, Used.remove, Table.contains, h.slots]
  by_cases hq : q = target
  · simp [hq]
  · have htarget : (q == target) = false := beq_eq_false_iff_ne.mpr hq
    by_cases hq' : q = source
    · subst hq'
      simp [hq]
    · have hsource : (q != source) = true := bne_iff_ne.mpr hq'
      simp [hq, hq', htarget, hsource]

end Changes

/-- A free register was taken, and this was reported. -/
theorem told_set {happening : Happening} {file : RegisterFile} {a : α}
    (h : happening = .parameterSet ∨ happening = .registerSet) (hr : s.registers.slots.get? r = none)
    (hfile : file.Lawful) (hused : file.slots.contains = s.used.add r) :
    Told s ⟨[(.event (registerReport happening r l), s.withRegisters file)], .ok a,
      s.withRegisters file⟩ where
  faithful := faithful_event (fair_set h (used_eq_false hr)) faithful_nil
  lawful _ _ := hfile
  used _ _ := hused.trans (heard_set h).symm

/-- A run that was refused by the file. -/
theorem told_refused {e : CompileError} {s' : State} :
    Told s (⟨[], .error e, s'⟩ : Outcome Mark State α) where
  faithful := faithful_nil
  lawful _ h := by cases h
  used _ h := by cases h

theorem tells_registerFor : Tells (registerFor l) := by
  intro s hs
  cases hfound : s.registers.registerOf? l with
  | some r =>
    refine told_of_silent hs ?_ fun a ha => ?_
    · simp [registerFor, bind, Stage.bind, Stage.get, RegisterFile.allocate, hfound, orLack, setRegisters,
        Stage.modify, pure, Stage.pure]
    · simp [registerFor, bind, Stage.bind, Stage.get, RegisterFile.allocate, hfound, orLack, setRegisters,
        Stage.modify, pure, Stage.pure]
  | none =>
    cases hfirst : s.registers.firstFreeExcept? [] with
    | none =>
      have hrun : registerFor l s = ⟨[], .error (.resource .noRegister), s⟩ := by
        simp [registerFor, bind, Stage.bind, Stage.get, RegisterFile.allocate, hfound, hfirst, orLack,
          Stage.fail]
      exact hrun ▸ told_refused
    | some r =>
      have hrun : registerFor l s =
          ⟨[(.event (registerReport .registerSet r l), s.withRegisters (s.registers.place r ⟨l, false⟩))],
            .ok r, s.withRegisters (s.registers.place r ⟨l, false⟩)⟩ := by
        simp [registerFor, bind, Stage.bind, Stage.get, RegisterFile.allocate, hfound, hfirst, orLack,
          setRegisters, Stage.modify, registerEvent, notify, Stage.mark, pure, Stage.pure,
          State.withRegisters, registerReport]
      have hfree := (isFree_of_firstFreeExcept? hfirst).1
      exact hrun ▸ told_set (.inr rfl) (isFree_iff.mp hfree).2 (hs.place hfree hfound)
        (used_place _ _ _)

theorem tells_claimParameter : Tells (claimParameter r l) := by
  intro s hs
  cases hclaim : s.registers.claim r l true with
  | error cause =>
    have hrun : claimParameter r l s = ⟨[], .error (.resource cause), s⟩ := by
      simp [claimParameter, bind, Stage.bind, Stage.get, hclaim, orLack, Stage.fail]
    exact hrun ▸ told_refused
  | ok file =>
    have hrun : claimParameter r l s =
        ⟨[(.event (registerReport .parameterSet r l), s.withRegisters file)], .ok (),
          s.withRegisters file⟩ := by
      simp [claimParameter, bind, Stage.bind, Stage.get, hclaim, orLack, setRegisters, Stage.modify,
        registerEvent, notify, Stage.mark, pure, Stage.pure, State.withRegisters, registerReport]
    obtain ⟨hfree, hslots⟩ := claimed_of_ok hclaim
    exact hrun ▸ told_set (.inl rfl) hfree (hs.claim hclaim) (hslots ▸ used_place _ _ _)

theorem tells_release : Tells (release l) := by
  intro s hs
  cases hfound : s.registers.registerOf? l with
  | none =>
    have hrun : release l s = ⟨[], .ok (), s.withRegisters { s.registers with
        homes := s.registers.homes.erase l }⟩ := by
      simp [release, bind, Stage.bind, Stage.get, RegisterFile.release, hfound, setRegisters, Stage.modify,
        pure, Stage.pure, State.withRegisters]
    rw [hrun]
    exact ⟨faithful_nil, fun _ _ => hs.of_homes, fun _ _ => rfl⟩
  | some r =>
    have hrun : release l s = ⟨[(.event (registerReport .registerCleared r l),
        s.withRegisters (s.registers.release l).2)], .ok (),
        s.withRegisters (s.registers.release l).2⟩ := by
      simp [release, bind, Stage.bind, Stage.get, RegisterFile.release, hfound, setRegisters, Stage.modify,
        registerEvent, notify, Stage.mark, State.withRegisters, registerReport]
    obtain ⟨p, hheld⟩ := hs.held hfound
    have hslots : (s.registers.release l).2.slots = s.registers.slots.erase r := by
      simp [RegisterFile.release, hfound]
    rw [hrun]
    refine ⟨faithful_event (fair_cleared (used_eq_true hheld)) faithful_nil, fun _ _ => hs.release,
      fun _ _ => ?_⟩
    show (s.registers.release l).2.slots.contains = s.used.remove r
    exact hslots ▸ used_erase _ _

theorem tells_swap {old new : Location} : Tells (swap r old new) := by
  intro s hs
  cases hswap : s.registers.swap r old new with
  | error cause =>
    have hrun : swap r old new s = ⟨[], .error (.resource cause), s⟩ := by
      simp [swap, bind, Stage.bind, Stage.get, hswap, orLack, Stage.fail]
    exact hrun ▸ told_refused
  | ok file =>
    have hrun : swap r old new s = ⟨[], .ok (), s.withRegisters file⟩ := by
      simp [swap, bind, Stage.bind, Stage.get, hswap, orLack, setRegisters, Stage.modify, pure, Stage.pure,
        State.withRegisters]
    rw [hrun]
    exact ⟨faithful_nil, fun _ _ => hs.swap hswap, fun _ _ => used_swap hswap⟩

theorem tells_relocate {source target : Register} : Tells (relocate source target) := by
  intro s hs
  cases hmove : s.registers.relocate source target with
  | error cause =>
    have hrun : relocate source target s =
        ⟨[(.instr (.mov .quad (.reg target) (.reg source)), s)], .error (.resource cause), s⟩ := by
      simp [relocate, copy, emit, Stage.mark, bind, Stage.bind, Stage.get, hmove, orLack, Stage.fail]
    rw [hrun]
    exact ⟨faithful_instr faithful_nil, fun _ h => (by cases h), fun _ h => (by cases h)⟩
  | ok answer =>
    obtain ⟨l, file⟩ := answer
    have hrun : relocate source target s = ⟨[(.instr (.mov .quad (.reg target) (.reg source)), s),
        (.event (registerReport .registerCleared source l), s.withRegisters file),
        (.event (registerReport .registerSet target l), s.withRegisters file)], .ok (),
        s.withRegisters file⟩ := by
      simp [relocate, copy, emit, bind, Stage.bind, Stage.get, hmove, orLack, setRegisters, Stage.modify,
        registerEvent, notify, Stage.mark, pure, Stage.pure, State.withRegisters, registerReport]
    obtain ⟨slot, hmoved⟩ := relocated_of_ok hmove
    have hfree : s.used.remove source target = false := by
      rw [Used.remove, State.used, used_eq_false (isFree_iff.mp hmoved.free).2, Bool.and_false]
    rw [hrun]
    exact ⟨faithful_instr (faithful_event (fair_cleared (used_eq_true hmoved.held))
      (faithful_event (fair_set (.inr rfl) hfree) faithful_nil)), fun _ _ => hs.relocate hmove,
      fun _ _ => used_relocated hmoved⟩

theorem tells_stringLiteral {raw : String} : Tells (stringLiteral raw l) := by
  have hintern : Tells (internString raw) := fun s hs => told_of_silent hs rfl fun _ _ => rfl
  have hreturn : Tells (return DataType.int) := fun s hs => told_of_silent hs rfl fun _ _ => rfl
  exact tells_then hintern fun label => tells_then tells_registerFor fun r =>
    tells_then tells_emit fun _ => hreturn

end Moves

theorem Step.tells {α : Type} {raws : List String} {V : α → Prop} {x : Gen α}
    (h : Step False False raws V x) : Tells x := by
  induction h with
  | pure | get | setScopes => exact fun s hs => told_of_silent hs rfl fun _ _ => rfl
  | fail => exact fun s hs => told_refused
  | seq hx _ ihx ihf =>
    exact tells_bind (fun s hs a ha => ((hx.gives s (good_of_lawful hs)).value ha).1) ihx ihf
  | modify hregisters => exact fun s hs => told_of_silent hs rfl fun _ _ => hregisters s
  | emit => exact tells_emit
  | registerFor => exact tells_registerFor
  | claimParameter => exact tells_claimParameter
  | release => exact tells_release
  | swap => exact tells_swap
  | relocate => exact tells_relocate
  | string => exact tells_stringLiteral

/-- Every run of code generation, to its end or to an error, tells what it does to the registers. -/
theorem Built.tells {o o' : Options} {α : Type} {names raws : List String} {x y : Gen α}
    (h : Built False False o o' names raws x y) : Tells x := by
  induction h with
  | plain hx => exact hx.tells
  | fail => exact fun s hs => told_refused
  | given hx _ ih =>
    exact tells_bind (fun s hs a ha => ((hx.gives s (good_of_lawful hs)).value ha).1) hx.tells ih
  | bind _ _ ihx ihf => exact tells_then ihx ihf
  | node tag kind _ ih =>
    exact tells_then (tells_node (.inl rfl)) fun _ => tells_then ih fun _ =>
      tells_then (tells_node (.inr rfl)) fun _ s hs => told_of_silent hs rfl fun _ _ => rfl
  | annotate => exact fun s hs => told_of_silent hs rfl fun _ _ => rfl
  | comment =>
    unfold Generation.comment
    split
    · exact tells_emit
    · exact fun s hs => told_of_silent hs rfl fun _ _ => rfl
  | check =>
    intro s hs
    rw [checkRegisters_of_good (good_of_lawful hs)]
    exact told_of_silent hs rfl fun _ _ => rfl
  | addExtern =>
    refine fun s hs => told_of_silent hs rfl fun _ _ => ?_
    show (if _ then s else _ : State).registers = _
    split <;> rfl

/-! ### Whole programs -/

section Program

variable {options : Options} {source : String} {ast : Ast} {tokens : List Token}

theorem told_program : Told {} (program options ast {}) := by
  obtain ⟨names, hbuilt⟩ := exists_built_program options options ast
  exact hbuilt.tells {} Lawful.empty

/-- No register is in use when a program that was read has been generated. -/
theorem registers_of_generate (hparse : parse tokens = .ok ast) {p : Program}
    (hgen : (generate options source ast).result = .ok p) :
    (generate options source ast).state.registers = {} := by
  obtain ⟨rootTag, procs, hroot, hwf⟩ := wellFormed_of_parse hparse
  obtain ⟨A, hA⟩ := @emits_whole_program options ast rootTag procs hroot hwf
  have hrun := hA (fun _ _ _ _ => True) (fun _ _ _ _ _ _ _ _ => trivial)
    fun _ _ _ _ _ _ _ _ _ _ _ _ _ _ _ _ _ _ _ => trivial
  exact (Stage.Ensures.value hrun (ok_generate hgen).1).1

/-- The reports on registers are a faithful record of the file, for whoever hears them and lets them pass:
replayed from no register in use on, each report of a register that was set is of one that is free, each
report of one that was cleared is of one in use, and at the start and the end of every node the registers in
use are those of the file.  When a program has been generated, none is in use. -/
theorem registers_replayed (hparse : parse tokens = .ok ast) (options : Options) (source : String) :
    (∀ {ω : Type} (ob : Observer ω) (w : ω), ob.Passive →
      ob.watch Mark.event? w (generate options source ast) =
        (((generate options source ast).result, (generate options source ast).state),
          ob.told w (reports (generate options source ast).marks))) ∧
    (∀ before e s after, (generate options source ast).marks = before ++ (.event e, s) :: after →
      Fair (Used.none.replay (reports before)) e s.registers) ∧
    ∀ p, (generate options source ast).result = .ok p →
      Used.none.replay (reports (generate options source ast).marks) = Used.none := by
  refine ⟨fun ob w hpassive => hpassive.watch_eq _ _, told_program.faithful, fun p hgen => ?_⟩
  have hempty := registers_of_generate hparse hgen
  rw [result_generate] at hgen
  cases hr : (program options ast {}).result with
  | error e =>
    rw [hr] at hgen
    cases hgen
  | ok u =>
    have hused : (program options ast {}).state.used =
        Used.none.replay (reports (program options ast {}).marks) :=
      told_program.used u hr
    have hnone : (program options ast {}).state.used = Used.none := by
      show (generate options source ast).state.registers.slots.contains = Used.none
      rw [hempty]
      rfl
    exact hused.symm.trans hnone

/-- At the end of a node in a program with a call and a division, three registers are in use. -/
theorem registers_replayed_division : ∃ tokens ast before e s after,
    parse tokens = .ok ast ∧
    (generate {} "t.mc" ast).marks = before ++ (.event e, s) :: after ∧ e.happening = .nodeEnd ∧
    s.registers.occupied.length = 3 ∧
    (∀ r, Used.none.replay (reports before) r = true ↔ r ∈ s.registers.occupied) ∧
    Used.none.replay (reports (generate {} "t.mc" ast).marks) = Used.none := by
  have hpasses : passes "t.mc"
      "extern void g(int a, int b); int f(int a, int b) \x7b g(b, a); return a / b; \x7d"
      (fun ast => (generate {} "t.mc" ast).result.toOption.isSome &&
        (generate {} "t.mc" ast).marks.any fun m => m.2.registers.occupied.length = 3 &&
          (m.1.event?.any fun e => e.happening = .nodeEnd)) = true := by
    decide +kernel
  obtain ⟨tokens, ast, -, hparse, htest⟩ := exists_of_passes hpasses
  obtain ⟨hok, hmark⟩ := Bool.and_eq_true_iff.mp htest
  obtain ⟨⟨m, s⟩, hmem, hm⟩ := List.any_eq_true.mp hmark
  obtain ⟨hcount, hevent⟩ := Bool.and_eq_true_iff.mp hm
  obtain ⟨e, he, hend⟩ := (Option.any_eq_true _ _).mp hevent
  cases m with
  | instr i => cases he
  | event e' =>
  obtain rfl : e' = e := Option.some.inj he
  obtain ⟨before, after, hmarks⟩ := List.append_of_mem hmem
  obtain ⟨-, hfair, hempty⟩ := registers_replayed hparse {} "t.mc"
  cases hgen : (generate {} "t.mc" ast).result with
  | error e => simp [hgen, Except.toOption] at hok
  | ok p =>
    exact ⟨tokens, ast, before, e', s, after, hparse, hmarks, of_decide_eq_true hend,
      of_decide_eq_true hcount, (hfair before e' s after hmarks).node (.inr (of_decide_eq_true hend)),
      hempty p hgen⟩

end Program

end ProcLang.Generation

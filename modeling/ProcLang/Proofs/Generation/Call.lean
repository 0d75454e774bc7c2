import ProcLang.Proofs.Generation.Expression
import ProcLang.Proofs.Register.Shuffle

/-!
What code generation for a call does.  The arguments are computed and moved into their registers; in
the end every parameter of the procedure is at home again, so the register file is what it was.
-/

namespace ProcLang.Generation

open RegisterFile (Lawful Flagged Shuffle Relocated OnlyParameters HoldsParameters Away Rearranged)

variable {P : Happening → Tag → NodeKind → State → Prop} {s s' : State}

/-! ### Moves -/

/-- The registers were shuffled, by the code of the moves. -/
def Shuffled (s : State) (code : List Instr) (s' : State) : Prop :=
  ∃ moves, Shuffle s.registers moves s'.registers ∧ code = moveCode moves ∧
    s' = s.withRegisters s'.registers

theorem Shuffled.refl : Shuffled s [] s := ⟨[], .nil, rfl, rfl⟩

theorem Shuffled.trans {t : State} {c c' : List Instr} (h : Shuffled s c s') (h' : Shuffled s' c' t) :
    Shuffled s (c ++ c') t := by
  obtain ⟨moves, hm, rfl, hs⟩ := h
  obtain ⟨moves', hm', rfl, hs'⟩ := h'
  refine ⟨moves ++ moves', hm.append hm', by simp [moveCode], ?_⟩
  rw [hs', hs]
  rfl

theorem does_relocate_free {source target : Register} {slot : Slot}
    {Q : List Instr → Unit → State → Prop} (hfree : s.registers.isFree target = true)
    (hheld : s.registers.slots.get? source = some slot)
    (hQ : ∀ f, Relocated s.registers target source slot f →
      Q [copyInstr target source] () (s.withRegisters f)) :
    Does P (relocate source target) s Q := by
  obtain ⟨f, hf, hrel⟩ := RegisterFile.relocate_of_free hfree hheld
  exact (does_relocate hf).mpr (hQ f hrel)

theorem shuffled_relocated {source target : Register} {slot : Slot} {f : RegisterFile}
    (h : Relocated s.registers target source slot f) :
    Shuffled s [copyInstr target source] (s.withRegisters f) :=
  ⟨[(target, source)], .single h, rfl, rfl⟩

theorem does_spareRegister {avoid lastly : List Register} {Q : List Instr → Register → State → Prop}
    (hQ : ∀ r, s.registers.isFree r = true → Q [] r s) :
    Does P (spareRegister avoid lastly) s Q := by
  simp only [spareRegister, does_bind, does_get]
  cases hfirst : s.registers.firstFreeExcept? avoid with
  | some r => exact does_return.mpr (hQ r (RegisterFile.isFree_of_firstFreeExcept? hfirst).1)
  | none =>
    cases hlast : s.registers.firstFreeExcept? lastly with
    | none => exact does_fail.mpr .noRegister
    | some r => exact does_return.mpr (hQ r (RegisterFile.isFree_of_firstFreeExcept? hlast).1)

/-- A register that is free and may be taken is enough. -/
theorem exists_spareRegister {lastly : List Register} {r : Register} (avoid : List Register)
    (hr : s.registers.isFree r = true) (hlast : r ∉ lastly) :
    ∃ spare, s.registers.isFree spare = true ∧ spareRegister avoid lastly s = ⟨[], .ok spare, s⟩ := by
  simp only [spareRegister, Bind.bind, Stage.bind, Stage.get]
  cases hfirst : s.registers.firstFreeExcept? avoid with
  | some q => exact ⟨q, (RegisterFile.isFree_of_firstFreeExcept? hfirst).1, rfl⟩
  | none =>
    cases hq : s.registers.firstFreeExcept? lastly with
    | some q => exact ⟨q, (RegisterFile.isFree_of_firstFreeExcept? hq).1, rfl⟩
    | none =>
      have := List.find?_eq_none.mp hq r (RegisterFile.isFree_iff.mp hr).1
      simp [hr, hlast] at this

/-! ### Placing arguments -/

/-- A value goes to a free register, and no other value moves. -/
theorem does_moveTo {l : Location} {current target : Register} (hlaw : s.registers.Lawful)
    (hl : s.registers.registerOf? l = some current) (hfree : s.registers.isFree target = true) :
    Does P (registerOf l >>= fun r => relocate r target) s fun code _ s' => Shuffled s code s' ∧
      s'.registers.registerOf? l = some target ∧
      ∀ l', l' ≠ l → s'.registers.registerOf? l' = s.registers.registerOf? l' := by
  obtain ⟨p, hheld⟩ := hlaw.held hl
  simp only [does_bind, does_registerOf hl, List.nil_append]
  refine does_relocate_free hfree hheld fun f hf => ⟨shuffled_relocated hf, hf.registerOf?_self, ?_⟩
  intro l' hne
  exact hf.registerOf?_of_ne hne

/-- An argument comes into its register.  Of the other values only the one that stood there moves. -/
theorem does_placeArgument {targets : List Register} {l : Location} {target : Register}
    (hlaw : s.registers.Lawful) (hl : (s.registers.registerOf? l).isSome = true)
    (htarget : target ∈ Register.allocatable) :
    Does P (placeArgument targets l target) s fun code _ s' => Shuffled s code s' ∧
      s'.registers.registerOf? l = some target ∧
      ∀ l' r, l' ≠ l → r ≠ target → s.registers.registerOf? l' = some r →
        s'.registers.registerOf? l' = some r := by
  obtain ⟨current, hcurrent⟩ := Option.isSome_iff_exists.mp hl
  obtain ⟨p, hheld⟩ := hlaw.held hcurrent
  simp only [placeArgument, does_bind, does_registerOf hcurrent, List.nil_append]
  split
  · next heq =>
    subst heq
    exact does_return.mpr ⟨Shuffled.refl, hcurrent, fun _ _ _ _ h => h⟩
  next hne =>
  simp only [does_bind, does_get, List.nil_append]
  split
  · next hblocked =>
    -- the value in the way goes to a spare register first
    obtain ⟨slot, hslot⟩ : ∃ slot, s.registers.slots.get? target = some slot := by
      cases hslot : s.registers.slots.get? target with
      | some slot => exact ⟨slot, rfl⟩
      | none => simp [RegisterFile.isFree_iff.mpr ⟨htarget, hslot⟩] at hblocked
    have hother : l ≠ slot.location := by
      rintro rfl
      rw [RegisterFile.registerOf?, hlaw.indexed hslot] at hcurrent
      exact hne (Option.some.inj hcurrent).symm
    simp only [does_bind]
    refine does_spareRegister fun spare hspare => does_relocate_free hspare hslot fun f hf => ?_
    have hcurrent' : f.registerOf? l = some current := by
      rw [hf.registerOf?_of_ne hother, hcurrent]
    have hfree : f.isFree target = true := by
      refine RegisterFile.isFree_iff.mpr ⟨htarget, ?_⟩
      rw [hf.slots, if_neg hf.source_ne, if_pos rfl]
    have hmove := @does_moveTo P (s.withRegisters f) l current target (hf.lawful hlaw) hcurrent' hfree
    refine (does_bind.mp hmove).mono fun _ _ _ h => h.mono fun code _ s' hs' => ?_
    obtain ⟨hs', hl', hkeep⟩ := hs'
    refine ⟨(shuffled_relocated hf).trans hs', hl', fun l' r hne' hr hl' => ?_⟩
    have hne'' : l' ≠ slot.location := by
      rintro rfl
      rw [RegisterFile.registerOf?, hlaw.indexed hslot] at hl'
      exact hr (Option.some.inj hl').symm
    rw [hkeep l' hne']
    exact (hf.registerOf?_of_ne hne'').trans hl'
  · next hfree =>
    have hmove := @does_moveTo P s l current target hlaw hcurrent (by simpa using hfree)
    refine hmove.mono fun code _ s' hs' => ?_
    obtain ⟨hs', hl', hkeep⟩ := hs'
    exact ⟨hs', hl', fun l' r hne' _ hl' => by rw [hkeep l' hne', hl']⟩

theorem Shuffled.callFree {code : List Instr} (h : Shuffled s code s') : CallFree code := by
  obtain ⟨moves, -, rfl, -⟩ := h
  exact callFree_moveCode

theorem Shuffled.lawful {code : List Instr} (h : Shuffled s code s') (hlaw : s.registers.Lawful) :
    s'.registers.Lawful := by
  obtain ⟨moves, hm, -⟩ := h
  exact hm.lawful hlaw

theorem Shuffled.resident {code : List Instr} (h : Shuffled s code s') (hlaw : s.registers.Lawful)
    (l : Location) :
    (s'.registers.registerOf? l).isSome = (s.registers.registerOf? l).isSome := by
  obtain ⟨moves, hm, -⟩ := h
  exact hm.resident hlaw l

/-- Arguments come into their registers, one after another; those that are placed stay. -/
theorem does_placeArguments {targets : List Register} :
    ∀ {pairs : List (Location × Register)} {s : State}, s.registers.Lawful →
      (pairs.map Prod.fst).Nodup → (pairs.map Prod.snd).Nodup →
      (∀ p ∈ pairs, (s.registers.registerOf? p.1).isSome = true ∧ p.2 ∈ Register.allocatable) →
      Does P (Stage.forEach (fun p => placeArgument targets p.1 p.2) pairs) s
        fun code _ s' => Shuffled s code s' ∧
          (∀ p ∈ pairs, s'.registers.registerOf? p.1 = some p.2) ∧
          ∀ l r, l ∉ pairs.map Prod.fst → r ∉ pairs.map Prod.snd →
            s.registers.registerOf? l = some r → s'.registers.registerOf? l = some r
  | [], s, _, _, _, _ => does_return.mpr ⟨Shuffled.refl, by simp, fun _ _ _ _ h => h⟩
  | (l, target) :: pairs, s, hlaw, hls, hts, hpairs => by
    obtain ⟨hl, hls⟩ := List.nodup_cons.mp hls
    obtain ⟨ht, hts⟩ := List.nodup_cons.mp hts
    obtain ⟨hres, halloc⟩ := hpairs (l, target) List.mem_cons_self
    refine does_bind_eq.mpr ((does_placeArgument hlaw hres halloc).mono fun c _ s₁ h₁ => ?_)
    obtain ⟨hs₁, hplaced, hkeep⟩ := h₁
    have hpairs₁ : ∀ p ∈ pairs, (s₁.registers.registerOf? p.1).isSome = true ∧
        p.2 ∈ Register.allocatable := by
      intro p hp
      rw [hs₁.resident hlaw]
      exact hpairs p (List.mem_cons_of_mem _ hp)
    refine (does_placeArguments (hs₁.lawful hlaw) hls hts hpairs₁).mono fun c' _ s₂ h₂ => ?_
    obtain ⟨hs₂, hrest, hkeep₂⟩ := h₂
    refine ⟨hs₁.trans hs₂, ?_, ?_⟩
    · intro p hp
      rcases List.mem_cons.mp hp with rfl | hp
      · exact hkeep₂ l target hl ht hplaced
      · exact hrest p hp
    · intro l' r hl' hr hreg
      simp only [List.map_cons, List.mem_cons, not_or] at hl' hr
      exact hkeep₂ l' r hl'.2 hr.2 (hkeep l' r hl'.1 hr.1 hreg)

/-! ### The call itself -/

theorem does_pushAll {Q : List Instr → Unit → State → Prop} :
    ∀ {rs : List Register} {s : State}, Does P (pushAll rs) s Q ↔
      Q (rs.map .push) () (s.withDepth (s.stackDepth + 8 * rs.length))
  | [], s => does_return
  | r :: rs, s => by
    have hlen : s.stackDepth + 8 + 8 * rs.length = s.stackDepth + 8 * (r :: rs).length := by
      rw [List.length_cons]
      omega
    simp only [pushAll, does_bind, does_emit, does_setDepth, does_pushAll,
      State.stackDepth_withDepth, State.withDepth_withDepth, hlen]
    rfl

theorem does_popAll {Q : List Instr → Unit → State → Prop} :
    ∀ {rs : List Register} {s : State}, Does P (popAll rs) s Q ↔
      Q (rs.map .pop) () (s.withDepth (s.stackDepth - 8 * rs.length))
  | [], s => does_return
  | r :: rs, s => by
    have hlen : s.stackDepth - 8 - 8 * rs.length = s.stackDepth - 8 * (r :: rs).length := by
      rw [List.length_cons]
      omega
    simp only [popAll, does_bind, does_emit, does_setDepth, does_popAll,
      State.stackDepth_withDepth, State.withDepth_withDepth, hlen]
    rfl

/-- The account of the stack at the call is that of the saved registers and the alignment. -/
theorem emits_callSaved {name : String} {Q : List Instr → List Nat → Unit → State → Prop} :
    Emits P (callSaved name) s Q ↔ Q (savedCallCode s.stackDepth s.registers.occupied name)
      [savedCallDepth s.stackDepth s.registers.occupied] () s := by
  have hpush : ∀ {rs s Q}, Emits P (pushAll rs) s Q ↔
      Q (rs.map .push) [] () (s.withDepth (s.stackDepth + 8 * rs.length)) :=
    emits_of_rule (fun _ => does_pushAll) (callFree_of_forall (by simp))
  have hpop : ∀ {rs s Q}, Emits P (popAll rs) s Q ↔
      Q (rs.map .pop) [] () (s.withDepth (s.stackDepth - 8 * rs.length)) :=
    emits_of_rule (fun _ => does_popAll) (callFree_of_forall (by simp))
  have hadjust : ∀ {op bytes s Q}, Emits P (adjustStack op bytes) s Q ↔
      Q [adjustInstr op bytes] [] () s :=
    emits_of_rule (fun _ => does_adjustStack) (by simp [adjustInstr])
  have hdepth : ∀ {f s Q}, Emits P (setDepth f) s Q ↔ Q [] [] () (s.withDepth (f s.stackDepth)) :=
    emits_modify
  simp only [callSaved, emits_bind, emits_get, hpush, savedCallCode, savedCallDepth,
    List.nil_append, State.stackDepth_withDepth]
  split
  · next hpad => simp [hpad, emits_bind, hpop, hadjust, hdepth, emits_emit_call]
  · next hpad => simp [hpad, emits_bind, hpop, emits_emit_call]

/-! ### Targets and values of the arguments -/

/-- The parameters go in the argument registers from a place on, as far as they reach. -/
theorem does_argumentTargets {tag : Tag} {name : String}
    {Q : List Instr → List Register → State → Prop} :
    ∀ {params : List (DataType × ParameterClass)} (number place : Nat),
      (∀ i p, params[i]? = some p → p.2 = parameterClass (place + i)) →
      (place + params.length ≤ Register.arguments.length ∨ params = [] →
        Q [] ((Register.arguments.drop place).take params.length) s) →
      Does P (argumentTargets tag name number params) s Q
  | [], number, place, _, hQ => does_return.mpr (by simpa using hQ (.inr rfl))
  | (type, cls) :: rest, number, place, hclass, hQ => by
    obtain rfl : cls = parameterClass place := hclass 0 (type, cls) rfl
    have hrest : ∀ i p, rest[i]? = some p → p.2 = parameterClass (place + 1 + i) := by
      intro i p hp
      rw [hclass (i + 1) p (by simpa using hp)]
      congr 1
      omega
    cases hreg : Register.arguments[place]? with
    | none =>
      simp only [parameterClass, hreg, argumentTargets]
      exact does_refuse.mpr (.stackArgument ..)
    | some r =>
      obtain ⟨hlt, hget⟩ := List.getElem?_eq_some_iff.mp hreg
      simp only [parameterClass, hreg, argumentTargets, does_bind, does_return, List.append_nil]
      refine does_argumentTargets (number + 1) (place + 1) hrest fun hfew => ?_
      have hdrop : Register.arguments.drop place = r :: Register.arguments.drop (place + 1) := by
        rw [List.drop_eq_getElem_cons hlt, hget]
      have := hQ (.inl ?_)
      · rwa [hdrop, List.length_cons, List.take_succ_cons] at this
      · rcases hfew with hfew | rfl
        · rw [List.length_cons]
          omega
        · exact hlt

/-- The values of arguments were computed, each into a register of its own. -/
structure ArgsEvaluated (s : State) (args : List (Expr × DataType)) (code : List Instr)
    (ls : List Location) (s' : State) : Prop extends Later s s' where
  settled : Settled s'
  nodup : ls.Nodup
  issued : ∀ l ∈ ls, s.nextLocation ≤ l.number
  homes : s'.registers.homes = s.registers.homes
  resident : ∀ l, (s'.registers.registerOf? l).isSome = true ↔
    (s.registers.registerOf? l).isSome = true ∨ l ∈ ls
  flagged : s.registers.Flagged → s'.registers.Flagged
  coded : ∃ rs, rs.length = args.length ∧ ls.length = args.length ∧
    s'.registers.locationIn? = Holding.putAll s.registers.locationIn? (rs.zip ls) ∧
    ∀ pool, s'.constants.strings <+: pool →
      ArgsCode pool s.look s.used args s.nextLabel code rs s'.nextLabel

theorem locationIn?_place (f : RegisterFile) (r : Register) (slot : Slot) :
    (f.place r slot).locationIn? = Holding.put f.locationIn? r slot.location := by
  funext q
  simp only [RegisterFile.locationIn?, RegisterFile.get?_slots_place, Holding.put]
  split <;> rfl

theorem ArgsEvaluated.callFree {args : List (Expr × DataType)} {code : List Instr}
    {ls : List Location} (h : ArgsEvaluated s args code ls s') : CallFree code := by
  obtain ⟨rs, -, -, -, hcode⟩ := h.coded
  exact (hcode _ List.prefix_rfl).callFree

theorem does_argumentValues {names : List NameScope} :
    ∀ {args : List (Expr × DataType)} {s : State}, (∀ p ∈ args, p.1.WellFormed names) →
      Ready names s → Does P (argumentValues args) s fun code ls s' => ArgsEvaluated s args code ls s'
  | [], s, _, h => does_return.mpr
    { toLater := Later.refl s
      settled := h.toSettled
      nodup := .nil
      issued := by simp
      homes := rfl
      resident := by simp
      flagged := id
      coded := ⟨[], rfl, rfl, rfl, fun _ _ => .nil⟩ }
  | (e, type) :: rest, s, hwf, h => by
    simp only [argumentValues, does_bind, does_return, List.append_nil]
    refine (does_expression e type s (hwf _ List.mem_cons_self) h).mono fun c p s₁ h₁ => ?_
    obtain ⟨r, hc, hcode⟩ := h₁
    have hrest := fun p hp => hwf p (List.mem_cons_of_mem _ hp)
    refine (does_argumentValues hrest (hc.ready h)).mono fun c' ls s₂ h₂ => ?_
    have hnew : s.registers.index.get? p.1 = none := h.toSettled.index_eq_none hc.issued
    refine
      { toLater := hc.toLater.trans h₂.toLater
        settled := h₂.settled
        nodup := List.nodup_cons.mpr ⟨fun hmem => ?_, h₂.nodup⟩
        issued := ?_
        homes := ?_
        resident := ?_
        flagged := ?_
        coded := ?_ }
    · exact Nat.lt_irrefl _ (Nat.lt_of_lt_of_le hc.known (h₂.issued _ hmem))
    · intro l hl
      rcases List.mem_cons.mp hl with rfl | hl
      · exact hc.issued
      · exact Nat.le_trans hc.locations (h₂.issued l hl)
    · rw [h₂.homes, hc.placed, RegisterFile.homes_place]
    · intro l
      rw [h₂.resident, hc.placed, List.mem_cons]
      by_cases heq : l = p.1
      · simp [heq, RegisterFile.registerOf?, RegisterFile.get?_index_place]
      · simp [heq, RegisterFile.registerOf?_place_of_ne]
    · intro hflag
      refine h₂.flagged fun q slot hq => ?_
      rw [hc.placed, RegisterFile.get?_slots_place] at hq
      rw [hc.placed, RegisterFile.homes_place]
      split_ifs at hq with heq
      · obtain rfl := Option.some.inj hq
        rw [h.below.homes_eq_none hc.issued]
        rfl
      · exact hflag q slot hq
    · obtain ⟨rs, hrs, hls, hhold, hcodes⟩ := h₂.coded
      refine ⟨r :: rs, by simp [hrs], by simp [hls], ?_, fun pool hpool => ?_⟩
      · rw [hhold, hc.placed, locationIn?_place]
        rfl
      · have hcodes := hcodes pool hpool
        rw [hc.used, hc.look h] at hcodes
        exact .cons (hcode pool (h₂.constants.trans hpool)) hcodes

/-! ### Bringing the parameters home -/

/-- Enough moves are left: two for each parameter that is away, or one less if a home is free. -/
def EnoughMoves (f : RegisterFile) (moves : Nat) : Prop :=
  2 * f.displaced.length ≤ moves ∨ 2 * f.displaced.length ≤ moves + 1 ∧
    ∃ l current home, f.Away l current home ∧ f.isFree home = true

/-- One move home or out of the way.  It is not refused, and enough moves are left after it. -/
theorem exists_bringHome {l : Location} {current home : Register}
    {rest : List (Location × Register × Register)} {moves : Nat} (hlaw : s.registers.Lawful)
    (honly : s.registers.OnlyParameters) (hd : s.registers.displaced = (l, current, home) :: rest)
    (hmoves : EnoughMoves s.registers (moves + 1)) :
    ∃ source target slot f, s.registers.relocate source target = .ok (slot.location, f) ∧
      Relocated s.registers target source slot f ∧ EnoughMoves f moves ∧
      bringHome ((l, current, home) :: rest) home s = relocate source target s := by
  rw [← hd]
  cases hfind : s.registers.displaced.find? fun p => s.registers.isFree p.2.2 with
  | some p =>
    obtain ⟨l', current', home'⟩ := p
    have haway := RegisterFile.mem_displaced.mp (List.mem_of_find?_eq_some hfind)
    obtain ⟨p, hheld⟩ := hlaw.held haway.2.1
    obtain ⟨f, hf, hmoved⟩ := RegisterFile.relocate_of_free (by simpa using List.find?_some hfind) hheld
    refine ⟨_, _, _, f, hf, hmoved, .inl ?_, by simp [bringHome, Bind.bind, Stage.bind, Stage.get, hfind]⟩
    have hlt := haway.displaced_lt hlaw hmoved
    rcases hmoves with h | ⟨h, -⟩ <;> omega
  | none =>
    have hnone : ∀ l' current' home', s.registers.Away l' current' home' →
        s.registers.isFree home' = false := by
      intro l' current' home' haway
      simpa using List.find?_eq_none.mp hfind _ (RegisterFile.mem_displaced.mpr haway)
    have haway : s.registers.Away l current home :=
      RegisterFile.mem_displaced.mp (by rw [hd]; exact List.mem_cons_self)
    have hcount : 2 * s.registers.displaced.length ≤ moves + 1 := by
      rcases hmoves with h | ⟨-, l', current', home', haway', hfree'⟩
      · exact h
      · rw [hnone l' current' home' haway'] at hfree'
        cases hfree'
    -- no home is free, so the value at the first one's home is away itself
    have hblocked := hnone l current home haway
    obtain ⟨slot, hslot⟩ := honly.held haway hblocked
    obtain ⟨home', haway'⟩ := haway.blocker hlaw honly hslot
    obtain ⟨r, hr⟩ := honly.exists_free hlaw
    have hne : r ∉ [home] := fun hmem => by simp [← List.mem_singleton.mp hmem, hr] at hblocked
    obtain ⟨spare, hspare, hrun⟩ := exists_spareRegister Register.arguments hr hne
    obtain ⟨f, hf, hmoved⟩ := RegisterFile.relocate_of_free hspare hslot
    refine ⟨_, _, _, f, hf, hmoved, .inr ⟨?_, l, current, home, ⟨?_, ?_, haway.2.2⟩, ?_⟩, by
      simp [bringHome, Bind.bind, Stage.bind, Stage.get, hfind, hrun]⟩
    · have hle := haway'.displaced_le hmoved
      omega
    · exact (congrArg (·.get? l) hmoved.homes).trans haway.1
    · have hne : l ≠ slot.location := by
        rintro rfl
        exact haway.2.2 (Option.some.inj (haway.2.1.symm.trans haway'.2.1))
      exact (hmoved.registerOf?_of_ne hne).trans haway.2.1
    · refine RegisterFile.isFree_iff.mpr ⟨honly.allocatable haway, ?_⟩
      rw [hmoved.slots, if_neg hmoved.source_ne, if_pos rfl]

theorem does_of_eq {α : Type} {x y : Gen α} {Q : List Instr → α → State → Prop} (h : x s = y s)
    (hy : Does P y s Q) : Does P x s Q := by
  unfold Does Stage.Ensures at *
  rwa [h]

theorem does_restoreWithin : ∀ (moves : Nat) {s : State}, s.registers.Lawful →
    s.registers.OnlyParameters → EnoughMoves s.registers moves →
    Does P (restoreWithin moves) s fun code _ s' =>
      Shuffled s code s' ∧ s'.registers.displaced = [] ∧ code.length ≤ moves
  | 0, s, _, _, hmoves => by
    refine does_return.mpr ⟨Shuffled.refl, List.eq_nil_of_length_eq_zero ?_, Nat.le_refl _⟩
    rcases hmoves with h | ⟨h, l, current, home, haway, -⟩
    · omega
    · have := List.length_pos_of_mem (RegisterFile.mem_displaced.mpr haway)
      omega
  | moves + 1, s, hlaw, honly, hmoves => by
    simp only [restoreWithin, does_bind, does_get, List.nil_append]
    split
    · next hd => exact does_return.mpr ⟨Shuffled.refl, hd, Nat.zero_le _⟩
    · next l current home rest hd =>
      obtain ⟨source, target, slot, f, hf, hmoved, hmoves', heq⟩ := exists_bringHome hlaw honly hd hmoves
      refine does_bind.mpr (does_of_eq heq ((does_relocate hf).mpr ?_))
      refine (does_restoreWithin moves (hmoved.lawful hlaw) (honly.relocated hlaw hmoved) hmoves').mono
        fun c _ s₁ h₁ => ?_
      exact ⟨(shuffled_relocated hmoved).trans h₁.1, h₁.2.1, Nat.succ_le_succ h₁.2.2⟩

theorem does_restoreParameters (hlaw : s.registers.Lawful) (honly : s.registers.OnlyParameters) :
    Does P restoreParameters s fun code _ s' =>
      Shuffled s code s' ∧ s'.registers.displaced = [] ∧
        code.length ≤ 2 * s.registers.displaced.length := by
  simp only [restoreParameters, does_bind, does_get, List.nil_append]
  exact does_restoreWithin _ hlaw honly (.inl (Nat.le_refl _))

/-! ### What a file holds -/

theorem moves_of_shuffle {f g : RegisterFile} {moves : List (Register × Register)}
    (h : Shuffle f moves g) : Moves f.locationIn? moves g.locationIn? := by
  induction h with
  | nil => exact .nil
  | @cons f g _ target source slot moves hstep _ ih =>
    obtain ⟨halloc, hnone⟩ := RegisterFile.isFree_iff.mp hstep.free
    refine .cons halloc (by simp [RegisterFile.locationIn?, hnone]) ?_
    have hmove : Holding.move f.locationIn? target source = g.locationIn? := by
      funext r
      simp only [Holding.move, RegisterFile.locationIn?, hstep.slots, hstep.held]
      split_ifs <;> rfl
    rw [hmove]
    exact ih

theorem locationIn?_releaseAll {f : RegisterFile} {ls : List Location} (hf : f.Lawful) :
    (f.releaseAll ls).locationIn? = Holding.forget f.locationIn? ls := by
  funext r
  simp only [RegisterFile.locationIn?, Holding.forget, RegisterFile.get?_slots_releaseAll hf]
  cases f.slots.get? r with
  | none => rfl
  | some slot => by_cases h : slot.location ∈ ls <;> simp [Option.filter, h]

theorem used_locationIn? (f : RegisterFile) : Holding.used f.locationIn? = f.slots.contains := by
  funext r
  simp [Holding.used, RegisterFile.locationIn?, Table.contains]

theorem locationIn?_of_registerOf? {f : RegisterFile} (hf : f.Lawful) {l : Location} {r : Register}
    (h : f.registerOf? l = some r) : f.locationIn? r = some l := by
  obtain ⟨p, hp⟩ := hf.held h
  simp [RegisterFile.locationIn?, hp]

theorem does_releaseAll {Q : List Instr → Unit → State → Prop} :
    ∀ {ls : List Location} {s : State}, Does P (Stage.forEach release ls) s Q ↔
      Q [] () (s.withRegisters (s.registers.releaseAll ls))
  | [], s => does_return
  | l :: ls, s => by
    rw [Stage.forEach, does_bind_eq, does_release, does_releaseAll]
    rfl

/-! ### Calls -/

/-- The parameters of a procedure are passed as the calling convention says. -/
def Conventional (p : Procedure) : Prop :=
  ∀ i q, p.params[i]? = some q → q.2 = parameterClass i

theorem does_callee {tag : Tag} {name : String} {count : Nat} {p : Procedure}
    {Q : List Instr → Procedure → State → Prop} (hp : s.scopes.findProcedure? name = some p)
    (hQ : p.params.length = count → Q [] p s) : Does P (callee tag name count) s Q := by
  simp only [callee, does_bind, does_get, hp, List.nil_append]
  split
  · next hcount => exact does_return.mpr (hQ hcount)
  · exact does_refuse.mpr (.argumentCount ..)

/-- A call leaves the registers as they were. -/
theorem emits_call {names : List NameScope} {options : Options} {tag : Tag} {name : String}
    {args : List Expr} {first count : Nat} {p : Procedure}
    (hpar : s.registers.HoldsParameters first count) (h : Ready names s)
    (hargs : ∀ e ∈ args, e.WellFormed names) (hp : s.scopes.findProcedure? name = some p)
    (hconv : Conventional p) :
    Emits P (call options tag name args) s fun code ds _ s' => Later s s' ∧
      s'.registers = s.registers ∧ p.params.length = args.length ∧
      ∀ pool, s'.constants.strings <+: pool → ∃ c bytes,
        CallCode pool s.look s.registers.locationIn? s.stackDepth name
          (args.zip (p.params.map (·.1))) s.nextLabel c s'.nextLabel bytes ∧
        code = note options ("call " ++ name) ++ c ∧ ds = [bytes] := by
  refine emits_bind.mpr ((emits_iff (does_callee hp fun _ => callFree_nil)).mpr
    (does_callee hp fun hcount => ?_))
  have hclass : ∀ i q, p.params[i]? = some q → q.2 = parameterClass (0 + i) := by
    intro i q hq
    rw [Nat.zero_add]
    exact hconv i q hq
  refine emits_bind.mpr ((emits_iff (does_argumentTargets 1 0 hclass fun _ => callFree_nil)).mpr
    (does_argumentTargets 1 0 hclass fun hfew => ?_))
  have hfew : p.params.length ≤ Register.arguments.length := by
    rcases hfew with hfew | hnil
    · omega
    · simp [hnil]
  have hlen : (args.zip (p.params.map (·.1))).length = p.params.length := by simp [hcount]
  have hwf : ∀ q ∈ args.zip (p.params.map (·.1)), q.1.WellFormed names := by
    intro q hq
    exact hargs _ (List.of_mem_zip hq).1
  simp only [emits_bind, emits_comment, List.drop_zero, List.nil_append]
  refine ((does_argumentValues hwf h).emits fun c ls s' h' => h'.callFree).mono
    fun c₁ _ ls s₁ h₁ => ?_
  obtain ⟨rfl, h₁⟩ := h₁
  obtain ⟨rs, hrs, hls, hhold, hcode⟩ := h₁.coded
  have hnew : ∀ l ∈ ls, s.registers.index.get? l = none ∧ s.registers.homes.get? l = none := by
    intro l hl
    exact ⟨h.below.index_eq_none (h₁.issued l hl), h.below.homes_eq_none (h₁.issued l hl)⟩
  -- the arguments go to the first argument registers
  obtain ⟨targets, htargets⟩ : ∃ targets, targets = Register.arguments.take p.params.length := ⟨_, rfl⟩
  rw [← htargets]
  have hsame : ls.length = targets.length := by
    rw [hls, hlen, htargets, List.length_take]
    omega
  have hnodup : targets.Nodup := htargets ▸ (by decide : Register.arguments.Nodup).take
  have hfst : (ls.zip targets).map Prod.fst = ls := List.map_fst_zip (by omega)
  have hsnd : (ls.zip targets).map Prod.snd = targets := List.map_snd_zip (by omega)
  have hpairs : ∀ q ∈ ls.zip targets, (s₁.registers.registerOf? q.1).isSome = true ∧
      q.2 ∈ Register.allocatable := by
    intro q hq
    obtain ⟨hl, ht⟩ := List.of_mem_zip hq
    rw [htargets] at ht
    exact ⟨(h₁.resident _).mpr (.inr hl), (by decide : ∀ r ∈ Register.arguments,
      r ∈ Register.allocatable) _ (List.mem_of_mem_take ht)⟩
  refine ((does_placeArguments h₁.settled.lawful (by rw [hfst]; exact h₁.nodup)
    (by rw [hsnd]; exact hnodup) hpairs).emits fun c _ s' h' => h'.1.callFree).mono
    fun c₂ _ _ s₂ h₂ => ?_
  obtain ⟨rfl, hs₂, hplaced, -⟩ := h₂
  have hlaw₂ := hs₂.lawful h₁.settled.lawful
  have hclear : ∀ {Q}, Emits P (emit clearInstr) s₂ Q ↔ Q [clearInstr] [] () s₂ :=
    emits_of_rule (fun _ => does_emit) (by simp [clearInstr])
  have hrelease : ∀ {Q}, Emits P (Stage.forEach release ls) s₂ Q ↔
      Q [] [] () (s₂.withRegisters (s₂.registers.releaseAll ls)) :=
    emits_of_rule (fun _ => does_releaseAll) callFree_nil
  rw [← clearInstr, hclear]
  simp only [emits_callSaved, hrelease, List.nil_append]
  obtain ⟨there, hthere, rfl, hs₂⟩ := hs₂
  -- without the arguments only the parameters are left, and they are brought home
  have hrear : Rearranged s.registers (s₂.registers.releaseAll ls) := by
    refine RegisterFile.rearranged_releaseAll hlaw₂ (hthere.flagged (h₁.flagged hpar.flagged)) ?_ ?_ hnew
    · rw [hthere.homes, h₁.homes]
    · intro l
      rw [hthere.resident h₁.settled.lawful]
      exact h₁.resident l
  refine ((does_restoreParameters (s := s₂.withRegisters (s₂.registers.releaseAll ls))
    hrear.lawful (hpar.onlyParameters hrear)).emits fun c _ s' h' => h'.1.callFree).mono
    fun c₃ _ _ s₃ h₃ => ?_
  obtain ⟨rfl, ⟨back, hback, rfl, hs₃⟩, hhome, -⟩ := h₃
  have hregs : s₃.registers = s.registers := hpar.eq_of_displaced (hrear.shuffle hback) hhome
  have hlater : Later s s₃ := by
    have : Later s₁ s₃ := by
      rw [hs₃, hs₂]
      exact later_withRegisters
    exact h₁.toLater.trans this
  have hlabel : s₃.nextLabel = s₁.nextLabel := by
    rw [hs₃, hs₂]
    rfl
  have hconst : s₃.constants = s₁.constants := by
    rw [hs₃, hs₂]
    rfl
  have hdepth : s₂.stackDepth = s.stackDepth := by
    rw [hs₂]
    exact h₁.stackDepth
  have harrived : (Register.arguments.take ls.length).map s₂.registers.locationIn? = ls.map some := by
    rw [hls, hlen, ← htargets]
    calc targets.map s₂.registers.locationIn?
        = ((ls.zip targets).map Prod.snd).map s₂.registers.locationIn? := by rw [hsnd]
      _ = ((ls.zip targets).map Prod.fst).map some := by
        rw [List.map_map, List.map_map]
        exact List.map_congr_left fun q hq => locationIn?_of_registerOf? hlaw₂ (hplaced q hq)
      _ = ls.map some := by rw [hfst]
  refine ⟨hlater, hregs, hcount, fun pool hpool => ?_⟩
  rw [hconst] at hpool
  refine ⟨_, _, ⟨by rw [hlen]; exact hfew, c₁, rs, ls, there, back, s₂.registers.locationIn?, ?_,
    by rw [hls, hrs], h₁.nodup, ?_, ?_, harrived, ?_, rfl, rfl⟩, ?_, ?_⟩
  · rw [used_locationIn?, hlabel]
    exact hcode pool hpool
  · intro r l hl hr
    obtain ⟨slot, hslot, rfl⟩ := Option.map_eq_some_iff.mp hr
    have := (hnew _ hl).1
    rw [h.lawful.indexed hslot] at this
    cases this
  · rw [← hhold]
    exact moves_of_shuffle hthere
  · rw [← locationIn?_releaseAll hlaw₂, ← hregs]
    exact moves_of_shuffle hback
  · rw [used_locationIn?, hdepth, clearInstr]
    simp [RegisterFile.occupied]
  · rw [used_locationIn?, hdepth]
    simp [RegisterFile.occupied]

end ProcLang.Generation

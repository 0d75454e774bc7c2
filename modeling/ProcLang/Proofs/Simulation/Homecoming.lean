import ProcLang.Proofs.Simulation.CallSequence

/-!
Parameters on their way home.  Their homes are six of eight registers, so one register at least is free
whenever a parameter has to make room, and no move is refused.  Two moves for each parameter that is away
are enough: more of them would not be made.
-/

namespace ProcLang.Generation

open RegisterFile (Rearranged)

theorem tries_restoreWithin : ∀ (n : Nat) {s : State}, s.registers.Lawful →
    s.registers.OnlyParameters → EnoughMoves s.registers n →
    Tries (fun _ => False) (restoreWithin n) s fun _ _ => True
  | 0, _, _, _, _ => tries_return.mpr trivial
  | n + 1, s, hlaw, honly, hmoves => by
    refine tries_bind.mpr (Stage.ensures_get.mpr ?_)
    split
    · exact tries_return.mpr trivial
    · next l current home rest hd =>
      obtain ⟨source, target, slot, f, hf, hmoved, hmoves', heq⟩ := exists_bringHome hlaw honly hd hmoves
      refine tries_bind.mpr (.of_eq heq ((tries_of_rule fun _ => does_relocate hf).mpr ?_))
      exact tries_restoreWithin n (hmoved.lawful hlaw) (honly.relocated hlaw hmoved) hmoves'

/-- When all parameters are at home, no further move is made. -/
theorem restoreWithin_add (more : Nat) : ∀ {n : Nat} {s : State},
    (restoreWithin n s).state.registers.displaced = [] →
    restoreWithin (n + more) s = restoreWithin n s
  | 0, s, h => by
    have h : s.registers.displaced = [] := h
    cases more with
    | zero => rfl
    | succ more => simp [restoreWithin, Bind.bind, Stage.bind, Stage.get, h]
  | n + 1, s, h => by
    rw [Nat.add_right_comm]
    simp only [restoreWithin, Bind.bind, Stage.bind, Stage.get] at h ⊢
    cases hd : s.registers.displaced with
    | nil => rfl
    | cons p rest =>
      obtain ⟨l, current, home⟩ := p
      simp only [hd, Stage.bind] at h ⊢
      generalize bringHome ((l, current, home) :: rest) home s = run at h ⊢
      obtain ⟨marks, e | a, t⟩ := run
      · rfl
      · simp only [restoreWithin_add more h]

/-- All parameters come home, wherever they are.  If a lawful register file holds parameters only, with
different homes among the argument registers, then code generation moves them home without an error.
It makes two moves at most for each that is away, and makes no others if more are allowed.  Then each
parameter is in its home, and no other value is in the file.  The moves, run in order on any machine,
put into each home the word that was in the register of its parameter. -/
theorem parameters_come_home (s : State) (hlaw : s.registers.Lawful)
    (honly : s.registers.OnlyParameters) :
    (restoreParameters s).result = .ok () ∧
    (∀ n, 2 * s.registers.displaced.length ≤ n → restoreWithin n s = restoreParameters s) ∧
    ∃ moves f, codeOf (restoreParameters s).marks = moveCode moves ∧
      moves.length ≤ 2 * s.registers.displaced.length ∧
      (restoreParameters s).state = s.withRegisters f ∧ f.Lawful ∧ f.homes = s.registers.homes ∧
      (∀ l, f.registerOf? l = (s.registers.registerOf? l).bind fun _ => s.registers.homes.get? l) ∧
      ∀ (P : Image) (m : Machine), P.Straight (moveCode moves) m fun m' => m.Returned m' ∧
        ∀ l r home, s.registers.registerOf? l = some r → s.registers.homes.get? l = some home →
          m'.regs home = m.regs r := by
  have htries := tries_restoreWithin _ hlaw honly (.inl (Nat.le_refl _))
  have hdoes := does_restoreParameters (P := fun _ _ _ _ => True) hlaw honly
  have hok : (restoreParameters s).result = .ok () := by
    cases hresult : (restoreParameters s).result with
    | ok _ => rfl
    | error e => exact (htries.error hresult).elim
  obtain ⟨⟨moves, hmoves, hcode, hstate⟩, hnone, hlen⟩ := Stage.Ensures.value hdoes hok
  have hhome : ∀ l, (restoreParameters s).state.registers.registerOf? l =
      (s.registers.registerOf? l).bind fun _ => s.registers.homes.get? l := by
    intro l
    have hres := hmoves.resident hlaw l
    cases hl : s.registers.registerOf? l with
    | none => simpa [hl] using hres
    | some r =>
      rw [hl] at hres
      obtain ⟨q, hq⟩ := Option.isSome_iff_exists.mp hres
      obtain ⟨home, -, hhome⟩ := honly.homed (Option.isSome_iff_exists.mpr ⟨r, hl⟩)
      rw [hq, Option.bind_some, hhome]
      by_contra hne
      have hmem := RegisterFile.mem_displaced.mpr
        ⟨(congrArg (·.get? l) hmoves.homes).trans hhome, hq, fun heq => hne (congrArg some heq)⟩
      rw [hnone] at hmem
      cases hmem
  refine ⟨hok, fun n hn => ?_, moves, _, hcode, ?_, hstate, hmoves.lawful hlaw, hmoves.homes, hhome,
    fun P m => ?_⟩
  · obtain ⟨more, rfl⟩ := Nat.exists_eq_add_of_le hn
    exact restoreWithin_add more hnone
  · rwa [hcode, moveCode, List.length_map] at hlen
  · obtain ⟨val, hval⟩ := Holding.Apart.valued (apart_locationIn? hlaw) m
    refine ((moves_of_shuffle hmoves).straight hval).mono fun m' h => ⟨h.2, fun l r home hl hhome' => ?_⟩
    have hl' := hhome l
    rw [hl, Option.bind_some, hhome'] at hl'
    rw [h.1 (locationIn?_of_registerOf? (hmoves.lawful hlaw) hl'),
      hval (locationIn?_of_registerOf? hlaw hl)]

/-- The parameters `a` and `b`, each in the other's home. -/
def crossed : State :=
  (do relocate .rdi .r10; relocate .rsi .rdi; relocate .r10 .rsi : Gen Unit) twoParameters |>.state

/-- Two parameters that stand in each other's way come home. -/
theorem parameters_come_home_crossed : (restoreParameters crossed).result = .ok () ∧
    ∃ moves, codeOf (restoreParameters crossed).marks = moveCode moves ∧ moves.length ≤ 4 ∧
      ∀ (P : Image) (m : Machine), P.Straight (moveCode moves) m fun m' =>
        m'.regs .rdi = m.regs .rsi ∧ m'.regs .rsi = m.regs .rdi := by
  have hpar := holdsParameters_twoParameters
  have hstep : ∀ {g k source target l}, Rearranged twoParameters.registers g →
      g.relocate source target = .ok (l, k) → Rearranged twoParameters.registers k := by
    intro g k source target l hg hk
    obtain ⟨slot, hmoved⟩ := RegisterFile.relocated_of_ok hk
    exact hg.shuffle (.single hmoved)
  have hrear : Rearranged twoParameters.registers crossed.registers := by
    have hone := hstep ⟨hpar.lawful, hpar.flagged, fun _ => rfl, fun _ => rfl⟩
      (show RegisterFile.relocate _ .rdi .r10 = .ok (⟨0⟩, _) from rfl)
    have htwo := hstep hone (show RegisterFile.relocate _ .rsi .rdi = .ok (⟨1⟩, _) from rfl)
    exact hstep htwo (show RegisterFile.relocate _ .r10 .rsi = .ok (⟨0⟩, _) from rfl)
  obtain ⟨hok, -, moves, f, hcode, hlen, -, -, -, -, hrun⟩ :=
    parameters_come_home crossed hrear.lawful (hpar.onlyParameters hrear)
  refine ⟨hok, moves, hcode, hlen, fun P m => (hrun P m).mono fun m' hm' => ?_⟩
  exact ⟨hm'.2 ⟨0⟩ .rsi .rdi rfl rfl, hm'.2 ⟨1⟩ .rdi .rsi rfl rfl⟩

end ProcLang.Generation

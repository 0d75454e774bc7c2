import Mathlib.Data.List.Perm.Subperm
import ProcLang.Proofs.Register.Parameters

/-!
Moves of values between registers.  A shuffle is a sequence of moves, each into a free register; it
changes where values are, and nothing else.  Parameters that stand elsewhere than at home can be
brought back: a move to a free home settles one parameter for good, and if no home is free, the value
in the way of one is itself away from home, so that moving it once makes a home free.
-/

namespace ProcLang.RegisterFile

variable {f g : RegisterFile} {source target r : Register} {l : Location} {slot : Slot} {n : Nat}
  {moves : List (Register × Register)}

/-- The value of one register was moved to another. -/
structure Relocated (f : RegisterFile) (target source : Register) (slot : Slot) (g : RegisterFile) :
    Prop where
  held : f.slots.get? source = some slot
  free : f.isFree target = true
  slots : ∀ r, g.slots.get? r =
    if r = target then some slot else if r = source then none else f.slots.get? r
  index : ∀ l, g.index.get? l = if l = slot.location then some target else f.index.get? l
  homes : g.homes = f.homes

/-- Moves one after another, each written as target and source. -/
inductive Shuffle : RegisterFile → List (Register × Register) → RegisterFile → Prop
  | nil {f : RegisterFile} : Shuffle f [] f
  | cons {f g h : RegisterFile} {target source : Register} {slot : Slot}
      {moves : List (Register × Register)} : Relocated f target source slot g → Shuffle g moves h →
      Shuffle f ((target, source) :: moves) h

/-! ### One move -/

theorem relocate_of_free (hfree : f.isFree target = true)
    (hheld : f.slots.get? source = some slot) :
    ∃ g, f.relocate source target = .ok (slot.location, g) ∧ Relocated f target source slot g := by
  obtain ⟨halloc, hnone⟩ := isFree_iff.mp hfree
  have hcontains : Register.allocatable.contains target = true := by simpa using halloc
  simp only [relocate, hcontains, if_true, hnone, vacate, hheld]
  refine ⟨_, rfl, hheld, hfree, fun r => ?_, fun l => ?_, rfl⟩
  · simp only [get?_slots_place, Table.get?_erase]
  · simp only [get?_index_place, Table.get?_erase]
    split <;> rfl

/-- A move that is not refused goes from a register in use to a free one. -/
theorem relocated_of_ok (h : f.relocate source target = .ok (l, g)) :
    ∃ slot, Relocated f target source slot g := by
  have hmove := h
  unfold relocate at hmove
  split at hmove
  · next halloc =>
    split at hmove
    · cases hmove
    · next hnone =>
      cases hheld : f.slots.get? source with
      | none => simp [vacate, hheld] at hmove
      | some slot =>
        have hfree : f.isFree target = true := isFree_iff.mpr ⟨by simpa using halloc, hnone⟩
        obtain ⟨g', hg', hmoved⟩ := relocate_of_free hfree hheld
        cases h.symm.trans hg'
        exact ⟨slot, hmoved⟩
  · cases hmove

namespace Relocated

theorem source_ne (h : Relocated f target source slot g) : source ≠ target := by
  rintro rfl
  have := (isFree_iff.mp h.free).2
  rw [h.held] at this
  cases this

theorem lawful (h : Relocated f target source slot g) (hf : f.Lawful) : g.Lawful := by
  constructor
  · intro r slot' hr
    rw [h.slots] at hr
    rw [h.index]
    split_ifs at hr with htarget hsource
    · obtain rfl := Option.some.inj hr
      rw [if_pos rfl, htarget]
    · have hne : slot'.location ≠ slot.location := fun e => hsource (hf.register_inj hr h.held e)
      rw [if_neg hne, hf.indexed hr]
  · intro l r hl
    rw [h.index] at hl
    split_ifs at hl with heq
    · obtain rfl := Option.some.inj hl
      exact ⟨slot.parameter, by rw [h.slots, if_pos rfl, heq]⟩
    · obtain ⟨p, hp⟩ := hf.held hl
      have htarget : r ≠ target := by
        rintro rfl
        rw [(isFree_iff.mp h.free).2] at hp
        cases hp
      have hsource : r ≠ source := by
        rintro rfl
        rw [h.held] at hp
        exact heq (congrArg Slot.location (Option.some.inj hp)).symm
      exact ⟨p, by rw [h.slots, if_neg htarget, if_neg hsource, hp]⟩
  · intro r slot' hr
    rw [h.slots] at hr
    split_ifs at hr with htarget hsource
    · rw [htarget]
      exact (isFree_iff.mp h.free).1
    · exact hf.allocatable hr

/-- The same values are in the file. -/
theorem resident (h : Relocated f target source slot g) (hf : f.Lawful) (l : Location) :
    (g.registerOf? l).isSome = (f.registerOf? l).isSome := by
  simp only [registerOf?, h.index]
  split_ifs with heq
  · rw [heq, hf.indexed h.held]
    rfl
  · rfl

theorem registerOf?_of_ne (h : Relocated f target source slot g) (hne : l ≠ slot.location) :
    g.registerOf? l = f.registerOf? l := by
  rw [registerOf?, h.index, if_neg hne]
  rfl

theorem registerOf?_self (h : Relocated f target source slot g) :
    g.registerOf? slot.location = some target := by
  rw [registerOf?, h.index, if_pos rfl]

end Relocated

/-- A flagged slot is a slot whose value has a home. -/
def Flagged (f : RegisterFile) : Prop :=
  ∀ r slot, f.slots.get? r = some slot → slot.parameter = (f.homes.get? slot.location).isSome

theorem Relocated.flagged (h : Relocated f target source slot g) (hf : f.Flagged) : g.Flagged := by
  intro r slot' hr
  rw [h.homes]
  rw [h.slots] at hr
  split_ifs at hr
  · obtain rfl := Option.some.inj hr
    exact hf source slot h.held
  · exact hf r slot' hr

/-! ### Many moves -/

namespace Shuffle

theorem append {h : RegisterFile} {moves' : List (Register × Register)} (h₁ : Shuffle f moves g)
    (h₂ : Shuffle g moves' h) : Shuffle f (moves ++ moves') h := by
  induction h₁ with
  | nil => exact h₂
  | cons hstep _ ih => exact .cons hstep (ih h₂)

theorem single (h : Relocated f target source slot g) : Shuffle f [(target, source)] g :=
  .cons h .nil

theorem lawful (h : Shuffle f moves g) (hf : f.Lawful) : g.Lawful := by
  induction h with
  | nil => exact hf
  | cons hstep _ ih => exact ih (hstep.lawful hf)

theorem homes (h : Shuffle f moves g) : g.homes = f.homes := by
  induction h with
  | nil => rfl
  | cons hstep _ ih => rw [ih, hstep.homes]

theorem flagged (h : Shuffle f moves g) (hf : f.Flagged) : g.Flagged := by
  induction h with
  | nil => exact hf
  | cons hstep _ ih => exact ih (hstep.flagged hf)

theorem resident (h : Shuffle f moves g) (hf : f.Lawful) (l : Location) :
    (g.registerOf? l).isSome = (f.registerOf? l).isSome := by
  induction h with
  | nil => rfl
  | cons hstep _ ih => rw [ih (hstep.lawful hf), hstep.resident hf]

end Shuffle

/-! ### Coming home -/

/-- A parameter is away from home. -/
def Away (f : RegisterFile) (l : Location) (current home : Register) : Prop :=
  f.homes.get? l = some home ∧ f.registerOf? l = some current ∧ current ≠ home

theorem mem_displaced {current home : Register} :
    (l, current, home) ∈ f.displaced ↔ f.Away l current home := by
  simp only [displaced, List.mem_filterMap, Away, Prod.exists, f.homes.mem_entries_iff]
  constructor
  · rintro ⟨l', home', hhome, hmatch⟩
    cases hl : f.registerOf? l' with
    | none => simp [hl] at hmatch
    | some current' =>
      simp only [hl] at hmatch
      split_ifs at hmatch with heq
      obtain ⟨rfl, rfl, rfl⟩ : l' = l ∧ current' = current ∧ home' = home := by
        simpa using hmatch
      exact ⟨hhome, hl, heq⟩
  · rintro ⟨hhome, hl, hne⟩
    exact ⟨l, home, hhome, by simp [hl, hne]⟩

/-- The entry of a parameter's home tells that the parameter is elsewhere. -/
def isAway (f : RegisterFile) (entry : Location × Register) : Bool :=
  (f.registerOf? entry.1).any (· ≠ entry.2)

theorem length_displaced : f.displaced.length = f.homes.entries.countP f.isAway := by
  unfold displaced
  rw [List.length_filterMap_eq_countP]
  refine List.countP_congr fun entry _ => ?_
  obtain ⟨l, home⟩ := entry
  cases hl : f.registerOf? l with
  | none => simp [isAway, hl]
  | some current => by_cases heq : current = home <;> simp [isAway, hl, heq]

theorem countP_lt {α : Type} {p q : α → Bool} {a : α} :
    ∀ {xs : List α}, (∀ x ∈ xs, p x = true → q x = true) → a ∈ xs → q a = true → p a = false →
      xs.countP p < xs.countP q
  | x :: xs, hpq, ha, hq, hp => by
    have hle : xs.countP p ≤ xs.countP q :=
      List.countP_mono_left fun x hx => hpq x (List.mem_cons_of_mem _ hx)
    rcases List.mem_cons.mp ha with rfl | ha
    · rw [List.countP_cons_of_pos hq, List.countP_cons_of_neg (by simp [hp])]
      omega
    · have hlt := countP_lt (fun x hx => hpq x (List.mem_cons_of_mem _ hx)) ha hq hp
      have hx : (if p x = true then 1 else 0) ≤ if q x = true then 1 else 0 := by
        split_ifs with h h' <;> simp_all
      simp only [List.countP_cons]
      omega

/-- The files in which only parameters are left, none of them with another's home. -/
structure OnlyParameters (f : RegisterFile) : Prop where
  homed : ∀ {l : Location}, (f.registerOf? l).isSome = true →
    ∃ home ∈ Register.arguments, f.homes.get? l = some home
  apart : ∀ {l l' : Location} {home : Register}, (f.registerOf? l).isSome = true →
    (f.registerOf? l').isSome = true → f.homes.get? l = some home → f.homes.get? l' = some home →
    l = l'

theorem OnlyParameters.relocated (hf : f.OnlyParameters) (hlaw : f.Lawful)
    (h : Relocated f target source slot g) : g.OnlyParameters where
  homed {l} hl := by
    rw [h.homes]
    exact hf.homed (h.resident hlaw l ▸ hl)
  apart {l l' home} hl hl' := by
    rw [h.homes]
    exact hf.apart (h.resident hlaw l ▸ hl) (h.resident hlaw l' ▸ hl')

theorem OnlyParameters.allocatable {current home : Register} (hf : f.OnlyParameters)
    (ha : f.Away l current home) : home ∈ Register.allocatable := by
  obtain ⟨home', hmem, hhome⟩ := hf.homed (Option.isSome_iff_exists.mpr ⟨_, ha.2.1⟩)
  obtain rfl := Option.some.inj (ha.1.symm.trans hhome)
  exact List.mem_append_left [.r10, .r11] hmem

theorem OnlyParameters.held {current home : Register} (hf : f.OnlyParameters)
    (ha : f.Away l current home) (hfree : f.isFree home = false) :
    ∃ slot, f.slots.get? home = some slot := by
  cases hslot : f.slots.get? home with
  | some slot => exact ⟨slot, rfl⟩
  | none =>
    rw [isFree_iff.mpr ⟨hf.allocatable ha, hslot⟩] at hfree
    cases hfree

/-- Parameters with homes of their own leave a register free. -/
theorem OnlyParameters.exists_free (honly : f.OnlyParameters) (hlaw : f.Lawful) :
    ∃ r, f.isFree r = true := by
  by_contra hnone
  let home (r : Register) : Register := ((f.locationIn? r).bind f.homes.get?).getD r
  have hat : ∀ r ∈ Register.allocatable, ∃ slot, f.slots.get? r = some slot ∧
      home r ∈ Register.arguments ∧ f.homes.get? slot.location = some (home r) := by
    intro r hr
    cases hslot : f.slots.get? r with
    | none => exact (hnone ⟨r, isFree_iff.mpr ⟨hr, hslot⟩⟩).elim
    | some slot =>
      obtain ⟨q, hq, hhome⟩ := honly.homed (Option.isSome_iff_exists.mpr ⟨r, hlaw.indexed hslot⟩)
      have heq : home r = q := by simp [home, locationIn?, hslot, hhome]
      exact ⟨slot, rfl, heq ▸ hq, heq ▸ hhome⟩
  have hnodup : (Register.allocatable.map home).Nodup := by
    have hdiffer : Register.allocatable.Nodup := by decide
    refine List.pairwise_map.mpr (hdiffer.imp_of_mem fun {r q} hr hq hne heq => hne ?_)
    obtain ⟨slot, hslot, -, hhome⟩ := hat r hr
    obtain ⟨slot', hslot', -, hhome'⟩ := hat q hq
    refine hlaw.register_inj hslot hslot' (honly.apart ?_ ?_ hhome (heq ▸ hhome'))
    · exact Option.isSome_iff_exists.mpr ⟨r, hlaw.indexed hslot⟩
    · exact Option.isSome_iff_exists.mpr ⟨q, hlaw.indexed hslot'⟩
  have hsub : Register.allocatable.map home ⊆ Register.arguments := by
    intro h hh
    obtain ⟨r, hr, rfl⟩ := List.mem_map.mp hh
    obtain ⟨-, -, hmem, -⟩ := hat r hr
    exact hmem
  have hlen := (hnodup.subperm hsub).length_le
  rw [List.length_map] at hlen
  exact absurd hlen (by decide)

/-- A parameter that moves to its free home is away no more, and no other parameter is touched. -/
theorem Away.displaced_lt {current home : Register} (ha : f.Away l current home) (hf : f.Lawful)
    (h : Relocated f home current slot g) : g.displaced.length < f.displaced.length := by
  obtain ⟨hhome, hl, hne⟩ := ha
  have hslot : slot.location = l := by
    obtain ⟨p, hp⟩ := hf.held hl
    have := h.held
    rw [hp] at this
    exact (congrArg Slot.location (Option.some.inj this)).symm
  subst hslot
  rw [length_displaced, length_displaced, h.homes]
  refine @countP_lt _ _ _ (slot.location, home) _ (fun entry hmem hentry => ?_)
    ((f.homes.mem_entries_iff _ _).mpr hhome) (by simp [isAway, hl, hne])
    (by simp [isAway, h.registerOf?_self])
  by_cases heq : entry.1 = slot.location
  · have hentryHome := (f.homes.mem_entries_iff entry.1 entry.2).mp hmem
    rw [heq, hhome] at hentryHome
    have : entry.2 = home := (Option.some.inj hentryHome).symm
    simp [isAway, heq, this, h.registerOf?_self] at hentry
  · simpa only [isAway, h.registerOf?_of_ne heq] using hentry

/-- A value in the way of a parameter is itself away from home. -/
theorem Away.blocker {current home : Register} (ha : f.Away l current home) (hf : f.Lawful)
    (honly : f.OnlyParameters) (hheld : f.slots.get? home = some slot) :
    ∃ home', f.Away slot.location home home' := by
  obtain ⟨hhome, hl, hne⟩ := ha
  have hreg : f.registerOf? slot.location = some home := hf.indexed hheld
  have hres := Option.isSome_iff_exists.mpr ⟨_, hreg⟩
  obtain ⟨home', -, hhome'⟩ := honly.homed hres
  refine ⟨home', hhome', hreg, ?_⟩
  rintro rfl
  have : l = slot.location := honly.apart (Option.isSome_iff_exists.mpr ⟨_, hl⟩) hres hhome hhome'
  rw [← this, hl] at hreg
  exact hne (Option.some.inj hreg)

/-- Making room does not bring anyone away who was not. -/
theorem Away.displaced_le {current home : Register} (ha : f.Away slot.location current home)
    (h : Relocated f target current slot g) : g.displaced.length ≤ f.displaced.length := by
  obtain ⟨hhome, hl, hne⟩ := ha
  rw [length_displaced, length_displaced, h.homes]
  refine List.countP_mono_left fun entry hmem hentry => ?_
  by_cases heq : entry.1 = slot.location
  · have hentryHome := (f.homes.mem_entries_iff entry.1 entry.2).mp hmem
    rw [heq, hhome] at hentryHome
    have : entry.2 = home := (Option.some.inj hentryHome).symm
    simp [isAway, heq, this, hl, hne]
  · simpa only [isAway, h.registerOf?_of_ne heq] using hentry

/-! ### Files with the same values -/

/-- The second file has the values and the homes of the first, wherever the values are. -/
structure Rearranged (f g : RegisterFile) : Prop where
  lawful : g.Lawful
  flagged : g.Flagged
  homes : ∀ l, g.homes.get? l = f.homes.get? l
  resident : ∀ l, (g.registerOf? l).isSome = (f.registerOf? l).isSome

theorem Rearranged.shuffle {h : RegisterFile} (hr : Rearranged f g) (hs : Shuffle g moves h) :
    Rearranged f h where
  lawful := hs.lawful hr.lawful
  flagged := hs.flagged hr.flagged
  homes l := by rw [hs.homes, hr.homes]
  resident l := by rw [hs.resident hr.lawful, hr.resident]

namespace HoldsParameters

variable {first count : Nat}

theorem flagged (h : f.HoldsParameters first count) : f.Flagged := by
  intro r slot hr
  obtain ⟨hpar, hflag⟩ := (h.slots r slot).mp hr
  rw [hflag, (h.homes _ _).mpr hpar]
  rfl

theorem onlyParameters (h : f.HoldsParameters first count) (hr : Rearranged f g) :
    g.OnlyParameters where
  homed {l} hl := by
    obtain ⟨home, hhome⟩ := Option.isSome_iff_exists.mp (hr.resident l ▸ hl)
    have hpar := (h.index _ _).mp hhome
    obtain ⟨i, -, -, hi⟩ := id hpar
    exact ⟨home, List.mem_of_getElem? hi, by rw [hr.homes, (h.homes _ _).mpr hpar]⟩
  apart {l l' home} _ _ hl hl' := by
    rw [hr.homes, h.homes] at hl hl'
    exact hl.location_inj hl'

/-- If no parameter is away from home, the file is what it was. -/
theorem eq_of_displaced (h : f.HoldsParameters first count) (hr : Rearranged f g)
    (hnone : g.displaced = []) : g = f := by
  have hat : ∀ {l current home}, g.homes.get? l = some home → g.registerOf? l = some current →
      current = home := by
    intro l current home hhome hl
    by_contra hne
    have := mem_displaced.mpr ⟨hhome, hl, hne⟩
    rw [hnone] at this
    cases this
  have hhomes : ∀ l r, g.homes.get? l = some r ↔ IsParameter first count l r := by
    intro l r
    rw [hr.homes, h.homes]
  have hindex : ∀ l r, g.index.get? l = some r ↔ IsParameter first count l r := by
    intro l r
    rw [← hhomes]
    constructor
    · intro hl
      obtain ⟨home, -, hhome⟩ := (h.onlyParameters hr).homed (Option.isSome_iff_exists.mpr ⟨_, hl⟩)
      rw [hhome, hat hhome hl]
    · intro hhome
      have hres := hr.resident l
      rw [RegisterFile.registerOf?, RegisterFile.registerOf?, (h.index l r).mpr ((hhomes l r).mp hhome)]
        at hres
      obtain ⟨current, hl⟩ := Option.isSome_iff_exists.mp hres
      rw [← hat hhome hl]
      exact hl
  refine HoldsParameters.unique ⟨fun r slot => ?_, hindex, hhomes⟩ h
  constructor
  · intro hslot
    have hpar := (hindex _ _).mp (hr.lawful.indexed hslot)
    refine ⟨hpar, ?_⟩
    rw [hr.flagged r slot hslot, (hhomes _ _).mpr hpar]
    rfl
  · rintro ⟨hpar, hp⟩
    obtain ⟨p, hslot⟩ := hr.lawful.held ((hindex _ _).mpr hpar)
    have hflag := hr.flagged r _ hslot
    rw [(hhomes _ _).mpr hpar] at hflag
    obtain ⟨l, q⟩ := slot
    rw [hslot, show p = true from hflag, show q = true from hp]

end HoldsParameters

/-- Values that came in besides are released again: what is left are the values of before. -/
theorem rearranged_releaseAll {ls : List Location} (hlaw : g.Lawful) (hflag : g.Flagged)
    (hhomes : g.homes = f.homes)
    (hres : ∀ l, (g.registerOf? l).isSome = true ↔ (f.registerOf? l).isSome = true ∨ l ∈ ls)
    (hnew : ∀ l ∈ ls, f.index.get? l = none ∧ f.homes.get? l = none) :
    Rearranged f (g.releaseAll ls) where
  lawful := hlaw.releaseAll
  flagged r slot hr := by
    rw [get?_slots_releaseAll hlaw] at hr
    obtain ⟨hr, hmem⟩ := Option.filter_eq_some_iff.mp hr
    rw [get?_homes_releaseAll, if_neg (by simpa using hmem), hflag r slot hr]
  homes l := by
    rw [get?_homes_releaseAll, hhomes]
    split_ifs with hmem
    · exact (hnew l hmem).2.symm
    · rfl
  resident l := by
    simp only [registerOf?, get?_index_releaseAll]
    split_ifs with hmem
    · rw [(hnew l hmem).1]
    · have := hres l
      simp only [registerOf?, hmem, or_false] at this
      exact Bool.eq_iff_iff.mpr this

end ProcLang.RegisterFile

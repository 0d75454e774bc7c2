import ProcLang.Proofs.Stage
import ProcLang.Register.File

/-!
The theory of the register file.  A file is lawful if its slots and its index say the same and only
allocatable registers are in use; a number bounds the handles it knows of.  The operations of the
file are described on lawful files by what they do to `place`: a value that was put down and is
released again leaves no trace, and giving it another handle is putting it down under that handle.
-/

namespace ProcLang

/-! ### Look-ups after changes of a table -/

namespace Table

variable {κ α : Type} [Ord κ] [DecidableEq κ] [Std.LawfulEqOrd κ]

theorem get?_insert [Std.TransOrd κ] (t : Table κ α) (k k' : κ) (v : α) :
    (t.insert k v).get? k' = if k' = k then some v else t.get? k' := by
  by_cases h : k' = k
  · rw [if_pos h, h, get?_insert_self]
  · rw [if_neg h, get?_insert_of_ne t v h]

theorem get?_erase (t : Table κ α) (k k' : κ) :
    (t.erase k).get? k' = if k' = k then none else t.get? k' := by
  by_cases h : k' = k
  · rw [if_pos h, h, get?_erase_self]
  · rw [if_neg h, get?_erase_of_ne t h]

omit [DecidableEq κ] in
theorem erase_of_get?_none [Std.TransOrd κ] {t : Table κ α} {k : κ} (h : t.get? k = none) :
    t.erase k = t := by
  classical
  refine ext_get? fun k' => ?_
  rw [get?_erase]
  split
  · next e => rw [e, h]
  · rfl

end Table

namespace RegisterFile

variable {f g : RegisterFile} {r r' source target : Register} {l l' : Location} {slot slot' : Slot}
  {n m : Nat}

theorem eq_of_get? (hs : ∀ r, f.slots.get? r = g.slots.get? r)
    (hi : ∀ l, f.index.get? l = g.index.get? l) (hh : ∀ l, f.homes.get? l = g.homes.get? l) :
    f = g := by
  obtain ⟨fs, fi, fh⟩ := f
  obtain ⟨gs, gi, gh⟩ := g
  obtain rfl : fs = gs := Table.ext_get? hs
  obtain rfl : fi = gi := Table.ext_get? hi
  obtain rfl : fh = gh := Table.ext_get? hh
  rfl

theorem isFree_iff : f.isFree r = true ↔ r ∈ Register.allocatable ∧ f.slots.get? r = none := by
  simp [isFree, Table.contains]

/-! ### Lawful files -/

/-- Slots and index say the same, and only allocatable registers are in use. -/
structure Lawful (f : RegisterFile) : Prop where
  indexed : ∀ {r : Register} {slot : Slot}, f.slots.get? r = some slot →
    f.index.get? slot.location = some r
  held : ∀ {l : Location} {r : Register}, f.index.get? l = some r →
    ∃ p, f.slots.get? r = some ⟨l, p⟩
  allocatable : ∀ {r : Register} {slot : Slot}, f.slots.get? r = some slot →
    r ∈ Register.allocatable

/-- All handles that the file knows of have numbers below `n`. -/
structure Below (n : Nat) (f : RegisterFile) : Prop where
  index : ∀ {l : Location} {r : Register}, f.index.get? l = some r → l.number < n
  homes : ∀ {l : Location} {r : Register}, f.homes.get? l = some r → l.number < n

theorem Lawful.empty : Lawful {} := by
  constructor <;> intro _ _ h <;> cases h

theorem Below.mono (h : f.Below n) (hn : n ≤ m) : f.Below m :=
  ⟨fun hl => Nat.lt_of_lt_of_le (h.index hl) hn, fun hl => Nat.lt_of_lt_of_le (h.homes hl) hn⟩

theorem Below.index_eq_none (h : f.Below n) (hl : n ≤ l.number) : f.index.get? l = none := by
  cases e : f.index.get? l with
  | none => rfl
  | some r => have := h.index e; omega

theorem Below.homes_eq_none (h : f.Below n) (hl : n ≤ l.number) : f.homes.get? l = none := by
  cases e : f.homes.get? l with
  | none => rfl
  | some r => have := h.homes e; omega

/-- Two registers in use hold different values. -/
theorem Lawful.register_inj (h : f.Lawful) (hr : f.slots.get? r = some slot)
    (hr' : f.slots.get? r' = some slot') (hl : slot.location = slot'.location) : r = r' := by
  have h1 := h.indexed hr
  have h2 := h.indexed hr'
  rw [hl, h2] at h1
  exact (Option.some.inj h1).symm

/-- A lawful file passes the check. -/
theorem Lawful.check (h : f.Lawful) : f.check = .ok () := by
  have h1 : (f.slots.entries.find? fun e => f.index.get? e.2.location != some e.1) = none := by
    refine List.find?_eq_none.mpr fun e he => ?_
    simp [h.indexed ((f.slots.mem_entries_iff e.1 e.2).mp he)]
  have h2 : (f.index.entries.find? fun e => f.locationIn? e.2 != some e.1) = none := by
    refine List.find?_eq_none.mpr fun e he => ?_
    obtain ⟨p, hp⟩ := h.held ((f.index.mem_entries_iff e.1 e.2).mp he)
    simp [locationIn?, hp]
  unfold RegisterFile.check
  split
  · next hfound => cases hfound.symm.trans h1
  · split
    · next hfound => cases hfound.symm.trans h2
    · rfl

theorem isFree_of_firstFreeExcept? {avoid : List Register}
    (h : f.firstFreeExcept? avoid = some r) : f.isFree r = true ∧ r ∉ avoid := by
  simpa using List.find?_some h

/-! ### Putting a value down -/

theorem get?_slots_place :
    (f.place r slot).slots.get? r' = if r' = r then some slot else f.slots.get? r' :=
  f.slots.get?_insert r r' slot

theorem get?_index_place :
    (f.place r slot).index.get? l = if l = slot.location then some r else f.index.get? l :=
  f.index.get?_insert slot.location l r

@[simp] theorem homes_place : (f.place r slot).homes = f.homes := rfl

theorem registerOf?_place_self : (f.place r slot).registerOf? slot.location = some r := by
  simp [registerOf?, get?_index_place]

theorem registerOf?_place_of_ne (h : l ≠ slot.location) :
    (f.place r slot).registerOf? l = f.registerOf? l := by
  simp [registerOf?, get?_index_place, h]

theorem isFree_place (r r' : Register) (slot : Slot) :
    (f.place r slot).isFree r' = true ↔ f.isFree r' = true ∧ r' ≠ r := by
  simp only [isFree_iff, get?_slots_place]
  by_cases h : r' = r <;> simp [h]

theorem Lawful.place (h : f.Lawful) (hr : f.isFree r = true)
    (hl : f.index.get? slot.location = none) : (f.place r slot).Lawful := by
  obtain ⟨halloc, hnone⟩ := isFree_iff.mp hr
  constructor
  · intro r' slot' h'
    rw [get?_slots_place] at h'
    rw [get?_index_place]
    by_cases e : r' = r
    · rw [if_pos e] at h'
      obtain rfl := Option.some.inj h'
      rw [if_pos rfl, e]
    · rw [if_neg e] at h'
      have hi := h.indexed h'
      have : slot'.location ≠ slot.location := fun e' => by rw [e', hl] at hi; cases hi
      rw [if_neg this, hi]
  · intro l r' h'
    rw [get?_index_place] at h'
    rw [get?_slots_place]
    by_cases e : l = slot.location
    · rw [if_pos e] at h'
      obtain rfl := Option.some.inj h'
      exact ⟨slot.parameter, by rw [if_pos rfl, e]⟩
    · rw [if_neg e] at h'
      obtain ⟨p, hp⟩ := h.held h'
      have : r' ≠ r := fun e' => by rw [e', hnone] at hp; cases hp
      exact ⟨p, by rw [if_neg this, hp]⟩
  · intro r' slot' h'
    rw [get?_slots_place] at h'
    by_cases e : r' = r
    · rw [e]; exact halloc
    · rw [if_neg e] at h'; exact h.allocatable h'

theorem Below.place (h : f.Below n) (hl : slot.location.number < n) : (f.place r slot).Below n := by
  refine ⟨fun {l r'} h' => ?_, h.homes⟩
  rw [get?_index_place] at h'
  by_cases e : l = slot.location
  · rw [e]; exact hl
  · rw [if_neg e] at h'; exact h.index h'

/-- A value without a register gets the first free one, if there is one. -/
theorem allocate_of_new (hl : f.index.get? l = none) :
    f.allocate l =
      match f.firstFreeExcept? [] with
      | none => .error .noRegister
      | some r => .ok ((r, true), f.place r ⟨l, false⟩) := by
  cases hfree : f.firstFreeExcept? [] with
  | none | some r => simp [allocate, registerOf?, hl, hfree]

/-! ### Taking a value away and renaming it -/

/-- What was put down and is released again leaves no trace. -/
theorem release_place (hr : f.slots.get? r = none) (hl : f.index.get? slot.location = none)
    (hh : f.homes.get? slot.location = none) :
    (f.place r slot).release slot.location = (some r, f) := by
  simp only [release, registerOf?_place_self, Prod.mk.injEq, true_and]
  refine eq_of_get? (fun q => ?_) (fun q => ?_) fun q => ?_
  · simp only [Table.get?_erase, get?_slots_place]
    split
    · next e => rw [e, hr]
    · rfl
  · simp only [Table.get?_erase, get?_index_place]
    split
    · next e => rw [e, hl]
    · rfl
  · simp only [homes_place, Table.erase_of_get?_none hh]

theorem isFree_release (hr : f.isFree r = true) : (f.release l).2.isFree r = true := by
  obtain ⟨halloc, hnone⟩ := isFree_iff.mp hr
  refine isFree_iff.mpr ⟨halloc, ?_⟩
  unfold release
  split
  · exact hnone
  · rw [Table.get?_erase, hnone, ite_self]

/-- Another value can be released before or after a value is put down. -/
theorem release_place_of_ne (hl : l ≠ slot.location) (hr : f.slots.get? r = none) (hf : f.Lawful) :
    (f.place r slot).release l = ((f.release l).1, (f.release l).2.place r slot) := by
  simp only [release, registerOf?_place_of_ne hl]
  cases hq : f.registerOf? l with
  | none => rfl
  | some q =>
    have hne : r ≠ q := by
      rintro rfl
      obtain ⟨p, hp⟩ := hf.held hq
      rw [hr] at hp
      cases hp
    refine Prod.ext rfl (eq_of_get? (fun r' => ?_) (fun l' => ?_) fun l' => rfl)
    · simp only [Table.get?_erase, get?_slots_place]
      split_ifs <;> simp_all
    · simp only [Table.get?_erase, get?_index_place]
      split_ifs <;> simp_all

/-- A value under a new handle is as if it had been put down under that handle. -/
theorem swap_place {old new : Location} {p : Bool} (hr : f.isFree r = true)
    (hold : f.index.get? old = none) (hnew : f.index.get? new = none)
    (hh : f.homes.get? old = none) :
    (f.place r ⟨old, p⟩).swap r old new = .ok (f.place r ⟨new, p⟩) := by
  have halloc : Register.allocatable.contains r = true := by simpa using (isFree_iff.mp hr).1
  have hres : ¬(old ≠ new ∧ (f.place r ⟨old, p⟩).index.contains new = true) := by
    rintro ⟨hne, hc⟩
    rw [Table.contains, get?_index_place, if_neg (Ne.symm hne), hnew] at hc
    cases hc
  simp only [swap, halloc, if_true, get?_slots_place, if_neg hres, homes_place, hh]
  refine congrArg Except.ok (eq_of_get? (fun q => ?_) (fun q => ?_) fun q => rfl)
  · simp only [Table.get?_insert, get?_slots_place]
    split <;> rfl
  · simp only [Table.get?_insert, Table.get?_erase, get?_index_place]
    split
    · rfl
    · split
      · next e => rw [e, hold]
      · rfl

/-! ### Releasing many values -/

/-- The file with some values released. -/
def releaseAll (f : RegisterFile) : List Location → RegisterFile
  | [] => f
  | l :: ls => (f.release l).2.releaseAll ls

theorem get?_homes_release : (f.release l).2.homes.get? l' =
    if l' = l then none else f.homes.get? l' := by
  unfold release
  split <;> exact Table.get?_erase ..

theorem get?_index_release : (f.release l).2.index.get? l' =
    if l' = l then none else f.index.get? l' := by
  unfold release
  split
  · next hnone =>
    split_ifs with heq
    · rw [heq]
      exact hnone
    · rfl
  · exact Table.get?_erase ..

theorem get?_slots_release (hf : f.Lawful) : (f.release l).2.slots.get? r =
    (f.slots.get? r).filter fun slot => slot.location ≠ l := by
  cases hr : f.slots.get? r with
  | none =>
    unfold release
    split
    · exact hr
    · rw [Table.get?_erase, hr, ite_self]
      rfl
  | some slot =>
    have hindexed := hf.indexed hr
    by_cases heq : slot.location = l
    · subst heq
      simp only [release, registerOf?, hindexed, Table.get?_erase]
      simp [Option.filter]
    · have hne : f.registerOf? l ≠ some r := by
        intro hl
        obtain ⟨p, hp⟩ := hf.held hl
        rw [hr] at hp
        exact heq (congrArg Slot.location (Option.some.inj hp))
      unfold release
      split
      · simp [hr, heq, Option.filter]
      · next q hq =>
        have : r ≠ q := fun e => hne (by rw [hq, e])
        simp [Table.get?_erase, this, hr, heq, Option.filter]

theorem Lawful.release (hf : f.Lawful) : (f.release l).2.Lawful := by
  constructor
  · intro r slot hr
    rw [get?_slots_release hf] at hr
    obtain ⟨hr, hne⟩ := Option.filter_eq_some_iff.mp hr
    rw [get?_index_release, if_neg (by simpa using hne)]
    exact hf.indexed hr
  · intro l' r hl
    rw [get?_index_release] at hl
    split_ifs at hl with heq
    obtain ⟨p, hp⟩ := hf.held hl
    exact ⟨p, by rw [get?_slots_release hf, hp]; simp [heq]⟩
  · intro r slot hr
    rw [get?_slots_release hf] at hr
    exact hf.allocatable (Option.filter_eq_some_iff.mp hr).1

theorem Lawful.releaseAll {ls : List Location} (hf : f.Lawful) : (f.releaseAll ls).Lawful := by
  induction ls generalizing f with
  | nil => exact hf
  | cons l ls ih => exact ih hf.release

theorem get?_homes_releaseAll {ls : List Location} : (f.releaseAll ls).homes.get? l =
    if l ∈ ls then none else f.homes.get? l := by
  induction ls generalizing f with
  | nil => rfl
  | cons l' ls ih =>
    rw [releaseAll, ih, get?_homes_release]
    by_cases h : l = l' <;> simp [h]

theorem get?_index_releaseAll {ls : List Location} : (f.releaseAll ls).index.get? l =
    if l ∈ ls then none else f.index.get? l := by
  induction ls generalizing f with
  | nil => rfl
  | cons l' ls ih =>
    rw [releaseAll, ih, get?_index_release]
    by_cases h : l = l' <;> simp [h]

theorem get?_slots_releaseAll {ls : List Location} (hf : f.Lawful) :
    (f.releaseAll ls).slots.get? r = (f.slots.get? r).filter fun slot => slot.location ∉ ls := by
  induction ls generalizing f with
  | nil => cases hr : f.slots.get? r <;> simp [releaseAll, hr, Option.filter]
  | cons l' ls ih =>
    rw [releaseAll, ih hf.release, get?_slots_release hf, Option.filter_filter]
    congr 1
    funext slot
    simp

end RegisterFile

end ProcLang

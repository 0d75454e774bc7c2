import ProcLang.Proofs.Register.File

/-!
Files that hold the parameters of a procedure and nothing else, each in the register in which it came.
There is one such file for each first handle and number of parameters.
-/

namespace ProcLang.RegisterFile

variable {f g : RegisterFile} {first count : Nat} {r : Register} {l : Location}

/-- The register of the parameter with a handle, where the handles of `count` parameters start at
`first`; parameters behind the argument registers have none. -/
def IsParameter (first count : Nat) (l : Location) (r : Register) : Prop :=
  ∃ i, i < count ∧ l = ⟨first + i⟩ ∧ Register.arguments[i]? = some r

/-- The file holds exactly the parameters that come in registers: each is flagged and sits in its own
register, and the homes are these registers. -/
structure HoldsParameters (first count : Nat) (f : RegisterFile) : Prop where
  slots : ∀ r slot, f.slots.get? r = some slot ↔
    IsParameter first count slot.location r ∧ slot.parameter = true
  index : ∀ l r, f.index.get? l = some r ↔ IsParameter first count l r
  homes : ∀ l r, f.homes.get? l = some r ↔ IsParameter first count l r

theorem mem_allocatable_of_arguments {i : Nat} (h : Register.arguments[i]? = some r) :
    r ∈ Register.allocatable :=
  (by decide : ∀ r ∈ Register.arguments, r ∈ Register.allocatable) r (List.mem_of_getElem? h)

theorem arguments_inj {i j : Nat} (hi : Register.arguments[i]? = some r)
    (hj : Register.arguments[j]? = some r) : i = j := by
  have hnd : Register.arguments.Nodup := by decide
  obtain ⟨hi', -⟩ := List.getElem?_eq_some_iff.mp hi
  exact (List.getElem?_inj hi' hnd).mp (hi.trans hj.symm)

theorem IsParameter.location_inj {l' : Location} (h : IsParameter first count l r)
    (h' : IsParameter first count l' r) : l = l' := by
  obtain ⟨i, -, rfl, hi⟩ := h
  obtain ⟨j, -, rfl, hj⟩ := h'
  rw [arguments_inj hi hj]

namespace HoldsParameters

theorem lawful (h : f.HoldsParameters first count) : f.Lawful where
  indexed hr := (h.index _ _).mpr ((h.slots _ _).mp hr).1
  held hl := ⟨true, (h.slots _ _).mpr ⟨(h.index _ _).mp hl, rfl⟩⟩
  allocatable hr := by
    obtain ⟨⟨i, -, -, hi⟩, -⟩ := (h.slots _ _).mp hr
    exact mem_allocatable_of_arguments hi

theorem below (h : f.HoldsParameters first count) : f.Below (first + count) := by
  have key : ∀ {l r}, IsParameter first count l r → l.number < first + count := by
    rintro l r ⟨i, hi, rfl, -⟩
    exact Nat.add_lt_add_left hi first
  exact ⟨fun hl => key ((h.index _ _).mp hl), fun hl => key ((h.homes _ _).mp hl)⟩

theorem unique (h : f.HoldsParameters first count) (h' : g.HoldsParameters first count) : f = g := by
  refine eq_of_get? (fun r => ?_) (fun l => ?_) fun l => ?_
  · exact Option.ext fun slot => (h.slots r slot).trans (h'.slots r slot).symm
  · exact Option.ext fun r => (h.index l r).trans (h'.index l r).symm
  · exact Option.ext fun r => (h.homes l r).trans (h'.homes l r).symm

theorem empty : ({} : RegisterFile).HoldsParameters first 0 := by
  have none {α : Type} {a : α} : ¬((none : Option α) = some a) := by simp
  have no {l r} : ¬IsParameter first 0 l r := by
    rintro ⟨i, hi, -⟩
    exact Nat.not_lt_zero i hi
  exact ⟨fun r slot => iff_of_false none fun h => no h.1, fun l r => iff_of_false none no,
    fun l r => iff_of_false none no⟩

/-- A parameter behind the argument registers adds nothing to the file. -/
theorem more (h : f.HoldsParameters first count) (hnone : Register.arguments[count]? = none) :
    f.HoldsParameters first (count + 1) := by
  have key : ∀ {l r}, IsParameter first (count + 1) l r ↔ IsParameter first count l r := by
    intro l r
    constructor
    · rintro ⟨i, hi, hl, hr⟩
      refine ⟨i, ?_, hl, hr⟩
      have hne : i ≠ count := by
        rintro rfl
        rw [hnone] at hr
        cases hr
      omega
    · rintro ⟨i, hi, hl, hr⟩
      exact ⟨i, by omega, hl, hr⟩
  exact ⟨fun r slot => by rw [key, h.slots], fun l r => by rw [key, h.index],
    fun l r => by rw [key, h.homes]⟩

theorem isParameter_succ (hr : Register.arguments[count]? = some r) {l : Location} {q : Register} :
    IsParameter first (count + 1) l q ↔
      l = ⟨first + count⟩ ∧ q = r ∨ IsParameter first count l q := by
  constructor
  · rintro ⟨i, hi, hl, hq⟩
    rcases Nat.lt_or_eq_of_le (Nat.le_of_lt_succ hi) with hlt | rfl
    · exact .inr ⟨i, hlt, hl, hq⟩
    · rw [hr] at hq
      exact .inl ⟨hl, (Option.some.inj hq).symm⟩
  · rintro (⟨hl, rfl⟩ | ⟨i, hi, hl, hq⟩)
    · exact ⟨count, Nat.lt_succ_self _, hl, hr⟩
    · exact ⟨i, by omega, hl, hq⟩

/-- The next parameter can be bound to its register. -/
theorem claim (h : f.HoldsParameters first count) (hr : Register.arguments[count]? = some r) :
    ∃ g, f.claim r ⟨first + count⟩ true = .ok g ∧ g.HoldsParameters first (count + 1) := by
  have hcontains : Register.allocatable.contains r = true := by
    simpa using mem_allocatable_of_arguments hr
  have hslot : f.slots.get? r = none := by
    cases hs : f.slots.get? r with
    | none => rfl
    | some slot =>
      obtain ⟨⟨i, hi, -, hri⟩, -⟩ := (h.slots r slot).mp hs
      rw [arguments_inj hri hr] at hi
      exact absurd hi (Nat.lt_irrefl _)
  have hnew : ∀ {q}, ¬IsParameter first count ⟨first + count⟩ q := by
    rintro q ⟨i, hi, hl, -⟩
    have : first + count = first + i := congrArg Location.number hl
    omega
  have hindex : f.registerOf? ⟨first + count⟩ = none := by
    cases hs : f.index.get? ⟨first + count⟩ with
    | none => exact hs
    | some q => exact absurd ((h.index _ _).mp hs) hnew
  refine ⟨{ f.place r ⟨⟨first + count⟩, true⟩ with
    homes := f.homes.insert ⟨first + count⟩ r }, ?_, fun q slot => ?_, fun l q => ?_, fun l q => ?_⟩
  · simp only [RegisterFile.claim, hcontains, if_true, hslot, hindex, homes_place]
  · rw [isParameter_succ hr]
    show (f.place r ⟨⟨first + count⟩, true⟩).slots.get? q = some slot ↔ _
    rw [get?_slots_place]
    by_cases hq : q = r
    · rw [if_pos hq, Option.some.injEq]
      constructor
      · rintro rfl
        exact ⟨.inl ⟨rfl, hq⟩, rfl⟩
      · obtain ⟨l, p⟩ := slot
        rintro ⟨⟨rfl, -⟩ | hpar, rfl⟩
        · rfl
        · have := (h.slots q ⟨l, true⟩).mpr ⟨hpar, rfl⟩
          rw [hq, hslot] at this
          cases this
    · rw [if_neg hq, h.slots]
      simp [hq]
  · rw [isParameter_succ hr]
    show (f.place r ⟨⟨first + count⟩, true⟩).index.get? l = some q ↔ _
    rw [get?_index_place]
    by_cases hl : l = ⟨first + count⟩
    · subst hl
      rw [if_pos rfl, Option.some.injEq]
      constructor
      · exact fun e => .inl ⟨rfl, e.symm⟩
      · rintro (⟨-, rfl⟩ | hpar)
        · rfl
        · exact absurd hpar hnew
    · rw [if_neg hl, h.index]
      simp [hl]
  · rw [isParameter_succ hr]
    show (f.homes.insert ⟨first + count⟩ r).get? l = some q ↔ _
    rw [Table.get?_insert]
    by_cases hl : l = ⟨first + count⟩
    · subst hl
      rw [if_pos rfl, Option.some.injEq]
      constructor
      · exact fun e => .inl ⟨rfl, e.symm⟩
      · rintro (⟨-, rfl⟩ | hpar)
        · rfl
        · exact absurd hpar hnew
    · rw [if_neg hl, h.homes]
      simp [hl]

/-- Once all parameters are released the file is empty. -/
theorem releaseAll {ls : List Location} (h : f.HoldsParameters first count)
    (hls : ∀ l r, IsParameter first count l r → l ∈ ls) : f.releaseAll ls = {} := by
  refine eq_of_get? (fun r => ?_) (fun l => ?_) fun l => ?_
  · rw [get?_slots_releaseAll h.lawful]
    cases hs : f.slots.get? r with
    | none => rfl
    | some slot =>
      have hmem := hls _ _ ((h.slots r slot).mp hs).1
      simp [Option.filter, hmem]
  · rw [get?_index_releaseAll]
    split_ifs with hmem
    · rfl
    · cases hs : f.index.get? l with
      | none => rfl
      | some r => exact absurd (hls _ _ ((h.index l r).mp hs)) hmem
  · rw [get?_homes_releaseAll]
    split_ifs with hmem
    · rfl
    · cases hs : f.homes.get? l with
      | none => rfl
      | some r => exact absurd (hls _ _ ((h.homes l r).mp hs)) hmem

end HoldsParameters

end ProcLang.RegisterFile

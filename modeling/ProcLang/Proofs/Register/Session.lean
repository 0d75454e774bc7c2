import ProcLang.Proofs.Register.Shuffle

/-!
Sessions of a register file: operations one after another, of any kind and in any order, on one file
that is changed in place.  Each operation is written here as the single writes that it makes to the
slots, the index and the homes, and a refusal leaves behind whatever was written before it.  On a
lawful file that is the operation of the file itself, so a refused operation has written nothing, and
every file that a session can reach is lawful.
-/

namespace ProcLang.RegisterFile

variable {f g : RegisterFile} {r source target : Register} {l old new : Location} {slot : Slot}

/-! ### Lawful files stay lawful -/

/-- Only the slots and the index make a file lawful. -/
theorem Lawful.of_homes {homes : Table Location Register} (hf : f.Lawful) :
    Lawful { f with homes := homes } :=
  ⟨hf.indexed, hf.held, hf.allocatable⟩

theorem Lawful.allocate {answer : Register × Bool} (hf : f.Lawful)
    (h : f.allocate l = .ok (answer, g)) : g.Lawful := by
  unfold RegisterFile.allocate at h
  split at h
  · cases h
    exact hf
  · next hl =>
    split at h
    · cases h
    · next r hr =>
      cases h
      exact hf.place (isFree_of_firstFreeExcept? hr).1 hl

theorem Lawful.claim {parameter : Bool} (hf : f.Lawful) (h : f.claim r l parameter = .ok g) :
    g.Lawful := by
  unfold RegisterFile.claim at h
  split at h
  · next halloc =>
    split at h
    · cases h
    · next hr =>
      split at h
      · cases h
      · next hl =>
        have hplaced : (f.place r ⟨l, parameter⟩).Lawful :=
          hf.place (isFree_iff.mpr ⟨by simpa using halloc, hr⟩) hl
        cases h
        split
        · exact hplaced.of_homes
        · exact hplaced
  · cases h

/-- Emptying a register is releasing its value, except that the value keeps its home. -/
theorem vacate_of_held (hf : f.Lawful) (hr : f.slots.get? r = some slot) :
    f.vacate r = (some slot, { (f.release slot.location).2 with homes := f.homes }) := by
  have hl : f.registerOf? slot.location = some r := hf.indexed hr
  simp only [vacate, hr, RegisterFile.release, hl]

theorem Lawful.vacate (hf : f.Lawful) : (f.vacate r).2.Lawful := by
  cases hr : f.slots.get? r with
  | none =>
    simp only [RegisterFile.vacate, hr]
    exact hf
  | some slot =>
    rw [vacate_of_held hf hr]
    exact hf.release.of_homes

/-- The value in a register, and its home if it has one, got another handle. -/
structure Swapped (f : RegisterFile) (r : Register) (old new : Location) (p : Bool) (g : RegisterFile) :
    Prop where
  held : f.slots.get? r = some ⟨old, p⟩
  absent : new ≠ old → f.index.get? new = none
  slots : ∀ q, g.slots.get? q = if q = r then some ⟨new, p⟩ else f.slots.get? q
  index : ∀ l, g.index.get? l = if l = new then some r else if l = old then none else f.index.get? l
  homes : (new ≠ old → f.homes.get? new = none) → ∀ l, g.homes.get? l =
    if l = new then f.homes.get? old else if l = old then none else f.homes.get? l

theorem swapped_of_ok (h : f.swap r old new = .ok g) : ∃ p, Swapped f r old new p g := by
  unfold RegisterFile.swap at h
  split at h
  case isFalse => cases h
  split at h
  · cases h
  next occupant hr =>
  split at h
  case isFalse => cases h
  case isTrue hold =>
    obtain rfl := hold
    split at h
    case isTrue => cases h
    case isFalse hnew =>
      cases h
      refine ⟨occupant.parameter, hr, fun hne => ?_, fun q => ?_, fun l => ?_, fun hnone l => ?_⟩
      · cases hindex : f.index.get? new with
        | none => rfl
        | some q => exact absurd ⟨hne.symm, by simp [Table.contains, hindex]⟩ hnew
      · rw [Table.get?_insert]
      · rw [Table.get?_insert, Table.get?_erase]
      · cases hhome : f.homes.get? occupant.location with
        | some home => simp only [Table.get?_insert, Table.get?_erase]
        | none =>
          -- the value has no home, and neither has the new handle
          split_ifs with hl hl'
          · by_cases hne : new = occupant.location
            · rw [hl, hne, hhome]
            · rw [hl, hnone hne]
          · rw [hl', hhome]
          · rfl

theorem Swapped.lawful {p : Bool} (h : Swapped f r old new p g) (hf : f.Lawful) : g.Lawful := by
  constructor
  · intro q slot hq
    rw [h.slots] at hq
    rw [h.index]
    split_ifs at hq with heq
    · obtain rfl := Option.some.inj hq
      rw [if_pos rfl, heq]
    · have hold : slot.location ≠ old := fun e => heq (hf.register_inj hq h.held e)
      have hnew : slot.location ≠ new := by
        rintro rfl
        have habsent := h.absent hold
        rw [hf.indexed hq] at habsent
        cases habsent
      rw [if_neg hnew, if_neg hold, hf.indexed hq]
  · intro l q hl
    rw [h.index] at hl
    split_ifs at hl with hnew hold
    · obtain rfl := Option.some.inj hl
      exact ⟨p, by rw [h.slots, if_pos rfl, hnew]⟩
    · obtain ⟨p', hp'⟩ := hf.held hl
      have hne : q ≠ r := by
        rintro rfl
        rw [h.held] at hp'
        exact hold (congrArg Slot.location (Option.some.inj hp')).symm
      exact ⟨p', by rw [h.slots, if_neg hne, hp']⟩
  · intro q slot hq
    rw [h.slots] at hq
    split_ifs at hq with heq
    · exact heq ▸ hf.allocatable h.held
    · exact hf.allocatable hq

theorem Lawful.swap (hf : f.Lawful) (h : f.swap r old new = .ok g) : g.Lawful := by
  obtain ⟨p, hswapped⟩ := swapped_of_ok h
  exact hswapped.lawful hf

theorem Lawful.relocate {l : Location} (hf : f.Lawful)
    (h : f.relocate source target = .ok (l, g)) : g.Lawful := by
  obtain ⟨slot, hmoved⟩ := relocated_of_ok h
  exact hmoved.lawful hf

/-! ### Work in place -/

/-- Work on a file in place: what was written before a refusal stays written. -/
abbrev InPlace (α : Type) : Type := Stage Empty RegisterFile α

namespace InPlace

/-- Write a slot. -/
def putSlot (r : Register) (slot : Slot) : InPlace Unit :=
  Stage.modify fun f => { f with slots := f.slots.insert r slot }

/-- Empty a slot. -/
def dropSlot (r : Register) : InPlace Unit :=
  Stage.modify fun f => { f with slots := f.slots.erase r }

/-- Write an index entry. -/
def putIndex (l : Location) (r : Register) : InPlace Unit :=
  Stage.modify fun f => { f with index := f.index.insert l r }

/-- Remove an index entry. -/
def dropIndex (l : Location) : InPlace Unit :=
  Stage.modify fun f => { f with index := f.index.erase l }

/-- Write a home. -/
def putHome (l : Location) (r : Register) : InPlace Unit :=
  Stage.modify fun f => { f with homes := f.homes.insert l r }

/-- Remove a home. -/
def dropHome (l : Location) : InPlace Unit :=
  Stage.modify fun f => { f with homes := f.homes.erase l }

/-- Refuse an operation. -/
def refuse {α : Type} (cause : ResourceCause) : InPlace α := Stage.fail (.resource cause)

/-- The register must be one that can be allocated. -/
def ensureAllocatable (r : Register) : InPlace Unit :=
  if Register.allocatable.contains r then pure () else refuse (.notAllocatable r)

def allocate (l : Location) : InPlace (Register × Bool) := do
  match (← Stage.get).registerOf? l with
  | some r => return (r, false)
  | none =>
    match (← Stage.get).firstFreeExcept? [] with
    | none => refuse .noRegister
    | some r =>
      putSlot r ⟨l, false⟩
      putIndex l r
      return (r, true)

def claim (r : Register) (l : Location) (parameter : Bool) : InPlace Unit := do
  ensureAllocatable r
  match (← Stage.get).slots.get? r with
  | some occupant => refuse (.alreadyHolds r occupant.location)
  | none =>
    match (← Stage.get).registerOf? l with
    | some previous => refuse (.alreadyLives l previous)
    | none =>
      putSlot r ⟨l, parameter⟩
      putIndex l r
      if parameter then putHome l r

def vacate (r : Register) : InPlace (Option Slot) := do
  if Register.allocatable.contains r then
    match (← Stage.get).slots.get? r with
    | none => return none
    | some occupant =>
      dropSlot r
      dropIndex occupant.location
      return some occupant
  else return none

def release (l : Location) : InPlace (Option Register) := do
  dropHome l
  match (← Stage.get).index.get? l with
  | none => return none
  | some r =>
    dropIndex l
    dropSlot r
    return some r

def swap (r : Register) (old new : Location) : InPlace Unit := do
  ensureAllocatable r
  match (← Stage.get).slots.get? r with
  | none => refuse (.doesNotHold r old)
  | some occupant =>
    if occupant.location = old then
      if old ≠ new ∧ (← Stage.get).index.contains new then refuse (.alreadyResident new)
      else
        dropIndex old
        putIndex new r
        putSlot r ⟨new, occupant.parameter⟩
        match (← Stage.get).homes.get? old with
        | none => return ()
        | some home =>
          dropHome old
          putHome new home
    else refuse (.doesNotHold r old)

/-- The source is emptied before it is known that it held anything. -/
def relocate (source target : Register) : InPlace Location := do
  ensureAllocatable target
  match (← Stage.get).slots.get? target with
  | some _ => refuse (.notFree target)
  | none =>
    match (← vacate source) with
    | none => refuse (.isEmpty source)
    | some occupant =>
      putSlot target occupant
      putIndex occupant.location target
      return occupant.location

end InPlace

/-! ### Operations in place and operations of the file -/

/-- How an operation of the file ends in place: with the new file, or with a refusal and the old. -/
def settle {α : Type} (f : RegisterFile) :
    Except ResourceCause (α × RegisterFile) → Outcome Empty RegisterFile α
  | .ok (a, g) => ⟨[], .ok a, g⟩
  | .error cause => ⟨[], .error (.resource cause), f⟩

namespace InPlace

variable {α : Type}

theorem get_bind (k : RegisterFile → InPlace α) : (Stage.get >>= k) f = k f f := rfl

theorem modify_bind (change : RegisterFile → RegisterFile) (k : Unit → InPlace α) :
    (Stage.modify change >>= k) f = k () (change f) := rfl

theorem allocate_eq : allocate l f = settle f (f.allocate l) := by
  simp only [allocate, RegisterFile.allocate, get_bind]
  cases f.registerOf? l with
  | some r => rfl
  | none =>
    simp only [get_bind]
    cases f.firstFreeExcept? [] with
    | none => rfl
    | some r => rfl

theorem ensureAllocatable_bind (k : Unit → InPlace α) : (ensureAllocatable r >>= k) f =
    if Register.allocatable.contains r then k () f
    else ⟨[], .error (.resource (.notAllocatable r)), f⟩ := by
  unfold ensureAllocatable
  split <;> rfl

theorem claim_eq {parameter : Bool} :
    claim r l parameter f = settle f ((f.claim r l parameter).map ((), ·)) := by
  simp only [claim, RegisterFile.claim, ensureAllocatable_bind]
  split
  · simp only [get_bind]
    cases f.slots.get? r with
    | some occupant => rfl
    | none =>
      simp only [get_bind]
      cases f.registerOf? l with
      | some previous => rfl
      | none => cases parameter <;> rfl
  · rfl

/-- A register that cannot be allocated is empty in a lawful file. -/
theorem get?_slots_of_not_allocatable (hf : f.Lawful)
    (hr : ¬Register.allocatable.contains r = true) : f.slots.get? r = none := by
  cases h : f.slots.get? r with
  | none => rfl
  | some slot => exact absurd (hf.allocatable h) (by simpa using hr)

theorem vacate_eq (hf : f.Lawful) : vacate r f = settle f (.ok (f.vacate r)) := by
  simp only [vacate, RegisterFile.vacate]
  split
  · simp only [get_bind]
    cases f.slots.get? r with
    | none => rfl
    | some occupant => rfl
  · next hr =>
    rw [get?_slots_of_not_allocatable hf hr]
    rfl

theorem release_eq : release l f = settle f (.ok (f.release l)) := by
  simp only [release, RegisterFile.release, dropHome, modify_bind, get_bind]
  cases hl : f.index.get? l with
  | none | some r =>
    simp only [registerOf?, hl]
    rfl

theorem swap_eq : swap r old new f = settle f ((f.swap r old new).map ((), ·)) := by
  simp only [swap, RegisterFile.swap, ensureAllocatable_bind]
  split
  · simp only [get_bind]
    cases f.slots.get? r with
    | none => rfl
    | some occupant =>
      simp only
      split
      · simp only [get_bind]
        split
        · rfl
        · simp only [dropIndex, putIndex, putSlot, modify_bind, get_bind]
          cases f.homes.get? old with
          | none => rfl
          | some home => rfl
      · rfl
  · rfl

/-- The only writes before the last refusal are those of emptying a register that was empty. -/
theorem relocate_eq (hf : f.Lawful) :
    relocate source target f = settle f (f.relocate source target) := by
  simp only [relocate, RegisterFile.relocate, ensureAllocatable_bind]
  split
  · simp only [get_bind]
    cases f.slots.get? target with
    | some occupant => rfl
    | none =>
      have hvacate := vacate_eq hf (r := source)
      cases hsource : f.slots.get? source with
      | none | some occupant =>
        simp only [RegisterFile.vacate, hsource, settle] at hvacate
        simp only [RegisterFile.vacate, hsource, Bind.bind, Stage.bind, hvacate]
        rfl
  · rfl

end InPlace

/-! ### Sessions -/

/-- An operation on a file, with its arguments. -/
inductive Op where
  | allocate (l : Location)
  | claim (r : Register) (l : Location) (parameter : Bool)
  | vacate (r : Register)
  | release (l : Location)
  | swap (r : Register) (old new : Location)
  | relocate (source target : Register)
deriving DecidableEq

/-- What an operation answers. -/
inductive Answer where
  | done
  | found (r : Register) (fresh : Bool)
  | emptied (slot : Option Slot)
  | freed (r : Option Register)
  | moved (l : Location)
deriving DecidableEq

namespace Op

/-- The operation in place. -/
def work : Op → InPlace Answer
  | allocate l => (fun (r, fresh) => .found r fresh) <$> InPlace.allocate l
  | claim r l parameter => (fun _ => .done) <$> InPlace.claim r l parameter
  | vacate r => .emptied <$> InPlace.vacate r
  | release l => .freed <$> InPlace.release l
  | swap r old new => (fun _ => .done) <$> InPlace.swap r old new
  | relocate source target => .moved <$> InPlace.relocate source target

/-- The operation of the file. -/
def apply (f : RegisterFile) : Op → Except ResourceCause (Answer × RegisterFile)
  | allocate l => (f.allocate l).map fun ((r, fresh), g) => (.found r fresh, g)
  | claim r l parameter => (f.claim r l parameter).map (.done, ·)
  | vacate r => .ok ((f.vacate r).map .emptied id)
  | release l => .ok ((f.release l).map .freed id)
  | swap r old new => (f.swap r old new).map (.done, ·)
  | relocate source target => (f.relocate source target).map fun (l, g) => (.moved l, g)

end Op

/-- The file after some operations, whether they were refused or not. -/
def session (f : RegisterFile) : List Op → RegisterFile
  | [] => f
  | op :: ops => (op.work f).state.session ops

theorem map_settle {α β : Type} (x : InPlace α) (a : α → β)
    {e : Except ResourceCause (α × RegisterFile)} (h : x f = settle f e) :
    (a <$> x) f = settle f (e.map fun (v, g) => (a v, g)) := by
  rw [map_eq_pure_bind]
  simp only [Bind.bind, Stage.bind, h]
  cases e with
  | error cause => rfl
  | ok p => rfl

/-- In place and on the file, an operation answers the same and leaves the same behind. -/
theorem Op.work_eq (op : Op) (hf : f.Lawful) : op.work f = settle f (op.apply f) := by
  cases op with
  | allocate l => exact map_settle _ _ InPlace.allocate_eq
  | claim r l parameter =>
    refine (map_settle _ _ InPlace.claim_eq).trans ?_
    simp only [apply]
    cases f.claim r l parameter <;> rfl
  | vacate r => exact map_settle _ _ (InPlace.vacate_eq hf)
  | release l => exact map_settle _ _ InPlace.release_eq
  | swap r old new =>
    refine (map_settle _ _ InPlace.swap_eq).trans ?_
    simp only [apply]
    cases f.swap r old new <;> rfl
  | relocate source target => exact map_settle _ _ (InPlace.relocate_eq hf)

theorem ok_of_map {α β : Type} {e : Except ResourceCause α} {a : α → β} {b : β}
    (h : e.map a = .ok b) : ∃ v, e = .ok v ∧ a v = b := by
  cases e with
  | error cause => cases h
  | ok v => exact ⟨v, rfl, Except.ok.inj h⟩

/-- An operation that is not refused makes a lawful file of a lawful file. -/
theorem Op.lawful_apply (op : Op) (hf : f.Lawful) {answer : Answer}
    (h : op.apply f = .ok (answer, g)) : g.Lawful := by
  cases op with
  | allocate l =>
    obtain ⟨⟨⟨r, fresh⟩, g'⟩, hok, hg⟩ := ok_of_map h
    cases hg
    exact hf.allocate hok
  | claim r l parameter =>
    obtain ⟨g', hok, hg⟩ := ok_of_map h
    cases hg
    exact hf.claim hok
  | vacate r =>
    cases h
    exact hf.vacate
  | release l =>
    cases h
    exact hf.release
  | swap r old new =>
    obtain ⟨g', hok, hg⟩ := ok_of_map h
    cases hg
    exact hf.swap hok
  | relocate source target =>
    obtain ⟨⟨l, g'⟩, hok, hg⟩ := ok_of_map h
    cases hg
    exact hf.relocate hok

/-- An operation in place keeps a file lawful, and a refused one leaves it as it was. -/
theorem Op.lawful_work (op : Op) (hf : f.Lawful) : (op.work f).state.Lawful ∧
    ∀ e, (op.work f).result = .error e → (op.work f).state = f := by
  rw [op.work_eq hf]
  cases h : op.apply f with
  | error cause => exact ⟨hf, fun _ _ => rfl⟩
  | ok p => exact ⟨op.lawful_apply hf h, fun e he => by cases he⟩

theorem Lawful.session (hf : f.Lawful) (ops : List Op) : (f.session ops).Lawful := by
  induction ops generalizing f with
  | nil => exact hf
  | cons op ops ih => exact ih (op.lawful_work hf).1

/-- In a lawful file, finding the register of a value and finding the value of a register are
inverse to each other. -/
theorem Lawful.registerOf?_iff (hf : f.Lawful) :
    f.registerOf? l = some r ↔ f.locationIn? r = some l := by
  constructor
  · intro hl
    obtain ⟨p, hp⟩ := hf.held hl
    simp [locationIn?, hp]
  · intro hr
    obtain ⟨slot, hslot, rfl⟩ := Option.map_eq_some_iff.mp hr
    exact hf.indexed hslot

/-- Whatever operations were made on an empty file, slots and index say the same: every value that
sits in a register is indexed to it, every index entry leads to the value, no value is in two
registers, and the check finds nothing.  The next operation, whichever it is, does in place what it
does to the file as a value, and if it is refused, then slots, index and homes are as they were. -/
theorem session_consistent (ops : List Op) :
    let f := session {} ops
    (∀ r slot, f.slots.get? r = some slot →
      r ∈ Register.allocatable ∧ f.index.get? slot.location = some r) ∧
    (∀ l r, f.index.get? l = some r → ∃ p, f.slots.get? r = some ⟨l, p⟩) ∧
    (∀ l r, f.registerOf? l = some r ↔ f.locationIn? r = some l) ∧
    (∀ l r r', f.locationIn? r = some l → f.locationIn? r' = some l → r = r') ∧
    f.check = .ok () ∧
    ∀ op : Op, op.work f = settle f (op.apply f) ∧
      ∀ e, (op.work f).result = .error e → (op.work f).state = f := by
  intro f
  have hf : f.Lawful := Lawful.empty.session ops
  refine ⟨fun r slot hr => ⟨hf.allocatable hr, hf.indexed hr⟩, fun l r hl => hf.held hl,
    fun l r => hf.registerOf?_iff, fun l r r' hr hr' => ?_, hf.check,
    fun op => ⟨op.work_eq hf, (op.lawful_work hf).2⟩⟩
  have hl := hf.registerOf?_iff.mpr hr
  rw [hf.registerOf?_iff.mpr hr'] at hl
  exact (Option.some.inj hl).symm

end ProcLang.RegisterFile

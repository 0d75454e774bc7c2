import ProcLang.Error

/-!
The register file: which value sits in which register.  Besides the slots it keeps the register of
every value it holds, and the home of every parameter, the register in which the parameter came.
An operation that is refused gives no new file, so the old one stays.
-/

namespace ProcLang

/-- What an occupied register holds. -/
structure Slot where
  location : Location
  /-- The value is a parameter of the procedure. -/
  parameter : Bool
deriving DecidableEq, Inhabited

/-- The slots, the index from values to registers, and the homes of the parameters. -/
structure RegisterFile where
  slots : Table Register Slot := .empty
  index : Table Location Register := .empty
  homes : Table Location Register := .empty
deriving DecidableEq, Inhabited

namespace RegisterFile

/-- The register that holds a value. -/
def registerOf? (f : RegisterFile) (l : Location) : Option Register := f.index.get? l

/-- The value in a register. -/
def locationIn? (f : RegisterFile) (r : Register) : Option Location :=
  (f.slots.get? r).map (·.location)

/-- The register holds a parameter. -/
def isParameter (f : RegisterFile) (r : Register) : Bool := (f.slots.get? r).any (·.parameter)

/-- The register can be allocated and holds nothing. -/
def isFree (f : RegisterFile) (r : Register) : Bool :=
  Register.allocatable.contains r && !f.slots.contains r

/-- The home of a parameter. -/
def homeOf? (f : RegisterFile) (l : Location) : Option Register := f.homes.get? l

/-- The first free register that is not to be avoided. -/
def firstFreeExcept? (f : RegisterFile) (avoid : List Register) : Option Register :=
  Register.allocatable.find? fun r => f.isFree r && !avoid.contains r

/-- The registers in use, in file order. -/
def occupied (f : RegisterFile) : List Register :=
  Register.allocatable.filter f.slots.contains

/-- The parameters that are not at home: value, register and home, in the order of the values. -/
def displaced (f : RegisterFile) : List (Location × Register × Register) :=
  f.homes.entries.filterMap fun (l, home) =>
    match f.registerOf? l with
    | some current => if current = home then none else some (l, current, home)
    | none => none

/-- The file with a value put into a register. -/
def place (f : RegisterFile) (r : Register) (slot : Slot) : RegisterFile :=
  { f with slots := f.slots.insert r slot, index := f.index.insert slot.location r }

/-- The register of a value, the first free one if it has none yet; the flag tells whether it is
new. -/
def allocate (f : RegisterFile) (l : Location) :
    Except ResourceCause ((Register × Bool) × RegisterFile) :=
  match f.registerOf? l with
  | some r => .ok ((r, false), f)
  | none =>
    match f.firstFreeExcept? [] with
    | none => .error .noRegister
    | some r => .ok ((r, true), f.place r ⟨l, false⟩)

/-- Put a value into a given register, which must be free. -/
def claim (f : RegisterFile) (r : Register) (l : Location) (parameter : Bool) :
    Except ResourceCause RegisterFile :=
  if Register.allocatable.contains r then
    match f.slots.get? r with
    | some occupant => .error (.alreadyHolds r occupant.location)
    | none =>
      match f.registerOf? l with
      | some previous => .error (.alreadyLives l previous)
      | none =>
        let placed := f.place r ⟨l, parameter⟩
        .ok (if parameter then { placed with homes := placed.homes.insert l r } else placed)
  else .error (.notAllocatable r)

/-- Empty a register, and what it held.  A parameter keeps its home. -/
def vacate (f : RegisterFile) (r : Register) : Option Slot × RegisterFile :=
  match f.slots.get? r with
  | none => (none, f)
  | some slot =>
    (some slot, { f with slots := f.slots.erase r, index := f.index.erase slot.location })

/-- Forget a value, and the register that it leaves free. -/
def release (f : RegisterFile) (l : Location) : Option Register × RegisterFile :=
  let homeless := { f with homes := f.homes.erase l }
  match f.registerOf? l with
  | none => (none, homeless)
  | some r =>
    (some r, { homeless with slots := f.slots.erase r, index := f.index.erase l })

/-- Give the value in a register another handle.  The parameter's home goes along. -/
def swap (f : RegisterFile) (r : Register) (old new : Location) :
    Except ResourceCause RegisterFile :=
  if Register.allocatable.contains r then
    match f.slots.get? r with
    | none => .error (.doesNotHold r old)
    | some occupant =>
      if occupant.location = old then
        if old ≠ new ∧ f.index.contains new then .error (.alreadyResident new)
        else
          .ok
            { slots := f.slots.insert r ⟨new, occupant.parameter⟩
              index := (f.index.erase old).insert new r
              homes :=
                match f.homes.get? old with
                | some home => (f.homes.erase old).insert new home
                | none => f.homes }
      else .error (.doesNotHold r old)
  else .error (.notAllocatable r)

/-- Move the value of one register to another, which must be free, and the value. -/
def relocate (f : RegisterFile) (source target : Register) :
    Except ResourceCause (Location × RegisterFile) :=
  if Register.allocatable.contains target then
    match f.slots.get? target with
    | some _ => .error (.notFree target)
    | none =>
      match f.vacate source with
      | (none, _) => .error (.isEmpty source)
      | (some slot, left) => .ok (slot.location, left.place target slot)
  else .error (.notAllocatable target)

/-- Every register in use is the register of its value, and every value is in its register. -/
def check (f : RegisterFile) : Except ResourceCause Unit :=
  match f.slots.entries.find? fun (r, slot) => f.index.get? slot.location != some r with
  | some (r, slot) => .error (.slotNotIndexed r slot.location)
  | none =>
    match f.index.entries.find? fun (l, r) => f.locationIn? r != some l with
    | some (l, r) => .error (.indexNotHeld l r)
    | none => .ok ()

end RegisterFile

end ProcLang

import ProcLang.Proofs.Register.Session

/-!
Where parameters are at home.  Beside a session stands a record of the operation that brought each
value into the file; it follows the answers of the operations and knows nothing of flags and homes.
A value is flagged as a parameter exactly if it was claimed as one, and its home is then the register
of that claim, under whatever handle and in whatever register the value is by now.
-/

namespace ProcLang.RegisterFile

/-- For each register in use, the operation that brought its value into the file. -/
abbrev Origins : Type := Register → Option Op

variable {f g : RegisterFile} {origins : Origins} {r source target : Register}
  {l old new : Location}

/-! ### Origins of values -/

namespace Origins

/-- The value in a register has an origin now, or there is no value any more. -/
def set (origins : Origins) (r : Register) (op : Option Op) : Origins :=
  fun q => if q = r then op else origins q

theorem set_apply (op : Option Op) (q : Register) :
    origins.set r op q = if q = r then op else origins q := rfl

end Origins

/-- The origins behind an operation with an answer.  An operation that puts a value down is its origin,
a move takes the origin along, and under another handle it is still the same value. -/
def Op.record (origins : Origins) : Op → Answer → Origins
  | allocate l, .found r true => origins.set r (some (allocate l))
  | claim r l parameter, _ => origins.set r (some (claim r l parameter))
  | vacate r, _ => origins.set r none
  | swap .., _ => origins
  | relocate source target, _ => (origins.set source none).set target (origins source)
  | release _, .freed (some r) => origins.set r none
  | _, _ => origins

/-- The origins after a session that starts with a file and its origins. -/
def originsAfter (f : RegisterFile) (origins : Origins) : List Op → Origins
  | [] => origins
  | op :: ops =>
    match (op.work f).result with
    | .ok answer => (op.work f).state.originsAfter (op.record origins answer) ops
    | .error _ => (op.work f).state.originsAfter origins ops

/-- The register in which an operation claims a parameter. -/
def Op.home? : Op → Option Register
  | claim r _ true => some r
  | _ => none

theorem Op.home?_eq_some {op : Op} {home : Register} :
    op.home? = some home ↔ ∃ l, op = .claim home l true := by
  constructor
  · intro h
    unfold home? at h
    split at h
    · next r l =>
      cases h
      exact ⟨l, rfl⟩
    · cases h
  · rintro ⟨l, rfl⟩
    rfl

/-! ### What every operation keeps -/

/-- The file agrees with the record: a register is flagged if its value was claimed as a parameter,
and the home of a value is the register of its claim. -/
structure Traced (f : RegisterFile) (origins : Origins) : Prop where
  lawful : f.Lawful
  flag : ∀ r, f.isParameter r = ((origins r).bind Op.home?).isSome
  home : ∀ l, f.homes.get? l = (f.registerOf? l).bind fun r => (origins r).bind Op.home?

namespace Traced

theorem empty : Traced {} fun _ => none := ⟨Lawful.empty, fun _ => rfl, fun _ => rfl⟩

/-- A new value is put down: it has a home exactly if it is claimed as a parameter. -/
theorem place {op : Op} {parameter : Bool} {homes : Table Location Register} (h : f.Traced origins)
    (hr : f.isFree r = true) (hl : f.registerOf? l = none)
    (hop : op.home? = if parameter then some r else none)
    (hhomes : ∀ l', homes.get? l' = if l' = l then op.home? else f.homes.get? l') :
    Traced { f.place r ⟨l, parameter⟩ with homes := homes } (origins.set r (some op)) := by
  have hlaw : (f.place r ⟨l, parameter⟩).Lawful := h.lawful.place hr hl
  refine ⟨hlaw.of_homes, fun q => ?_, fun l' => ?_⟩
  · have hflag := h.flag q
    simp only [isParameter] at hflag ⊢
    rw [get?_slots_place, Origins.set_apply]
    split
    · rw [Option.bind_some, hop]
      cases parameter <;> rfl
    · exact hflag
  · have hhome := h.home l'
    simp only [registerOf?] at hhome ⊢
    rw [hhomes, get?_index_place]
    split
    · simp [Origins.set_apply]
    · rw [hhome]
      cases hq : f.index.get? l' with
      | none => rfl
      | some q =>
        obtain ⟨p, hp⟩ := h.lawful.held hq
        have hne : q ≠ r := by
          rintro rfl
          rw [(isFree_iff.mp hr).2] at hp
          cases hp
        simp [Origins.set_apply, hne]

theorem allocate {answer : Register × Bool} (h : f.Traced origins)
    (hok : f.allocate l = .ok (answer, g)) :
    g.Traced (Op.record origins (.allocate l) (.found answer.1 answer.2)) := by
  unfold RegisterFile.allocate at hok
  split at hok
  · cases hok
    exact h
  · next hl =>
    split at hok
    · cases hok
    · next r hr =>
      cases hok
      refine h.place (isFree_of_firstFreeExcept? hr).1 hl rfl fun l' => ?_
      split
      · next heq => rw [heq, h.home l, hl]; rfl
      · rfl

theorem claim {parameter : Bool} {answer : Answer} (h : f.Traced origins)
    (hok : f.claim r l parameter = .ok g) :
    g.Traced (Op.record origins (.claim r l parameter) answer) := by
  unfold RegisterFile.claim at hok
  split at hok
  · next halloc =>
    split at hok
    · cases hok
    · next hr =>
      split at hok
      · cases hok
      · next hl =>
        have hfree : f.isFree r = true := isFree_iff.mpr ⟨by simpa using halloc, hr⟩
        cases hok
        cases parameter with
        | true =>
          rw [if_pos rfl]
          exact h.place hfree hl rfl fun l' => Table.get?_insert ..
        | false =>
          rw [if_neg Bool.false_ne_true]
          refine h.place hfree hl rfl fun l' => ?_
          split
          · next heq => rw [heq, h.home l, hl]; rfl
          · rfl
  · cases hok

theorem release (h : f.Traced origins) :
    (f.release l).2.Traced (Op.record origins (.release l) (.freed (f.release l).1)) := by
  cases hl : f.registerOf? l with
  | none =>
    -- a value that is not there has no home that could be forgotten
    have hhome : f.homes.get? l = none := by rw [h.home l, hl]; rfl
    simp only [RegisterFile.release, hl, Table.erase_of_get?_none hhome]
    exact h
  | some r =>
    obtain ⟨p, hp⟩ := h.lawful.held hl
    refine ⟨h.lawful.release, fun q => ?_, fun l' => ?_⟩
    · have hflag := h.flag q
      simp only [isParameter, RegisterFile.release, hl, Op.record, Table.get?_erase, Origins.set_apply] at hflag ⊢
      split
      · rfl
      · exact hflag
    · have hhome := h.home l'
      simp only [registerOf?] at hhome hl ⊢
      rw [get?_homes_release, get?_index_release]
      split
      · rfl
      · next hne =>
        rw [hhome]
        cases hq : f.index.get? l' with
        | none => rfl
        | some q =>
          obtain ⟨p', hp'⟩ := h.lawful.held hq
          have hqr : q ≠ r := by
            rintro rfl
            rw [hp] at hp'
            exact hne (congrArg Slot.location (Option.some.inj hp')).symm
          simp [RegisterFile.release, registerOf?, hl, Op.record, Origins.set_apply, hqr]

/-- A value takes its home along to another handle. -/
theorem swap {answer : Answer} (h : f.Traced origins) (hok : f.swap r old new = .ok g) :
    g.Traced (Op.record origins (.swap r old new) answer) := by
  obtain ⟨p, hswapped⟩ := swapped_of_ok hok
  -- the home of the value, under its old handle; the new one has none
  have hold := h.home old
  rw [registerOf?, h.lawful.indexed hswapped.held, Option.bind_some] at hold
  have hnew : new ≠ old → f.homes.get? new = none := by
    intro hne
    rw [h.home new, registerOf?, hswapped.absent hne]
    rfl
  refine ⟨hswapped.lawful h.lawful, fun q => ?_, fun l => ?_⟩
  · have hflag := h.flag q
    have hheld := h.flag r
    simp only [isParameter, hswapped.held, hswapped.slots] at hflag hheld ⊢
    split_ifs with heq
    · rw [heq]
      exact hheld
    · exact hflag
  · have hhome := h.home l
    simp only [registerOf?] at hhome ⊢
    rw [hswapped.homes hnew, hswapped.index]
    split_ifs
    · exact hold
    · rfl
    · exact hhome

/-- A value takes its flag and its origin along to another register. -/
theorem relocate {answer : Answer} (h : f.Traced origins)
    (hok : f.relocate source target = .ok (l, g)) :
    g.Traced (Op.record origins (.relocate source target) answer) := by
  obtain ⟨slot, hmoved⟩ := relocated_of_ok hok
  refine ⟨hmoved.lawful h.lawful, fun q => ?_, fun l' => ?_⟩
  · have hflag := h.flag q
    have hsource := h.flag source
    simp only [isParameter, hmoved.held, hmoved.slots, Op.record, Origins.set_apply]
      at hflag hsource ⊢
    split_ifs
    · exact hsource
    · rfl
    · exact hflag
  · have hhome := h.home l'
    simp only [registerOf?] at hhome ⊢
    rw [hmoved.homes, hhome, hmoved.index]
    split_ifs with heq
    · rw [heq, h.lawful.indexed hmoved.held]
      simp [Op.record, Origins.set_apply]
    · cases hq : f.index.get? l' with
      | none => rfl
      | some q =>
        obtain ⟨p, hp⟩ := h.lawful.held hq
        have htarget : q ≠ target := by
          rintro rfl
          rw [(isFree_iff.mp hmoved.free).2] at hp
          cases hp
        have hsource : q ≠ source := by
          rintro rfl
          rw [hmoved.held] at hp
          exact heq (congrArg Slot.location (Option.some.inj hp)).symm
        simp [Op.record, Origins.set_apply, htarget, hsource]

/-- An operation that is not refused keeps the file in agreement with the record. -/
theorem apply (h : f.Traced origins) {op : Op} (hop : ∀ r, op ≠ .vacate r) {answer : Answer}
    (hok : op.apply f = .ok (answer, g)) : g.Traced (op.record origins answer) := by
  cases op with
  | allocate l =>
    obtain ⟨⟨⟨r, fresh⟩, g'⟩, hok, hg⟩ := ok_of_map hok
    cases hg
    exact h.allocate hok
  | claim r l parameter =>
    obtain ⟨g', hok, hg⟩ := ok_of_map hok
    cases hg
    exact h.claim hok
  | vacate r => exact absurd rfl (hop r)
  | release l =>
    cases hok
    exact h.release
  | swap r old new =>
    obtain ⟨g', hok, hg⟩ := ok_of_map hok
    cases hg
    exact h.swap hok
  | relocate source target =>
    obtain ⟨⟨l, g'⟩, hok, hg⟩ := ok_of_map hok
    cases hg
    exact h.relocate hok

/-- So does a whole session, whether its operations are refused or not. -/
theorem session (h : f.Traced origins) {ops : List Op} (hops : ∀ r, Op.vacate r ∉ ops) :
    (f.session ops).Traced (f.originsAfter origins ops) := by
  induction ops generalizing f origins with
  | nil => exact h
  | cons op ops ih =>
    have hop : ∀ r, op ≠ .vacate r := by
      rintro r rfl
      exact hops r List.mem_cons_self
    have hrest : ∀ r, Op.vacate r ∉ ops := fun r hr => hops r (List.mem_cons_of_mem _ hr)
    rw [RegisterFile.session, originsAfter, op.work_eq h.lawful]
    cases hok : op.apply f with
    | error cause => exact ih h hrest
    | ok p => exact ih (h.apply hop hok) hrest

end Traced

/-! ### Parameters and their homes -/

/-- Parameters that are away from home are listed in the order of their handles, each once. -/
theorem displaced_ascending (f : RegisterFile) :
    f.displaced.Pairwise fun a b => a.1.number < b.1.number := by
  refine f.homes.ascending.filterMap _ ?_
  rintro ⟨l, home⟩ ⟨l', home'⟩ hlt away haway away' haway'
  -- what is listed has the handle of its entry among the homes
  dsimp only at haway haway'
  split at haway
  · split at haway'
    · split_ifs at haway haway'
      cases haway
      cases haway'
      exact Nat.compare_eq_lt.mp hlt
    · cases haway'
  · cases haway

namespace Traced

/-- The home of a flagged value is the register in which it was claimed. -/
theorem homes_eq_some_iff (h : f.Traced origins) {home : Register} :
    f.homes.get? l = some home ↔
      ∃ r, f.slots.get? r = some ⟨l, true⟩ ∧ ∃ l₀, origins r = some (.claim home l₀ true) := by
  rw [h.home l, Option.bind_eq_some_iff]
  refine exists_congr fun r => ?_
  have hflag := h.flag r
  constructor
  · rintro ⟨hl, hclaim⟩
    obtain ⟨p, hp⟩ := h.lawful.held hl
    rw [hclaim, isParameter, hp] at hflag
    obtain ⟨op, hop, hhome⟩ := Option.bind_eq_some_iff.mp hclaim
    obtain ⟨l₀, rfl⟩ := Op.home?_eq_some.mp hhome
    exact ⟨by rw [hp, show p = true from hflag], l₀, hop⟩
  · rintro ⟨hr, l₀, hop⟩
    exact ⟨h.lawful.indexed hr, by rw [hop]; rfl⟩

theorem isParameter_iff (h : f.Traced origins) :
    f.isParameter r = true ↔ ∃ home l₀, origins r = some (.claim home l₀ true) := by
  rw [h.flag r, Option.isSome_iff_exists]
  simp only [Option.bind_eq_some_iff, Op.home?_eq_some]
  constructor
  · rintro ⟨home, op, hop, l₀, rfl⟩
    exact ⟨home, l₀, hop⟩
  · rintro ⟨home, l₀, hop⟩
    exact ⟨home, _, hop, l₀, rfl⟩

end Traced

/-- Whatever values were put down, forgotten, moved and given other handles in an empty file: a handle
has a home exactly if its value sits in a register that is flagged as a parameter's; the register is
flagged exactly if the operation that brought its value in was the claim of a parameter, and the home
is the register of that claim.  The parameters away from home are the flagged registers other than
the home, in the ascending order of their handles and each once. -/
theorem session_homes (ops : List Op) (hops : ∀ r, Op.vacate r ∉ ops) :
    let f := session {} ops
    let origins := originsAfter {} (fun _ => none) ops
    (∀ l, (∃ home, f.homeOf? l = some home) ↔ ∃ r, f.slots.get? r = some ⟨l, true⟩) ∧
    (∀ l r home, f.slots.get? r = some ⟨l, true⟩ →
      (f.homeOf? l = some home ↔ ∃ l₀, origins r = some (.claim home l₀ true))) ∧
    (∀ r, f.isParameter r = true ↔ ∃ home l₀, origins r = some (.claim home l₀ true)) ∧
    f.displaced.Pairwise (fun a b => a.1.number < b.1.number) ∧
    ∀ l current home, (l, current, home) ∈ f.displaced ↔
      f.slots.get? current = some ⟨l, true⟩ ∧
        (∃ l₀, origins current = some (.claim home l₀ true)) ∧ current ≠ home := by
  intro f origins
  have h : f.Traced origins := Traced.empty.session hops
  have hclaimed : ∀ {l r home}, f.slots.get? r = some ⟨l, true⟩ →
      (f.homeOf? l = some home ↔ ∃ l₀, origins r = some (.claim home l₀ true)) := by
    intro l r home hr
    rw [homeOf?, h.homes_eq_some_iff]
    constructor
    · rintro ⟨q, hq, hop⟩
      rwa [h.lawful.register_inj hr hq rfl]
    · exact fun hop => ⟨r, hr, hop⟩
  refine ⟨fun l => ⟨?_, ?_⟩, fun l r home hr => hclaimed hr, fun r => h.isParameter_iff,
    f.displaced_ascending, fun l current home => ?_⟩
  · rintro ⟨home, hhome⟩
    obtain ⟨r, hr, -⟩ := h.homes_eq_some_iff.mp hhome
    exact ⟨r, hr⟩
  · rintro ⟨r, hr⟩
    have hflag : f.isParameter r = true := by simp [isParameter, hr]
    obtain ⟨home, hop⟩ := h.isParameter_iff.mp hflag
    exact ⟨home, (hclaimed hr).mpr hop⟩
  · rw [mem_displaced]
    constructor
    · rintro ⟨hhome, hl, hne⟩
      obtain ⟨r, hr, hop⟩ := h.homes_eq_some_iff.mp hhome
      obtain rfl : r = current := Option.some.inj ((h.lawful.indexed hr).symm.trans hl)
      exact ⟨hr, hop, hne⟩
    · rintro ⟨hr, hop, hne⟩
      exact ⟨(hclaimed hr).mpr hop, h.lawful.indexed hr, hne⟩

/-- A parameter claimed in `rdi` was moved twice and given two other handles, one of them its first;
another value took the register and the handle that it had left meanwhile. -/
theorem session_homes_moved :
    let ops : List Op :=
      [.claim .rdi ⟨1⟩ true, .claim .rsi ⟨2⟩ true, .swap .rdi ⟨1⟩ ⟨5⟩, .relocate .rdi .r10,
        .allocate ⟨1⟩, .release ⟨1⟩, .claim .rdi ⟨3⟩ true, .release ⟨2⟩, .relocate .r10 .rsi,
        .swap .rsi ⟨5⟩ ⟨1⟩, .swap .rsi ⟨1⟩ ⟨3⟩]
    (∀ r, Op.vacate r ∉ ops) ∧ (session {} ops).homeOf? ⟨1⟩ = some .rdi ∧
      (⟨1⟩, .rsi, .rdi) ∈ (session {} ops).displaced := by
  intro ops
  have hops : ∀ r, Op.vacate r ∉ ops := by simp [ops]
  obtain ⟨-, hhome, -, -, hdisplaced⟩ := session_homes ops hops
  exact ⟨hops, (hhome ⟨1⟩ .rsi .rdi (by decide)).mpr ⟨⟨1⟩, by decide⟩,
    (hdisplaced ⟨1⟩ .rsi .rdi).mpr ⟨by decide, ⟨⟨1⟩, by decide⟩, by decide⟩⟩

end ProcLang.RegisterFile

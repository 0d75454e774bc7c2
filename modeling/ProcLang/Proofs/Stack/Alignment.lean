import ProcLang.Proofs.Stack.Discipline

/-!
The stack pointer at calls.

`PointerWalk` goes through code with the registers as numbers, and with the words in memory; each
conditional jump is taken either way.  What is computed may be anything, but pointers are exact: they
are copied, moved, pushed, popped and loaded, and a store overwrites what is at its address.  A shape
says what the numbers of the two pointers are and which words are saved frame pointers.  Stores into
variables leave these words alone, so a walk keeps to the shapes of the code.  It follows that at every
call the stack pointer is a multiple of 16, and that the bytes on the stack are those that code
generation has counted when it wrote the call.
-/

namespace ProcLang

/-! ### Walks of the pointers -/

/-- The registers, and the words of 8 bytes in memory by their addresses. -/
structure Pointers where
  regs : Register → Int
  words : Int → Int

namespace Pointers

/-- The stack pointer. -/
abbrev rsp (p : Pointers) : Int := p.regs .rsp

/-- The frame pointer. -/
abbrev rbp (p : Pointers) : Int := p.regs .rbp

/-- The pointers with another value of a register. -/
def set (p : Pointers) (r : Register) (value : Int) : Pointers :=
  { p with regs := Function.update p.regs r value }

/-- Some bytes at an address were written: the words that share no byte with them are as before. -/
def Written (p : Pointers) (address : Int) (size : Nat) (words : Int → Int) : Prop :=
  ∀ a, a + 8 ≤ address ∨ address + size ≤ a → words a = p.words a

end Pointers

/-- The instruction leaves the pointers alone, does not leave its place, and neither copies nor loads a
whole register nor writes into memory. -/
def Instr.keepsStack : Instr → Bool
  | .push _ | .pop _ | .call _ | .jmp _ | .ret => false
  | .mov .quad (.reg _) (.reg _) | .mov .quad (.reg _) (.mem ..) => false
  | i => !i.setsPointer && i.written?.isNone

/-- What an instruction does to the registers and the memory.  Behind a call the registers other than
the pointers may be anything, and only the words from the stack pointer on are as before; the registers
may be anything too behind an instruction that computes. -/
inductive Pointers.After (p : Pointers) : Instr → Pointers → Prop
  | push {r : Register} {words : Int → Int} : words (p.rsp - 8) = p.regs r →
      p.Written (p.rsp - 8) 8 words → p.After (.push r) { p.set .rsp (p.rsp - 8) with words := words }
  | pop {r : Register} : p.After (.pop r) ((p.set .rsp (p.rsp + 8)).set r (p.words p.rsp))
  | copy {r q : Register} : p.After (.mov .quad (.reg r) (.reg q)) (p.set r (p.regs q))
  | load {r q : Register} {d : Int} :
      p.After (.mov .quad (.reg r) (.mem q d)) (p.set r (p.words (p.regs q + d)))
  | store {i : Instr} {q : Register} {d : Int} {w : Width} {words : Int → Int} :
      i.written? = some (q, d, w) → p.Written (p.regs q + d) w.bytes words →
      p.After i { p with words := words }
  | reserve {bytes : Int} :
      p.After (.alu .sub .quad (.reg .rsp) (.imm bytes)) (p.set .rsp (p.rsp - bytes))
  | giveBack {bytes : Int} :
      p.After (.alu .add .quad (.reg .rsp) (.imm bytes)) (p.set .rsp (p.rsp + bytes))
  | call {name : String} {regs : Register → Int} {words : Int → Int} : regs .rsp = p.rsp →
      regs .rbp = p.rbp → (∀ a, p.rsp ≤ a → words a = p.words a) → p.After (.call name) ⟨regs, words⟩
  | other {i : Instr} {regs : Register → Int} : i.keepsStack = true → regs .rsp = p.rsp →
      regs .rbp = p.rbp → p.After i { p with regs := regs }

/-- One step through code; a position is the code from there on. -/
inductive PointerStep (code : List Instr) : List Instr × Pointers → List Instr × Pointers → Prop
  | next {i rest p p'} : p.After i p' → PointerStep code (i :: rest, p) (rest, p')
  | jump {l rest p position} : target? l code = some position →
      PointerStep code (.jmp l :: rest, p) (position, p)
  | branch {condition l rest p position} : target? l code = some position →
      PointerStep code (.jcc condition l :: rest, p) (position, p)

/-- A walk through code. -/
abbrev PointerWalk (code : List Instr) : List Instr × Pointers → List Instr × Pointers → Prop :=
  Relation.ReflTransGen (PointerStep code)

/-- A walk with the shapes that the stack has on the way. -/
abbrev ShapedWalk (code : List Instr) : List Instr × Pointers × Shape → List Instr × Pointers × Shape → Prop :=
  Relation.ReflTransGen fun s t =>
    PointerStep code (s.1, s.2.1) (t.1, t.2.1) ∧ ShapeStep code (s.1, s.2.2) (t.1, t.2.2)

/-! ### Pointers of a shape -/

namespace Pointers

/-- The frame pointer that is meant by a base: an address below the entry, or the caller's pointer. -/
def frame (start : Pointers) : Option Nat → Int
  | some bytes => start.rsp - bytes
  | none => start.rbp

/-- The frame pointers that were saved in some cells are in their words. -/
def Links (start : Pointers) (words : Int → Int) (cells : List Cell) : Prop :=
  ∀ above base below, cells = above ++ .link base :: below →
    words (start.rsp - ((8 + (below.map Cell.size).sum : Nat) : Int)) = start.frame base

/-- The pointers are those of a shape, if they were `start` at the entry. -/
structure Fits (start : Pointers) (sh : Shape) (p : Pointers) : Prop where
  rsp : p.rsp = start.rsp - sh.depth
  rbp : p.rbp = start.frame sh.base
  links : start.Links p.words sh.cells
  proper : .saved .rsp ∉ sh.cells

/-- A register that is known to point to a frame does. -/
def Knows (start : Pointers) (k : Pointed) (p : Pointers) : Prop :=
  ∀ r bytes, k = some (r, bytes) → p.regs r = start.rsp - bytes

variable {start p p' : Pointers} {sh sh' : Shape} {i : Instr} {words words' : Int → Int}
  {cells above : List Cell} {k : Pointed} {r q : Register} {spot : Generation.Spot} {slots : Nat}

@[simp] theorem regs_set_self {value : Int} : (p.set r value).regs r = value :=
  Function.update_self ..

theorem regs_set_of_ne {value : Int} (h : q ≠ r) : (p.set r value).regs q = p.regs q :=
  Function.update_of_ne h ..

theorem fits_entry : start.Fits .entry start := by
  refine ⟨(Int.sub_zero _).symm, rfl, fun above base below h => ?_, List.not_mem_nil⟩
  simp [Shape.entry] at h

theorem Fits.points {bytes : Nat} (h : start.Fits sh p) (hk : start.Knows k p)
    (hq : sh.Points k q bytes) : p.regs q = start.rsp - bytes := by
  rcases hq with ⟨rfl, hbase⟩ | hq
  · have hrbp := h.rbp
    rw [hbase] at hrbp
    exact hrbp
  · exact hk q bytes hq

/-! ### Saved frame pointers -/

/-- The words from the top of the cells on decide. -/
theorem Links.congr (h : start.Links words cells)
    (hwords : ∀ a, start.rsp - (cells.map Cell.size).sum ≤ a → words' a = words a) :
    start.Links words' cells := by
  intro above base below hcells
  rw [hwords _ ?_]
  · exact h above base below hcells
  · rw [hcells]
    simp only [List.map_append, List.map_cons, List.sum_append, List.sum_cons, Cell.size]
    omega

theorem Links.of_append (h : start.Links words (above ++ cells)) : start.Links words cells := by
  intro above' base below hcells
  exact h (above ++ above') base below (by rw [hcells, List.append_assoc])

theorem Links.tail {cell : Cell} (h : start.Links words (cell :: cells)) : start.Links words cells :=
  of_append (show start.Links words ([cell] ++ cells) from h)

/-- A cell that is no saved frame pointer. -/
theorem Links.cons {cell : Cell} (h : start.Links words cells) (hcell : ∀ base, cell ≠ .link base) :
    start.Links words (cell :: cells) := by
  intro above base below hcells
  cases above with
  | nil => exact absurd (List.cons.inj hcells).1 (hcell base)
  | cons _ above => exact h above base below (List.cons.inj hcells).2

/-- A frame pointer is saved. -/
theorem Links.link {base : Option Nat} (h : start.Links words cells)
    (hword : words (start.rsp - ((8 + (cells.map Cell.size).sum : Nat) : Int)) = start.frame base) :
    start.Links words (.link base :: cells) := by
  intro above base' below hcells
  cases above with
  | nil =>
    obtain ⟨hbase, rfl⟩ := List.cons.inj hcells
    rw [← Cell.link.inj hbase]
    exact hword
  | cons _ above => exact h above base' below (List.cons.inj hcells).2

/-- Reserved bytes lie all above or all below a cell of another kind. -/
theorem room_apart {above₁ below₁ above₂ below₂ : List Cell} {bytes : Nat} {cell : Cell}
    (hcell : cell.isRoom = false) (h : above₁ ++ .room bytes :: below₁ = above₂ ++ cell :: below₂) :
    8 + (below₂.map Cell.size).sum ≤ (below₁.map Cell.size).sum ∨
      bytes + (below₁.map Cell.size).sum ≤ (below₂.map Cell.size).sum := by
  have hsize := Cell.size_of_isRoom hcell
  rcases List.append_eq_append_iff.mp h with ⟨_ | ⟨_, t⟩, -, ht⟩ | ⟨_ | ⟨_, t⟩, -, ht⟩
  · rw [← (List.cons.inj ht).1] at hcell
    cases hcell
  · have hbelow : below₁ = t ++ cell :: below₂ := (List.cons.inj ht).2
    left
    rw [hbelow]
    simp only [List.map_append, List.map_cons, List.sum_append, List.sum_cons]
    omega
  · rw [(List.cons.inj ht).1] at hcell
    cases hcell
  · have hbelow : below₂ = t ++ .room bytes :: below₁ := (List.cons.inj ht).2
    right
    rw [hbelow]
    simp only [List.map_append, List.map_cons, List.sum_append, List.sum_cons, Cell.size]
    omega

/-- Clear bytes share none with what is saved. -/
theorem apart_of_clear {place : Int} {size : Nat} {cell : Cell} {below : List Cell}
    (h : sh.Clear place size) (hcells : sh.cells = above ++ cell :: below) (hcell : cell.isRoom = false) :
    Extent.Apart ⟨place, size⟩ ⟨-((8 + (below.map Cell.size).sum : Nat) : Int), 8⟩ := by
  unfold Extent.Apart
  rcases h with hplace | ⟨above', bytes, below', hcells', hlow, hhigh⟩
  · right
    dsimp only
    omega
  · rcases room_apart hcell (hcells'.symm.trans hcells) with hle | hle
    · left
      dsimp only
      omega
    · right
      dsimp only
      omega

/-- A store into bytes that are clear overwrites no saved frame pointer. -/
theorem Links.store {place : Int} {size : Nat} (h : start.Links p.words sh.cells)
    (hclear : sh.Clear place size) (hwritten : p.Written (start.rsp + place) size words) :
    start.Links words sh.cells := by
  intro above base below hcells
  rw [hwritten _ ?_]
  · exact h above base below hcells
  · have hapart := apart_of_clear hclear hcells rfl
    unfold Extent.Apart at hapart
    dsimp only at hapart
    omega

/-! ### Instructions -/

/-- Instructions that move no pointer. -/
theorem Fits.of_eq (h : start.Fits sh p) (hrsp : p'.rsp = p.rsp) (hrbp : p'.rbp = p.rbp)
    (hwords : p'.words = p.words) : start.Fits sh p' :=
  ⟨hrsp.trans h.rsp, hrbp.trans h.rbp, hwords ▸ h.links, h.proper⟩

theorem Fits.push (h : start.Fits sh p) (hword : words (p.rsp - 8) = p.regs r)
    (hwritten : p.Written (p.rsp - 8) 8 words) (ha : sh.after (.push r) = some sh') :
    start.Fits sh' { p.set .rsp (p.rsp - 8) with words := words } := by
  obtain ⟨hrsp, hrbp, hlinks, hproper⟩ := h
  have hdepth : p.rsp - 8 = start.rsp - ((8 + (sh.cells.map Cell.size).sum : Nat) : Int) := by
    rw [hrsp, Shape.depth]
    omega
  have hlinks' : start.Links words sh.cells := by
    refine hlinks.congr fun a ha => hwritten a (.inr ?_)
    rw [Shape.depth] at hrsp
    omega
  simp only [Shape.after] at ha
  split_ifs at ha with hpointer hr
  · obtain rfl := Option.some.inj ha
    refine ⟨hdepth, hrbp, hlinks'.link ?_, by simpa using hproper⟩
    rw [← hdepth, hword, hr]
    exact hrbp
  · obtain rfl := Option.some.inj ha
    refine ⟨hdepth, hrbp, hlinks'.cons fun base => by simp, ?_⟩
    simpa [Ne.symm hpointer] using hproper

theorem Fits.leave (h : start.Fits sh p) (ha : sh.after (.pop .rbp) = some sh') :
    start.Fits sh' ((p.set .rsp (p.rsp + 8)).set .rbp (p.words p.rsp)) := by
  obtain ⟨hrsp, hrbp, hlinks, hproper⟩ := h
  obtain ⟨base, below, hcells, -, rfl⟩ := Shape.leave_eq_some ha
  rw [Shape.depth, hcells] at hrsp
  rw [hcells] at hlinks hproper
  have hword := hlinks [] base below rfl
  simp only [List.map_cons, List.sum_cons, Cell.size] at hrsp
  refine ⟨?_, ?_, hlinks.tail, fun hmem => hproper (.tail _ hmem)⟩
  · rw [Pointers.rsp, regs_set_of_ne (by decide), regs_set_self, Shape.depth]
    dsimp only
    omega
  · rw [Pointers.rbp, regs_set_self, hrsp]
    exact hword

theorem Fits.restore (h : start.Fits sh p) (hr : r ≠ .rbp) (ha : sh.after (.pop r) = some sh') :
    start.Fits sh' ((p.set .rsp (p.rsp + 8)).set r (p.words p.rsp)) := by
  obtain ⟨hrsp, hrbp, hlinks, hproper⟩ := h
  obtain ⟨below, hcells, rfl⟩ := Shape.restore_eq_some ((if_neg hr).symm.trans ha)
  rw [Shape.depth, hcells] at hrsp
  rw [hcells] at hlinks hproper
  have hne : r ≠ .rsp := by
    rintro rfl
    exact hproper List.mem_cons_self
  simp only [List.map_cons, List.sum_cons, Cell.size] at hrsp
  refine ⟨?_, ?_, hlinks.tail, fun hmem => hproper (.tail _ hmem)⟩
  · rw [Pointers.rsp, regs_set_of_ne hne.symm, regs_set_self, Shape.depth]
    dsimp only
    omega
  · rw [Pointers.rbp, regs_set_of_ne (Ne.symm hr), regs_set_of_ne (by decide)]
    exact hrbp

theorem Fits.unwind (h : start.Fits sh p) (ha : sh.unwind = some sh') :
    start.Fits sh' (p.set .rsp p.rbp) := by
  obtain ⟨hrsp, hrbp, hlinks, hproper⟩ := h
  simp only [Shape.unwind] at ha
  split_ifs at ha with hbase
  obtain rfl := Option.some.inj ha
  refine ⟨?_, hrbp, ?_, fun hmem => hproper ((List.dropWhile_suffix _).subset hmem)⟩
  · rw [Pointers.rsp, regs_set_self, hrbp, hbase]
    rfl
  · rw [← List.takeWhile_append_dropWhile (p := Cell.isRoom) (l := sh.cells)] at hlinks
    exact hlinks.of_append

theorem after_copy : sh.after (.mov .quad (.reg r) (.reg q)) =
    if r = .rbp ∧ q = .rsp then some { sh with base := some sh.depth }
    else if r = .rsp ∧ q = .rbp then sh.unwind
    else if r = .rsp ∨ r = .rbp then none else some sh := by
  by_cases hrbp : r = .rbp
  · subst hrbp
    cases q <;> rfl
  · by_cases hrsp : r = .rsp
    · subst hrsp
      cases q <;> rfl
    · rw [if_neg (by simp [hrbp]), if_neg (by simp [hrsp]), if_neg (by simp [hrbp, hrsp])]
      cases r <;> first | rfl | contradiction

theorem Fits.copy (h : start.Fits sh p) (ha : sh.after (.mov .quad (.reg r) (.reg q)) = some sh') :
    start.Fits sh' (p.set r (p.regs q)) := by
  rw [after_copy] at ha
  split_ifs at ha with henter hunwind hpointer
  · obtain ⟨rfl, rfl⟩ := henter
    obtain rfl := Option.some.inj ha
    refine ⟨h.rsp, ?_, h.links, h.proper⟩
    rw [Pointers.rbp, regs_set_self]
    exact h.rsp
  · obtain ⟨rfl, rfl⟩ := hunwind
    exact h.unwind ha
  · obtain rfl := Option.some.inj ha
    rw [not_or] at hpointer
    exact h.of_eq (regs_set_of_ne (Ne.symm hpointer.1)) (regs_set_of_ne (Ne.symm hpointer.2)) rfl

theorem after_load {d : Int} : sh.after (.mov .quad (.reg r) (.mem q d)) =
    if r = .rsp ∨ r = .rbp then none else some sh := by
  cases r <;> rfl

theorem Fits.load {d : Int} (h : start.Fits sh p)
    (ha : sh.after (.mov .quad (.reg r) (.mem q d)) = some sh') :
    start.Fits sh' (p.set r (p.words (p.regs q + d))) := by
  rw [after_load] at ha
  split_ifs at ha with hpointer
  obtain rfl := Option.some.inj ha
  rw [not_or] at hpointer
  exact h.of_eq (regs_set_of_ne (Ne.symm hpointer.1)) (regs_set_of_ne (Ne.symm hpointer.2)) rfl

theorem after_of_written? {d : Int} {w : Width} (hi : i.written? = some (q, d, w)) :
    sh.after i = some sh := by
  unfold Instr.written? at hi
  split at hi
  case h_1 w' _ _ _ => cases w' <;> rfl
  case h_2 => rfl
  case h_3 op w' _ _ _ => cases op <;> cases w' <;> rfl
  case h_4 => cases hi

theorem Fits.store {d : Int} {w : Width} (h : start.Fits sh p) (hk : start.Knows k p)
    (hstands : spot.Stands slots sh k i) (hi : i.written? = some (q, d, w))
    (hwritten : p.Written (p.regs q + d) w.bytes words) (ha : sh.after i = some sh') :
    start.Fits sh' { p with words := words } := by
  rw [after_of_written? hi] at ha
  obtain rfl := Option.some.inj ha
  obtain ⟨bytes, hpoints, howns⟩ := hstands.stores q d w hi
  have haddress : p.regs q + d = start.rsp + (d - bytes) := by
    rw [h.points hk hpoints]
    omega
  rw [haddress] at hwritten
  exact ⟨h.rsp, h.rbp, h.links.store (howns.clear hstands.frames) hwritten, h.proper⟩

theorem Fits.reserve {bytes : Int} (h : start.Fits sh p)
    (ha : sh.after (.alu .sub .quad (.reg .rsp) (.imm bytes)) = some sh') :
    start.Fits sh' (p.set .rsp (p.rsp - bytes)) := by
  have ha : (if 0 ≤ bytes then some { sh with cells := .room bytes.toNat :: sh.cells } else none) =
      some sh' := ha
  split_ifs at ha with hbytes
  obtain rfl := Option.some.inj ha
  refine ⟨?_, h.rbp, h.links.cons fun base => by simp, by simpa using h.proper⟩
  have hrsp := h.rsp
  rw [Shape.depth] at hrsp
  rw [Pointers.rsp, regs_set_self, Shape.depth]
  simp only [List.map_cons, List.sum_cons, Cell.size]
  omega

theorem Fits.giveBack {bytes : Int} (h : start.Fits sh p) (ha : sh.giveBack bytes = some sh') :
    start.Fits sh' (p.set .rsp (p.rsp + bytes)) := by
  obtain ⟨hrsp, hrbp, hlinks, hproper⟩ := h
  unfold Shape.giveBack at ha
  split at ha
  case h_2 => cases ha
  case h_1 room below hcells =>
    split_ifs at ha with hroom
    obtain rfl := Option.some.inj ha
    rw [Shape.depth, hcells] at hrsp
    rw [hcells] at hlinks hproper
    refine ⟨?_, hrbp, hlinks.tail,
      fun hmem => hproper (.tail _ hmem)⟩
    simp only [List.map_cons, List.sum_cons, Cell.size] at hrsp
    rw [Pointers.rsp, regs_set_self, Shape.depth]
    dsimp only
    omega

theorem after_of_keepsStack (hi : i.keepsStack = true) : sh.after i = some sh := by
  have hset : i.setsPointer = false := by
    unfold Instr.keepsStack at hi
    split at hi <;> first | cases hi | simp_all
  unfold Shape.after
  split
  case h_9 => exact if_neg (by simp [hset])
  all_goals cases hi

/-- The pointers follow the shape through an instruction. -/
theorem Fits.after (h : start.Fits sh p) (hk : start.Knows k p) (hstands : spot.Stands slots sh k i)
    (hafter : p.After i p') (ha : sh.after i = some sh') : start.Fits sh' p' := by
  cases hafter with
  | push hword hwritten => exact h.push hword hwritten ha
  | @pop r =>
    by_cases hr : r = .rbp
    · subst hr
      exact h.leave ha
    · exact h.restore hr ha
  | copy => exact h.copy ha
  | load => exact h.load ha
  | store hi hwritten => exact h.store hk hstands hi hwritten ha
  | reserve => exact h.reserve ha
  | giveBack => exact h.giveBack ha
  | call hrsp hrbp hwords =>
    obtain rfl := Option.some.inj ha
    refine ⟨hrsp.trans h.rsp, hrbp.trans h.rbp, h.links.congr fun a ha => hwords a ?_, h.proper⟩
    rw [h.rsp]
    exact ha
  | other hi hrsp hrbp =>
    rw [after_of_keepsStack hi] at ha
    obtain rfl := Option.some.inj ha
    exact h.of_eq hrsp hrbp rfl

/-- What is known of a register behind an instruction is so. -/
theorem Fits.knows {k' : Pointed} (h : start.Fits sh p) (hk : start.Knows k p)
    (hafter : p.After i p') (hlearns : sh.Learns k i k') : start.Knows k' p' := by
  cases hlearns with
  | nothing =>
    intro r bytes hr
    cases hr
  | @frame r q bytes around hpoints hlink =>
    intro r' bytes' hr
    obtain ⟨rfl, rfl⟩ := Prod.mk.inj (Option.some.inj hr)
    obtain ⟨above, below, hcells, rfl⟩ := hlink
    have hword := h.links above (some around) below hcells
    cases hafter with
    | load =>
      rw [regs_set_self, h.points hk hpoints, Int.add_zero]
      exact hword
    | store hi => cases hi
    | other hi => cases hi

/-- An instruction that a shape admits can be executed. -/
theorem exists_after (p : Pointers) (ha : sh.after i = some sh') : ∃ p', p.After i p' := by
  cases hw : i.written? with
  | some written => exact ⟨_, .store hw fun _ _ => rfl⟩
  | none =>
    by_cases hkeeps : i.keepsStack = true
    · exact ⟨p, .other hkeeps rfl rfl⟩
    unfold Instr.keepsStack at hkeeps
    split at hkeeps
    case h_1 r =>
      refine ⟨_, .push (Function.update_self (p.rsp - 8) (p.regs r) p.words) fun a ha => ?_⟩
      exact Function.update_of_ne (by omega) ..
    case h_2 => exact ⟨_, .pop⟩
    case h_3 => exact ⟨p, .call rfl rfl fun _ _ => rfl⟩
    case h_4 => cases ha
    case h_5 => cases ha
    case h_6 => exact ⟨_, .copy⟩
    case h_7 => exact ⟨_, .load⟩
    case h_8 =>
      -- the instruction sets a pointer, so it moves the stack pointer by a number
      have hset : i.setsPointer = true := by simpa [hw] using hkeeps
      unfold Shape.after at ha
      split at ha
      case h_5 => exact ⟨_, .reserve⟩
      case h_6 => exact ⟨_, .giveBack⟩
      case h_9 => simp [hset] at ha
      all_goals simp_all

section Walks

variable {code first : List Instr} {ls : List Generation.Spot} {Λ : Label → Shape → Prop}
  {T : Pointed → List Instr × Shape → Prop}

/-- The walk is where typed code has the shape and the pointer to a frame that fit. -/
theorem Fits.step {position position' : List Instr} (htracked : Generation.Tracked slots code ls Λ T)
    (hT : T k (position, sh)) (h : start.Fits sh p) (hk : start.Knows k p)
    (hstep : PointerStep code (position, p) (position', p')) :
    ∃ k' sh', ShapeStep code (position, sh) (position', sh') ∧ T k' (position', sh') ∧
      start.Fits sh' p' ∧ start.Knows k' p' := by
  have hnothing : ∀ p, start.Knows none p := fun p r bytes hr => by cases hr
  cases hstep with
  | jump ht => exact ⟨none, sh, .jump ht, htracked.jump hT (.inl rfl) ht, h, hnothing p⟩
  | branch ht => exact ⟨none, sh, .branch ht, htracked.jump hT (.inr ⟨_, rfl⟩) ht, h, hnothing p⟩
  | @next i rest _ _ hafter =>
    obtain ⟨_, _, hpos, hdisc, -, _, _, _, _, -, -, -, hstands⟩ := htracked.disciplined hT
    obtain ⟨rfl, rfl⟩ := List.cons.inj hpos
    obtain ⟨sh', ha⟩ : ∃ sh', sh.after i = some sh' := by
      cases hafter with
      | other hi => exact ⟨sh, after_of_keepsStack hi⟩
      | store hi => exact ⟨sh, after_of_written? hi⟩
      | _ => exact hdisc
    obtain ⟨k', hlearns, hT'⟩ := htracked.next hT ha
    exact ⟨k', sh', .next ha, hT', h.after hk hstands hafter ha, h.knows hk hafter hlearns⟩

/-- The pointers fit the shapes of a walk through typed code. -/
theorem fits_of_walk {s : List Instr × Pointers × Shape} (htracked : Generation.Tracked slots code ls Λ T)
    (hfirst : T none (first, .entry)) (hwalk : ShapedWalk code (first, start, .entry) s) :
    ∃ k, T k (s.1, s.2.2) ∧ start.Fits s.2.2 s.2.1 ∧ start.Knows k s.2.1 := by
  induction hwalk with
  | refl => exact ⟨none, hfirst, fits_entry, fun r bytes hr => by cases hr⟩
  | tail _ hstep ih =>
    obtain ⟨k, hT, hfits, hk⟩ := ih
    obtain ⟨k', sh', hshape, hT', hfits', hk'⟩ := hfits.step htracked hT hk hstep.1
    obtain rfl : _ = sh' := hstep.2.unique hshape
    exact ⟨k', hT', hfits', hk'⟩

/-- A walk of the pointers through typed code has shapes. -/
theorem exists_shapedWalk {s : List Instr × Pointers} (htracked : Generation.Tracked slots code ls Λ T)
    (hfirst : T none (first, .entry)) (hwalk : PointerWalk code (first, start) s) :
    ∃ sh, ShapedWalk code (first, start, .entry) (s.1, s.2, sh) := by
  induction hwalk with
  | refl => exact ⟨.entry, .refl⟩
  | tail _ hstep ih =>
    obtain ⟨sh, hwalk⟩ := ih
    obtain ⟨k, hT, hfits, hk⟩ := fits_of_walk htracked hfirst hwalk
    obtain ⟨k', sh', hshape, -⟩ := hfits.step htracked hT hk hstep
    exact ⟨sh', hwalk.tail ⟨hstep, hshape⟩⟩

end Walks

/-- A walk that keeps the discipline goes on up to a return. -/
theorem exists_step {code rest : List Instr} (p : Pointers) (hdisc : Disciplined code i sh)
    (hi : i ≠ .ret) : ∃ s, PointerStep code (i :: rest, p) s := by
  cases i with
  | ret => exact absurd rfl hi
  | jmp l =>
    obtain ⟨position, ht⟩ := hdisc
    exact ⟨_, .jump ht⟩
  | jcc condition l =>
    obtain ⟨position, ht⟩ := hdisc
    exact ⟨_, .branch ht⟩
  | _ =>
    obtain ⟨sh', ha⟩ := hdisc
    obtain ⟨p', hafter⟩ := exists_after p ha
    exact ⟨_, .next hafter⟩

/-- The way that takes no jump comes to a call. -/
def comesTo (name : String) : Shape → List Instr → Bool
  | _, [] => false
  | sh, i :: rest => i == .call name || (sh.after i).any (comesTo name · rest)

theorem exists_walk_of_comesTo {name : String} {code : List Instr} :
    ∀ {position : List Instr} {sh : Shape} (p : Pointers), comesTo name sh position = true →
      ∃ rest q, PointerWalk code (position, p) (.call name :: rest, q)
  | i :: position, sh, p, h => by
    simp only [comesTo, Bool.or_eq_true, beq_iff_eq, Option.any_eq_true] at h
    rcases h with rfl | ⟨sh', ha, h⟩
    · exact ⟨position, p, .refl⟩
    · obtain ⟨p', hafter⟩ := exists_after p ha
      obtain ⟨rest, q, hwalk⟩ := exists_walk_of_comesTo p' h
      exact ⟨rest, q, .head (.next hafter) hwalk⟩

end Pointers

namespace Generation

/-! ### Calls of a run -/

theorem length_callDepths (marks : List (Mark × State)) :
    (callDepths marks).length = (codeOf marks).countP Instr.isCall := by
  induction marks with
  | nil => rfl
  | cons m rest ih =>
    obtain ⟨m, s⟩ := m
    cases m with
    | event e => exact ih
    | instr i =>
      cases i with
      | call name =>
        calc (callDepths ((.instr (.call name), s) :: rest)).length
            = (callDepths rest).length + 1 := rfl
          _ = (codeOf rest).countP Instr.isCall + 1 := by rw [ih]
          _ = _ := (List.countP_cons_of_pos rfl).symm
      | _ => exact ih.trans (List.countP_cons_of_neg (by simp [Instr.isCall])).symm

/-- Where an instruction stands in the code, the run has written it. -/
theorem exists_mark {marks : List (Mark × State)} {done rest : List Instr} {i : Instr}
    (h : codeOf marks = done ++ i :: rest) : ∃ before s after,
      marks = before ++ (.instr i, s) :: after ∧ codeOf before = done ∧ codeOf after = rest := by
  obtain ⟨before, tail, rfl, rfl, htail⟩ := List.filterMap_eq_append_iff.mp h
  obtain ⟨quiet, ⟨m, s⟩, after, rfl, hquiet, hm, rfl⟩ := List.filterMap_eq_cons_iff.mp htail
  cases m with
  | event e => cases hm
  | instr j =>
    obtain rfl : j = i := Option.some.inj hm
    refine ⟨before ++ quiet, s, after, by simp, ?_, rfl⟩
    rw [codeOf, List.filterMap_append, List.filterMap_eq_nil_iff.mpr hquiet, List.append_nil]

theorem code_of_generate {options : Options} {source : String} {ast : Ast} {p : Program}
    (h : (generate options source ast).result = .ok p) :
    p.code = codeOf (generate options source ast).marks := by
  rw [(ok_generate h).2]
  rfl

/-- The run has counted, where it writes a call, what stands for the call among the depths. -/
theorem exists_mark_call {marks : List (Mark × State)} {done rest : List Instr} {name : String}
    {bytes : Nat} (h : codeOf marks = done ++ .call name :: rest)
    (hbytes : (callDepths marks)[done.countP Instr.isCall]? = some bytes) : ∃ before s after,
      marks = before ++ (.instr (.call name), s) :: after ∧ codeOf after = rest ∧
      s.stackDepth = bytes := by
  obtain ⟨before, s, after, rfl, rfl, rfl⟩ := exists_mark h
  refine ⟨before, s, after, rfl, rfl, ?_⟩
  rw [callDepths_append, ← length_callDepths, List.getElem?_append_right (Nat.le_refl _),
    Nat.sub_self] at hbytes
  exact Option.some.inj hbytes

section Programs

variable {options : Options} {source : String} {ast : Ast}

/-- On every way through a procedure from its entry, with each conditional jump taken either way, calls
are aligned.  No way stops before a return.  Where the stack pointer was 8 above a multiple of 16 at the
entry, it is a multiple of 16 at a call; and the run of code generation has written this call in a
state that counts the bytes that are on the stack, the return address of the procedure included. -/
theorem call_alignment {tokens : List Token} (hparse : parse tokens = .ok ast) {p : Program}
    (hgen : (generate options source ast).result = .ok p) :
    ∃ rootTag procs, ast.root = some (.block rootTag procs) ∧
      ∀ tag signature body, .procedure tag signature body ∈ procs → signature.external = false →
      ∃ first, position? (.symbol signature.name) p.code = some first ∧
        ∀ start position q, PointerWalk p.code (first, start) (position, q) →
          (∃ i rest, position = i :: rest ∧
            (i ≠ .ret → ∃ s, PointerStep p.code (position, q) s)) ∧
          ∀ name rest, position = .call name :: rest →
            (start.rsp % 16 = 8 → q.rsp % 16 = 0) ∧
            ∃ before s after,
              (generate options source ast).marks = before ++ (.instr (.call name), s) :: after ∧
              codeOf after = rest ∧ (s.stackDepth : Int) = start.rsp + 8 - q.rsp := by
  obtain ⟨rootTag, procs, hroot, hwf⟩ := wellFormed_of_parse hparse
  obtain ⟨n, ls, hdepths, hcode⟩ := programCode_of_generate hroot hwf hgen
  have hcodeOf : p.code = codeOf (generate options source ast).marks := code_of_generate hgen
  refine ⟨rootTag, procs, hroot, fun tag signature body hmem hext => ?_⟩
  obtain ⟨bodyTag, body, rfl⟩ := block_of_mem_procedures hwf hmem hext
  obtain ⟨first, Λ, T, hfirst, -, hT, htracked⟩ := hcode.tracked hwf hmem
  refine ⟨first, hfirst, fun start position q hwalk => ?_⟩
  obtain ⟨sh, hshaped⟩ := Pointers.exists_shapedWalk htracked hT hwalk
  obtain ⟨k, hT', hfits, -⟩ := Pointers.fits_of_walk htracked hT hshaped
  dsimp only at hT' hfits
  obtain ⟨i, rest, rfl, hdisc, -, done, ls₁, spot, ls₂, hdone, rfl, hrec, hstands⟩ :=
    htracked.disciplined hT'
  refine ⟨⟨i, rest, rfl, Pointers.exists_step q hdisc⟩, ?_⟩
  rintro name rest' h
  obtain ⟨rfl, rfl⟩ := List.cons.inj h
  have hmod := (hstands.calls name rfl).1
  have hget : (callDepths (generate options source ast).marks)[done.countP Instr.isCall]? =
      some (sh.depth + 8) := by
    rw [← hdepths, depthsOf_append, ← hrec.length_depthsOf, List.getElem?_append_right (Nat.le_refl _),
      Nat.sub_self, depthsOf, List.filterMap_cons_some hstands.bytes]
    rfl
  have hrsp := hfits.rsp
  obtain ⟨before, s, after, hmarks, hafter, hbytes⟩ :=
    exists_mark_call (hcodeOf.symm.trans hdone) hget
  refine ⟨fun hentry => ?_, before, s, after, hmarks, hafter, ?_⟩
  · omega
  · omega

/-- A procedure with a call within a loop. -/
def loopText : String :=
  "extern void g(int a, u8 b); int f(int a) \x7b while (a) \x7b u8 b = a; g(a, b); \x7d \x7d"

/-- The call is come to. -/
theorem loopText_walk : ∃ tokens ast p, tokenize "t.mc" loopText = .ok tokens ∧ parse tokens = .ok ast ∧
    (generate {} "t.mc" ast).result = .ok p ∧
    ∀ rootTag procs, ast.root = some (.block rootTag procs) → ∃ tag signature body first rest q,
      .procedure tag signature body ∈ procs ∧ signature.name = "f" ∧ signature.external = false ∧
      position? (.symbol signature.name) p.code = some first ∧
      PointerWalk p.code (first, ⟨fun _ => 1000, fun _ => 0⟩) (.call "g" :: rest, q) := by
  have hpasses : passes "t.mc" loopText (fun ast =>
      someProcedure (fun signature _ => signature.name == "f" && !signature.external) ast &&
      (generate {} "t.mc" ast).result.toOption.any fun p =>
        (position? (.symbol "f") p.code).any (Pointers.comesTo "g" .entry)) = true := by
    decide +kernel
  obtain ⟨tokens, ast, htokens, hparse, htest⟩ := exists_of_passes hpasses
  rw [Bool.and_eq_true] at htest
  cases hgen : (generate {} "t.mc" ast).result with
  | error e => simp [hgen, Except.toOption] at htest
  | ok p =>
    rw [hgen] at htest
    have hany : (position? (.symbol "f") p.code).any (Pointers.comesTo "g" .entry) = true := htest.2
    obtain ⟨first, hfirst, hcomes⟩ := (Option.any_eq_true _ _).mp hany
    obtain ⟨rest, q, hwalk⟩ := Pointers.exists_walk_of_comesTo ⟨fun _ => 1000, fun _ => 0⟩ hcomes
    refine ⟨tokens, ast, p, htokens, hparse, hgen, fun rootTag procs hroot => ?_⟩
    obtain ⟨tag, signature, bodyTag, stmts, hmem, hsignature⟩ := exists_of_someProcedure htest.1 hroot
    simp only [Bool.and_eq_true, beq_iff_eq, Bool.not_eq_true'] at hsignature
    exact ⟨tag, signature, _, first, rest, q, hmem, hsignature.1, hsignature.2, by rwa [hsignature.1], hwalk⟩

/-- A call within a loop is come to, with the stack aligned. -/
theorem call_alignment_loop : ∃ tokens ast p first rest q,
    tokenize "t.mc"
      "extern void g(int a, u8 b); int f(int a) \x7b while (a) \x7b u8 b = a; g(a, b); \x7d \x7d" =
      .ok tokens ∧ parse tokens = .ok ast ∧ (generate {} "t.mc" ast).result = .ok p ∧
    position? (.symbol "f") p.code = some first ∧
    PointerWalk p.code (first, ⟨fun _ => 1000, fun _ => 0⟩) (.call "g" :: rest, q) ∧ q.rsp % 16 = 0 := by
  obtain ⟨tokens, ast, p, htokens, hparse, hgen, hwalk⟩ := loopText_walk
  obtain ⟨rootTag, procs, hroot, hprocs⟩ := call_alignment hparse hgen
  obtain ⟨tag, signature, body, first, rest, q, hmem, hname, hext, hfirst, hwalk⟩ := hwalk rootTag procs hroot
  obtain ⟨first', hfirst', hwalks⟩ := hprocs tag signature body hmem hext
  obtain rfl := Option.some.inj (hfirst.symm.trans hfirst')
  exact ⟨tokens, ast, p, first, rest, q, htokens, hparse, hgen, hname ▸ hfirst, hwalk,
    ((hwalks _ _ _ hwalk).2 "g" rest rfl).1 (by decide)⟩

end Programs

end Generation

end ProcLang

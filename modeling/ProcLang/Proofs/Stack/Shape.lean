import Mathlib.Logic.Relation
import ProcLang.Proofs.Asm.Label
import ProcLang.Proofs.Machine.State
import ProcLang.Proofs.Simulation.Layout

/-!
The shape of the stack on the way through code.

A shape is what a procedure has put on the stack since its entry, the last first, and where the frame
pointer points.  `Shape.after` follows one instruction and gives nothing if the instruction breaks
the discipline: a register is popped that was not pushed there, a frame is closed that is not the
innermost one, or the stack is moved in another way than by frames and reserved bytes.  A walk takes
each conditional jump either way and steps over calls.

`Typed` is the static counterpart: every instruction is admitted in the shape in which it stands, and
every label has a shape.  Code that is typed can be walked through without ever breaking the
discipline.  It comes with the spots of its instructions: the frames of the scopes of a spot are open
there, a call has the bytes on the stack that are on record, and a store goes to the variable that its
statement names.  It is made through the frame pointer, or through a register into which the pointer of a
frame further out was loaded right before.
-/

namespace ProcLang

/-! ### Shapes -/

/-- Something on the stack of a procedure. -/
inductive Cell where
  /-- A register that was saved. -/
  | saved (register : Register)
  /-- The frame pointer of the frame around, as it was when the frame was opened. -/
  | link (base : Option Nat)
  /-- Reserved bytes. -/
  | room (bytes : Nat)
deriving DecidableEq

namespace Cell

/-- The number of bytes that a cell takes. -/
def size : Cell → Nat
  | saved _ | link _ => 8
  | room bytes => bytes

/-- The cell is reserved bytes. -/
def isRoom : Cell → Bool
  | room _ => true
  | saved _ | link _ => false

theorem size_of_isRoom : ∀ {cell : Cell}, cell.isRoom = false → cell.size = 8
  | saved _, _ | link _, _ => rfl

end Cell

/-- The stack of a procedure since its entry, the last cell first.  `base` is where the frame pointer
points, in bytes below the entry, or nothing if it is the caller's. -/
structure Shape where
  cells : List Cell
  base : Option Nat
deriving DecidableEq

/-- An instruction changes the stack pointer or the frame pointer as it would any other register. -/
def Instr.setsPointer : Instr → Bool
  | .mov _ (.reg r) _ | .movzx r _ | .movsx r _ | .lea r _ | .neg _ (.reg r) | .alu _ _ (.reg r) _
  | .setcc _ r => r == .rsp || r == .rbp
  | _ => false

namespace Shape

/-- The shape at the entry of a procedure. -/
def entry : Shape := ⟨[], none⟩

/-- The number of bytes between the entry and the stack pointer. -/
def depth (sh : Shape) : Nat := (sh.cells.map Cell.size).sum

/-- Go back to the frame pointer; nothing but reserved bytes may be dropped. -/
def unwind (sh : Shape) : Option Shape :=
  let below : Shape := { sh with cells := sh.cells.dropWhile Cell.isRoom }
  if sh.base = some below.depth then some below else none

/-- Take the frame pointer of the frame around from the cell that the frame pointer points to. -/
def leave (sh : Shape) : Option Shape :=
  match sh.cells with
  | .link base :: rest => if sh.base = some sh.depth then some ⟨rest, base⟩ else none
  | _ => none

/-- Take a saved register from the cell where it was saved. -/
def restore (sh : Shape) (r : Register) : Option Shape :=
  match sh.cells with
  | .saved q :: rest => if q = r then some { sh with cells := rest } else none
  | _ => none

/-- Give reserved bytes back. -/
def giveBack (sh : Shape) (bytes : Int) : Option Shape :=
  match sh.cells with
  | .room n :: rest => if (n : Int) = bytes then some { sh with cells := rest } else none
  | _ => none

/-- The shape behind an instruction from which the walk goes on to the next one. -/
def after (sh : Shape) : Instr → Option Shape
  | .push r =>
    if r = .rsp then none
    else some { sh with cells := (if r = .rbp then .link sh.base else .saved r) :: sh.cells }
  | .pop r => if r = .rbp then sh.leave else sh.restore r
  | .mov .quad (.reg .rbp) (.reg .rsp) => some { sh with base := some sh.depth }
  | .mov .quad (.reg .rsp) (.reg .rbp) => sh.unwind
  | .alu .sub .quad (.reg .rsp) (.imm bytes) =>
    if 0 ≤ bytes then some { sh with cells := .room bytes.toNat :: sh.cells } else none
  | .alu .add .quad (.reg .rsp) (.imm bytes) => sh.giveBack bytes
  | .jmp _ | .ret => none
  | i => if i.setsPointer then none else some sh

/-- The shape in a frame that was opened with some bytes reserved. -/
def opened (sh : Shape) (reserved : Nat) : Shape :=
  let linked : Shape := { sh with cells := .link sh.base :: sh.cells }
  { cells := if reserved > 0 then .room reserved :: linked.cells else linked.cells
    base := some linked.depth }

theorem unwind_opened (sh : Shape) (reserved : Nat) : (sh.opened reserved).unwind =
    some ⟨.link sh.base :: sh.cells, (sh.opened reserved).base⟩ := by
  unfold unwind opened
  split <;> simp [List.dropWhile_cons, Cell.isRoom, depth]

theorem leave_link (sh : Shape) (reserved : Nat) :
    leave ⟨.link sh.base :: sh.cells, (sh.opened reserved).base⟩ = some sh := by
  simp [leave, opened, depth]

theorem leave_eq_some {sh sh' : Shape} (h : sh.leave = some sh') :
    ∃ base cells, sh.cells = .link base :: cells ∧ sh.base = some sh.depth ∧ sh' = ⟨cells, base⟩ := by
  unfold leave at h
  split at h
  case h_1 base cells hcells =>
    split_ifs at h with hbase
    exact ⟨base, cells, hcells, hbase, (Option.some.inj h).symm⟩
  case h_2 => cases h

theorem restore_eq_some {sh sh' : Shape} {r : Register} (h : sh.restore r = some sh') :
    ∃ cells, sh.cells = .saved r :: cells ∧ sh' = ⟨cells, sh.base⟩ := by
  unfold restore at h
  split at h
  case h_1 q cells hcells =>
    split_ifs at h with hq
    exact ⟨cells, hq ▸ hcells, (Option.some.inj h).symm⟩
  case h_2 => cases h

end Shape

/-! ### Stores -/

/-- The memory that an instruction writes: the register and the displacement of its address, and its
width. -/
def Instr.written? : Instr → Option (Register × Int × Width)
  | .mov w (.mem q d) _ | .neg w (.mem q d) | .alu _ w (.mem q d) _ => some (q, d, w)
  | _ => none

/-- A register that points to a frame, and the bytes between the entry and this frame, if some are
known. -/
abbrev Pointed := Option (Register × Nat)

namespace Shape

/-- A frame that starts `bytes` below the entry has the pointer to the frame around it, which starts
`around` bytes below the entry. -/
def Link (sh : Shape) (bytes around : Nat) : Prop :=
  ∃ above below, sh.cells = above ++ .link (some around) :: below ∧
    bytes = 8 + (below.map Cell.size).sum

/-- A register points to a frame: it is the frame pointer, or it is known. -/
def Points (sh : Shape) (k : Pointed) (q : Register) (bytes : Nat) : Prop :=
  q = .rbp ∧ sh.base = some bytes ∨ k = some (q, bytes)

/-- Bytes from a place on, counted from the entry, are reserved ones, or they are above the return
address. -/
def Clear (sh : Shape) (place : Int) (size : Nat) : Prop :=
  8 ≤ place ∨ ∃ above bytes below, sh.cells = above ++ .room bytes :: below ∧
    -((bytes + (below.map Cell.size).sum : Nat) : Int) ≤ place ∧
    place + size ≤ -((below.map Cell.size).sum : Int)

/-- What is known behind an instruction: the register that the pointer of a frame was loaded into. -/
inductive Learns (sh : Shape) (k : Pointed) : Instr → Pointed → Prop
  | nothing {i : Instr} : sh.Learns k i none
  | frame {r q : Register} {bytes around : Nat} : sh.Points k q bytes → sh.Link bytes around →
      sh.Learns k (.mov .quad (.reg r) (.mem q 0)) (some (r, around))

variable {sh : Shape} {k : Pointed} {i : Instr}

theorem Points.mono {q : Register} {bytes : Nat} (h : sh.Points none q bytes) :
    sh.Points k q bytes := by
  rcases h with h | h
  · exact .inl h
  · cases h

theorem Learns.mono {k' : Pointed} (h : sh.Learns none i k') : sh.Learns k i k' := by
  cases h with
  | nothing => exact .nothing
  | frame hpoints hlink => exact .frame hpoints.mono hlink

end Shape

/-! ### Walks -/

/-- One step of a walk through code; a position is the code from there on. -/
inductive ShapeStep (code : List Instr) : List Instr × Shape → List Instr × Shape → Prop
  | next {i rest sh sh'} : sh.after i = some sh' → ShapeStep code (i :: rest, sh) (rest, sh')
  | jump {l rest sh position} : target? l code = some position →
      ShapeStep code (.jmp l :: rest, sh) (position, sh)
  | branch {condition l rest sh position} : target? l code = some position →
      ShapeStep code (.jcc condition l :: rest, sh) (position, sh)

theorem ShapeStep.unique {code : List Instr} {s t t' : List Instr × Shape} (h : ShapeStep code s t)
    (h' : ShapeStep code s t') : t.2 = t'.2 := by
  cases h <;> cases h' <;> simp_all [Shape.after, Instr.setsPointer]

/-- A walk through code. -/
abbrev ShapeWalk (code : List Instr) : List Instr × Shape → List Instr × Shape → Prop :=
  Relation.ReflTransGen (ShapeStep code)

/-- An instruction keeps the discipline of the stack in a shape: a return finds the stack as at the
entry, a jump finds its label, and any other instruction leads to a further shape. -/
def Disciplined (code : List Instr) (i : Instr) (sh : Shape) : Prop :=
  match i with
  | .ret => sh = .entry
  | .jmp l => ∃ position, target? l code = some position
  | .jcc _ l => ∃ position, target? l code = some position
  | i => ∃ sh', sh.after i = some sh'

/-! ### Typed code -/

/-- The labels that an instruction names have the shape in which it stands, a return stands in the
shape of the entry, and there is no further entry. -/
def Admitted (Λ : Label → Shape → Prop) (sh : Shape) : Instr → Prop
  | .jmp l | .jcc _ l | .label l => Λ l sh
  | .ret => sh = .entry
  | .symbol _ => False
  | _ => True

/-- Behind a jump or a return any shape may follow, since the walk does not come there. -/
def Followed (sh : Shape) (i : Instr) (sh' : Shape) : Prop :=
  match i with
  | .jmp _ | .ret => True
  | i => sh.after i = some sh'

/-! ### Spots -/

/-- Some bytes, from a place on. -/
structure Extent where
  place : Int
  size : Nat

/-- No byte belongs to both. -/
def Extent.Apart (x y : Extent) : Prop := x.place + x.size ≤ y.place ∨ y.place + y.size ≤ x.place

/-- The name of the variable that a statement stores into. -/
def Stmt.storesTo? : Stmt → Option String
  | .declaration _ name _ _ | .assignment _ name _ => some name
  | _ => none

namespace Generation

/-- The shape of the stack in some scopes: a frame for each scope but the program's. -/
def shapeOf : ScopeStack → Shape
  | [] => .entry
  | scope :: outer => if scope.kind = .entry then .entry else (shapeOf outer).opened scope.localBytes

/-- The bytes of a variable, counted from the entry, if its frame starts at a depth. -/
def slot? (base : Nat) (v : Variable) : Option Extent :=
  match v.storage with
  | .stack offset => some ⟨offset - base, v.type.size⟩
  | .register _ => none

/-- The bytes of all variables that are on the stack. -/
def slotsOf : ScopeStack → List Extent
  | [] => []
  | scope :: outer => scope.vars.entries.filterMap (slot? (depth outer) ·.2) ++ slotsOf outer

/-- The bytes of the variable that a name means, if it is on the stack. -/
def home? : ScopeStack → String → Option Extent
  | [], _ => none
  | scope :: outer, name =>
    match scope.vars.get? name with
    | some v => slot? (depth outer) v
    | none => home? outer name

namespace Spot

/-- The frames of the scopes are open. -/
def Over (spot : Spot) (slots : Nat) (sh : Shape) : Prop :=
  (∃ f, Seated f slots spot.scopes) ∧ (shapeOf spot.scopes).cells <:+ sh.cells

/-- The bytes belong to the variable that the statement stores into, as its name is meant behind the
statement. -/
def Owns (spot : Spot) (slots : Nat) (x : Extent) : Prop :=
  ∃ st name, spot.own = some st ∧ st.storesTo? = some name ∧
    (∃ f, Seated f slots (scopesAfter st spot.scopes)) ∧ home? (scopesAfter st spot.scopes) name = some x

/-- An instruction stands at a spot where the stack has a shape.  At a call the bytes on the stack are a
multiple of 16, the return address of the procedure included, and there are no arguments on it. -/
structure Stands (spot : Spot) (slots : Nat) (sh : Shape) (k : Pointed) (i : Instr) : Prop where
  frames : spot.Over slots sh
  bytes : spot.bytes = if i.isCall then some (sh.depth + 8) else none
  calls : ∀ name, i = .call name → (sh.depth + 8) % 16 = 0 ∧
    ∃ p, spot.scopes.findProcedure? name = some p ∧ p.params.length ≤ Register.arguments.length
  stores : ∀ q d w, i.written? = some (q, d, w) →
    ∃ bytes, sh.Points k q bytes ∧ spot.Owns slots ⟨d - bytes, w.bytes⟩

variable {spot : Spot} {slots : Nat} {sh sh' : Shape} {k : Pointed} {i : Instr}

theorem Over.mono (h : spot.Over slots sh) (hcells : sh.cells <:+ sh'.cells) : spot.Over slots sh' :=
  ⟨h.1, h.2.trans hcells⟩

theorem Stands.mono (h : spot.Stands slots sh none i) : spot.Stands slots sh k i := by
  refine ⟨h.frames, h.bytes, h.calls, fun q d w hw => ?_⟩
  obtain ⟨bytes, hpoints, howns⟩ := h.stores q d w hw
  exact ⟨bytes, hpoints.mono, howns⟩

theorem Stands.isSome_bytes (h : spot.Stands slots sh k i) : spot.bytes.isSome = i.isCall := by
  rw [h.bytes]
  cases i.isCall <;> rfl

theorem Over.stands (h : spot.Over slots sh) (hcall : i.isCall = false) (hw : i.written? = none) :
    (spot.of i).Stands slots sh k i where
  frames := h
  bytes := by simp [of, hcall]
  calls name hi := by simp [hi, Instr.isCall] at hcall
  stores q d w hw' := by simp [hw] at hw'

end Spot

/-- The spots have bytes on record for the calls. -/
def Recorded (code : List Instr) (ls : List Spot) : Prop :=
  ls.map (·.bytes.isSome) = code.map Instr.isCall

theorem Recorded.length_depthsOf {code : List Instr} {ls : List Spot} (h : Recorded code ls) :
    (depthsOf ls).length = code.countP Instr.isCall := by
  rw [depthsOf, List.length_filterMap_eq_countP]
  simpa [List.countP_map, Function.comp_def] using congrArg (List.countP id) h

end Generation

open Generation

/-- Code is typed between two shapes, with shapes of labels and the spots of its instructions. -/
def Typed (slots : Nat) (Λ : Label → Shape → Prop) :
    Shape → Pointed → List Instr → List Spot → Shape → Prop
  | sh, _, [], [], out => sh = out
  | sh, k, i :: rest, spot :: ls, out => Admitted Λ sh i ∧ spot.Stands slots sh k i ∧
      ∃ sh' k', Followed sh i sh' ∧ sh.Learns k i k' ∧ Typed slots Λ sh' k' rest ls out
  | _, _, _, _, _ => False

section Typed

variable {slots : Nat} {Λ : Label → Shape → Prop} {sh mid out : Shape} {k : Pointed}
  {c c₁ c₂ : List Instr} {ls ls₁ ls₂ : List Spot}

/-- Code that needs to know nothing may stand anywhere. -/
theorem Typed.mono (h : Typed slots Λ sh none c ls out) : Typed slots Λ sh k c ls out := by
  cases c <;> cases ls
  case cons.cons =>
    obtain ⟨hadm, hstands, sh', k', hf, hlearns, hc⟩ := h
    exact ⟨hadm, hstands.mono, sh', k', hf, hlearns.mono, hc⟩
  all_goals exact h

/-- An instruction in front of code that needs to know nothing. -/
theorem Typed.cons {i : Instr} {spot : Spot} {sh' : Shape} (hadm : Admitted Λ sh i)
    (hstands : spot.Stands slots sh k i) (hf : Followed sh i sh')
    (h : Typed slots Λ sh' none c ls out) : Typed slots Λ sh k (i :: c) (spot :: ls) out :=
  ⟨hadm, hstands, sh', none, hf, .nothing, h⟩

theorem Typed.append : ∀ {c₁ : List Instr} {ls₁ : List Spot} {sh : Shape} {k : Pointed},
    Typed slots Λ sh k c₁ ls₁ mid → Typed slots Λ mid none c₂ ls₂ out →
    Typed slots Λ sh k (c₁ ++ c₂) (ls₁ ++ ls₂) out
  | [], [], _, _, rfl, h₂ => h₂.mono
  | _ :: _, _ :: _, _, _, ⟨hadm, hstands, sh', k', hf, hlearns, h₁⟩, h₂ =>
    ⟨hadm, hstands, sh', k', hf, hlearns, h₁.append h₂⟩

theorem Typed.split : ∀ {c₁ : List Instr} {ls : List Spot} {sh : Shape} {k : Pointed},
    Typed slots Λ sh k (c₁ ++ c₂) ls out → ∃ mid k' ls₁ ls₂, ls = ls₁ ++ ls₂ ∧ Recorded c₁ ls₁ ∧
      Typed slots Λ mid k' c₂ ls₂ out
  | [], ls, sh, k, h => ⟨sh, k, [], ls, rfl, rfl, h⟩
  | i :: _, spot :: _, sh, _, ⟨_, hstands, _, _, _, _, h⟩ => by
    obtain ⟨mid, k'', ls₁, ls₂, rfl, hrec, h₂⟩ := h.split
    exact ⟨mid, k'', spot :: ls₁, ls₂, rfl, congrArg₂ List.cons hstands.isSome_bytes hrec, h₂⟩

theorem Typed.recorded (h : Typed slots Λ sh k c ls out) : Recorded c ls := by
  rw [← List.append_nil c] at h
  obtain ⟨mid, k', ls₁, ls₂, rfl, hrec, hnil⟩ := h.split
  cases ls₂ with
  | nil => rwa [List.append_nil]
  | cons => exact hnil.elim

theorem Typed.not_symbol {name : String} : ∀ {c : List Instr} {ls : List Spot} {sh : Shape}
    {k : Pointed}, Typed slots Λ sh k c ls out → .symbol name ∉ c
  | [], _, _, _, _, h => by cases h
  | i :: c, _ :: _, _, _, ⟨hi, _, _, _, _, _, hc⟩, h => by
    rcases List.mem_cons.mp h with rfl | h
    · exact hi
    · exact hc.not_symbol h

/-- Nothing needs to be known at a label. -/
theorem Typed.label {l : Label} (h : Typed slots Λ sh k (.label l :: c) ls out) :
    Typed slots Λ sh none (.label l :: c) ls out := by
  cases ls with
  | nil => exact h.elim
  | cons spot ls =>
    obtain ⟨hadm, hstands, sh', k', hf, hlearns, hc⟩ := h
    cases hlearns
    exact .cons hadm ⟨hstands.frames, hstands.bytes, hstands.calls, by simp [Instr.written?]⟩ hf hc

/-! ### Walks through typed code -/

/-- Each label has one shape and stands in the code. -/
structure Consistent (Λ : Label → Shape → Prop) (c : List Instr) : Prop where
  unique : ∀ {l sh sh'}, Λ l sh → Λ l sh' → sh = sh'
  present : ∀ {l sh}, Λ l sh → .label l ∈ c

/-- The walk is in the typed code, and the rest of that code is typed from the shape it has. -/
def OnTrack (slots : Nat) (Λ : Label → Shape → Prop) (out : Shape) (c post : List Instr) (ls : List Spot)
    (k : Pointed) (s : List Instr × Shape) : Prop :=
  ∃ done i todo ls₁ ls₂, c = done ++ i :: todo ∧ s.1 = i :: todo ++ post ∧ ls = ls₁ ++ ls₂ ∧
    Recorded done ls₁ ∧ Typed slots Λ s.2 k (i :: todo) ls₂ out

variable {pre post rest : List Instr} {i : Instr} {sh' : Shape}

/-- The one position of a label of the code. -/
theorem target?_of_mem {l : Label} (hids : ∀ i, (labelIds (pre ++ c ++ post)).count i ≤ 1)
    (hl : .label l ∈ c) : ∃ done todo, c = done ++ .label l :: todo ∧
      target? l (pre ++ c ++ post) = some (.label l :: todo ++ post) := by
  obtain ⟨done, todo, rfl⟩ := List.append_of_mem hl
  refine ⟨done, todo, rfl, ?_⟩
  have hcode : pre ++ (done ++ .label l :: todo) ++ post =
      (pre ++ done) ++ .label l :: (todo ++ post) := by simp
  rw [hcode] at hids ⊢
  exact target?_append hids

theorem Consistent.target (h : Consistent Λ c) (hids : ∀ i, (labelIds (pre ++ c ++ post)).count i ≤ 1)
    (htyped : Typed slots Λ .entry none c ls out) {l : Label} (hl : Λ l sh) :
    ∃ position, target? l (pre ++ c ++ post) = some position ∧
      OnTrack slots Λ out c post ls none (position, sh) := by
  obtain ⟨done, todo, rfl, ht⟩ := target?_of_mem hids (h.present hl)
  obtain ⟨sh', k', ls₁, ls₂, hls, hrec, htodo⟩ := htyped.split
  refine ⟨_, ht, done, .label l, todo, ls₁, ls₂, rfl, rfl, hls, hrec, ?_⟩
  cases ls₂ with
  | nil => exact htodo.elim
  | cons spot ls₂ =>
    rw [h.unique hl htodo.1]
    exact htodo.label

theorem after_eq_of_followed (hf : Followed sh i sh') (ha : sh.after i = some out) : sh' = out := by
  cases i with
  | jmp l => cases ha
  | ret => cases ha
  | _ => exact Option.some.inj (hf.symm.trans ha)

/-- A walk stays on track from one instruction to the next. -/
theorem OnTrack.next (hlast : ∃ c', c = c' ++ [.ret])
    (hs : OnTrack slots Λ out c post ls k (i :: rest, sh)) (ha : sh.after i = some sh') :
    ∃ k', sh.Learns k i k' ∧ OnTrack slots Λ out c post ls k' (rest, sh') := by
  obtain ⟨done, j, todo, ls₁, _ | ⟨spot, ls₂⟩, hc, hpos, hls, hrec, htyped⟩ := hs
  · exact htyped.elim
  obtain ⟨rfl, rfl⟩ := List.cons.inj hpos
  obtain ⟨-, hstands, sh'', k', hf, hlearns, htodo⟩ := htyped
  obtain rfl := after_eq_of_followed hf ha
  -- the last instruction is a return, so there is a further one
  cases todo with
  | nil =>
    obtain ⟨c', hc'⟩ := hlast
    obtain ⟨-, hi⟩ := List.append_inj' (hc'.symm.trans hc) rfl
    obtain rfl := (List.cons.inj hi).1
    cases ha
  | cons j todo =>
    refine ⟨k', hlearns, done ++ [i], j, todo, ls₁ ++ [spot], ls₂, by simp [hc], rfl, by simp [hls], ?_,
      htodo⟩
    simp [Recorded, show _ = _ from hrec, hstands.isSome_bytes]

/-- A walk stays on track over a jump. -/
theorem OnTrack.jump (h : Consistent Λ c) (hids : ∀ i, (labelIds (pre ++ c ++ post)).count i ≤ 1)
    (htyped : Typed slots Λ .entry none c ls out) {l : Label} {position : List Instr}
    (hi : i = .jmp l ∨ ∃ condition, i = .jcc condition l)
    (hs : OnTrack slots Λ out c post ls k (i :: rest, sh))
    (ht : target? l (pre ++ c ++ post) = some position) :
    OnTrack slots Λ out c post ls none (position, sh) := by
  obtain ⟨_, _, _, _, _ | _, -, hpos, -, -, htodo⟩ := hs
  · exact htodo.elim
  obtain ⟨rfl, -⟩ := List.cons.inj hpos
  have hl : Λ l sh := by
    rcases hi with rfl | ⟨condition, rfl⟩
    · exact htodo.1
    · exact htodo.1
  obtain ⟨position', ht', hon⟩ := h.target hids htyped hl
  rw [ht] at ht'
  exact Option.some.inj ht' ▸ hon

theorem OnTrack.disciplined (h : Consistent Λ c)
    (hids : ∀ i, (labelIds (pre ++ c ++ post)).count i ≤ 1)
    (htyped : Typed slots Λ .entry none c ls out) {position : List Instr}
    (hs : OnTrack slots Λ out c post ls k (position, sh)) :
    ∃ i rest, position = i :: rest ∧ Disciplined (pre ++ c ++ post) i sh ∧ Admitted Λ sh i ∧
      ∃ done ls₁ spot ls₂, c ++ post = done ++ i :: rest ∧ ls = ls₁ ++ spot :: ls₂ ∧
        Recorded done ls₁ ∧ spot.Stands slots sh k i := by
  obtain ⟨done, i, todo, ls₁, _ | ⟨spot, ls₂⟩, hc, rfl, hls, hrec, htodo⟩ := hs
  · exact htodo.elim
  obtain ⟨hadm, hstands, sh', _, hf, -⟩ := htodo
  refine ⟨i, _, rfl, ?_, hadm, done, ls₁, spot, ls₂, by simp [hc], hls, hrec, hstands⟩
  cases i with
  | ret => exact hadm
  | jmp l | jcc condition l =>
    obtain ⟨position, ht, -⟩ := h.target hids htyped hadm
    exact ⟨position, ht⟩
  | _ => exact ⟨sh', hf⟩

end Typed

end ProcLang

import Mathlib.Data.List.Nodup
import ProcLang.Proofs.Generation.Outcome
import ProcLang.Proofs.Simulation.Layout
import ProcLang.Proofs.Stack.Shape

/-!
Generated code keeps the discipline of the stack.

The shape of the stack at a statement is decided by the scopes around: a frame for each of them.  The
code of an expression or a statement leaves the shape as it finds it, and a jump closes as many frames
as it has to for the shape of its label.  A variable is written in the frame of its scope, within the
bytes that are reserved there, or it is a parameter above the return address.
-/

namespace ProcLang

open Generation

/-! ### Instructions that leave the stack alone -/

/-- The instruction neither jumps nor calls nor pushes nor pops nor writes into memory, and is no label
and no entry. -/
def Instr.isStraight : Instr → Bool
  | .jmp _ | .jcc .. | .label _ | .ret | .call _ | .push _ | .pop _ | .symbol _ => false
  | i => i.written?.isNone

/-- An instruction leaves every shape as it is. -/
structure Quiet (i : Instr) : Prop where
  straight : i.isStraight = true
  after : ∀ sh : Shape, sh.after i = some sh

theorem quiet_of_setsPointer {i : Instr} (hs : i.isStraight = true) (hp : i.setsPointer = false) :
    Quiet i := by
  refine ⟨hs, fun sh => ?_⟩
  unfold Shape.after
  split <;> simp_all [Instr.isStraight, Instr.setsPointer]

theorem Quiet.written? {i : Instr} (h : Quiet i) : i.written? = none := by
  have hs := h.straight
  unfold Instr.isStraight at hs
  split at hs
  case h_9 => exact Option.isNone_iff_eq_none.mp hs
  all_goals cases hs

theorem Quiet.typed {i : Instr} (h : Quiet i) {slots : Nat} {spot : Spot} {Λ : Label → Shape → Prop}
    {sh out : Shape} {k : Pointed} {c : List Instr} {ls : List Spot} (hover : spot.Over slots sh)
    (hc : Typed slots Λ sh none c ls out) : Typed slots Λ sh k (i :: c) (spot.of i :: ls) out := by
  have hs := h.straight
  refine .cons ?_ (hover.stands ?_ h.written?) ?_ hc
  · cases i <;> simp_all [Instr.isStraight, Admitted]
  · cases i <;> simp_all [Instr.isStraight, Instr.isCall]
  · have ha := h.after sh
    cases i <;> simp_all [Followed, Instr.isStraight]

theorem followed_store {sh : Shape} {w : Width} {q r : Register} {offset : Int} :
    Followed sh (.mov w (.mem q offset) (.reg r)) sh := by
  cases w <;> rfl

/-! ### Pieces of code -/

/-- Code is typed between two shapes, if the labels outside it are known and its own ones get the shapes in
`defs`. -/
structure Shaped (slots : Nat) (known : Label → Shape → Prop) (defs : List (Label × Shape)) (sh : Shape)
    (code : List Instr) (ls : List Spot) (out : Shape) : Prop where
  ids : defs.map (·.1.id) = labelIds code
  present : ∀ p ∈ defs, .label p.1 ∈ code
  typed : ∀ Λ : Label → Shape → Prop, (∀ l s, known l s → Λ l s) → (∀ p ∈ defs, Λ p.1 p.2) →
    Typed slots Λ sh none code ls out

/-- A stretch of code in one place. -/
abbrev Stretch (slots : Nat) (spot : Spot) (known : Label → Shape → Prop) (defs : List (Label × Shape))
    (sh : Shape) (code : List Instr) (out : Shape) : Prop :=
  Shaped slots known defs sh code (spots spot code) out

/-- The cells of an open frame lie on those that were there. -/
theorem Shape.exists_cells_opened (sh : Shape) (reserved : Nat) :
    ∃ extra, (sh.opened reserved).cells = extra ++ .link sh.base :: sh.cells := by
  unfold opened
  split
  · exact ⟨[.room reserved], rfl⟩
  · exact ⟨[], rfl⟩

theorem Shape.suffix_opened {sh : Shape} {reserved : Nat} : sh.cells <:+ (sh.opened reserved).cells := by
  obtain ⟨extra, hextra⟩ := sh.exists_cells_opened reserved
  exact ⟨extra ++ [.link sh.base], by simp [hextra]⟩

namespace Shaped

variable {slots : Nat} {spot : Spot} {known known' : Label → Shape → Prop}
  {defs d₁ d₂ : List (Label × Shape)} {sh mid out : Shape} {c c₁ c₂ : List Instr}
  {ls ls₁ ls₂ : List Spot} {l : Label} {i : Instr}

theorem append (h₁ : Shaped slots known d₁ sh c₁ ls₁ mid) (h₂ : Shaped slots known d₂ mid c₂ ls₂ out) :
    Shaped slots known (d₁ ++ d₂) sh (c₁ ++ c₂) (ls₁ ++ ls₂) out where
  ids := by rw [List.map_append, h₁.ids, h₂.ids, labelIds_append]
  present p hp := by
    rcases List.mem_append.mp hp with hp | hp
    · exact List.mem_append_left _ (h₁.present p hp)
    · exact List.mem_append_right _ (h₂.present p hp)
  typed Λ hknown hdefs := (h₁.typed Λ hknown fun p hp => hdefs p (List.mem_append_left _ hp)).append
    (h₂.typed Λ hknown fun p hp => hdefs p (List.mem_append_right _ hp))

/-- Two stretches in one place. -/
theorem join (h₁ : Stretch slots spot known d₁ sh c₁ mid)
    (h₂ : Stretch slots spot known d₂ mid c₂ out) :
    Stretch slots spot known (d₁ ++ d₂) sh (c₁ ++ c₂) out := by
  rw [Stretch, spots, List.map_append]
  exact h₁.append h₂

/-- Labels of the code itself need not be known outside. -/
theorem hide {extra : List (Label × Shape)}
    (h : Shaped slots (fun l s => known l s ∨ (l, s) ∈ extra) defs sh c ls out)
    (hextra : ∀ p ∈ extra, p ∈ defs) : Shaped slots known defs sh c ls out := by
  refine ⟨h.ids, h.present, fun Λ hknown hdefs => h.typed Λ (fun l s hl => ?_) hdefs⟩
  rcases hl with hl | hl
  · exact hknown l s hl
  · exact hdefs (l, s) (hextra _ hl)

theorem cast (h : Shaped slots known defs sh c₁ ls₁ out) (hc : c₂ = c₁) (hls : ls₂ = ls₁) :
    Shaped slots known defs sh c₂ ls₂ out := by
  rw [hc, hls]
  exact h

theorem nil : Shaped slots known [] sh [] [] sh := ⟨rfl, by simp, fun _ _ _ => rfl⟩

theorem label (h : spot.Over slots sh) : Stretch slots spot known [(l, sh)] sh [.label l] sh :=
  ⟨rfl, by simp, fun Λ _ hdefs => .cons (hdefs _ List.mem_cons_self) (h.stands rfl rfl) rfl rfl⟩

theorem jump (h : spot.Over slots sh) (hl : known l sh) : Stretch slots spot known [] sh [.jmp l] out :=
  ⟨rfl, by simp, fun Λ hknown _ => .cons (hknown l sh hl) (h.stands rfl rfl) trivial rfl⟩

theorem branch {condition : Condition} (h : spot.Over slots sh) (hl : known l sh) :
    Stretch slots spot known [] sh [.jcc condition l] sh :=
  ⟨rfl, by simp, fun Λ hknown _ => .cons (hknown l sh hl) (h.stands rfl rfl) rfl rfl⟩

theorem ret (h : spot.Over slots .entry) : Stretch slots spot known [] .entry [.ret] out :=
  ⟨rfl, by simp, fun Λ _ _ => .cons rfl (h.stands rfl rfl) trivial rfl⟩

theorem call {name : String} (h : spot.Over slots sh) (hbytes : spot.bytes = some (sh.depth + 8))
    (hmod : (sh.depth + 8) % 16 = 0) (hproc : ∃ p, spot.scopes.findProcedure? name = some p ∧
      p.params.length ≤ Register.arguments.length) : Stretch slots spot known [] sh [.call name] sh := by
  refine ⟨rfl, by simp, fun Λ _ _ => .cons trivial ⟨h, hbytes, ?_, by simp [Instr.written?]⟩ rfl rfl⟩
  rintro _ ⟨⟩
  exact ⟨hmod, hproc⟩

theorem quiet (hover : spot.Over slots sh) (h : ∀ i ∈ c, Quiet i) : Stretch slots spot known [] sh c sh := by
  induction c with
  | nil => exact nil
  | cons i c ih =>
    have hi := h i List.mem_cons_self
    have hc := ih fun j hj => h j (List.mem_cons_of_mem _ hj)
    refine ⟨?_, by simp, fun Λ hknown hdefs => hi.typed hover (hc.typed Λ hknown hdefs)⟩
    have hs := hi.straight
    rw [labelIds_cons, ← hc.ids]
    cases i <;> simp_all [Instr.isStraight]

theorem one (hover : spot.Over slots sh) (h : Quiet i) : Stretch slots spot known [] sh [i] sh :=
  quiet hover fun _ hj => List.mem_singleton.mp hj ▸ h

theorem push {r : Register} (h : spot.Over slots sh) (hr : r ≠ .rsp) :
    Stretch slots spot known [] sh [.push r]
      { sh with cells := (if r = .rbp then .link sh.base else .saved r) :: sh.cells } :=
  ⟨rfl, by simp, fun Λ _ _ => .cons trivial (h.stands rfl rfl) (if_neg hr) rfl⟩

theorem pop {r : Register} (h : spot.Over slots sh)
    (hout : (if r = .rbp then sh.leave else sh.restore r) = some out) :
    Stretch slots spot known [] sh [.pop r] out :=
  ⟨rfl, by simp, fun Λ _ _ => .cons trivial (h.stands rfl rfl) hout rfl⟩

theorem adjust {op : AluOp} {bytes : Nat} (h : spot.Over slots sh)
    (hout : Followed sh (Generation.adjustInstr op bytes) out) :
    Stretch slots spot known [] sh [Generation.adjustInstr op bytes] out :=
  ⟨rfl, by simp, fun Λ _ _ => .cons trivial (h.stands rfl rfl) hout rfl⟩

/-! ### Frames -/

theorem enter (h : spot.Over slots sh) : Stretch slots spot known [] sh [Generation.copyInstr .rbp .rsp]
    { sh with base := some sh.depth } :=
  ⟨rfl, by simp, fun Λ _ _ => .cons trivial (h.stands rfl rfl) rfl rfl⟩

theorem unwind (h : spot.Over slots sh) (hout : sh.unwind = some out) :
    Stretch slots spot known [] sh [Generation.copyInstr .rsp .rbp] out :=
  ⟨rfl, by simp, fun Λ _ _ => .cons trivial (h.stands rfl rfl) hout rfl⟩

theorem openCode (h : spot.Over slots sh) (reserved : Nat) :
    Stretch slots spot known [] sh (Generation.openCode reserved) (sh.opened reserved) := by
  have hlink := (@push slots spot known sh .rbp h (by decide)).join
    (enter (h.mono (List.suffix_cons _ _)))
  unfold Generation.openCode Shape.opened
  split
  · refine hlink.join (adjust (h.mono (List.suffix_cons _ _)) ?_)
    simp [Followed, Generation.adjustInstr, Shape.after]
  · exact hlink

theorem epilogueCode (h : spot.Over slots sh) (reserved : Nat) :
    Stretch slots spot known [] (sh.opened reserved) Generation.epilogueCode sh :=
  (unwind (h.mono Shape.suffix_opened) (sh.unwind_opened reserved)).join
    (pop (h.mono (List.suffix_cons _ _)) (sh.leave_link reserved))

/-- The shapes of the labels, if no number of a label is given twice. -/
theorem consistent (h : Shaped slots (fun _ _ => False) defs sh c ls out)
    (hids : ∀ i, (labelIds c).count i ≤ 1) : Consistent (fun l s => (l, s) ∈ defs) c where
  present hl := h.present _ hl
  unique {l s s'} hs hs' := by
    have hnodup : (defs.map (·.1.id)).Nodup := List.nodup_iff_count_le_one.mpr (h.ids ▸ hids)
    exact congrArg Prod.snd (List.inj_on_of_nodup_map hnodup hs hs' rfl)

end Shaped

/-! ### Slots -/

namespace Shape

/-- The links lead from a frame over a number of frames to another one. -/
def Chain (sh : Shape) : Nat → Nat → Nat → Prop
  | 0, bytes, last => bytes = last
  | out + 1, bytes, last => ∃ around, sh.Link bytes around ∧ sh.Chain out around last

/-- The links lead from the frame pointer over a number of frames to another frame. -/
def Hops (sh : Shape) (out last : Nat) : Prop := ∃ base, sh.base = some base ∧ sh.Chain out base last

variable {sh : Shape} {reserved : Nat}

theorem base_opened : (sh.opened reserved).base = some (8 + sh.depth) := by
  simp [opened, depth, Cell.size]

theorem Link.opened {bytes around : Nat} (h : sh.Link bytes around) :
    (sh.opened reserved).Link bytes around := by
  obtain ⟨above, below, hcells, hbytes⟩ := h
  obtain ⟨extra, hextra⟩ := sh.exists_cells_opened reserved
  exact ⟨extra ++ .link sh.base :: above, below, by simp [hextra, hcells], hbytes⟩

theorem Chain.opened {last : Nat} : ∀ {out bytes : Nat}, sh.Chain out bytes last →
    (sh.opened reserved).Chain out bytes last
  | 0, _, h => h
  | _ + 1, _, ⟨around, hlink, h⟩ => ⟨around, hlink.opened, h.opened⟩

/-- A frame is one frame further out from within a new one. -/
theorem Hops.opened {out last : Nat} (h : sh.Hops out last) :
    (sh.opened reserved).Hops (out + 1) last := by
  obtain ⟨base, hbase, hchain⟩ := h
  obtain ⟨extra, hextra⟩ := sh.exists_cells_opened reserved
  refine ⟨_, base_opened, base, ⟨extra, sh.cells, ?_, rfl⟩, hchain.opened⟩
  rw [hextra, hbase]

theorem Clear.mono {sh' : Shape} {place : Int} {size : Nat} (h : sh.Clear place size)
    (hcells : sh.cells <:+ sh'.cells) : sh'.Clear place size := by
  rcases h with h | ⟨above, bytes, below, heq, hlow, hhigh⟩
  · exact .inl h
  · obtain ⟨extra, hextra⟩ := hcells
    exact .inr ⟨extra ++ above, bytes, below, by simp [← hextra, heq], hlow, hhigh⟩

/-- The reserved bytes of a new frame. -/
theorem clear_opened {offset : Int} {size : Nat} (hlow : -(reserved : Int) ≤ offset)
    (hhigh : offset + size ≤ 0) (hsize : 0 < size) :
    (sh.opened reserved).Clear (offset - ((8 + sh.depth : Nat) : Int)) size := by
  have hpos : reserved > 0 := by omega
  refine .inr ⟨[], reserved, .link sh.base :: sh.cells, by simp [opened, hpos], ?_, ?_⟩
  · simp only [List.map_cons, List.sum_cons, Cell.size, depth]
    omega
  · simp only [List.map_cons, List.sum_cons, Cell.size, depth]
    omega

end Shape

namespace Generation

/-! ### Straight code -/

section Straight

variable {used : Used} {r q : Register} {c : List Instr}

theorem not_pointer (h : r ∈ Register.allocatable) : (r == .rsp || r == .rbp) = false := by
  revert h
  cases r <;> decide

theorem quiet_copy {src : Register} (h : r ∈ Register.allocatable ∨ r = .rax) :
    Quiet (copyInstr r src) := by
  refine quiet_of_setsPointer rfl ?_
  rcases h with h | rfl
  · exact not_pointer h
  · rfl

theorem quiet_fetch {type : DataType} {src : Operand} (h : r ∈ Register.allocatable) :
    Quiet (fetch type r src) := by
  cases type <;> exact quiet_of_setsPointer rfl (not_pointer h)

theorem quiet_extendCode {type : DataType} (h : r ∈ Register.allocatable) :
    ∀ i ∈ extendCode r type, Quiet i := by
  intro i hi
  cases type with
  | u8 | s8 => exact List.mem_singleton.mp hi ▸ quiet_of_setsPointer rfl (not_pointer h)
  | int => cases hi
  | void => cases hi

theorem quiet_truthCode {condition : Condition} (h : r ∈ Register.allocatable) :
    ∀ i ∈ truthCode condition r, Quiet i := by
  simp only [truthCode, List.mem_cons, List.not_mem_nil, or_false]
  rintro i (rfl | rfl) <;> exact quiet_of_setsPointer rfl (not_pointer h)

theorem quiet_unaryCode {op : UnaryOp} (h : r ∈ Register.allocatable) :
    ∀ i ∈ unaryCode op r, Quiet i := by
  intro i hi
  cases op with
  | plus => cases hi
  | negate => exact List.mem_singleton.mp hi ▸ quiet_of_setsPointer rfl (not_pointer h)
  | not =>
    rcases List.mem_cons.mp hi with rfl | hi
    · exact quiet_of_setsPointer rfl rfl
    · exact quiet_truthCode h i hi

theorem quiet_nonzeroCode (h : r ∈ Register.allocatable) : ∀ i ∈ nonzeroCode r q, Quiet i := by
  intro i hi
  rcases List.mem_cons.mp hi with rfl | hi
  · exact quiet_of_setsPointer rfl rfl
  · exact quiet_truthCode h i hi

theorem quiet_reach {access : Access} {src : Operand} (h : Reach used access c src) :
    ∀ i ∈ c, Quiet i := by
  intro i hi
  cases h with
  | register _ => cases hi
  | here => cases hi
  | outer hq =>
    rcases List.mem_cons.mp hi with rfl | hi
    · exact quiet_of_setsPointer rfl (not_pointer hq.1)
    · obtain ⟨-, rfl⟩ := List.mem_replicate.mp hi
      exact quiet_of_setsPointer rfl (not_pointer hq.1)

theorem quiet_loadInstr {place : Place} {src : Operand} (h : r ∈ Register.allocatable) :
    Quiet (loadInstr place r src) := by
  unfold loadInstr
  split
  · exact quiet_of_setsPointer rfl (not_pointer h)
  · exact quiet_fetch h

end Straight

/-! ### Expressions -/

section Expressions

variable {slots : Nat} {spot : Spot} {known : Label → Shape → Prop} {sh : Shape} {used : Used}
  {pool : List String} {look : String → Option Place}

theorem shaped_divideCode {dividend divisor : Register} (hover : spot.Over slots sh)
    (h : dividend ∈ Register.allocatable) :
    Stretch slots spot known [] sh (divideCode used dividend divisor) sh := by
  have hback : Quiet (copyInstr dividend .rax) := quiet_copy (.inl h)
  have hquotient : ∀ operand, ∀ i ∈ quotientCode dividend operand, Quiet i := by
    simp only [quotientCode, List.mem_cons, List.not_mem_nil, or_false]
    rintro operand i (rfl | rfl | rfl)
    · exact quiet_copy (.inr rfl)
    · exact quiet_of_setsPointer rfl rfl
    · exact quiet_of_setsPointer rfl rfl
  unfold divideCode
  split
  · have hin : spot.Over slots { sh with cells := .saved .rdx :: sh.cells } :=
      hover.mono (List.suffix_cons _ _)
    have hpush : Stretch slots spot known [] sh [.push .rdx] _ := .push hover (by decide)
    exact ((hpush.join (.quiet hin (hquotient _))).join (.pop hin rfl)).join (.one hover hback)
  · exact (Shaped.quiet hover (hquotient _)).join (.one hover hback)

theorem shaped_eagerCode {op : ArithOp ⊕ Comparison} {type : DataType} {lhs rhs : Register}
    (hover : spot.Over slots sh) (h : lhs ∈ Register.allocatable) :
    Stretch slots spot known [] sh (eagerCode used op lhs rhs type) sh := by
  have halu : ∀ o, Quiet (.alu o .quad (.reg lhs) (.reg rhs)) := fun o =>
    quiet_of_setsPointer rfl (not_pointer h)
  cases op with
  | inr op =>
    refine .quiet hover fun i hi => ?_
    rcases List.mem_cons.mp hi with rfl | hi
    · exact quiet_of_setsPointer rfl rfl
    · exact quiet_truthCode h i hi
  | inl op =>
    have harith : Stretch slots spot known [] sh (arithCode used op lhs rhs) sh := by
      cases op with
      | div => exact shaped_divideCode hover h
      | add => exact .one hover (halu .add)
      | sub => exact .one hover (halu .sub)
      | mul => exact .one hover (halu .mul)
    exact harith.join (.quiet hover (quiet_extendCode h))

/-- An expression ends with the stack as it began, and its labels have the same shape. -/
theorem ExprCode.shaped {e : Expr} {context type : DataType} {n n' : Nat} {code : List Instr}
    {r : Register} (h : ExprCode pool look used e context n code r type n')
    (hover : spot.Over slots sh) :
    r ∈ Register.allocatable ∧ ∀ known, ∃ defs, Stretch slots spot known defs sh code sh := by
  induction h with
  | byte _ _ hr =>
    refine ⟨hr.1, fun known => ⟨[], .quiet hover fun i hi => ?_⟩⟩
    rcases List.mem_cons.mp hi with rfl | hi
    · exact quiet_of_setsPointer rfl (not_pointer hr.1)
    · exact quiet_extendCode hr.1 i hi
  | word _ hr | string _ hr =>
    exact ⟨hr.1, fun known => ⟨[], .one hover (quiet_of_setsPointer rfl (not_pointer hr.1))⟩⟩
  | var _ hr hway =>
    refine ⟨hr.1, fun known => ⟨[], .quiet hover fun i hi => ?_⟩⟩
    rcases List.mem_append.mp hi with hi | hi
    · exact quiet_reach hway i hi
    · exact List.mem_singleton.mp hi ▸ quiet_loadInstr hr.1
  | unary _ hdst ih =>
    refine ⟨hdst.1, fun known => ?_⟩
    obtain ⟨defs, he⟩ := ih.2 known
    refine ⟨defs ++ [], he.join (.quiet hover fun i hi => ?_)⟩
    rcases List.mem_cons.mp hi with rfl | hi
    · exact quiet_copy (.inl hdst.1)
    · exact quiet_unaryCode hdst.1 i hi
  | eager _ hdst _ ih₁ ih₂ =>
    refine ⟨hdst.1, fun known => ?_⟩
    obtain ⟨d₁, h₁⟩ := ih₁.2 known
    obtain ⟨d₂, h₂⟩ := ih₂.2 known
    exact ⟨_, (h₁.join ((Shaped.one hover (quiet_copy (.inl hdst.1))).join h₂)).join
      (shaped_eagerCode hover hdst.1)⟩
  | @logic used tag op lhs rhs context n n₂ n₃ c₁ c₂ r₁ r₂ t₁ t₂ dst _ hdst _ ih₁ ih₂ =>
    refine ⟨hdst.1, fun known => ?_⟩
    let known' : Label → Shape → Prop := fun l s => known l s ∨ (l, s) ∈ [(⟨n, op.labelName⟩, sh)]
    obtain ⟨d₁, h₁⟩ := ih₁.2 known'
    obtain ⟨d₂, h₂⟩ := ih₂.2 known'
    have hskip : Stretch slots spot known' [] sh [.jcc op.decided ⟨n, op.labelName⟩] sh :=
      .branch hover (.inr List.mem_cons_self)
    have hcmp : Quiet (.cmp .quad (.reg dst) (.imm 0)) := quiet_of_setsPointer rfl rfl
    have hlhs := h₁.join (.quiet hover (quiet_nonzeroCode hdst.1 (q := r₁)))
    have htest := (Shaped.one hover hcmp).join hskip
    have hrhs := h₂.join (.quiet hover (quiet_nonzeroCode hdst.1 (q := r₂)))
    have hall := ((hlhs.join htest).join hrhs).join (.label hover (l := ⟨n, op.labelName⟩))
    exact ⟨_, (hall.hide (by simp)).cast (by simp) (by simp)⟩

theorem ArgsCode.shaped {args : List (Expr × DataType)} {n n' : Nat} {code : List Instr}
    {rs : List Register} (h : ArgsCode pool look used args n code rs n') (hover : spot.Over slots sh)
    (known) : ∃ defs, Stretch slots spot known defs sh code sh := by
  induction h with
  | nil => exact ⟨[], .nil⟩
  | cons he _ ih =>
    obtain ⟨d₁, h₁⟩ := (he.shaped hover).2 known
    obtain ⟨d₂, h₂⟩ := ih
    exact ⟨_, h₁.join h₂⟩

theorem written?_store {w : Width} {q r : Register} {offset : Int} :
    (Instr.mov w (.mem q offset) (.reg r)).written? = some (q, offset, w) := rfl

theorem typed_store {Λ : Label → Shape → Prop} {k : Pointed} {w : Width} {q r : Register}
    {offset : Int} {bytes : Nat} (hover : spot.Over slots sh) (hpoints : sh.Points k q bytes)
    (howns : spot.Owns slots ⟨offset - bytes, w.bytes⟩) :
    Typed slots Λ sh k [.mov w (.mem q offset) (.reg r)] [spot.of (.mov w (.mem q offset) (.reg r))]
      sh := by
  refine .cons trivial ⟨hover, rfl, nofun, fun q' d' w' hw => ?_⟩ followed_store rfl
  rw [written?_store] at hw
  cases hw
  exact ⟨bytes, hpoints, howns⟩

/-- Links are followed outwards by one register, and a store is made through it. -/
theorem typed_links {Λ : Label → Shape → Prop} {w : Width} {q r : Register} {offset : Int}
    {last : Nat} (hover : spot.Over slots sh) (hq : q ∈ Register.allocatable)
    (howns : spot.Owns slots ⟨offset - last, w.bytes⟩) :
    ∀ {further bytes : Nat}, sh.Chain further bytes last →
      ∀ {c}, c = List.replicate further (.mov .quad (.reg q) (.mem q 0)) ++
        [.mov w (.mem q offset) (.reg r)] → Typed slots Λ sh (some (q, bytes)) c (spots spot c) sh
  | 0, bytes, h, _, rfl => by
    cases h
    exact typed_store hover (.inr rfl) howns
  | further + 1, bytes, ⟨around, hlink, hchain⟩, _, rfl => by
    have hload : Quiet (.mov .quad (.reg q) (.mem q 0)) := quiet_of_setsPointer rfl (not_pointer hq)
    exact ⟨trivial, hover.stands rfl rfl, sh, some (q, around), hload.after sh, .frame (.inr rfl) hlink,
      typed_links hover hq howns hchain rfl⟩

/-- The code that goes to the frame of a variable and stores into it. -/
theorem shaped_store {access : Access} {way : List Instr} {dst : Operand} {w : Width} {r : Register}
    {out last : Nat} {offset : Int} (hover : spot.Over slots sh) (hway : Reach used access way dst)
    (haccess : access = .frame out offset) (hhops : sh.Hops out last)
    (howns : spot.Owns slots ⟨offset - last, w.bytes⟩) :
    Stretch slots spot known [] sh (way ++ [.mov w dst (.reg r)]) sh := by
  obtain ⟨base, hbase, hchain⟩ := hhops
  have hquiet : Stretch slots spot known [] sh way sh := .quiet hover (quiet_reach hway)
  refine ⟨by rw [labelIds_append, ← hquiet.ids]; rfl, by simp, fun Λ _ _ => ?_⟩
  cases hway with
  | register _ => cases haccess
  | here =>
    obtain ⟨rfl, rfl⟩ := Access.frame.inj haccess
    cases hchain
    exact typed_store hover (.inl ⟨rfl, hbase⟩) howns
  | @outer q further _ hq =>
    obtain ⟨rfl, rfl⟩ := Access.frame.inj haccess
    obtain ⟨around, hlink, hchain⟩ := hchain
    have hload : Quiet (.mov .quad (.reg q) (.mem .rbp 0)) :=
      quiet_of_setsPointer rfl (not_pointer hq.1)
    exact ⟨trivial, hover.stands rfl rfl, sh, some (q, around), hload.after sh,
      .frame (.inl ⟨rfl, hbase⟩) hlink, typed_links hover hq.1 howns hchain rfl⟩

theorem bytes_store {type : DataType} (h : type ≠ .void) :
    (if type.isByte then Width.byte else .quad).bytes = type.size := by
  cases type with
  | void => exact absurd rfl h
  | _ => rfl

theorem AssignCode.shaped {place : Place} {value : Expr} {n n' : Nat} {code : List Instr}
    (h : AssignCode pool look used place value n code n') (hover : spot.Over slots sh) (known)
    (hplace : ∀ r, place.access = .register r → r ∈ Register.allocatable)
    (hslot : ∀ out offset, place.access = .frame out offset → place.type ≠ .void ∧
      ∃ last, sh.Hops out last ∧ spot.Owns slots ⟨offset - last, place.type.size⟩) :
    ∃ defs, Stretch slots spot known defs sh code sh := by
  obtain ⟨c, r, type, way, dst, hc, hway, rfl⟩ := h
  obtain ⟨defs, hshaped⟩ := (hc.shaped hover).2 known
  rw [List.append_assoc]
  unfold storeInstr
  split
  next q hq => exact ⟨_, hshaped.join ((Shaped.quiet hover (quiet_reach hway)).join
    (.one hover (quiet_fetch (hplace q hq))))⟩
  next out offset hq =>
    obtain ⟨htype, last, hhops, howns⟩ := hslot out offset hq
    rw [← bytes_store htype] at howns
    exact ⟨_, hshaped.join (shaped_store hover hway hq hhops howns)⟩

theorem SkipCode.shaped {condition : Expr} {target : Label} {n n' : Nat} {code : List Instr}
    (h : SkipCode pool look used condition target n code n') (hover : spot.Over slots sh)
    (hknown : known target sh) : ∃ defs, Stretch slots spot known defs sh code sh := by
  obtain ⟨c, r, type, dst, hc, hdst, rfl⟩ := h
  obtain ⟨defs, hshaped⟩ := (hc.shaped hover).2 known
  have hcopy : Quiet (copyInstr dst r) := quiet_copy (.inl hdst.1)
  have htest : Quiet (.test .quad (.reg dst) (.reg dst)) := quiet_of_setsPointer rfl rfl
  exact ⟨_, hshaped.join ((Shaped.one hover hcopy).join
    ((Shaped.one hover htest).join (.branch hover hknown)))⟩

end Expressions

/-! ### Calls -/

section Calls

variable {slots : Nat} {spot : Spot} {known : Label → Shape → Prop} {sh : Shape} {pool : List String}
  {look : String → Option Place}

/-- Registers pushed one after another lie on the stack, the last on top. -/
theorem shaped_pushes : ∀ {saved : List Register} {cells : List Cell},
    spot.Over slots { sh with cells := cells } → (∀ r ∈ saved, r ∈ Register.allocatable) →
    Stretch slots spot known [] { sh with cells := cells } (saved.map .push)
      { sh with cells := saved.reverse.map .saved ++ cells }
  | [], cells, _, _ => .nil
  | r :: saved, cells, hover, h => by
    have hr := h r List.mem_cons_self
    have hne : r ≠ .rsp ∧ r ≠ .rbp := by simpa using not_pointer hr
    have hpush := @Shaped.push slots spot known { sh with cells := cells } r hover hne.1
    rw [if_neg hne.2] at hpush
    have hrest := @shaped_pushes saved (.saved r :: cells) (hover.mono (List.suffix_cons _ _))
      fun q hq => h q (List.mem_cons_of_mem _ hq)
    have hall := hpush.join hrest
    simpa using hall

/-- They come off in the other order. -/
theorem shaped_pops : ∀ {saved : List Register} {cells : List Cell},
    spot.Over slots { sh with cells := cells } → (∀ r ∈ saved, r ∈ Register.allocatable) →
    Stretch slots spot known [] { sh with cells := saved.map .saved ++ cells } (saved.map .pop)
      { sh with cells := cells }
  | [], cells, _, _ => .nil
  | r :: saved, cells, hover, h => by
    have hr := h r List.mem_cons_self
    have hne : r ≠ .rsp ∧ r ≠ .rbp := by simpa using not_pointer hr
    have hpop := @Shaped.pop slots spot known { sh with cells := (r :: saved).map .saved ++ cells }
      { sh with cells := saved.map .saved ++ cells } r (hover.mono (List.suffix_append _ _))
      (by simp [if_neg hne.2, Shape.restore])
    exact hpop.join (shaped_pops hover fun q hq => h q (List.mem_cons_of_mem _ hq))

theorem savedCallDepth_mod {bytes : Nat} (saved : List Register) (h : bytes % 8 = 0) :
    savedCallDepth bytes saved % 16 = 0 := by
  unfold savedCallDepth
  simp only [bne_iff_ne]
  split <;> omega

/-- The call stands at the depth that was counted, if the stack had the depth that is meant. -/
theorem shaped_savedCallCode {depth : Nat} {saved : List Register} {name : String}
    (hover : spot.Over slots sh) (h : ∀ r ∈ saved, r ∈ Register.allocatable)
    (hdepth : sh.depth + 8 = depth) (hmod : depth % 8 = 0)
    (hspot : spot.bytes = some (savedCallDepth depth saved))
    (hproc : ∃ p, spot.scopes.findProcedure? name = some p ∧
      p.params.length ≤ Register.arguments.length) :
    Stretch slots spot known [] sh (savedCallCode depth saved name) sh := by
  obtain ⟨cells, base⟩ := sh
  obtain ⟨inner, hinner⟩ : ∃ inner : Shape,
      inner = ⟨saved.reverse.map .saved ++ cells, base⟩ := ⟨_, rfl⟩
  have hpush : Stretch slots spot known [] ⟨cells, base⟩ (saved.map .push) inner :=
    hinner ▸ @shaped_pushes slots spot known ⟨cells, base⟩ saved cells hover h
  have hpop : Stretch slots spot known [] inner (saved.reverse.map .pop) ⟨cells, base⟩ :=
    hinner ▸ @shaped_pops slots spot known ⟨cells, base⟩ saved.reverse cells hover
      fun r hr => h r (by simpa using hr)
  have hin : spot.Over slots inner := hover.mono (hinner ▸ List.suffix_append _ _)
  have hbytes : inner.depth + 8 = depth + 8 * saved.length := by
    have hsum : ∀ l : List Register, (l.map (Cell.size ∘ Cell.saved)).sum = 8 * l.length := by
      intro l
      induction l with
      | nil => rfl
      | cons r l ih =>
        rw [List.map_cons, List.sum_cons, ih, List.length_cons]
        show 8 + 8 * l.length = _
        omega
    subst hinner
    simp only [Shape.depth, List.map_append, List.map_map, List.sum_append, hsum,
      List.length_reverse] at hdepth ⊢
    omega
  have hcall : ∀ {sh : Shape}, spot.Over slots sh → sh.depth + 8 = savedCallDepth depth saved →
      Stretch slots spot known [] sh [.call name] sh := fun hover hbytes =>
    .call hover (hbytes ▸ hspot) (hbytes ▸ savedCallDepth_mod saved hmod) hproc
  simp only [savedCallCode, savedCallDepth] at hcall ⊢
  cases hpad : (depth + 8 * saved.length) % 16 != 0 with
  | false =>
    rw [hpad] at hcall
    exact ((hpush.join .nil).join (hcall hin hbytes)).join hpop
  | true =>
    rw [hpad] at hcall
    obtain ⟨padded, hpadded⟩ : ∃ padded : Shape,
        padded = { inner with cells := .room 8 :: inner.cells } := ⟨_, rfl⟩
    have hover' : spot.Over slots padded := hin.mono (hpadded ▸ List.suffix_cons _ _)
    have hreserve : Stretch slots spot known [] inner [adjustInstr .sub 8] padded :=
      .adjust hin (by rw [hpadded]; rfl)
    have hback : Stretch slots spot known [] padded [adjustInstr .add 8] inner :=
      .adjust hover' (by rw [hpadded]; rfl)
    have hroom : padded.depth = 8 + inner.depth := by
      rw [hpadded]
      rfl
    refine ((hpush.join hreserve).join ((hcall hover' ?_).join hback)).join hpop
    simp only [if_true]
    omega

theorem mem_allocatable_of_moves {h h' : Holding} {moves : List (Register × Register)}
    (hm : Moves h moves h') : ∀ p ∈ moves, p.1 ∈ Register.allocatable := by
  induction hm with
  | nil => simp
  | cons hdst _ _ ih =>
    intro p hp
    rcases List.mem_cons.mp hp with rfl | hp
    · exact hdst
    · exact ih p hp

theorem quiet_moveCode {h h' : Holding} {moves : List (Register × Register)}
    (hm : Moves h moves h') : ∀ i ∈ moveCode moves, Quiet i := by
  intro i hi
  obtain ⟨⟨dst, src⟩, hp, rfl⟩ := List.mem_map.mp hi
  exact quiet_copy (.inl (mem_allocatable_of_moves hm _ hp))

theorem CallCode.shaped {h : Holding} {depth : Nat} {name : String} {args : List (Expr × DataType)}
    {n n' bytes : Nat} {code : List Instr}
    (hc : CallCode pool look h depth name args n code n' bytes) (hover : spot.Over slots sh) (known)
    (hdepth : sh.depth + 8 = depth) (hmod : depth % 8 = 0) (hspot : spot.bytes = some bytes)
    (hproc : ∃ p, spot.scopes.findProcedure? name = some p ∧
      p.params.length ≤ Register.arguments.length) :
    ∃ defs, Stretch slots spot known defs sh code sh := by
  obtain ⟨c, rs, ls, there, back, h', hargs, -, -, -, hthere, -, hback, rfl, rfl⟩ := hc.parts
  obtain ⟨defs, hshaped⟩ := hargs.shaped hover known
  have hclear : Quiet clearInstr := quiet_of_setsPointer rfl rfl
  have hsaved : ∀ r ∈ Register.allocatable.filter h'.used, r ∈ Register.allocatable :=
    fun r hr => (List.mem_filter.mp hr).1
  exact ⟨_, ((hshaped.join (.quiet hover (quiet_moveCode hthere))).join
    ((Shaped.one hover hclear).join (shaped_savedCallCode hover hsaved hdepth hmod hspot hproc))).join
    (.quiet hover (quiet_moveCode hback))⟩

end Calls

/-! ### Scopes and jumps -/

/-- A label is one that a scope has for jumps from inside; there the frame of the scope is open. -/
def Known (scopes : ScopeStack) (l : Label) (sh : Shape) : Prop :=
  ∃ k scope, scopes[k]? = some scope ∧ (scope.startLabel = some l ∨ scope.endLabel = some l) ∧
    sh = shapeOf (scopes.drop k)

section Scopes

variable {scope : Scope} {scopes outer : ScopeStack} {l : Label} {sh : Shape}

theorem shapeOf_cons (h : scope.kind ≠ .entry) :
    shapeOf (scope :: outer) = (shapeOf outer).opened scope.localBytes := if_neg h

theorem known_cons : Known (scope :: outer) l sh ↔
    ((scope.startLabel = some l ∨ scope.endLabel = some l) ∧ sh = shapeOf (scope :: outer)) ∨
      Known outer l sh := by
  constructor
  · rintro ⟨k, scope', hk, hl, hsh⟩
    cases k with
    | zero =>
      obtain rfl := Option.some.inj hk
      exact .inl ⟨hl, hsh⟩
    | succ k => exact .inr ⟨k, scope', by simpa using hk, hl, by simpa using hsh⟩
  · rintro (⟨hl, hsh⟩ | ⟨k, scope', hk, hl, hsh⟩)
    · exact ⟨0, scope, rfl, hl, hsh⟩
    · exact ⟨k + 1, scope', by simpa using hk, hl, by simpa using hsh⟩

/-- The shape of some scopes has the bytes on the stack that they are meant to have. -/
theorem depth_shapeOf : ∀ {scopes : ScopeStack}, (shapeOf scopes).depth + 8 = depth scopes
  | [] => rfl
  | scope :: outer => by
    unfold shapeOf depth
    split
    · rfl
    · rw [← @depth_shapeOf outer]
      unfold Shape.opened
      split
      · simp only [Shape.depth, List.map_cons, List.sum_cons, Cell.size]
        omega
      · simp only [Shape.depth, List.map_cons, List.sum_cons, Cell.size]
        omega

theorem shapeOf_scopesAfter {st : Stmt} : shapeOf (scopesAfter st scopes) = shapeOf scopes := by
  cases scopes with
  | nil => rfl
  | cons scope outer =>
    obtain ⟨scope', heq, hkind, hbytes, -⟩ := scopesAfter_cases st scope outer
    rw [heq, shapeOf, shapeOf, hkind, hbytes]

theorem known_scopesAfter {st : Stmt} : Known (scopesAfter st scopes) l sh ↔ Known scopes l sh := by
  cases scopes with
  | nil => rfl
  | cons scope outer =>
    have hshape : shapeOf (scopesAfter st (scope :: outer)) = shapeOf (scope :: outer) :=
      shapeOf_scopesAfter
    obtain ⟨scope', heq, -, -, hstart, hend⟩ := scopesAfter_cases st scope outer
    rw [heq] at hshape ⊢
    rw [known_cons, known_cons, hstart, hend, hshape]

theorem size_pos {type : DataType} (h : type ≠ .void) : 0 < type.size := by
  cases type with
  | void => exact absurd rfl h
  | _ => decide

theorem mem_slots {x : Extent} {base : Nat} : x ∈ scope.vars.entries.filterMap (slot? base ·.2) ↔
    ∃ name v offset, scope.vars.get? name = some v ∧ v.storage = .stack offset ∧
      x = ⟨offset - base, v.type.size⟩ := by
  simp only [List.mem_filterMap, Prod.exists, Table.mem_entries_iff, slot?]
  refine exists₂_congr fun name v => ?_
  cases v.storage <;> simp [eq_comm]

/-- The links lead to the frame of a variable on the stack. -/
theorem Seated.locate {f : RegisterFile} {slots : Nat} {name : String} {v : Variable} {offset : Int}
    (h : Seated f slots scopes) (hv : scopes.findVariable? name = some v)
    (hstorage : v.storage = .stack offset) : v.type ≠ .void ∧ ∃ last : Nat,
      home? scopes name = some ⟨offset - last, v.type.size⟩ ∧
      (shapeOf scopes).Hops (scopes.stackHeight - v.stackHeight) last := by
  induction h with
  | entry _ hvars => simp [ScopeStack.findVariable?, hvars] at hv
  | @frame scope outer hframed houter ih =>
    rw [shapeOf_cons hframed.kind]
    cases hget : scope.vars.get? name with
    | some v' =>
      rw [findVariable?_cons_some hget] at hv
      obtain rfl := Option.some.inj hv
      have hzero : ScopeStack.stackHeight (scope :: outer) - v'.stackHeight = 0 := by
        rw [hframed.laid.height hget]
        exact Nat.sub_self _
      rw [hzero]
      exact ⟨hframed.laid.typed hget, depth outer, by simp [home?, slot?, hget, hstorage], _,
        Shape.base_opened, (Nat.add_comm ..).trans depth_shapeOf⟩
    | none =>
      rw [findVariable?_cons_none hget] at hv
      obtain ⟨htype, last, hhome, hhops⟩ := ih hv
      have hle := houter.height_le hv
      have hheight := hframed.height
      have hsucc : ScopeStack.stackHeight (scope :: outer) - v.stackHeight =
          outer.stackHeight - v.stackHeight + 1 := by
        show scope.stackHeight - v.stackHeight = _
        omega
      rw [hsucc]
      exact ⟨htype, last, by simp [home?, hget, hhome], hhops.opened⟩

theorem mem_slotsOf {name : String} {x : Extent} :
    ∀ {scopes : ScopeStack}, home? scopes name = some x → x ∈ slotsOf scopes
  | scope :: outer, h => by
    unfold home? at h
    split at h
    · next v hv =>
      exact List.mem_append_left _ (List.mem_filterMap.mpr ⟨(name, v), (Table.mem_entries_iff ..).mpr hv, h⟩)
    · exact List.mem_append_right _ (mem_slotsOf h)

/-- A variable lies in reserved bytes, or it is a parameter above the return address. -/
theorem Seated.clear {f : RegisterFile} {slots : Nat} {x : Extent} (h : Seated f slots scopes)
    (hx : x ∈ slotsOf scopes) :
    (shapeOf scopes).Clear x.place x.size ∧ x.place + x.size ≤ 8 + 8 * slots := by
  induction h with
  | entry _ hvars => simp [slotsOf, hvars, Table.empty] at hx
  | @frame scope outer hframed _ ih =>
    rw [shapeOf_cons hframed.kind]
    rcases List.mem_append.mp hx with hx | hx
    · obtain ⟨name, v, offset, hv, hst, rfl⟩ := mem_slots.mp hx
      have hsize := v.type.size_le_eight
      have hdepth := @depth_shapeOf outer
      rcases hframed.laid.stack hv hst with ⟨hlow, hhigh⟩ | ⟨hkind, i, hi, hoffset⟩
      · rw [← hdepth, Nat.add_comm]
        exact ⟨Shape.clear_opened hlow hhigh (size_pos (hframed.laid.typed hv)), by dsimp only; omega⟩
      · -- the frame of the procedure starts right below the return address
        rw [hframed.only hkind]
        exact ⟨.inl (by dsimp only; omega), by dsimp only; omega⟩
    · exact ⟨(ih hx).1.mono Shape.suffix_opened, (ih hx).2⟩

theorem Spot.Owns.clear {spot : Spot} {slots : Nat} {x : Extent} (h : spot.Owns slots x)
    (hover : spot.Over slots sh) : sh.Clear x.place x.size := by
  obtain ⟨st, name, -, -, ⟨f, hs⟩, hhome⟩ := h
  have hclear := (Seated.clear hs (mem_slotsOf hhome)).1
  rw [shapeOf_scopesAfter] at hclear
  exact hclear.mono hover.2

/-- A jump closes the frames up to the scope that has its label. -/
theorem shaped_jump {f : RegisterFile} {slots : Nat} {known : Label → Shape → Prop} {jump : Jump}
    {crossed : Nat} {target : Label} {out : Shape} : ∀ {scopes : ScopeStack} {k : Nat},
      Seated f slots scopes → (∀ l s, Known scopes l s → known l s) →
      ScopeStack.jumpTargetFrom jump k scopes = .ok (crossed, target) → ∃ d, crossed = k + d ∧
        Shaped slots known [] (shapeOf scopes) (epiloguesCode d ++ [.jmp target])
          (jumpSpots target scopes d) out
  | [], _, _, _, h => by cases h
  | scope :: outer, k, hs, hknown, h => by
    unfold ScopeStack.jumpTargetFrom at h
    cases hp : ScopeStack.passage jump scope with
    | target label =>
      rw [hp] at h
      cases label with
      | none => cases h
      | some label =>
        obtain ⟨rfl, rfl⟩ := Prod.mk.inj (Except.ok.inj h)
        refine ⟨0, rfl, .jump ⟨⟨f, hs⟩, List.suffix_rfl⟩ (hknown _ _ (known_cons.mpr (.inl ⟨?_, rfl⟩)))⟩
        unfold ScopeStack.passage at hp
        split at hp <;> simp_all
    | stop =>
      rw [hp] at h
      cases h
    | pass =>
      rw [hp] at h
      cases hs with
      | entry hkind _ =>
        unfold ScopeStack.passage at hp
        rw [hkind] at hp
        cases jump <;> cases hp
      | frame hframed houter =>
        obtain ⟨d, rfl, hshaped⟩ := shaped_jump houter
          (fun l s hl => hknown l s (known_cons.mpr (.inr hl))) (k := k + 1) h
        refine ⟨d + 1, by omega, ?_⟩
        have hclose : Stretch slots { scopes := outer } known [] _ epilogueCode (shapeOf outer) :=
          .epilogueCode ⟨⟨f, houter⟩, List.suffix_rfl⟩ scope.localBytes
        rw [shapeOf_cons hframed.kind]
        exact (hclose.append hshaped).cast (List.append_assoc ..) rfl

end Scopes

/-! ### Statements -/

section Statements

variable {options : Options} {pool : List String} {f : RegisterFile} {scopes : ScopeStack}
  {known : Label → Shape → Prop} {slots : Nat} {spot : Spot} {sh : Shape}

theorem shaped_note (hover : spot.Over slots sh) (options : Options) (text : String) :
    Stretch slots spot known [] sh (note options text) sh := by
  unfold note
  split
  · exact .one hover (quiet_of_setsPointer rfl rfl)
  · exact .nil

theorem mem_allocatable_of_view (hf : f.Lawful) {name : String} {place : Place}
    (h : view scopes f name = some place) :
    ∀ r, place.access = .register r → r ∈ Register.allocatable := by
  intro r hr
  obtain ⟨v, -, hv⟩ := Option.bind_eq_some_iff.mp h
  cases hst : v.storage with
  | stack offset =>
    rw [hst] at hv
    obtain rfl := Option.some.inj hv
    cases hr
  | register l =>
    rw [hst] at hv
    obtain ⟨q, hq, rfl⟩ := Option.map_eq_some_iff.mp hv
    obtain rfl := Access.register.inj hr
    obtain ⟨p, hslot⟩ := hf.held hq
    exact hf.allocatable hslot

/-- An assignment stores into its variable. -/
theorem owns_of_view (hs : Seated f slots scopes) {tag : Tag} {name : String} {value : Expr}
    {place : Place} (h : view scopes f name = some place) :
    ∀ out offset, place.access = .frame out offset → place.type ≠ .void ∧ ∃ last : Nat,
      (shapeOf scopes).Hops out last ∧ Spot.Owns { scopes, own := some (.assignment tag name value) } slots
        ⟨offset - last, place.type.size⟩ := by
  intro out offset haccess
  obtain ⟨v, hfind, hv⟩ := Option.bind_eq_some_iff.mp h
  cases hst : v.storage with
  | stack place' =>
    rw [hst] at hv
    obtain rfl := Option.some.inj hv
    obtain ⟨rfl, rfl⟩ := Access.frame.inj haccess
    obtain ⟨htype, last, hhome, hhops⟩ := Seated.locate hs hfind hst
    refine ⟨htype, last, hhops, .assignment tag name value, name, rfl, rfl, ?_⟩
    rw [scopesAfter_eq (by simp [Stmt.kind])]
    exact ⟨⟨f, hs⟩, hhome⟩
  | register l =>
    rw [hst] at hv
    obtain ⟨q, -, rfl⟩ := Option.map_eq_some_iff.mp hv
    cases haccess

/-- A declaration stores into the variable that it declares. -/
theorem owns_of_declaration {scope : Scope} {outer : ScopeStack} {tag : Tag} {name : String}
    {type : DataType} {init : Option Expr} {rest : List Stmt} {offset : Int} {inLoop : Bool}
    {names : List NameScope} (hs : Seated f slots (scope :: outer))
    (hwf : (Stmt.declaration tag name type init).WellFormed inLoop names)
    (hroom : HasRoom (scope :: outer) (.declaration tag name type init :: rest))
    (hoffset : scope.layout.get? tag.id = some offset) :
    ∃ last : Nat, (shapeOf (scope :: outer)).Hops 0 last ∧
      Spot.Owns { scopes := scope :: outer, own := some (.declaration tag name type init) } slots
        ⟨offset - last, type.size⟩ := by
  have hafter := hs.after hwf hroom
  obtain ⟨_, _, heq, hkind, -⟩ := hroom
  obtain ⟨rfl, rfl⟩ := List.cons.inj heq
  refine ⟨depth outer, ⟨_, ?_, (Nat.add_comm ..).trans depth_shapeOf⟩, _, name, rfl, rfl, ⟨f, hafter⟩, ?_⟩
  · rw [shapeOf_cons hkind, Shape.base_opened]
  · simp [home?, slot?, scopesAfter, get?_declared, storage_declared hoffset]
    rfl

/-- The code of a statement stands where the frames of its scopes are open. -/
theorem over_shapeOf {own : Option Stmt} {bytes : Option Nat} (h : Seated f slots scopes) :
    Spot.Over ⟨scopes, own, bytes⟩ slots (shapeOf scopes) :=
  ⟨⟨f, h⟩, List.suffix_rfl⟩

theorem shaped_jumpCode {jump : Jump} {crossed : Nat} {target : Label} {out : Shape}
    (hs : Seated f slots scopes) (h : scopes.jumpTarget jump = .ok (crossed, target))
    (hknown : ∀ l s, Known scopes l s → known l s) :
    Shaped slots known [] (shapeOf scopes) (epiloguesCode crossed ++ [.jmp target])
      (jumpSpots target scopes crossed) out := by
  obtain ⟨d, rfl, hshaped⟩ := shaped_jump hs hknown h
  rwa [Nat.zero_add]

/-- A frame around code that keeps the shape of the frame. -/
theorem shaped_framed {defs : List (Label × Shape)} {c : List Instr} {reserved : Nat} {ls : List Spot}
    (hover : Spot.Over { scopes } slots sh)
    (h : Shaped slots known defs (sh.opened reserved) c ls (sh.opened reserved)) :
    Shaped slots known ([] ++ defs ++ []) sh (framed reserved c) (framedSpots scopes reserved ls) sh :=
  (Shaped.append (.openCode hover reserved) h).append (.epilogueCode hover reserved)

/-- In a plain scope no label is known that was not known before. -/
theorem known_plain {body : List Stmt} (hknown : ∀ l s, Known scopes l s → known l s) :
    ∀ l s, Known (innerScope .plain scopes body :: scopes) l s → known l s := by
  intro l s h
  rcases known_cons.mp h with ⟨hl, -⟩ | h
  · rcases hl with hl | hl <;> cases hl
  · exact hknown l s h

theorem seated_plain {body : List Stmt} (h : Seated f slots scopes) :
    Seated f slots (innerScope .plain scopes body :: scopes) :=
  .frame (framed_innerScope (by decide) (by decide)) h

theorem hasRoom_plain {body : List Stmt} (h : ((Stmt.declarations body).map Prod.fst).Nodup) :
    HasRoom (innerScope .plain scopes body :: scopes) body :=
  ⟨_, _, rfl, by simp [innerScope, Scope.layOut], room_innerScope h⟩

theorem shapeOf_plain {body : List Stmt} : shapeOf (innerScope .plain scopes body :: scopes) =
    (shapeOf scopes).opened (innerScope .plain scopes body).localBytes :=
  shapeOf_cons (by simp [innerScope, Scope.layOut])

/-- A condition in front of a frame, which is skipped to a label behind it. -/
theorem shaped_branch {c₁ c₂ : List Instr} {ls : List Spot} {l : Label} {text : String}
    (hover : spot.Over slots sh)
    (h₁ : ∀ known : Label → Shape → Prop, known l sh → ∃ defs, Stretch slots spot known defs sh c₁ sh)
    (h₂ : ∀ known' : Label → Shape → Prop, (∀ l s, known l s → known' l s) →
      ∃ defs, Shaped slots known' defs sh c₂ ls sh) :
    ∃ defs, Shaped slots known defs sh (note options text ++ c₁ ++ c₂ ++ [.label l])
      (spots spot (note options text ++ c₁) ++ ls ++ spots spot [.label l]) sh := by
  let known' : Label → Shape → Prop := fun l' s => known l' s ∨ (l', s) ∈ [(l, sh)]
  obtain ⟨d₁, h₁⟩ := h₁ known' (.inr List.mem_cons_self)
  obtain ⟨d₂, h₂⟩ := h₂ known' fun l s h => .inl h
  exact ⟨_, ((((shaped_note hover options text).join h₁).append h₂).append (.label hover)).hide (by simp)⟩

/-- The same with a second side, to which the condition skips. -/
theorem shaped_branchElse {c₁ c₂ c₃ : List Instr} {ls₁ ls₂ : List Spot} {l l' : Label} {text : String}
    (hover : spot.Over slots sh)
    (h₁ : ∀ known : Label → Shape → Prop, known l sh → ∃ defs, Stretch slots spot known defs sh c₁ sh)
    (h₂ : ∀ known' : Label → Shape → Prop, (∀ l s, known l s → known' l s) →
      ∃ defs, Shaped slots known' defs sh c₂ ls₁ sh)
    (h₃ : ∀ known' : Label → Shape → Prop, (∀ l s, known l s → known' l s) →
      ∃ defs, Shaped slots known' defs sh c₃ ls₂ sh) :
    ∃ defs, Shaped slots known defs sh
      (note options text ++ c₁ ++ c₂ ++ .jmp l' :: .label l :: c₃ ++ [.label l'])
      (spots spot (note options text ++ c₁) ++ ls₁ ++ spots spot [.jmp l', .label l] ++ ls₂ ++
        spots spot [.label l']) sh := by
  let known' : Label → Shape → Prop := fun k s => known k s ∨ (k, s) ∈ [(l, sh), (l', sh)]
  obtain ⟨d₁, h₁⟩ := h₁ known' (.inr List.mem_cons_self)
  obtain ⟨d₂, h₂⟩ := h₂ known' fun l s h => .inl h
  obtain ⟨d₃, h₃⟩ := h₃ known' fun l s h => .inl h
  have hjump : Stretch slots spot known' [] sh [.jmp l'] sh := .jump hover (.inr (by simp))
  have hall := (((((shaped_note hover options text).join h₁).append h₂).append
    (hjump.join (.label hover (l := l)))).append h₃).append (.label hover (l := l'))
  exact ⟨_, (hall.hide (by simp)).cast (by simp) rfl⟩

/-- A loop: the frame of the body is open at the labels of continue and break, and closed at the head
and at the exit. -/
theorem shaped_loop {c₁ c₂ : List Instr} {ls : List Spot} {head start behind exit : Label}
    {reserved : Nat} {text : String} (hover : spot.Over slots sh)
    (h₁ : ∀ known : Label → Shape → Prop, known exit sh → ∃ defs, Stretch slots spot known defs sh c₁ sh)
    (h₂ : ∀ known' : Label → Shape → Prop, (∀ l s, known l s → known' l s) →
      known' start (sh.opened reserved) → known' behind (sh.opened reserved) →
      ∃ defs, Shaped slots known' defs (sh.opened reserved) c₂ ls (sh.opened reserved)) :
    ∃ defs, Shaped slots known defs sh
      (note options text ++ .label head :: c₁ ++ openCode reserved ++ c₂ ++
        .label start :: epilogueCode ++ .jmp head :: .label behind :: epilogueCode ++
        [.label exit])
      (spots spot (note options text ++ .label head :: c₁ ++ openCode reserved) ++ ls ++
        spots spot (.label start :: epilogueCode ++ .jmp head :: .label behind :: epilogueCode ++
          [.label exit])) sh := by
  let extra : List (Label × Shape) :=
    [(head, sh), (start, sh.opened reserved), (behind, sh.opened reserved), (exit, sh)]
  let known' : Label → Shape → Prop := fun k s => known k s ∨ (k, s) ∈ extra
  obtain ⟨d₁, h₁⟩ := h₁ known' (.inr (by simp [extra]))
  obtain ⟨d₂, h₂⟩ := h₂ known' (fun l s h => .inl h) (.inr (by simp [extra])) (.inr (by simp [extra]))
  have hin : spot.Over slots (sh.opened reserved) := hover.mono Shape.suffix_opened
  have hjump : Stretch slots spot known' [] sh [.jmp head] (sh.opened reserved) :=
    .jump hover (.inr (by simp [extra]))
  have hfront := ((shaped_note hover options text).join ((Shaped.label hover (l := head)).join h₁)).join
    (.openCode hover reserved)
  have hback := ((Shaped.label hin (l := start)).join (.epilogueCode hover reserved)).join hjump
  have hbreak := (hback.join (.label hin (l := behind))).join (.epilogueCode hover reserved)
  have hall := (hfront.append h₂).append (hbreak.join (.label hover (l := exit)))
  exact ⟨_, (hall.hide (by simp [extra])).cast (by simp) (by simp)⟩

mutual

/-- A statement ends with the stack as it began. -/
theorem StmtCode.shaped (hf : f.Lawful) : ∀ {scopes : ScopeStack} {st : Stmt} {n n' : Nat}
    {code : List Instr} {ls : List Spot}, StmtCode options pool f scopes st n code n' ls →
    ∀ {names : List NameScope} {inLoop : Bool} {rest : List Stmt}, Seated f slots scopes →
    st.WellFormed inLoop names → HasRoom scopes (st :: rest) →
    ∀ known : Label → Shape → Prop, (∀ l s, Known scopes l s → known l s) →
    ∃ defs, Shaped slots known defs (shapeOf scopes) code ls (shapeOf scopes)
  | scopes, _, _, _, _, _, .block h, _, _, _, hs, hwf, _, known, hknown => by
    obtain ⟨defs, hbody⟩ := h.shaped hf (seated_plain hs) hwf.2 (hasRoom_plain hwf.1) known
      (known_plain hknown)
    rw [shapeOf_plain] at hbody
    exact ⟨_, (shaped_note (over_shapeOf hs) _ _).append (shaped_framed (over_shapeOf hs) hbody)⟩
  | _, _, _, _, _, _, .procedure, _, _, _, _, _, _, _, _ => ⟨[], .nil⟩
  | _, _, _, _, _, _, .call hproc hcount h, _, _, _, hs, _, _, known, _ => by
    have hfew := h.few
    rw [List.length_zip, List.length_map, ← hcount, Nat.min_self] at hfew
    obtain ⟨defs, hc⟩ := h.shaped (over_shapeOf hs) known depth_shapeOf hs.depth_mod rfl
      ⟨_, hproc, hfew⟩
    exact ⟨_, (shaped_note (over_shapeOf hs) _ _).join hc⟩
  | _, _, _, _, _, _, @StmtCode.declaration _ _ _ _ _ _ _ _ none _ _ _ _ _ h, _, _, _, hs, _, _, _,
      _ => by
    obtain ⟨rfl, -⟩ := h
    exact ⟨_, (shaped_note (over_shapeOf hs) _ _).join .nil⟩
  | _, _, _, _, _, _, @StmtCode.declaration _ _ _ _ _ _ _ _ (some _) _ _ _ _ hoffset h, _, _, _, hs,
      hwf, hroom, known, _ => by
    obtain ⟨defs, hc⟩ := AssignCode.shaped h (over_shapeOf hs) known (fun r hr => by cases hr)
      fun out offset hframe => by
        obtain ⟨rfl, rfl⟩ := Access.frame.inj hframe
        exact ⟨hwf.1, owns_of_declaration hs hwf hroom hoffset⟩
    exact ⟨_, (shaped_note (over_shapeOf hs) _ _).join hc⟩
  | _, _, _, _, _, _, .assignment hplace h, _, _, _, hs, _, _, known, _ => by
    obtain ⟨defs, hc⟩ := h.shaped (over_shapeOf hs) known (mem_allocatable_of_view hf hplace)
      (owns_of_view hs hplace)
    exact ⟨_, (shaped_note (over_shapeOf hs) _ _).join hc⟩
  | scopes, _, _, _, _, _, .branch hskip hthen, _, _, _, hs, hwf, _, known, hknown => by
    refine shaped_branch (over_shapeOf hs) (fun known' hl => hskip.shaped (over_shapeOf hs) hl)
      fun known' hsub => ?_
    obtain ⟨defs, h⟩ := hthen.shaped hf (seated_plain hs) hwf.2.2.2 (hasRoom_plain hwf.2.2.1) known'
      fun l s hl => hsub l s (known_plain hknown l s hl)
    rw [shapeOf_plain] at h
    exact ⟨_, shaped_framed (over_shapeOf hs) h⟩
  | scopes, _, _, _, _, _, .branchElse hskip hthen helse, _, _, _, hs, hwf, hroom, known, hknown => by
    refine shaped_branchElse (over_shapeOf hs) (fun known' hl => hskip.shaped (over_shapeOf hs) hl)
      (fun known' hsub => ?_)
      fun known' hsub => helse.shaped hf hs hwf.2.2.2 (hroom.of_declarations rfl) known'
        fun l s hl => hsub l s (hknown l s hl)
    obtain ⟨defs, h⟩ := hthen.shaped hf (seated_plain hs) hwf.2.1.2.2 (hasRoom_plain hwf.2.1.2.1)
      known' fun l s hl => hsub l s (known_plain hknown l s hl)
    rw [shapeOf_plain] at h
    exact ⟨_, shaped_framed (over_shapeOf hs) h⟩
  | scopes, _, _, _, _, _, @StmtCode.loop _ _ _ _ _ _ _ body _ start behind _ _ _ _ _ _ _ _ hhead
      hstart hbehind hexit hscope hskip hbody, _, _, _, hs, hwf, _, known, hknown => by
    subst hscope
    have hframed : Framed f slots (loopScope scopes body start behind) scopes := framed_loopScope rfl
    refine shaped_loop (over_shapeOf hs) (fun known' hl => hskip.shaped (over_shapeOf hs) hl)
      fun known' hsub hstart hbehind => ?_
    have h := hbody.shaped hf (.frame hframed hs) hwf.2.2.2
      ⟨_, _, rfl, hframed.kind, room_loopScope hwf.2.2.1⟩ known' fun l s hl => ?_
    · rwa [shapeOf_cons (by simp [loopScope, innerScope, Scope.layOut])] at h
    · rw [known_cons, shapeOf_cons (by simp [loopScope, innerScope, Scope.layOut])] at hl
      rcases hl with ⟨hl | hl, rfl⟩ | hl
      · exact Option.some.inj hl ▸ hstart
      · exact Option.some.inj hl ▸ hbehind
      · exact hsub l s (hknown l s hl)
  | _, _, _, _, _, _, .continueLoop h, _, _, _, hs, _, _, known, hknown =>
    ⟨[], shaped_jumpCode hs h hknown⟩
  | _, _, _, _, _, _, .breakLoop h, _, _, _, hs, _, _, known, hknown =>
    ⟨[], shaped_jumpCode hs h hknown⟩
  | _, _, _, _, _, _, .giveBack h, _, _, _, hs, _, _, known, hknown => ⟨[], shaped_jumpCode hs h hknown⟩
  | scopes, _, _, _, _, _, .giveBackValue h _ hvalue, _, _, _, hs, _, _, known, hknown => by
    obtain ⟨defs, hc⟩ := (hvalue.shaped (over_shapeOf hs)).2 known
    exact ⟨_, (Shaped.append (hc.join (.one (over_shapeOf hs) (quiet_copy (.inr rfl))))
      (shaped_jumpCode hs h hknown)).cast (by simp) rfl⟩

theorem ElseCode.shaped (hf : f.Lawful) : ∀ {scopes : ScopeStack} {st : Stmt} {n n' : Nat}
    {code : List Instr} {ls : List Spot}, ElseCode options pool f scopes st n code n' ls →
    ∀ {names : List NameScope} {inLoop : Bool} {rest : List Stmt}, Seated f slots scopes →
    st.WellFormed inLoop names → HasRoom scopes rest →
    ∀ known : Label → Shape → Prop, (∀ l s, Known scopes l s → known l s) →
    ∃ defs, Shaped slots known defs (shapeOf scopes) code ls (shapeOf scopes)
  | _, _, _, _, _, _, .block h, _, _, _, hs, hwf, _, known, hknown => by
    obtain ⟨defs, hbody⟩ := h.shaped hf (seated_plain hs) hwf.2 (hasRoom_plain hwf.1) known
      (known_plain hknown)
    rw [shapeOf_plain] at hbody
    exact ⟨_, shaped_framed (over_shapeOf hs) hbody⟩
  | _, _, _, _, _, _, .branch h, _, _, _, hs, hwf, hroom, known, hknown =>
    h.shaped hf hs hwf (hroom.of_declarations rfl) known hknown

theorem StmtsCode.shaped (hf : f.Lawful) : ∀ {scopes : ScopeStack} {body : List Stmt} {n n' : Nat}
    {code : List Instr} {ls : List Spot}, StmtsCode options pool f scopes body n code n' ls →
    ∀ {names : List NameScope} {inLoop : Bool}, Seated f slots scopes →
    Stmt.AllWellFormed inLoop names body → HasRoom scopes body →
    ∀ known : Label → Shape → Prop, (∀ l s, Known scopes l s → known l s) →
    ∃ defs, Shaped slots known defs (shapeOf scopes) code ls (shapeOf scopes)
  | _, _, _, _, _, _, .nil, _, _, _, _, _, _, _ => ⟨[], .nil⟩
  | _, _, _, _, _, _, .cons h hrest, _, _, hs, hwf, hroom, known, hknown => by
    obtain ⟨d₁, h₁⟩ := h.shaped hf hs hwf.1 hroom known hknown
    obtain ⟨d₂, h₂⟩ := hrest.shaped hf (hs.after hwf.1 hroom) hwf.2 hroom.after known
      fun l s hl => hknown l s (known_scopesAfter.mp hl)
    rw [shapeOf_scopesAfter] at h₂
    exact ⟨_, h₁.append h₂⟩

end

end Statements

/-! ### Procedures -/

section Procedures

variable {options : Options} {pool : List String} {signature : Signature} {body : List Stmt}
  {scopes : ScopeStack} {n n' : Nat} {code : List Instr} {ls : List Spot}

/-- The scopes of a program: the one of the program itself, which has no frame, no labels and no
variables. -/
def Outermost (scopes : ScopeStack) : Prop :=
  ∃ scope, scopes = [scope] ∧ scope.kind = .entry ∧ scope.startLabel = none ∧ scope.endLabel = none ∧
    scope.vars = .empty

theorem Outermost.after (h : Outermost scopes) {tag : Tag} {b : Option Stmt} :
    Outermost (scopesAfter (.procedure tag signature b) scopes) := by
  obtain ⟨scope, rfl, h⟩ := h
  exact ⟨scope.declareProcedure signature.procedure, rfl, h⟩

theorem Outermost.over (h : Outermost scopes) {slots : Nat} : Spot.Over { scopes } slots .entry := by
  obtain ⟨scope, rfl, hkind, -, -, hvars⟩ := h
  exact ⟨⟨{}, .entry hkind hvars⟩, by simp [shapeOf, hkind]⟩

/-- The code of a procedure behind its entry: it comes with an open frame to the label of its end. -/
theorem ProcedureCode.shaped {names : List NameScope} (hscopes : Outermost scopes)
    (htypes : ∀ p ∈ signature.params, p.type ≠ .void)
    (hnodup : (signature.params.map (·.name)).Nodup)
    (hwf : Stmt.BodyWellFormed names signature body)
    (h : ProcedureCode options pool scopes signature body n code n' ls) :
    ∃ c ls' defs, code = .symbol signature.name :: c ∧ ls = { scopes } :: ls' ∧
      (∃ c', c = c' ++ [.ret]) ∧
      Shaped signature.stackSlots (fun _ _ => False) defs .entry c ls' .entry := by
  have hover := @hscopes.over _ signature.stackSlots
  obtain ⟨scope, rfl, hkind, hstart, hend, hvars⟩ := hscopes
  obtain ⟨first, f, c, ls', hpar, hbody, rfl, rfl⟩ := h
  have hdepth : depth [scope] = 8 := by rw [depth, if_pos hkind]
  have hframed := @framed_boundScope signature body [scope] first f
    ⟨n, signature.name ++ "_return"⟩ hnodup htypes hpar hdepth
  have hroom := @room_boundScope signature body [scope] first ⟨n, signature.name ++ "_return"⟩ hnodup
    hwf.1
  obtain ⟨bound, hbound⟩ : ∃ bound, bound = boundScope first signature [scope] body
      ⟨n, signature.name ++ "_return"⟩ := ⟨_, rfl⟩
  rw [← hbound] at hframed hroom
  rw [← boundScope, ← hbound] at hbody
  rw [boundScope_eq] at hbound
  obtain ⟨reserved, hreserved⟩ : ∃ reserved,
      reserved = (innerScope .procedure [scope] body).localBytes := ⟨_, rfl⟩
  have hshape : shapeOf (bound :: [scope]) = Shape.entry.opened reserved := by
    rw [shapeOf_cons hframed.kind, shapeOf, if_pos hkind, hbound, hreserved]
    rfl
  let known : Label → Shape → Prop := fun l s =>
    False ∨ (l, s) ∈ [(⟨n, signature.name ++ "_return"⟩, Shape.entry.opened reserved)]
  obtain ⟨defs, hshaped⟩ := hbody.shaped hpar.lawful (.frame hframed (.entry hkind hvars)) hwf.2
    ⟨_, _, rfl, hframed.kind, hroom⟩ known fun l s hl => by
      rw [known_cons, known_cons, hshape] at hl
      rcases hl with ⟨hl, rfl⟩ | ⟨hl, -⟩ | ⟨k, _, hk, -⟩
      · rw [hbound] at hl
        rcases hl with hl | hl
        · cases hl
        · exact .inr (by simp [(Option.some.inj hl).symm])
      · rw [hstart, hend] at hl
        rcases hl with hl | hl <;> cases hl
      · simp at hk
  rw [hshape] at hshaped
  have hclear : Quiet clearInstr := quiet_of_setsPointer rfl rfl
  have hin : Spot.Over { scopes := [scope] } signature.stackSlots (Shape.entry.opened reserved) :=
    hover.mono Shape.suffix_opened
  have hback := (((Shaped.one hin hclear).join (.label hin (l := ⟨n, signature.name ++ "_return"⟩))).join
    (.epilogueCode hover reserved)).join (@Shaped.ret _ _ known .entry hover)
  refine ⟨_, _, _, rfl, rfl, ⟨_, rfl⟩,
    (((Shaped.append (.openCode hover reserved) hshaped).append hback).hide (by simp)).cast ?_ ?_⟩
  · simp [hreserved]
  · simp [hreserved, spots]

theorem not_mem_procedures {names : List NameScope} {procs : List Stmt} {tag : Tag}
    {b : Option Stmt} (hwf : Stmt.ProceduresWellFormed names procs)
    (hmem : Stmt.procedure tag signature b ∈ procs) (hnames : names ≠ []) :
    signature.name ∉ (names.headD {}).procedures := by
  induction procs generalizing names with
  | nil => cases hmem
  | cons st rest ih =>
    obtain ⟨n, ns, rfl⟩ := List.exists_cons_of_ne_nil hnames
    rcases List.mem_cons.mp hmem with rfl | hmem
    · rcases hwf.1.shape with ⟨_, _, h⟩ | ⟨_, _, _, _, h⟩
      · obtain ⟨rfl, rfl, rfl⟩ := Stmt.procedure.inj h
        exact hwf.1.2
      · obtain ⟨rfl, rfl, rfl⟩ := Stmt.procedure.inj h
        exact hwf.1.2.1
    · intro hname
      refine ih hwf.2 hmem (by simp [Stmt.declareIn]) ?_
      show signature.name ∈ (st.declare n).procedures
      cases st <;> first | exact hname | exact List.mem_cons_of_mem _ hname

theorem block_of_mem_procedures {names : List NameScope} {procs : List Stmt} {tag : Tag}
    {b : Option Stmt} (hwf : Stmt.ProceduresWellFormed names procs)
    (hmem : Stmt.procedure tag signature b ∈ procs) (hext : signature.external = false) :
    ∃ bodyTag body, b = some (.block bodyTag body) := by
  induction procs generalizing names with
  | nil => cases hmem
  | cons st rest ih =>
    rcases List.mem_cons.mp hmem with rfl | hmem
    · rcases hwf.1.shape with ⟨_, _, h⟩ | ⟨_, _, bodyTag, body, h⟩
      · obtain ⟨rfl, rfl, rfl⟩ := Stmt.procedure.inj h
        exact absurd hwf.1.1 (by simp [hext])
      · obtain ⟨rfl, rfl, rfl⟩ := Stmt.procedure.inj h
        exact ⟨bodyTag, body, rfl⟩
    · exact ih hwf.2 hmem

theorem wellFormed_of_mem_procedures {signature : Signature} {tag bodyTag : Tag} {body : List Stmt} :
    ∀ {procs : List Stmt} {names : List NameScope}, Stmt.ProceduresWellFormed names procs →
      .procedure tag signature (some (.block bodyTag body)) ∈ procs →
      (∀ p ∈ signature.params, p.type ≠ .void) ∧ (signature.params.map (·.name)).Nodup ∧
        ∃ names, Stmt.BodyWellFormed names signature body
  | st :: rest, names, hwf, hmem => by
    rcases List.mem_cons.mp hmem with rfl | hmem
    · exact ⟨hwf.1.2.2.1, hwf.1.2.2.2.1, _, hwf.1.2.2.2.2⟩
    · exact wellFormed_of_mem_procedures hwf.2 hmem

/-- The code of a program has the code of each procedure in it, and its entry once. -/
theorem ProgramCode.procedure_of_mem {names : NameScope} {procs : List Stmt} {tag bodyTag : Tag}
    (h : ProgramCode options pool scopes procs n code n' ls) (hscopes : Outermost scopes)
    (hwf : Stmt.ProceduresWellFormed [names] procs)
    (hmem : .procedure tag signature (some (.block bodyTag body)) ∈ procs) :
    ∃ pre c post scopes' n₁ n₂ ls₁ ls₂ ls₃, code = pre ++ c ++ post ∧ .symbol signature.name ∉ pre ∧
      ls = ls₁ ++ ls₂ ++ ls₃ ∧ Recorded pre ls₁ ∧
      Outermost scopes' ∧ ProcedureCode options pool scopes' signature body n₁ c n₂ ls₂ := by
  induction h generalizing names with
  | nil => cases hmem
  | external _ ih =>
    rcases List.mem_cons.mp hmem with heq | hmem
    · cases heq
    · exact ih hscopes.after hwf.2 hmem
  | @procedure scopes tag' signature' bodyTag' body' rest n₁ c₁ n₂ c₂ n₃ ls ls' hext hproc hrest ih =>
    rcases List.mem_cons.mp hmem with heq | hmem
    · obtain ⟨rfl, rfl, hbody⟩ := Stmt.procedure.inj heq
      obtain ⟨rfl, rfl⟩ := Stmt.block.inj (Option.some.inj hbody)
      exact ⟨[.global signature.name], c₁, c₂, _, n₁, n₂, _, ls, ls', rfl, by simp, rfl, rfl,
        hscopes.after, hproc⟩
    · obtain ⟨pre, c, post, scopes', m₁, m₂, ls₁, ls₂, ls₃, rfl, hpre, rfl, hrec, hout, hcode⟩ :=
        ih hscopes.after hwf.2 hmem
      obtain ⟨htypes, hnodup, _, hbody⟩ := wellFormed_of_mem_procedures hwf List.mem_cons_self
      obtain ⟨c', ls', defs, rfl, hls, -, hshaped⟩ := hproc.shaped hscopes.after htypes hnodup hbody
      have htyped := hshaped.typed (fun _ _ => True) (fun _ _ _ => trivial) fun _ _ => trivial
      have hne : signature.name ≠ signature'.name := fun heq =>
        not_mem_procedures hwf.2 hmem (by simp [Stmt.declareIn]) (heq ▸ List.mem_cons_self)
      refine ⟨.global signature'.name :: (.symbol signature'.name :: c') ++ pre, c, post, scopes', m₁, m₂,
        spots { scopes } [.global signature'.name] ++ ls ++ ls₁, ls₂, ls₃, by simp, ?_, by simp, ?_, hout,
        hcode⟩
      · simp [hpre, htyped.not_symbol, hne]
      · simp [Recorded, hls, show _ = _ from hrec, show _ = _ from htyped.recorded, spots, Spot.of,
          Instr.isCall]

end Procedures

/-! ### Programs -/

section Programs

variable {options : Options} {source : String} {ast : Ast} {rootTag : Tag} {procs : List Stmt}

/-- Where a walk may be, with which shape and which pointer to a frame, such that every step leads to
such a place again.  There each instruction is disciplined, a label has its shape, and the instruction stands
at its spot. -/
structure Tracked (slots : Nat) (code : List Instr) (ls : List Spot) (Λ : Label → Shape → Prop)
    (T : Pointed → List Instr × Shape → Prop) : Prop where
  next : ∀ {k i rest sh sh'}, T k (i :: rest, sh) → sh.after i = some sh' →
    ∃ k', sh.Learns k i k' ∧ T k' (rest, sh')
  jump : ∀ {k i l rest sh position}, T k (i :: rest, sh) →
    (i = .jmp l ∨ ∃ condition, i = .jcc condition l) → target? l code = some position →
    T none (position, sh)
  disciplined : ∀ {k position sh}, T k (position, sh) → ∃ i rest, position = i :: rest ∧
    Disciplined code i sh ∧ (∀ l, i = .label l → Λ l sh) ∧
    ∃ done ls₁ spot ls₂, code = done ++ i :: rest ∧ ls = ls₁ ++ spot :: ls₂ ∧ Recorded done ls₁ ∧
      spot.Stands slots sh k i

/-- The ways from the entry of a procedure. -/
theorem ProgramCode.tracked {code : List Instr} {n : Nat} {pool : List String} {ls : List Spot}
    {tag bodyTag : Tag} {signature : Signature} {body : List Stmt}
    (h : ProgramCode options pool [entryScope] procs 0 code n ls)
    (hwf : Stmt.ProceduresWellFormed [{}] procs)
    (hmem : .procedure tag signature (some (.block bodyTag body)) ∈ procs) :
    ∃ (start : List Instr) (Λ : Label → Shape → Prop) (T : Pointed → List Instr × Shape → Prop),
      position? (.symbol signature.name) code = some start ∧ (∀ l sh sh', Λ l sh → Λ l sh' → sh = sh') ∧
      T none (start, .entry) ∧ Tracked signature.stackSlots code ls Λ T := by
  have hids := h.fresh.count_le_one
  obtain ⟨pre, _, post, scopes', n₁, n₂, ls₁, _, ls₃, rfl, hpre, rfl, hrec, hout, hcode⟩ :=
    h.procedure_of_mem ⟨entryScope, rfl, rfl, rfl, rfl, rfl⟩ hwf hmem
  obtain ⟨htypes, hnodup, _, hbody⟩ := wellFormed_of_mem_procedures hwf hmem
  obtain ⟨c, ls₂, defs, rfl, rfl, hlast, hshaped⟩ := hcode.shaped hout htypes hnodup hbody
  have hc : pre ++ .symbol signature.name :: c ++ post =
      (pre ++ [.symbol signature.name]) ++ c ++ post := by simp
  have hstart : position? (.symbol signature.name) (pre ++ .symbol signature.name :: c ++ post) =
      some (.symbol signature.name :: (c ++ post)) := by
    rw [List.append_assoc, List.cons_append]
    exact position?_append hpre
  rw [hc] at hids hstart ⊢
  have hcons := hshaped.consistent fun i => by
    have := hids i
    rw [labelIds_append, labelIds_append, List.count_append, List.count_append] at this
    omega
  have htyped := hshaped.typed (fun l s => (l, s) ∈ defs) (fun _ _ => False.elim) fun _ hp => hp
  have hfirst : OnTrack signature.stackSlots (fun l s => (l, s) ∈ defs) .entry c post ls₂ none
      (c ++ post, .entry) := by
    obtain ⟨c', rfl⟩ := hlast
    cases c' with
    | nil => exact ⟨[], .ret, [], [], ls₂, rfl, rfl, rfl, rfl, htyped⟩
    | cons i c' => exact ⟨[], i, c' ++ [Instr.ret], [], ls₂, rfl, rfl, rfl, rfl, htyped⟩
  -- the symbol itself is the only position that is not on the track
  refine ⟨_, fun l s => (l, s) ∈ defs, fun k s =>
    k = none ∧ s = (.symbol signature.name :: (c ++ post), .entry) ∨
      OnTrack signature.stackSlots (fun l s => (l, s) ∈ defs) .entry c post ls₂ k s,
    hstart, fun _ _ _ => hcons.unique, .inl ⟨rfl, rfl⟩, ?_, ?_, ?_⟩
  · rintro k i rest sh sh' (⟨rfl, heq⟩ | hon) ha
    · obtain ⟨hpos, rfl⟩ := Prod.mk.inj heq
      obtain ⟨rfl, rfl⟩ := List.cons.inj hpos
      obtain rfl := Option.some.inj ha
      exact ⟨none, .nothing, .inr hfirst⟩
    · obtain ⟨k', hlearns, hon'⟩ := hon.next hlast ha
      exact ⟨k', hlearns, .inr hon'⟩
  · rintro k i l rest sh position (⟨rfl, heq⟩ | hon) hi ht
    · obtain ⟨rfl, -⟩ := List.cons.inj (Prod.mk.inj heq).1
      rcases hi with hi | ⟨condition, hi⟩ <;> cases hi
    · exact .inr (OnTrack.jump hcons hids htyped hi hon ht)
  · rintro k position sh (⟨rfl, heq⟩ | hon)
    · obtain ⟨rfl, rfl⟩ := Prod.mk.inj heq
      exact ⟨_, _, rfl, ⟨_, rfl⟩, nofun, pre, ls₁, { scopes := scopes' }, ls₂ ++ ls₃, by simp, by simp, hrec,
        hout.over.stands (i := .symbol _) rfl rfl⟩
    · obtain ⟨i, rest, hpos, hdisc, hadm, done, ls, spot, ls', hdone, rfl, hrec', hstands⟩ :=
        hon.disciplined hcons hids htyped
      refine ⟨i, rest, hpos, hdisc, fun l hl => by rw [hl] at hadm; exact hadm,
        pre ++ .symbol signature.name :: done, ls₁ ++ { scopes := scopes' } :: ls, spot, ls' ++ ls₃,
        by simp [hdone], by simp, ?_, hstands⟩
      simp [Recorded, show _ = _ from hrec, show _ = _ from hrec', Instr.isCall]

theorem Tracked.walk {slots : Nat} {code : List Instr} {ls : List Spot} {Λ : Label → Shape → Prop}
    {T : Pointed → List Instr × Shape → Prop} {k : Pointed} {s s' : List Instr × Shape}
    (h : Tracked slots code ls Λ T) (hs : T k s) (hwalk : ShapeWalk code s s') : ∃ k', T k' s' := by
  induction hwalk with
  | refl => exact ⟨k, hs⟩
  | tail _ hstep ih =>
    obtain ⟨k', hs'⟩ := ih
    cases hstep with
    | next ha =>
      obtain ⟨k'', -, hs''⟩ := h.next hs' ha
      exact ⟨k'', hs''⟩
    | jump ht => exact ⟨none, h.jump hs' (.inl rfl) ht⟩
    | branch ht => exact ⟨none, h.jump hs' (.inr ⟨_, rfl⟩) ht⟩

/-- From the entry of a procedure every walk is disciplined, and comes to a label in one shape. -/
theorem ProgramCode.walk {code : List Instr} {n : Nat} {pool : List String} {ls : List Spot}
    {tag bodyTag : Tag} {signature : Signature} {body : List Stmt}
    (h : ProgramCode options pool [entryScope] procs 0 code n ls)
    (hwf : Stmt.ProceduresWellFormed [{}] procs)
    (hmem : .procedure tag signature (some (.block bodyTag body)) ∈ procs) :
    ∃ (start : List Instr) (Λ : Label → Shape → Prop),
      position? (.symbol signature.name) code = some start ∧
      (∀ l sh sh', Λ l sh → Λ l sh' → sh = sh') ∧
      ∀ position sh, ShapeWalk code (start, .entry) (position, sh) →
        ∃ i rest, position = i :: rest ∧ Disciplined code i sh ∧ ∀ l, i = .label l → Λ l sh := by
  obtain ⟨start, Λ, T, hstart, hunique, hfirst, htracked⟩ := h.tracked hwf hmem
  refine ⟨start, Λ, hstart, hunique, fun position sh hwalk => ?_⟩
  obtain ⟨k, hk⟩ := htracked.walk hfirst hwalk
  obtain ⟨i, rest, hpos, hdisc, hlabel, -⟩ := htracked.disciplined hk
  exact ⟨i, rest, hpos, hdisc, hlabel⟩

/-- On every way through a procedure from its entry, with each conditional jump taken either way, the
stack is kept in order.  No instruction breaks the discipline; a frame pointer is popped from the cell
that the frame pointer points to, where it was pushed when the frame was opened; any other register is
popped from the cell where it was saved; a return finds the stack and the frame pointer as at the entry;
and each label is come to in one shape only. -/
theorem stack_discipline {tokens : List Token} (hparse : parse tokens = .ok ast) {p : Program}
    (hgen : (generate options source ast).result = .ok p) :
    ∃ rootTag procs, ast.root = some (.block rootTag procs) ∧
      ∀ tag signature body, .procedure tag signature body ∈ procs → signature.external = false →
      ∃ start, position? (.symbol signature.name) p.code = some start ∧
        ∀ position sh, ShapeWalk p.code (start, .entry) (position, sh) →
          (∃ i rest, position = i :: rest ∧ Disciplined p.code i sh) ∧
          (∀ rest, position = .pop .rbp :: rest →
            ∃ base cells, sh.cells = .link base :: cells ∧ sh.base = some sh.depth ∧
              sh.after (.pop .rbp) = some ⟨cells, base⟩) ∧
          (∀ r rest, position = .pop r :: rest → r ≠ .rbp →
            ∃ cells, sh.cells = .saved r :: cells ∧ sh.after (.pop r) = some ⟨cells, sh.base⟩) ∧
          (∀ rest, position = .ret :: rest → sh = .entry) ∧
          ∀ l rest, position = .label l :: rest → ∀ rest' sh',
            ShapeWalk p.code (start, .entry) (.label l :: rest', sh') → sh' = sh := by
  obtain ⟨rootTag, procs, hroot, hwf⟩ := wellFormed_of_parse hparse
  obtain ⟨n, ls, -, hcode⟩ := programCode_of_generate hroot hwf hgen
  refine ⟨rootTag, procs, hroot, fun tag signature body hmem hext => ?_⟩
  obtain ⟨bodyTag, body, rfl⟩ := block_of_mem_procedures hwf hmem hext
  obtain ⟨start, Λ, hstart, hunique, hwalks⟩ := hcode.walk hwf hmem
  refine ⟨start, hstart, fun position sh hwalk => ?_⟩
  obtain ⟨i, rest, rfl, hdisc, hlabel⟩ := hwalks position sh hwalk
  refine ⟨⟨i, rest, rfl, hdisc⟩, ?_, ?_, ?_, ?_⟩
  · rintro rest' h
    obtain ⟨rfl, -⟩ := List.cons.inj h
    obtain ⟨sh', hafter⟩ := hdisc
    obtain ⟨base, cells, hcells, hbase, rfl⟩ := Shape.leave_eq_some hafter
    exact ⟨base, cells, hcells, hbase, hafter⟩
  · rintro r rest' h hr
    obtain ⟨rfl, -⟩ := List.cons.inj h
    obtain ⟨sh', hafter⟩ := hdisc
    obtain ⟨cells, hcells, rfl⟩ := Shape.restore_eq_some ((if_neg hr).symm.trans hafter)
    exact ⟨cells, hcells, hafter⟩
  · rintro rest' h
    obtain ⟨rfl, -⟩ := List.cons.inj h
    exact hdisc
  · rintro l rest' h rest'' sh' hwalk'
    obtain ⟨rfl, -⟩ := List.cons.inj h
    obtain ⟨i, _, h', -, hlabel'⟩ := hwalks _ _ hwalk'
    obtain ⟨rfl, -⟩ := List.cons.inj h'
    exact hunique l _ _ (hlabel' l rfl) (hlabel l rfl)

/-- This procedure leaves two frames and a loop in one jump, and finds the stack in order. -/
theorem stack_discipline_return : ∃ tokens ast p start,
    tokenize "t.mc" "int f(int a) \x7b while (a) \x7b int b = a; \x7b break; \x7d \x7d return a / 2; \x7d" =
      .ok tokens ∧ parse tokens = .ok ast ∧ (generate {} "t.mc" ast).result = .ok p ∧
    position? (.symbol "f") p.code = some start ∧
    ∀ rest sh, ShapeWalk p.code (start, .entry) (.ret :: rest, sh) → sh = .entry := by
  have hpasses : passes "t.mc"
      "int f(int a) \x7b while (a) \x7b int b = a; \x7b break; \x7d \x7d return a / 2; \x7d" (fun ast =>
      someProcedure (fun signature _ => signature.name == "f" && !signature.external) ast &&
        (generate {} "t.mc" ast).result.isOk) = true := by decide +kernel
  obtain ⟨tokens, ast, htokens, hparse, htest⟩ := exists_of_passes hpasses
  cases hgen : (generate {} "t.mc" ast).result with
  | error e => simp [hgen, Except.isOk, Except.toBool] at htest
  | ok p =>
    obtain ⟨rootTag, procs, hroot, hprocs⟩ := stack_discipline hparse hgen
    obtain ⟨tag, signature, bodyTag, stmts, hmem, hsignature⟩ :=
      exists_of_someProcedure (Bool.and_eq_true_iff.mp htest).1 hroot
    simp only [Bool.and_eq_true, beq_iff_eq, Bool.not_eq_true'] at hsignature
    obtain ⟨start, hstart, hwalks⟩ := hprocs tag signature _ hmem hsignature.2
    rw [hsignature.1] at hstart
    exact ⟨tokens, ast, p, start, htokens, hparse, hgen, hstart,
      fun rest sh hwalk => (hwalks _ _ hwalk).2.2.2.1 rest rfl⟩

end Programs

end Generation

end ProcLang

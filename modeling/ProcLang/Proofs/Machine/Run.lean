import ProcLang.Proofs.Asm.Label
import ProcLang.Proofs.Machine.State

/-!
Runs of the machine through code.

A position is the code from there on.  A step does one instruction; a jump goes to the one position of
its label.  What a called procedure does is not known: it keeps `rbp`, `rsp` and the memory from `rsp`
on, and everything else may be different behind a call.  The calls are put down, with the words in the
argument registers.

`Eventually` says that every run comes to a goal, whatever the called procedures do.  `Through` says
so for a piece of code that stands anywhere in the program and is left at its end.  `Around` also says
what holds at a call in the middle.
-/

namespace ProcLang

/-- A program in the machine: its code, and where its strings are. -/
structure Image where
  code : List Instr
  labels : String → Word

/-- A call: the name, and the words in the argument registers. -/
structure CallRecord where
  name : String
  args : List Word

/-- The machine at a position, with the calls so far. -/
structure Config where
  position : List Instr
  machine : Machine
  calls : List CallRecord

/-- What holds of the machine behind a call: `rbp` and `rsp` are as before, and so is the memory from
`rsp` on. -/
structure Machine.Returned (m m' : Machine) : Prop where
  rbp : m'.regs .rbp = m.regs .rbp
  rsp : m'.regs .rsp = m.regs .rsp
  mem : ∀ a : Int, (m.regs .rsp).toNat ≤ a → m'.mem a = m.mem a

namespace Image

/-- No number is given to two labels. -/
def Unique (P : Image) : Prop := ∀ i, (labelIds P.code).count i ≤ 1

theorem Unique.target? {P : Image} (h : P.Unique) {l : Label} (pre : List Instr) {post : List Instr}
    (hcode : P.code = pre ++ .label l :: post) :
    ProcLang.target? l P.code = some (.label l :: post) := by
  have hids := h
  rw [Unique, hcode] at hids
  rw [hcode]
  exact target?_append hids

/-- One step of the machine. -/
inductive Step (P : Image) : Config → Config → Prop
  | next {i rest m m' calls} : m.exec P.labels i = some m' →
      Step P ⟨i :: rest, m, calls⟩ ⟨rest, m', calls⟩
  | jump {l rest m calls position} : target? l P.code = some position →
      Step P ⟨.jmp l :: rest, m, calls⟩ ⟨position, m, calls⟩
  | taken {condition l rest m calls flags position} : m.flags = some flags →
      condition.holds flags = true → target? l P.code = some position →
      Step P ⟨.jcc condition l :: rest, m, calls⟩ ⟨position, m, calls⟩
  | passed {condition l rest m calls flags} : m.flags = some flags →
      condition.holds flags = false → Step P ⟨.jcc condition l :: rest, m, calls⟩ ⟨rest, m, calls⟩
  | call {name rest m m' calls} : m.Returned m' →
      Step P ⟨.call name :: rest, m, calls⟩
        ⟨rest, m', calls ++ [⟨name, Register.arguments.map m.regs⟩]⟩

/-- Every run comes to a goal. -/
inductive Eventually (P : Image) (goal : Config → Prop) : Config → Prop
  | now {k} : goal k → Eventually P goal k
  | step {k} : (∃ k', P.Step k k') → (∀ k', P.Step k k' → Eventually P goal k') → Eventually P goal k

namespace Eventually

variable {P : Image} {goal goal' : Config → Prop} {k : Config}

/-- From one goal to the next. -/
theorem trans (h : P.Eventually goal k) (hgoal : ∀ k', goal k' → P.Eventually goal' k') :
    P.Eventually goal' k := by
  induction h with
  | now h => exact hgoal _ h
  | step hex _ ih => exact .step hex ih

theorem mono (h : P.Eventually goal k) (hgoal : ∀ k', goal k' → goal' k') : P.Eventually goal' k :=
  h.trans fun _ hk => .now (hgoal _ hk)

variable {i : Instr} {rest position : List Instr} {m m' : Machine} {calls : List CallRecord} {l : Label}

theorem next (hexec : m.exec P.labels i = some m') (h : P.Eventually goal ⟨rest, m', calls⟩) :
    P.Eventually goal ⟨i :: rest, m, calls⟩ := by
  refine .step ⟨_, .next hexec⟩ fun k' hstep => ?_
  cases hstep with
  | next hexec' =>
    rw [hexec] at hexec'
    cases hexec'
    exact h
  | jump | taken | passed | call => cases hexec

theorem jump (htarget : target? l P.code = some position)
    (h : P.Eventually goal ⟨position, m, calls⟩) :
    P.Eventually goal ⟨.jmp l :: rest, m, calls⟩ := by
  refine .step ⟨_, .jump htarget⟩ fun k' hstep => ?_
  cases hstep with
  | next hexec => cases hexec
  | jump htarget' =>
    rw [htarget] at htarget'
    cases htarget'
    exact h

/-- A conditional jump, either way. -/
theorem branch {condition : Condition} {flags : Flags} (hflags : m.flags = some flags)
    (htarget : condition.holds flags = true → target? l P.code = some position)
    (htaken : condition.holds flags = true → P.Eventually goal ⟨position, m, calls⟩)
    (hpassed : condition.holds flags = false → P.Eventually goal ⟨rest, m, calls⟩) :
    P.Eventually goal ⟨.jcc condition l :: rest, m, calls⟩ := by
  cases hc : condition.holds flags with
  | true =>
    refine .step ⟨_, .taken hflags hc (htarget hc)⟩ fun k' hstep => ?_
    cases hstep with
    | next hexec => cases hexec
    | taken hflags' _ htarget' =>
      rw [htarget hc] at htarget'
      cases htarget'
      exact htaken hc
    | passed hflags' hc' =>
      rw [hflags] at hflags'
      cases hflags'
      rw [hc] at hc'
      cases hc'
  | false =>
    refine .step ⟨_, .passed hflags hc⟩ fun k' hstep => ?_
    cases hstep with
    | next hexec => cases hexec
    | taken hflags' hc' =>
      rw [hflags] at hflags'
      cases hflags'
      rw [hc] at hc'
      cases hc'
    | passed => exact hpassed hc

theorem call {name : String} (h : ∀ m', m.Returned m' →
      P.Eventually goal ⟨rest, m', calls ++ [⟨name, Register.arguments.map m.regs⟩]⟩) :
    P.Eventually goal ⟨.call name :: rest, m, calls⟩ := by
  refine .step ⟨_, .call ⟨rfl, rfl, fun _ _ => rfl⟩⟩ fun k' hstep => ?_
  cases hstep with
  | next hexec => cases hexec
  | call hreturned => exact h _ hreturned

end Eventually

/-! ### Pieces of code -/

/-- A piece of code, wherever it stands, comes to its end; `Q` holds there of the machine and of the
calls that were made on the way. -/
def Through (P : Image) (c : List Instr) (m : Machine) (Q : Machine → List CallRecord → Prop) : Prop :=
  ∀ pre post calls, P.code = pre ++ c ++ post →
    P.Eventually (fun k => k.position = post ∧ ∃ new, k.calls = calls ++ new ∧ Q k.machine new)
      ⟨c ++ post, m, calls⟩

/-- A piece of code comes to its end without a call. -/
def Straight (P : Image) (c : List Instr) (m : Machine) (Q : Machine → Prop) : Prop :=
  P.Through c m fun m' new => new = [] ∧ Q m'

section Pieces

variable {P : Image} {c c₁ c₂ : List Instr} {m m' : Machine} {i : Instr}

theorem Through.append {Q₁ Q : Machine → List CallRecord → Prop} (h₁ : P.Through c₁ m Q₁)
    (h₂ : ∀ m₁ new, Q₁ m₁ new → P.Through c₂ m₁ fun m₂ new' => Q m₂ (new ++ new')) :
    P.Through (c₁ ++ c₂) m Q := by
  intro pre post calls hcode
  have h := h₁ pre (c₂ ++ post) calls (by simpa using hcode)
  rw [List.append_assoc]
  refine h.trans fun k ⟨hpos, new, hcalls, hQ⟩ => ?_
  obtain ⟨position, m₁, calls₁⟩ := k
  obtain rfl : position = c₂ ++ post := hpos
  obtain rfl : calls₁ = calls ++ new := hcalls
  refine (h₂ m₁ new hQ (pre ++ c₁) post (calls ++ new) (by simpa using hcode)).mono ?_
  rintro k ⟨hpos, new', hcalls, hQ⟩
  exact ⟨hpos, new ++ new', by rw [hcalls, List.append_assoc], hQ⟩

theorem Through.mono {Q Q' : Machine → List CallRecord → Prop} (h : P.Through c m Q)
    (hQ : ∀ m' new, Q m' new → Q' m' new) : P.Through c m Q' := by
  intro pre post calls hcode
  refine (h pre post calls hcode).mono ?_
  rintro k ⟨hpos, new, hcalls, hk⟩
  exact ⟨hpos, new, hcalls, hQ _ _ hk⟩

namespace Straight

variable {Q Q₁ Q' : Machine → Prop}

theorem nil (h : Q m) : P.Straight [] m Q :=
  fun _ _ _ _ => .now ⟨rfl, [], (List.append_nil _).symm, rfl, h⟩

theorem mono (h : P.Straight c m Q) (hQ : ∀ m', Q m' → Q' m') : P.Straight c m Q' :=
  Through.mono h fun m' _ ⟨hnew, hm'⟩ => ⟨hnew, hQ m' hm'⟩

theorem append (h₁ : P.Straight c₁ m Q₁) (h₂ : ∀ m₁, Q₁ m₁ → P.Straight c₂ m₁ Q) :
    P.Straight (c₁ ++ c₂) m Q := by
  refine Through.append h₁ fun m₁ new ⟨hnew, hm₁⟩ => ?_
  subst hnew
  exact h₂ m₁ hm₁

theorem one (hexec : m.exec P.labels i = some m') (h : Q m') : P.Straight [i] m Q :=
  fun _ _ _ _ => .next hexec (.now ⟨rfl, [], (List.append_nil _).symm, rfl, h⟩)

theorem cons (hexec : m.exec P.labels i = some m') (h : P.Straight c m' Q) :
    P.Straight (i :: c) m Q := by
  have hone : P.Straight [i] m (· = m') := one hexec rfl
  exact hone.append fun _ hm => hm ▸ h

/-- A conditional jump over some code. -/
theorem skip {condition : Condition} {l : Label} {flags : Flags} (hunique : P.Unique)
    (hflags : m.flags = some flags) (htaken : condition.holds flags = true → Q m)
    (hpassed : condition.holds flags = false → P.Straight c m Q) :
    P.Straight (.jcc condition l :: c ++ [.label l]) m Q := by
  intro pre post calls hcode
  have htarget : target? l P.code = some (.label l :: post) :=
    hunique.target? (pre ++ .jcc condition l :: c) (by simpa using hcode)
  refine .branch hflags (fun _ => htarget) (fun h => ?_) fun h => ?_
  · exact .next rfl (.now ⟨rfl, [], (List.append_nil _).symm, rfl, htaken h⟩)
  · have hc : P.Straight (c ++ [.label l]) m Q := (hpassed h).append fun m₁ hm₁ => one rfl hm₁
    exact hc (pre ++ [.jcc condition l]) post calls (by simpa using hcode)

end Straight

/-- Code in front of a call and code behind it: the first comes to the call, and there `A` holds of the
machine; the second comes to its end from whatever the call leaves, and there `Q` holds. -/
def Around (P : Image) (front behind : List Instr) (m : Machine) (A Q : Machine → Prop) : Prop :=
  P.Straight front m fun m₁ => A m₁ ∧ ∀ m₂, m₁.Returned m₂ → P.Straight behind m₂ Q

namespace Around

variable {front behind : List Instr} {A Q R : Machine → Prop}

theorem call (hA : A m) (hQ : ∀ m', m.Returned m' → Q m') : P.Around [] [] m A Q :=
  .nil ⟨hA, fun m' hreturned => .nil (hQ m' hreturned)⟩

theorem before (hc : P.Straight c m R) (h : ∀ m₁, R m₁ → P.Around front behind m₁ A Q) :
    P.Around (c ++ front) behind m A Q :=
  hc.append h

theorem after (h : P.Around front behind m A R) (hc : ∀ m₁, R m₁ → P.Straight c m₁ Q) :
    P.Around front (behind ++ c) m A Q := by
  refine Straight.mono h fun m₁ hm₁ => ⟨hm₁.1, fun m₂ hreturned => ?_⟩
  exact (hm₁.2 m₂ hreturned).append hc

theorem mono {A' Q' : Machine → Prop} (h : P.Around front behind m A Q) (hA : ∀ m₁, A m₁ → A' m₁)
    (hQ : ∀ m₁, Q m₁ → Q' m₁) : P.Around front behind m A' Q' := by
  refine Straight.mono h fun m₁ hm₁ => ⟨hA m₁ hm₁.1, fun m₂ hreturned => ?_⟩
  exact (hm₁.2 m₂ hreturned).mono hQ

/-- With the call in the middle the code makes one call, from a machine of which `A` holds. -/
theorem through (h : P.Around front behind m A Q) (name : String) :
    P.Through (front ++ .call name :: behind) m fun m' new =>
      Q m' ∧ ∃ m₁, A m₁ ∧ new = [⟨name, Register.arguments.map m₁.regs⟩] := by
  unfold Around Straight at h
  refine h.append fun m₁ new hm₁ => ?_
  obtain ⟨rfl, hA, hbehind⟩ := hm₁
  intro pre post calls hcode
  refine .call fun m₂ hreturned => ?_
  refine (hbehind m₂ hreturned (pre ++ [.call name]) post _ (by simpa using hcode)).mono ?_
  rintro k ⟨hpos, new, hcalls, rfl, hQ⟩
  exact ⟨hpos, _, by simpa using hcalls, hQ, m₁, hA, rfl⟩

end Around

end Pieces

end Image

end ProcLang

import Mathlib.Logic.Relation
import ProcLang.Proofs.Machine.Run
import ProcLang.Proofs.Stack.Jump

/-!
What holds at every call of a run, whether the run ends or not.

`Guards` is the counterpart of `Through` for runs of any length.  It says of a piece of code that no
call on the way breaks a condition, if that holds of what follows: behind the end of the code, and
behind the labels that it jumps to.  The steps are counted, and a jump takes one; so a loop may rely
on its own head in all runs that are shorter, and no run has to come to an end.

The runs are those in which the stack pointer stays in the lower half of the addresses, so that the
stack does not wrap around.
-/

namespace ProcLang

/-- The stack pointer is in the lower half of the addresses. -/
def Machine.Low (m : Machine) : Prop := (m.regs .rsp).toNat < 2 ^ 63

namespace Image

/-- A step that keeps the stack pointer in the lower half of the addresses. -/
def LowStep (P : Image) (k k' : Config) : Prop := P.Step k k' ∧ k'.machine.Low

/-- A run that keeps the stack pointer in the lower half of the addresses. -/
abbrev LowRun (P : Image) : Config → Config → Prop := Relation.ReflTransGen P.LowStep

/-- If the next instruction is a call, the condition holds of the number of calls in the code before
it, of its name and of the machine. -/
def Admits (P : Image) (G : Nat → String → Machine → Prop) (k : Config) : Prop :=
  ∀ name rest, k.position = .call name :: rest →
    ∃ front, P.code = front ++ .call name :: rest ∧ G (front.countP Instr.isCall) name k.machine

/-- The condition on calls holds for a number of steps. -/
def SafeFor (P : Image) (G : Nat → String → Machine → Prop) : Nat → Config → Prop
  | 0, _ => True
  | n + 1, k => P.Admits G k ∧ ∀ k', P.LowStep k k' → SafeFor P G n k'

section Safe

variable {P : Image} {G : Nat → String → Machine → Prop} {k k' : Config} {n : Nat}

/-- What is safe for any number of steps is safe along every run. -/
theorem admits_of_safeFor (h : ∀ n, P.SafeFor G n k) (hrun : P.LowRun k k') : P.Admits G k' := by
  have hsafe : ∀ n, P.SafeFor G n k' := by
    induction hrun with
    | refl => exact h
    | tail _ hstep ih => exact fun n => (ih (n + 1)).2 _ hstep
  exact (hsafe 1).1

variable {i : Instr} {rest : List Instr} {m : Machine} {calls : List CallRecord} {l : Label}

theorem admits_of_isCall (h : i.isCall = false) : P.Admits G ⟨i :: rest, m, calls⟩ := by
  intro name rest' hposition
  obtain ⟨rfl, -⟩ := List.cons.inj hposition
  cases h

/-- An instruction that neither jumps nor calls. -/
theorem safeFor_next (hjump : i.jumpsTo? = none) (hcall : i.isCall = false)
    (h : ∀ m', m.exec P.labels i = some m' → m'.Low → P.SafeFor G n ⟨rest, m', calls⟩) :
    P.SafeFor G (n + 1) ⟨i :: rest, m, calls⟩ := by
  refine ⟨admits_of_isCall hcall, ?_⟩
  rintro k' ⟨hstep, hlow⟩
  cases hstep with
  | next hexec => exact h _ hexec hlow
  | jump | taken | passed => cases hjump
  | call => cases hcall

theorem safeFor_jump (h : ∀ position, target? l P.code = some position → m.Low →
      P.SafeFor G n ⟨position, m, calls⟩) : P.SafeFor G (n + 1) ⟨.jmp l :: rest, m, calls⟩ := by
  refine ⟨admits_of_isCall rfl, ?_⟩
  rintro k' ⟨hstep, hlow⟩
  cases hstep with
  | next hexec => cases hexec
  | jump htarget => exact h _ htarget hlow

theorem safeFor_branch {condition : Condition}
    (htaken : ∀ position, target? l P.code = some position → P.SafeFor G n ⟨position, m, calls⟩)
    (hpassed : P.SafeFor G n ⟨rest, m, calls⟩) :
    P.SafeFor G (n + 1) ⟨.jcc condition l :: rest, m, calls⟩ := by
  refine ⟨admits_of_isCall rfl, ?_⟩
  rintro k' ⟨hstep, -⟩
  cases hstep with
  | next hexec => cases hexec
  | taken _ _ htarget => exact htaken _ htarget
  | passed => exact hpassed

theorem safeFor_call {name : String} {front : List Instr} (hcode : P.code = front ++ .call name :: rest)
    (hG : G (front.countP Instr.isCall) name m)
    (h : ∀ m' calls', m.Returned m' → P.SafeFor G n ⟨rest, m', calls'⟩) :
    P.SafeFor G (n + 1) ⟨.call name :: rest, m, calls⟩ := by
  refine ⟨?_, ?_⟩
  · intro name' rest' hposition
    rw [← hposition]
    obtain ⟨hname, -⟩ := List.cons.inj hposition
    rw [← Instr.call.inj hname]
    exact ⟨front, hcode, hG⟩
  · rintro k' ⟨hstep, -⟩
    cases hstep with
    | next hexec => cases hexec
    | call hreturned => exact h _ _ hreturned

end Safe

/-! ### Pieces of code -/

/-- From a position on the run is safe in every machine of `Q`. -/
def SafeFrom (P : Image) (G : Nat → String → Machine → Prop) (n : Nat) (position : List Instr)
    (Q : Machine → Prop) : Prop :=
  ∀ m calls, Q m → P.SafeFor G n ⟨position, m, calls⟩

/-- The labels of `X` may be jumped to with machines of `R`, in fewer than `n` steps. -/
def ExitsSafe (P : Image) (G : Nat → String → Machine → Prop) (X : Label → Prop) (R : Machine → Prop)
    (n : Nat) : Prop :=
  ∀ l, X l → ∀ position, target? l P.code = some position → ∀ j < n, P.SafeFrom G j position R

/-- A piece of code, wherever it stands behind a number of calls, makes only calls that satisfy `G`.  It
is left at its end with a machine of `Q`, or by a jump to a label of `X` with a machine of `R`. -/
def Guards (P : Image) (G : Nat → String → Machine → Prop) (X : Label → Prop) (R : Machine → Prop)
    (before : Nat) (c : List Instr) (m : Machine) (Q : Machine → Prop) : Prop :=
  ∀ n pre post calls, P.code = pre ++ c ++ post → pre.countP Instr.isCall = before →
    (∀ j ≤ n, P.SafeFrom G j post Q) → P.ExitsSafe G X R n → P.SafeFor G n ⟨c ++ post, m, calls⟩

section Guards

variable {P : Image} {G : Nat → String → Machine → Prop} {X : Label → Prop} {R : Machine → Prop}
  {b : Nat} {c c₁ c₂ : List Instr} {m : Machine} {i : Instr} {Q Q₁ Q' : Machine → Prop}

theorem ExitsSafe.mono {n j : Nat} (h : P.ExitsSafe G X R n) (hle : j ≤ n) : P.ExitsSafe G X R j :=
  fun l hl position htarget i hi => h l hl position htarget i (by omega)

namespace Guards

theorem nil (h : Q m) : P.Guards G X R b [] m Q :=
  fun n _ _ calls _ _ hpost _ => hpost n (Nat.le_refl n) m calls h

theorem mono (h : P.Guards G X R b c m Q) (hQ : ∀ m', Q m' → Q' m') : P.Guards G X R b c m Q' :=
  fun n pre post calls hcode hb hpost hexits =>
    h n pre post calls hcode hb (fun j hj m' calls' hm' => hpost j hj m' calls' (hQ m' hm')) hexits

/-- More labels may be jumped to. -/
theorem exits {X' : Label → Prop} (h : P.Guards G X R b c m Q) (hX : ∀ l, X l → X' l) :
    P.Guards G X' R b c m Q :=
  fun n pre post calls hcode hb hpost hexits =>
    h n pre post calls hcode hb hpost fun l hl => hexits l (hX l hl)

theorem append (h₁ : P.Guards G X R b c₁ m Q₁)
    (h₂ : ∀ m₁, Q₁ m₁ → P.Guards G X R (b + c₁.countP Instr.isCall) c₂ m₁ Q) :
    P.Guards G X R b (c₁ ++ c₂) m Q := by
  intro n pre post calls hcode hb hpost hexits
  rw [List.append_assoc]
  refine h₁ n pre (c₂ ++ post) calls (by simpa using hcode) hb (fun j hj m₁ calls₁ hm₁ => ?_) hexits
  exact h₂ m₁ hm₁ j (pre ++ c₁) post calls₁ (by simpa using hcode)
    (by rw [List.countP_append, hb]) (fun i hi => hpost i (by omega)) (hexits.mono hj)

/-- Behind code without calls. -/
theorem behind (hfree : Generation.CallFree c₁) (h₁ : P.Guards G X R b c₁ m Q₁)
    (h₂ : ∀ m₁, Q₁ m₁ → P.Guards G X R b c₂ m₁ Q) : P.Guards G X R b (c₁ ++ c₂) m Q :=
  h₁.append (by rwa [hfree.countP_isCall])

theorem one (hjump : i.jumpsTo? = none) (hcall : i.isCall = false)
    (h : ∀ m', m.exec P.labels i = some m' → m'.Low → Q m') : P.Guards G X R b [i] m Q := by
  intro n pre post calls _ _ hpost _
  cases n with
  | zero => trivial
  | succ n =>
    exact safeFor_next hjump hcall fun m' hexec hlow => hpost n (by omega) m' calls (h m' hexec hlow)

theorem cons (hjump : i.jumpsTo? = none) (hcall : i.isCall = false)
    (h : ∀ m', m.exec P.labels i = some m' → m'.Low → P.Guards G X R b c m' Q) :
    P.Guards G X R b (i :: c) m Q := by
  have hone : P.Guards G X R b [i] m fun m' => P.Guards G X R b c m' Q := one hjump hcall h
  refine hone.append fun m' hm' => ?_
  rw [List.countP_singleton, hcall]
  exact hm'

/-- A jump to a label that may be jumped to. -/
theorem jump {l : Label} (hX : X l) (hR : R m) : P.Guards G X R b [.jmp l] m Q := by
  intro n pre post calls _ _ _ hexits
  cases n with
  | zero => trivial
  | succ n =>
    exact safeFor_jump fun position htarget _ =>
      hexits l hX position htarget n (Nat.lt_succ_self n) m calls hR

/-- A conditional jump to a label that may be jumped to. -/
theorem branch {condition : Condition} {l : Label} (hX : X l) (hR : R m) (hQ : Q m) :
    P.Guards G X R b [.jcc condition l] m Q := by
  intro n pre post calls _ _ hpost hexits
  cases n with
  | zero => trivial
  | succ n =>
    exact safeFor_branch
      (fun position htarget => hexits l hX position htarget n (Nat.lt_succ_self n) m calls hR)
      (hpost n (by omega) m calls hQ)

theorem call {name : String} (hG : G b name m) (h : ∀ m', m.Returned m' → Q m') :
    P.Guards G X R b [.call name] m Q := by
  intro n pre post calls hcode hb hpost _
  cases n with
  | zero => trivial
  | succ n =>
    exact safeFor_call (by simpa using hcode) (hb ▸ hG)
      fun m' calls' hreturned => hpost n (by omega) m' calls' (h m' hreturned)

/-- A conditional jump over some code. -/
theorem skip {condition : Condition} {l : Label} (hunique : P.Unique) (htaken : Q m)
    (hpassed : P.Guards G X R b c m Q) :
    P.Guards G X R b (.jcc condition l :: c ++ [.label l]) m Q := by
  intro n pre post calls hcode hb hpost hexits
  have htarget : target? l P.code = some (.label l :: post) :=
    hunique.target? (pre ++ .jcc condition l :: c) (by simpa using hcode)
  -- the label itself does nothing
  have hlabel : ∀ j ≤ n, ∀ m' calls', Q m' → P.SafeFor G j ⟨.label l :: post, m', calls'⟩ := by
    intro j hj m' calls' hm'
    cases j with
    | zero => trivial
    | succ j =>
      refine safeFor_next rfl rfl fun m'' hexec _ => hpost j (by omega) m'' calls' ?_
      obtain rfl := Option.some.inj hexec
      exact hm'
  cases n with
  | zero => trivial
  | succ n =>
    refine safeFor_branch (fun position htarget' => ?_) ?_
    · rw [htarget] at htarget'
      obtain rfl := Option.some.inj htarget'
      exact hlabel n (by omega) m calls htaken
    · have h := hpassed n (pre ++ [.jcc condition l]) (.label l :: post) calls (by simpa using hcode)
        (by simpa [Instr.isCall] using hb) (fun j hj m' calls' hm' => hlabel j (by omega) m' calls' hm')
        (hexits.mono (by omega))
      simpa using h

/-- Code may jump to labels of its own.  It is enough to look at the code behind each of them. -/
theorem labels {own : Label → Prop} (hunique : P.Unique)
    (hown : ∀ l, own l → ∃ c₁ c₂, c = c₁ ++ .label l :: c₂ ∧ ∀ m', R m' →
      P.Guards G (fun l => own l ∨ X l) R (b + c₁.countP Instr.isCall) (.label l :: c₂) m' Q)
    (h : P.Guards G (fun l => own l ∨ X l) R b c m Q) : P.Guards G X R b c m Q := by
  intro n pre post calls hcode hb hpost hexits
  -- by induction on the steps that are left, the labels may be jumped to
  have hall : ∀ j ≤ n, P.ExitsSafe G (fun l => own l ∨ X l) R j := by
    intro j
    induction j with
    | zero => exact fun _ l _ position _ j hj => absurd hj (Nat.not_lt_zero j)
    | succ j ih =>
      intro hj l hl position htarget k hk
      by_cases hkj : k < j
      · exact ih (by omega) l hl position htarget k hkj
      obtain rfl : k = j := by omega
      rcases hl with hl | hl
      · obtain ⟨c₁, c₂, rfl, hc₂⟩ := hown l hl
        have htarget' : target? l P.code = some (.label l :: (c₂ ++ post)) :=
          hunique.target? (pre ++ c₁) (by simpa using hcode)
        rw [htarget'] at htarget
        obtain rfl := Option.some.inj htarget
        intro m' calls' hm'
        exact hc₂ m' hm' k (pre ++ c₁) post calls' (by simpa using hcode)
          (by rw [List.countP_append, hb]) (fun i hi => hpost i (by omega)) (ih (by omega))
      · exact hexits l hl position htarget k (by omega)
  exact h n pre post calls hcode hb hpost (hall n (Nat.le_refl n))

end Guards

end Guards

end Image

end ProcLang

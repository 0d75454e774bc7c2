import ProcLang.Stage
import Mathlib.Tactic.Common

/-!
What a stage ensures.  `Ensures I E x s Q` says of the run of `x` from the state `s` that every mark
it leaves satisfies `I`, that an error with which it ends satisfies `E`, and that a value and the
last state satisfy `Q`.  There is one rule for each way to build a stage, and each rule is an
equivalence, so the statement about a composed stage can be rewritten into one about its parts.

A `Law` is for what holds of every run: of marks, errors and states, and of how the state changes.
-/

namespace ProcLang.Stage

variable {μ σ α β : Type} {I I' : μ → σ → Prop} {E E' : CompileError → Prop} {s : σ}

/-- The run of `x` from `s` leaves marks in `I` only and ends with an error in `E` or as `Q` says. -/
def Ensures (I : μ → σ → Prop) (E : CompileError → Prop) (x : Stage μ σ α) (s : σ)
    (Q : α → σ → Prop) : Prop :=
  (∀ p ∈ (x s).marks, I p.1 p.2) ∧
    match (x s).result with
    | .ok a => Q a (x s).state
    | .error e => E e

theorem Ensures.marks {x : Stage μ σ α} {Q : α → σ → Prop} (h : Ensures I E x s Q) {p : μ × σ}
    (hp : p ∈ (x s).marks) : I p.1 p.2 := h.1 p hp

theorem Ensures.error {x : Stage μ σ α} {Q : α → σ → Prop} (h : Ensures I E x s Q)
    {e : CompileError} (he : (x s).result = .error e) : E e := by
  have := h.2
  rwa [he] at this

theorem Ensures.value {x : Stage μ σ α} {Q : α → σ → Prop} (h : Ensures I E x s Q) {a : α}
    (ha : (x s).result = .ok a) : Q a (x s).state := by
  have := h.2
  rwa [ha] at this

theorem Ensures.mono {x : Stage μ σ α} {Q Q' : α → σ → Prop} (h : Ensures I E x s Q)
    (hQ : ∀ a s', Q a s' → Q' a s') : Ensures I E x s Q' := by
  refine ⟨h.1, ?_⟩
  have h2 := h.2
  split at h2 <;> simp_all

/-- Marks and errors may be told less exactly. -/
theorem Ensures.weaken {x : Stage μ σ α} {Q : α → σ → Prop} (h : Ensures I E x s Q)
    (hI : ∀ m s', I m s' → I' m s') (hE : ∀ e, E e → E' e) : Ensures I' E' x s Q := by
  refine ⟨fun p hp => hI _ _ (h.1 p hp), ?_⟩
  have h2 := h.2
  split at h2 <;> simp_all

/-- What two statements ensure holds together. -/
theorem Ensures.and {x : Stage μ σ α} {Q Q' : α → σ → Prop} (h : Ensures I E x s Q)
    (h' : Ensures I' E' x s Q') : Ensures I E x s fun a s' => Q a s' ∧ Q' a s' := by
  refine ⟨h.1, ?_⟩
  have h2 := h.2
  have h2' := h'.2
  split at h2 <;> simp_all

/-- What is ensured of a run depends on the run only. -/
theorem Ensures.of_eq {x y : Stage μ σ α} {Q : α → σ → Prop} (h : x s = y s) (hy : Ensures I E y s Q) :
    Ensures I E x s Q := by
  unfold Ensures
  rw [h]
  exact hy

/-- What holds of every value and every state. -/
theorem ensures_of_forall {x : Stage μ σ α} {Q : α → σ → Prop} (h : ∀ a s', Q a s') :
    Ensures (fun _ _ => True) (fun _ => True) x s Q := by
  refine ⟨fun _ _ => trivial, ?_⟩
  split
  · exact h _ _
  · trivial

section Rules

variable {Q : α → σ → Prop}

@[simp] theorem ensures_pure {a : α} : Ensures I E (pure a : Stage μ σ α) s Q ↔ Q a s := by
  simp [Ensures, pure]

@[simp] theorem ensures_return {a : α} : Ensures I E (Pure.pure a : Stage μ σ α) s Q ↔ Q a s :=
  ensures_pure

@[simp] theorem ensures_fail {e : CompileError} :
    Ensures I E (fail e : Stage μ σ α) s Q ↔ E e := by
  simp [Ensures, fail]

@[simp] theorem ensures_get {Q : σ → σ → Prop} :
    Ensures I E (get : Stage μ σ σ) s Q ↔ Q s s := by
  simp [Ensures, get]

@[simp] theorem ensures_modify {f : σ → σ} {Q : Unit → σ → Prop} :
    Ensures I E (modify f : Stage μ σ Unit) s Q ↔ Q () (f s) := by
  simp [Ensures, modify]

@[simp] theorem ensures_mark {m : μ} {Q : Unit → σ → Prop} :
    Ensures I E (mark m : Stage μ σ Unit) s Q ↔ I m s ∧ Q () s := by
  simp [Ensures, mark]

@[simp] theorem ensures_ofOption_none {e : CompileError} :
    Ensures I E (ofOption e none : Stage μ σ α) s Q ↔ E e := ensures_fail

theorem ensures_bind_eq {x : Stage μ σ α} {f : α → Stage μ σ β} {Q : β → σ → Prop} :
    Ensures I E (bind x f) s Q ↔ Ensures I E x s fun a s' => Ensures I E (f a) s' Q := by
  unfold Ensures bind
  rcases x s with ⟨marks, e | a, s'⟩
  · simp
  · simp only [List.mem_append]
    constructor
    · rintro ⟨hm, hQ⟩
      exact ⟨fun p hp => hm p (.inl hp), fun p hp => hm p (.inr hp), hQ⟩
    · rintro ⟨hm, hm', hQ⟩
      exact ⟨fun p hp => hp.elim (hm p) (hm' p), hQ⟩

@[simp] theorem ensures_bind {x : Stage μ σ α} {f : α → Stage μ σ β} {Q : β → σ → Prop} :
    Ensures I E (x >>= f) s Q ↔ Ensures I E x s fun a s' => Ensures I E (f a) s' Q :=
  ensures_bind_eq

@[simp] theorem ensures_map {x : Stage μ σ α} {f : α → β} {Q : β → σ → Prop} :
    Ensures I E (f <$> x) s Q ↔ Ensures I E x s fun a s' => Q (f a) s' := by
  rw [map_eq_pure_bind, ensures_bind]
  simp only [ensures_return]

end Rules

/-! ### What every run keeps -/

/-- What is asked of a stage in every run: of the states it is run in, the marks it leaves and the errors
it ends with, and of the changes of the state up to each mark and up to the end. -/
structure Law (μ σ : Type) where
  state : σ → Prop
  mark : μ → Prop
  error : CompileError → Prop
  change : σ → σ → Prop
  refl : ∀ s, change s s
  trans : ∀ {s t u}, change s t → change t u → change s u

namespace Law

variable {L : Law μ σ} {V : α → Prop} {W : β → Prop} {x y : Stage μ σ α} {f : α → Stage μ σ β}

/-- The stage keeps the law, and the values it gives are in `V`. -/
def Gives (L : Law μ σ) (V : α → Prop) (x : Stage μ σ α) : Prop :=
  ∀ s, L.state s → Ensures (fun m s' => L.mark m ∧ L.change s s') L.error x s fun a s' =>
    V a ∧ L.state s' ∧ L.change s s'

/-- The stage keeps the law. -/
abbrev Keeps (L : Law μ σ) (x : Stage μ σ α) : Prop := L.Gives (fun _ => True) x

namespace Gives

theorem pure {a : α} (h : V a) : L.Gives V (Pure.pure a : Stage μ σ α) :=
  fun s hs => ensures_return.mpr ⟨h, hs, L.refl s⟩

theorem fail {e : CompileError} (h : L.error e) : L.Gives V (Stage.fail e : Stage μ σ α) :=
  fun _ _ => ensures_fail.mpr h

theorem get : L.Gives L.state (Stage.get : Stage μ σ σ) :=
  fun s hs => ensures_get.mpr ⟨hs, hs, L.refl s⟩

theorem modify {f : σ → σ} (h : ∀ s, L.state s → L.state (f s) ∧ L.change s (f s)) :
    L.Keeps (Stage.modify f : Stage μ σ Unit) :=
  fun s hs => ensures_modify.mpr ⟨trivial, h s hs⟩

theorem mark {m : μ} (h : L.mark m) : L.Keeps (Stage.mark m : Stage μ σ Unit) :=
  fun s hs => ensures_mark.mpr ⟨⟨h, L.refl s⟩, trivial, hs, L.refl s⟩

/-- One stage behind another, whose values are known. -/
theorem given (hx : L.Gives V x) (hf : ∀ a, V a → L.Gives W (f a)) : L.Gives W (x >>= f) := by
  intro s hs
  refine ensures_bind.mpr ((hx s hs).mono fun a s' h => ?_)
  obtain ⟨ha, hs', hchange⟩ := h
  refine ((hf a ha s' hs').weaken (fun m t h' => ?_) fun _ => id).mono fun b s'' h' => ?_
  · exact ⟨h'.1, L.trans hchange h'.2⟩
  · exact ⟨h'.1, h'.2.1, L.trans hchange h'.2.2⟩

/-- One stage behind another. -/
theorem bind (hx : L.Gives V x) (hf : ∀ a, L.Gives W (f a)) : L.Gives W (x >>= f) :=
  given hx fun a _ => hf a

theorem keeps (hx : L.Gives V x) : L.Keeps x :=
  fun s hs => (hx s hs).mono fun _ _ h => ⟨trivial, h.2⟩

theorem ite {c : Prop} [Decidable c] (hx : L.Gives V x) (hy : L.Gives V y) :
    L.Gives V (if c then x else y) := by
  split
  · exact hx
  · exact hy

end Gives

end Law

end ProcLang.Stage

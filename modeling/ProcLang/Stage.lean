import ProcLang.Error

/-!
Stages of a compilation.  A stage works on a state, leaves marks behind it in order, and ends with
a value or an error; what it has marked and its last state stay known when it fails.  Each mark
keeps the state in which it was made, so that a run can be looked at as of any mark.
-/

namespace ProcLang

/-- What a stage leaves behind: its marks in order, how it ended, and its last state. -/
structure Outcome (μ σ α : Type) where
  marks : List (μ × σ)
  result : Except CompileError α
  state : σ

/-- A part of a compilation: marks `μ`, state `σ`, value `α`. -/
def Stage (μ σ α : Type) : Type := σ → Outcome μ σ α

namespace Stage

variable {μ σ α β γ : Type}

/-- The stage that gives a value and does nothing else. -/
def pure (a : α) : Stage μ σ α := fun s => ⟨[], .ok a, s⟩

/-- One stage after another; an error ends the whole. -/
def bind (x : Stage μ σ α) (f : α → Stage μ σ β) : Stage μ σ β := fun s =>
  match x s with
  | ⟨marks, .error e, s'⟩ => ⟨marks, .error e, s'⟩
  | ⟨marks, .ok a, s'⟩ =>
    let rest := f a s'
    ⟨marks ++ rest.marks, rest.result, rest.state⟩

instance : Monad (Stage μ σ) where
  pure := Stage.pure
  bind := Stage.bind

/-- Leave a mark. -/
def mark (m : μ) : Stage μ σ Unit := fun s => ⟨[(m, s)], .ok (), s⟩

/-- End with an error. -/
def fail (e : CompileError) : Stage μ σ α := fun s => ⟨[], .error e, s⟩

/-- The current state. -/
def get : Stage μ σ σ := fun s => ⟨[], .ok s, s⟩

/-- Change the state. -/
def modify (f : σ → σ) : Stage μ σ Unit := fun s => ⟨[], .ok (), f s⟩

/-- A value that must be there. -/
def ofOption (e : CompileError) : Option α → Stage μ σ α
  | some a => pure a
  | none => fail e

/-- A stage for every element of a list, in order. -/
def forEach (f : α → Stage μ σ Unit) : List α → Stage μ σ Unit
  | [] => pure ()
  | a :: rest => bind (f a) fun _ => forEach f rest

/-- A stage for every element of a list, in order, and the list of their values. -/
def traverse (f : α → Stage μ σ β) : List α → Stage μ σ (List β)
  | [] => pure []
  | a :: rest => bind (f a) fun b => bind (traverse f rest) fun bs => pure (b :: bs)

theorem bind_assoc (x : Stage μ σ α) (f : α → Stage μ σ β) (g : β → Stage μ σ γ) :
    bind (bind x f) g = bind x fun a => bind (f a) g := by
  funext s
  unfold bind
  rcases x s with ⟨marks, _ | a, s'⟩
  · rfl
  · dsimp only
    rcases f a s' with ⟨marks', _ | b, s''⟩
    · rfl
    · simp [List.append_assoc]

theorem bind_pure (x : Stage μ σ α) : bind x pure = x := by
  funext s
  unfold bind
  rcases x s with ⟨marks, _ | a, s'⟩
  · rfl
  · simp [pure]

instance : LawfulMonad (Stage μ σ) :=
  LawfulMonad.mk' _ (fun x => bind_pure x) (fun _ _ => rfl) fun x f g => bind_assoc x f g

end Stage

end ProcLang

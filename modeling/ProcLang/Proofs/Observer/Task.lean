import ProcLang.Proofs.Observer.Refusal

/-!
A compilation as a task: it tells events one after another, each time waits for the answer, and goes on
by it.  So it can be stopped between an event and its answer, which a function of an observer cannot.
To run the task under an observer is to compile under it (`run_compileTask`).
-/

namespace ProcLang

/-- A task that ends with a value, or tells an event and goes on by the answer to it. -/
inductive Task (α : Type) where
  | done (result : α)
  | tell (event : Event) (next : Option CompileError → Task α)

namespace Task

variable {α ω : Type} {o : Observer ω} {w : ω}

/-- The task under an observer. -/
def run (o : Observer ω) : Task α → ω → α × ω
  | done result, w => (result, w)
  | tell event next, w => run o (next (o.notify w event).1) (o.notify w event).2

/-- The events that are told if nobody objects. -/
def events : Task α → List Event
  | done _ => []
  | tell event next => event :: (next none).events

/-- The value if nobody objects. -/
def result : Task α → α
  | done result => result
  | tell _ next => (next none).result

/-- Tell events up to the first refusal. -/
def telling : List Event → (CompileError → Task α) → Task α → Task α
  | [], _, rest => rest
  | event :: events, refused, rest =>
    .tell event fun answer => answer.elim (telling events refused rest) refused

theorem run_telling (events : List Event) (refused : CompileError → Task α) (rest : Task α) :
    (telling events refused rest).run o w =
      match o.hear w events with
      | (some e, w) => (refused e).run o w
      | (none, w) => rest.run o w := by
  induction events generalizing w with
  | nil => rfl
  | cons event events ih =>
    rcases hnotify : o.notify w event with ⟨_ | e, w'⟩
    · simpa [telling, run, Observer.hear, hnotify] using ih
    · simp [telling, run, Observer.hear, hnotify]

theorem events_telling (events : List Event) (refused : CompileError → Task α) (rest : Task α) :
    (telling events refused rest).events = events ++ rest.events := by
  induction events with
  | nil => rfl
  | cons event events ih => exact congrArg (event :: ·) ih

theorem result_telling (events : List Event) (refused : CompileError → Task α) (rest : Task α) :
    (telling events refused rest).result = rest.result := by
  induction events with
  | nil => rfl
  | cons event events ih => exact ih

/-! ### Cancellation -/

/-- A task heeds a cancellation: it ends at once, with the cancellation as its value; or the cancelled
event is the report of an error, whose answer does not matter. -/
def Heeds : Task (Except CompileError α) → Prop
  | done _ => True
  | tell event next =>
    (event.mode ≠ .error → next (some .cancelled) = .done (.error .cancelled)) ∧
    (event.mode = .error → ∃ result, ∀ answer, next answer = .done result) ∧ (next none).Heeds

theorem heeds_telling {events : List Event} {refused : CompileError → Task (Except CompileError α)}
    {rest : Task (Except CompileError α)} (hevents : ∀ event ∈ events, event.mode ≠ .error)
    (hrefused : refused .cancelled = .done (.error .cancelled)) (hrest : rest.Heeds) :
    (telling events refused rest).Heeds := by
  induction events with
  | nil => exact hrest
  | cons event events ih =>
    exact ⟨fun _ => hrefused, fun h => absurd h (hevents event List.mem_cons_self),
      ih fun x hx => hevents x (List.mem_cons_of_mem event hx)⟩

end Task

/-! ### Compilation -/

section Compilation

variable {ω : Type} {o : Observer ω} {w : ω} {options : Options} {file source : String}

/-- Report an error, unless it is a cancellation, and end with it. -/
def failureTask (e : CompileError) : Task (Except CompileError String) :=
  if e = .cancelled then .done (.error e) else .tell (failureEvent e) fun _ => .done (.error e)

/-- Report that a text is finished, and end with it. -/
def finishedTask (file text : String) : Task (Except CompileError String) :=
  .tell (finishedEvent file) fun answer => .done (answer.elim (.ok text) .error)

/-- The end of a compilation. -/
def endingTask (options : Options) (file : String) :
    Except CompileError Program → Task (Except CompileError String)
  | .error e => failureTask e
  | .ok program => finishedTask file (program.text options)

/-- A compilation. -/
def compileTask (options : Options) (file source : String) : Task (Except CompileError String) :=
  .telling (assemblyScript options file source).events failureTask
    (endingTask options file (assemblyScript options file source).result)

theorem run_failureTask (e : CompileError) :
    (failureTask e).run o w = (.error e, reportFailure o w e) := by
  unfold failureTask reportFailure
  split <;> rfl

/-- **To compile under an observer is to run the task.** -/
theorem run_compileTask :
    (compileTask options file source).run o w = compile options file source o w := by
  unfold compileTask compile
  rw [assemble_eq_play, Script.play, Task.run_telling]
  rcases o.hear w (assemblyScript options file source).events with ⟨_ | e, w'⟩
  · dsimp only
    cases (assemblyScript options file source).result with
    | error e => exact run_failureTask e
    | ok program =>
      rcases hnotify : o.notify w' (finishedEvent file) with ⟨_ | e, w''⟩ <;>
        simp [endingTask, finishedTask, Task.run, hnotify]
  · exact run_failureTask e

theorem events_failureTask (e : CompileError) : (failureTask e).events = ending file (.error e) := by
  change _ = if e = .cancelled then [] else [failureEvent e]
  unfold failureTask
  split <;> rfl

theorem result_failureTask (e : CompileError) : (failureTask e).result = .error e := by
  unfold failureTask
  split <;> rfl

theorem events_compileTask :
    (compileTask options file source).events = transcript options file source := by
  unfold compileTask transcript
  rw [Task.events_telling]
  cases (assemblyScript options file source).result with
  | error e => exact congrArg _ (events_failureTask e)
  | ok program => rfl

theorem result_compileTask :
    (compileTask options file source).result = outcome options file source := by
  unfold compileTask outcome
  rw [Task.result_telling]
  cases (assemblyScript options file source).result with
  | error e => exact result_failureTask e
  | ok program => rfl

theorem heeds_failureTask (e : CompileError) : (failureTask e).Heeds := by
  unfold failureTask
  split
  · exact trivial
  · exact ⟨fun h => absurd rfl h, fun _ => ⟨.error e, fun _ => rfl⟩, trivial⟩

theorem heeds_compileTask : (compileTask options file source).Heeds := by
  refine Task.heeds_telling (fun event h => (mode_of_mem_assemblyScript h).1) rfl ?_
  cases (assemblyScript options file source).result with
  | error e => exact heeds_failureTask e
  | ok program =>
    refine ⟨fun _ => rfl, fun h => ?_, trivial⟩
    cases h

end Compilation

end ProcLang

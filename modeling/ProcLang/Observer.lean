import ProcLang.Event
import ProcLang.Stage

/-!
Observers of a compilation.  An observer sees the reports of a run one by one and may refuse one;
a refusal ends the run there.  It cannot change the run otherwise, so a run under an observer is a
run alone, walked along until the first refusal.
-/

namespace ProcLang

/-- An observer with a state: it is told an event, and refuses it with an error or lets it pass. -/
structure Observer (ω : Type) where
  notify : ω → Event → Option CompileError × ω

namespace Observer

variable {ω μ σ α : Type}

/-- Walk along the marks of a run up to the first refusal; it comes with the state of the run at
that mark.  `view` gives the event of a mark that is a report. -/
def follow (o : Observer ω) (view : μ → Option Event) :
    ω → List (μ × σ) → Option (CompileError × σ) × ω
  | w, [] => (none, w)
  | w, (m, s) :: rest =>
    match view m with
    | none => follow o view w rest
    | some event =>
      match o.notify w event with
      | (some e, w') => (some (e, s), w')
      | (none, w') => follow o view w' rest

/-- How a run ends under an observer, and in which state. -/
def watch (o : Observer ω) (view : μ → Option Event) (w : ω) (run : Outcome μ σ α) :
    (Except CompileError α × σ) × ω :=
  match o.follow view w run.marks with
  | (some (e, s), w') => ((.error e, s), w')
  | (none, w') => ((run.result, run.state), w')

/-- The observer that lets everything pass and remembers nothing. -/
def silent : Observer Unit := ⟨fun w _ => (none, w)⟩

/-- What a recorder has seen: the number of all events, and those it keeps. -/
structure Record where
  count : Nat := 0
  kept : Array Event := #[]
deriving DecidableEq, Inhabited

/-- The observer that keeps the events it is asked for, and may refuse one event, counted from 1,
with an error. -/
def recorder (keep : Event → Bool) (refusal : Option (Nat × CompileError)) : Observer Record where
  notify w event :=
    let count := w.count + 1
    let kept := if keep event then w.kept.push event else w.kept
    let answer := refusal.bind fun (n, e) => if n = count then some e else none
    (answer, { count := count, kept := kept })

end Observer

end ProcLang

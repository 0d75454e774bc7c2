import ProcLang.Compilation
import ProcLang.Proofs.Generation.Report
import ProcLang.Proofs.Parsing.Report
import ProcLang.Proofs.Token.Report

/-!
Refusals of an observer.  A compilation has a script: the events that it reports if nobody objects, and
how it ends then.  An observer hears the script up to its first refusal.  So a compilation under an
observer that refuses one event is the undisturbed one, cut behind this event; the refusal becomes the
result, and is reported like any other error.  The report of an error is the exception: its answer
does not matter.
-/

namespace ProcLang

namespace Observer

variable {ω μ σ α : Type} {o : Observer ω} {w : ω} {k : Nat} {e : CompileError}

/-! ### Hearing events -/

/-- The state of an observer that was told some events. -/
def told (o : Observer ω) (w : ω) (events : List Event) : ω :=
  events.foldl (fun w event => (o.notify w event).2) w

@[simp] theorem told_nil : o.told w [] = w := rfl

@[simp] theorem told_cons (event : Event) (events : List Event) :
    o.told w (event :: events) = o.told (o.notify w event).2 events := rfl

theorem told_append (events events' : List Event) :
    o.told w (events ++ events') = o.told (o.told w events) events' :=
  List.foldl_append

/-- Tell an observer events up to its first refusal. -/
def hear (o : Observer ω) : ω → List Event → Option CompileError × ω
  | w, [] => (none, w)
  | w, event :: rest =>
    match o.notify w event with
    | (some e, w') => (some e, w')
    | (none, w') => hear o w' rest

/-- The observer refuses the event before which it was told `k` others, and no other event. -/
def RefusesOnly (o : Observer ω) (w : ω) (k : Nat) (e : CompileError) : Prop :=
  ∀ events event, (o.notify (o.told w events) event).1 = if events.length = k then some e else none

theorem RefusesOnly.tail (h : o.RefusesOnly w (k + 1) e) (event : Event) :
    o.RefusesOnly (o.notify w event).2 k e := by
  intro events event'
  have h' := h (event :: events) event'
  simpa using h'

theorem hear_of_passive (h : o.Passive) (events : List Event) :
    o.hear w events = (none, o.told w events) := by
  induction events generalizing w with
  | nil => rfl
  | cons event events ih =>
    have hnone : o.notify w event = (none, (o.notify w event).2) := Prod.ext (h w event) rfl
    rw [hear, hnone, told_cons]
    exact ih

/-- To walk along the marks of a run is to hear its reports. -/
theorem follow_eq_hear (view : μ → Option Event) (marks : List (μ × σ)) :
    ((o.follow view w marks).1.map Prod.fst, (o.follow view w marks).2) =
      o.hear w (marks.filterMap fun p => view p.1) := by
  induction marks generalizing w with
  | nil => rfl
  | cons p marks ih =>
    obtain ⟨m, s⟩ := p
    cases hview : view m with
    | none => simpa [follow, hview] using ih
    | some event =>
      rcases hnotify : o.notify w event with ⟨_ | e', w'⟩
      · simpa [follow, hear, hview, hnotify] using ih
      · simp [follow, hear, hview, hnotify]

end Observer

/-! ### Scripts -/

/-- What a part of a compilation does if nobody objects: its reports in order, and how it ends. -/
structure Script (α : Type) where
  events : List Event
  result : Except CompileError α

namespace Script

variable {ω μ σ α β : Type} {o : Observer ω} {w : ω}

/-- The script of a run. -/
def ofRun (view : μ → Option Event) (run : Outcome μ σ α) : Script α :=
  ⟨run.marks.filterMap fun p => view p.1, run.result⟩

/-- One script after another; an error ends the whole. -/
def andThen (x : Script α) (f : α → Script β) : Script β :=
  match x.result with
  | .error e => ⟨x.events, .error e⟩
  | .ok a => ⟨x.events ++ (f a).events, (f a).result⟩

theorem andThen_error {x : Script α} {f : α → Script β} {e : CompileError} (h : x.result = .error e) :
    x.andThen f = ⟨x.events, .error e⟩ := by
  unfold andThen
  rw [h]

theorem andThen_ok {x : Script α} {f : α → Script β} {a : α} (h : x.result = .ok a) :
    x.andThen f = ⟨x.events ++ (f a).events, (f a).result⟩ := by
  unfold andThen
  rw [h]

theorem mem_andThen {x : Script α} {f : α → Script β} {event : Event}
    (h : event ∈ (x.andThen f).events) : event ∈ x.events ∨ ∃ a, event ∈ (f a).events := by
  unfold andThen at h
  split at h
  · exact .inl h
  · next a _ => exact (List.mem_append.mp h).imp_right fun h => ⟨a, h⟩

/-- A script under an observer: a refusal ends it. -/
def play (x : Script α) (o : Observer ω) (w : ω) : Except CompileError α × ω :=
  match o.hear w x.events with
  | (some e, w) => (.error e, w)
  | (none, w) => (x.result, w)

theorem hear_append (events events' : List Event) :
    o.hear w (events ++ events') =
      match o.hear w events with
      | (some e, w) => (some e, w)
      | (none, w) => o.hear w events' := by
  induction events generalizing w with
  | nil => rfl
  | cons event events ih =>
    rcases hnotify : o.notify w event with ⟨_ | e', w'⟩
    · simpa [Observer.hear, hnotify] using ih
    · simp [Observer.hear, hnotify]

theorem play_andThen (x : Script α) (f : α → Script β) :
    (x.andThen f).play o w =
      match x.play o w with
      | (.error e, w) => (.error e, w)
      | (.ok a, w) => (f a).play o w := by
  rcases x with ⟨events, e' | a⟩
  · unfold andThen play
    rcases o.hear w events with ⟨_ | e, w'⟩ <;> rfl
  · unfold andThen play
    simp only [hear_append]
    rcases o.hear w events with ⟨_ | e, w'⟩ <;> rfl

/-- A run under an observer plays its script. -/
theorem play_ofRun (view : μ → Option Event) (run : Outcome μ σ α) :
    (ofRun view run).play o w = ((o.watch view w run).1.1, (o.watch view w run).2) := by
  have h := @Observer.follow_eq_hear ω μ σ o w view run.marks
  unfold ofRun play Observer.watch
  rw [← h]
  rcases o.follow view w run.marks with ⟨_ | ⟨e, s⟩, w'⟩ <;> rfl

end Script

section Compilation

variable {ω : Type} {o : Observer ω} {w : ω} {options : Options} {file source : String}
  {k : Nat} {e : CompileError}

/-- The script of a compilation up to the assembler program. -/
def assemblyScript (options : Options) (file source : String) : Script Program :=
  (Script.ofRun some (tokenStage file source ())).andThen fun tokens =>
    (Script.ofRun some (Parsing.program (.ofTokens tokens))).andThen fun ast =>
      Script.ofRun Generation.Mark.event? (generate options file ast)

theorem assemble_eq_play :
    assemble options file source o w = (assemblyScript options file source).play o w := by
  rw [assemblyScript, Script.play_andThen, Script.play_ofRun, assemble]
  rcases o.watch some w (tokenStage file source ()) with ⟨⟨_ | tokens, _⟩, w₁⟩
  · rfl
  · dsimp only
    rw [Script.play_andThen, Script.play_ofRun]
    rcases o.watch some w₁ (Parsing.program (.ofTokens tokens)) with ⟨⟨_ | ast, _⟩, w₂⟩
    · rfl
    · dsimp only
      rw [Script.play_ofRun]
      rcases o.watch Generation.Mark.event? w₂ (generate options file ast) with ⟨⟨_ | p, _⟩, w₃⟩
      · rfl
      · rfl

/-- The report of the end of a compilation. -/
def ending (file : String) : Except CompileError Program → List Event
  | .ok _ => [finishedEvent file]
  | .error e => if e = .cancelled then [] else [failureEvent e]

/-- All reports of a compilation to which nobody objects. -/
def transcript (options : Options) (file source : String) : List Event :=
  (assemblyScript options file source).events ++ ending file (assemblyScript options file source).result

/-- The result of a compilation to which nobody objects. -/
def outcome (options : Options) (file source : String) : Except CompileError String :=
  (assemblyScript options file source).result.map (·.text options)

theorem reportFailure_eq_told : reportFailure o w e = o.told w (ending file (.error e)) := by
  change _ = o.told w (if e = .cancelled then [] else [failureEvent e])
  unfold reportFailure
  split <;> rfl

/-! ### The modes of the reports -/

/-- No report of the way to the assembler program is one of its end. -/
theorem mode_of_mem_assemblyScript {event : Event}
    (h : event ∈ (assemblyScript options file source).events) :
    event.mode ≠ .error ∧ event.mode ≠ .finished := by
  have hlexer : ∀ event ∈ (Script.ofRun some (tokenStage file source ())).events, event.mode = .lexer :=
    (reported_tokenStage file source).1.forall_mem fun _ _ h => h.mode
  have hparser : ∀ tokens, ∀ event ∈ (Script.ofRun some (Parsing.program (.ofTokens tokens))).events,
      event.mode = .parser := fun tokens =>
    (reported_program tokens).1.forall_mem fun _ _ h event hevent => (h.nodes event hevent).1
  have hcodegen : ∀ ast, ∀ event ∈ (Script.ofRun Generation.Mark.event? (generate options file ast)).events,
      event.mode = .codegen := fun ast =>
    (Generation.reported_generate options file ast).1.forall_mem fun _ _ h => h.mode
  have hmode : event.mode = .lexer ∨ event.mode = .parser ∨ event.mode = .codegen := by
    rcases Script.mem_andThen h with h | ⟨tokens, h⟩
    · exact .inl (hlexer event h)
    · rcases Script.mem_andThen h with h | ⟨ast, h⟩
      · exact .inr (.inl (hparser tokens event h))
      · exact .inr (.inr (hcodegen ast event h))
  rcases hmode with hmode | hmode | hmode <;> simp [hmode]

/-! ### Compilation under an observer -/

theorem compile_of_passive (h : o.Passive) :
    compile options file source o w =
      (outcome options file source, o.told w (transcript options file source)) := by
  unfold compile outcome transcript
  rw [assemble_eq_play, Script.play, Observer.hear_of_passive h, Observer.told_append]
  cases hresult : (assemblyScript options file source).result with
  | error e => exact Prod.ext rfl reportFailure_eq_told
  | ok p =>
    have hnone : ∀ w, o.notify w (finishedEvent file) = (none, (o.notify w (finishedEvent file)).2) :=
      fun w => Prod.ext (h w _) rfl
    dsimp only
    rw [hnone]
    rfl

/-- The observer, with the list of the events that it was told. -/
def Observer.traced (o : Observer ω) : Observer (ω × List Event) :=
  ⟨fun w event => ((o.notify w.1 event).1, (o.notify w.1 event).2, w.2 ++ [event])⟩

theorem Observer.told_traced (seen events : List Event) :
    o.traced.told (w, seen) events = (o.told w events, seen ++ events) := by
  induction events generalizing w seen with
  | nil => simp
  | cons event events ih =>
    have hstep : (o.traced.notify (w, seen) event).2 = ((o.notify w event).2, seen ++ [event]) := rfl
    rw [told_cons, told_cons, hstep, ih, List.append_assoc, List.singleton_append]

theorem Observer.Passive.traced (h : o.Passive) : o.traced.Passive := fun w event => h w.1 event

theorem Observer.RefusesOnly.traced (h : o.RefusesOnly w k e) (seen : List Event) :
    o.traced.RefusesOnly (w, seen) k e := by
  intro events event
  rw [told_traced]
  exact h events event

/-- The events that an observer is told in a compilation. -/
def eventsTold (options : Options) (file source : String) (o : Observer ω) (w : ω) : List Event :=
  (compile options file source o.traced (w, [])).2.2

theorem eventsTold_of_passive (h : o.Passive) :
    eventsTold options file source o w = transcript options file source := by
  rw [eventsTold, compile_of_passive h.traced, Observer.told_traced, List.nil_append]

theorem Observer.passive_recorder (keep : Event → Bool) : (recorder keep none).Passive :=
  fun _ _ => rfl

end Compilation

end ProcLang

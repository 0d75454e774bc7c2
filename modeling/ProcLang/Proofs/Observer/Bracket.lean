import ProcLang.Event
import ProcLang.Stage
import Mathlib.Data.List.Basic

/-!
Reports that are well bracketed: every start of a node has its end, and nodes lie within each other.
Such a sequence is followed event by event with the starts of the open nodes, the innermost first.  A
sequence that breaks off leaves some nodes open, and is well bracketed once these are closed.
-/

namespace ProcLang

/-- The starts and ends of nodes among the events are well bracketed, and each end matches its start. -/
inductive Bracketed (fits : Event → Event → Prop) : List Event → Prop
  | nil : Bracketed fits []
  | other {event : Event} {rest : List Event} : event.happening ≠ .nodeStart →
    event.happening ≠ .nodeEnd → Bracketed fits rest → Bracketed fits (event :: rest)
  | node {start stop : Event} {inner rest : List Event} : start.happening = .nodeStart →
    Bracketed fits inner → stop.happening = .nodeEnd → fits start stop → Bracketed fits rest →
    Bracketed fits (start :: inner ++ stop :: rest)

/-- The nodes that the ends among the events name. -/
def endIds (events : List Event) : List (Option NodeId) :=
  (events.filter (·.happening = .nodeEnd)).map (·.node)

/-! ### Blocks -/

/-- A part of the work that succeeds reports a whole block, one that fails the beginning of one. -/
def Reported {α : Type} (Whole : α → List Event → Prop) : Except CompileError α → List Event → Prop
  | .ok a, events => Whole a events
  | .error _, events => ∃ a rest, Whole a (events ++ rest)

/-- What holds of all reports of whole blocks holds of the beginnings of blocks. -/
theorem Reported.forall_mem {α : Type} {Whole : α → List Event → Prop} {P : Event → Prop}
    {result : Except CompileError α} {events : List Event} (h : Reported Whole result events)
    (hwhole : ∀ a events, Whole a events → ∀ event ∈ events, P event) : ∀ event ∈ events, P event := by
  cases result with
  | ok a => exact hwhole a events h
  | error e =>
    obtain ⟨a, rest, h⟩ := h
    exact fun event hevent => hwhole a _ h event (List.mem_append_left rest hevent)

/-! ### Event by event -/

/-- The events lead from some open nodes to others, where `n` is the number of nodes that have ended.
The `n`-th end must match the start of the innermost open node. -/
inductive Leads (fits : Nat → Event → Event → Prop) :
    List Event → Nat → List Event → List Event → Nat → Prop
  | nil {opened : List Event} {n : Nat} : Leads fits opened n [] opened n
  | start {opened opened' events : List Event} {n n' : Nat} {event : Event} :
    event.happening = .nodeStart → Leads fits (event :: opened) n events opened' n' →
    Leads fits opened n (event :: events) opened' n'
  | stop {opened opened' events : List Event} {n n' : Nat} {first event : Event} :
    event.happening = .nodeEnd → fits n first event → Leads fits opened (n + 1) events opened' n' →
    Leads fits (first :: opened) n (event :: events) opened' n'
  | other {opened opened' events : List Event} {n n' : Nat} {event : Event} :
    event.happening ≠ .nodeStart → event.happening ≠ .nodeEnd →
    Leads fits opened n events opened' n' → Leads fits opened n (event :: events) opened' n'

section Leads

variable {fits : Nat → Event → Event → Prop} {opened opened' opened'' events events' : List Event}
  {n n' n'' : Nat}

theorem Leads.append (h : Leads fits opened n events opened' n')
    (h' : Leads fits opened' n' events' opened'' n'') :
    Leads fits opened n (events ++ events') opened'' n'' := by
  induction h with
  | nil => exact h'
  | start hstart _ ih => exact .start hstart (ih h')
  | stop hstop hfits _ ih => exact .stop hstop hfits (ih h')
  | other hstart hstop _ ih => exact .other hstart hstop (ih h')

theorem leads_of_forall (h : ∀ event ∈ events, event.happening ≠ .nodeStart ∧ event.happening ≠ .nodeEnd) :
    Leads fits opened n events opened n := by
  induction events with
  | nil => exact .nil
  | cons event events ih =>
    have hevent := h event List.mem_cons_self
    exact .other hevent.1 hevent.2 (ih fun e he => h e (List.mem_cons_of_mem event he))

/-- The events end the open nodes one by one, with well bracketed events in between. -/
def Closing (fits : Event → Event → Prop) : List Event → List Event → Prop
  | [], events => Bracketed fits events
  | start :: opened, events => ∃ inner stop rest, events = inner ++ stop :: rest ∧
    Bracketed fits inner ∧ stop.happening = .nodeEnd ∧ fits start stop ∧ Closing fits opened rest

/-- What may stand before the events that end the open nodes, if it may stand before well bracketed
ones. -/
theorem Closing.extend {fits : Event → Event → Prop} (before : List Event)
    (hbefore : ∀ inner, Bracketed fits inner → Bracketed fits (before ++ inner))
    (h : Closing fits opened events) : Closing fits opened (before ++ events) := by
  cases opened with
  | nil => exact hbefore events h
  | cons start opened =>
    obtain ⟨inner, stop, rest, rfl, hinner, hrest⟩ := h
    exact ⟨before ++ inner, stop, rest, (List.append_assoc ..).symm, hbefore inner hinner, hrest⟩

theorem Leads.closing {matching : Event → Event → Prop}
    (hfits : ∀ n start stop, fits n start stop → matching start stop)
    (h : Leads fits opened n events opened' n') : opened' = [] → Closing matching opened events := by
  induction h with
  | nil =>
    rintro rfl
    exact .nil
  | @start opened opened' events n n' event hstart _ ih =>
    intro hclosed
    obtain ⟨inner, stop, rest, rfl, hinner, hstop, hmatch, hrest⟩ := ih hclosed
    have hextend := hrest.extend (event :: inner ++ [stop]) fun more hmore => by
      have hnode := Bracketed.node hstart hinner hstop hmatch hmore
      simpa using hnode
    simpa using hextend
  | stop hstop hfit _ ih => exact fun hclosed => ⟨[], _, _, rfl, .nil, hstop, hfits _ _ _ hfit, ih hclosed⟩
  | @other opened opened' events n n' event hstart hstop _ ih =>
    intro hclosed
    exact (ih hclosed).extend [event] fun _ hmore => .other hstart hstop hmore

/-- Events behind which no node is open are well bracketed. -/
theorem Leads.bracketed {matching : Event → Event → Prop}
    (hfits : ∀ n start stop, fits n start stop → matching start stop)
    (h : Leads fits [] n events [] n') : Bracketed matching events := h.closing hfits rfl

/-- If ends must be numbered, they are. -/
theorem Leads.endIds_eq (hfits : ∀ n start stop, fits n start stop → stop.node = some n)
    (h : Leads fits opened n events opened' n') :
    n ≤ n' ∧ endIds events = (List.range' n (n' - n)).map some := by
  induction h with
  | @nil opened n => exact ⟨Nat.le_refl n, by simp [endIds]⟩
  | start hstart _ ih => exact ⟨ih.1, by simpa [endIds, hstart] using ih.2⟩
  | @stop opened opened' events n n' first event hstop hfit _ ih =>
    obtain ⟨hle, hids⟩ := ih
    have hlength : n' - n = n' - (n + 1) + 1 := by omega
    refine ⟨by omega, ?_⟩
    rw [hlength, List.range'_succ, List.map_cons, ← hids]
    simp [endIds, hstop, hfits n first event hfit]
  | other hstart hstop _ ih => exact ⟨ih.1, by simpa [endIds, hstop] using ih.2⟩

/-- Open nodes can be closed. -/
theorem exists_leads_nil {P : Event → Prop}
    (h : ∀ n start, ∃ stop : Event, P stop ∧ stop.happening = .nodeEnd ∧ fits n start stop) :
    ∀ (opened : List Event) (n : Nat),
      ∃ events n', (∀ event ∈ events, P event) ∧ Leads fits opened n events [] n'
  | [], n => ⟨[], n, fun _ hmem => absurd hmem List.not_mem_nil, .nil⟩
  | start :: opened, n => by
    obtain ⟨stop, hP, hstop, hfits⟩ := h n start
    obtain ⟨events, n', hevents, hleads⟩ := exists_leads_nil h opened (n + 1)
    exact ⟨stop :: events, n', List.forall_mem_cons.mpr ⟨hP, hevents⟩, .stop hstop hfits hleads⟩

end Leads

/-! ### The reports of a stage -/

namespace Stage

variable {μ σ α β : Type} {view : μ → Option Event} {fits : Nat → Event → Event → Prop}
  {x : Stage μ σ α} {f : α → Stage μ σ β} {s : σ} {opened : List Event} {n : Nat}

/-- The reports of the run of `x` from `s` lead from some open nodes to others; if the run succeeds,
its value and state and these nodes are as `Q` says. -/
def Nests (view : μ → Option Event) (fits : Nat → Event → Event → Prop) (x : Stage μ σ α) (s : σ)
    (opened : List Event) (n : Nat) (Q : α → σ → List Event → Nat → Prop) : Prop :=
  ∃ opened' n', Leads fits opened n ((x s).marks.filterMap fun p => view p.1) opened' n' ∧
    ∀ a, (x s).result = .ok a → Q a (x s).state opened' n'

theorem nests_bind {Q : β → σ → List Event → Nat → Prop}
    (h : Nests view fits x s opened n fun a s' opened' n' => Nests view fits (f a) s' opened' n' Q) :
    Nests view fits (x >>= f) s opened n Q := by
  obtain ⟨opened', n', hleads, hvalue⟩ := h
  change Nests view fits (bind x f) s opened n Q
  unfold Nests bind
  rcases hrun : x s with ⟨marks, e | a, s'⟩
  · rw [hrun] at hleads
    exact ⟨opened', n', hleads, fun a ha => by cases ha⟩
  · rw [hrun] at hleads hvalue
    obtain ⟨opened'', n'', hleads', hvalue'⟩ := hvalue a rfl
    dsimp only
    rw [List.filterMap_append]
    exact ⟨opened'', n'', hleads.append hleads', hvalue'⟩

/-- A run without reports of nodes. -/
theorem nests_of_forall {Q : α → σ → List Event → Nat → Prop}
    (hmarks : ∀ p ∈ (x s).marks, ∀ event, view p.1 = some event →
      event.happening ≠ .nodeStart ∧ event.happening ≠ .nodeEnd)
    (hvalue : ∀ a, (x s).result = .ok a → Q a (x s).state opened n) : Nests view fits x s opened n Q := by
  refine ⟨opened, n, leads_of_forall fun event hevent => ?_, hvalue⟩
  obtain ⟨p, hp, hsome⟩ := List.mem_filterMap.mp hevent
  exact hmarks p hp event hsome

theorem nests_start {m : μ} {event : Event} {Q : Unit → σ → List Event → Nat → Prop}
    (hview : view m = some event) (hstart : event.happening = .nodeStart)
    (h : Q () s (event :: opened) n) : Nests view fits (mark m) s opened n Q := by
  refine ⟨event :: opened, n, ?_, fun _ _ => h⟩
  simp only [mark, List.filterMap_cons, hview, List.filterMap_nil]
  exact .start hstart .nil

theorem nests_stop {m : μ} {first event : Event} {Q : Unit → σ → List Event → Nat → Prop}
    (hview : view m = some event) (hstop : event.happening = .nodeEnd) (hfits : fits n first event)
    (h : Q () s opened (n + 1)) : Nests view fits (mark m) s (first :: opened) n Q := by
  refine ⟨opened, n + 1, ?_, fun _ _ => h⟩
  simp only [mark, List.filterMap_cons, hview, List.filterMap_nil]
  exact .stop hstop hfits .nil

end Stage

end ProcLang

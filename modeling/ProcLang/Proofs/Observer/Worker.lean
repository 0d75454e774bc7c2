import ProcLang.Observer.Handshake
import ProcLang.Proofs.Observer.Task

/-!
A worker that compiles and a consumer that takes its events, move by move and in any order.

A notification of the worker takes several moves, and the consumer may move between any two of them: the
worker looks at the flag, puts the event into the channel, and waits for an acknowledgement; when a wait
runs out it looks at the flag again.  The consumer receives, acknowledges each event at most once, raises
the flag or goes away.  The flag may also be raised when the consumer is gone, by whoever has its token.

Main statement: whatever the order of the moves, the consumer sees the first events of the undisturbed
compilation, the channel never overflows, a raised flag lets at most one more event through, and a refusal
ends the work (`worker_handshake`).  A consumer that only receives and acknowledges sees the work to its
end.
-/

namespace ProcLang

/-- The task of a worker. -/
abbrev Work := Task (Except CompileError String)

/-- Where a worker is. -/
inductive Phase where
  /-- It has an event to tell, and is about to look at the flag. -/
  | checking (event : Event) (next : Option CompileError → Work)
  /-- The flag was down; it is about to put the event into the channel. -/
  | sending (event : Event) (next : Option CompileError → Work)
  /-- The event is published; it waits for an acknowledgement. -/
  | waiting (event : Event) (next : Option CompileError → Work)
  /-- A wait ran out; it is about to look at the flag again. -/
  | polling (event : Event) (next : Option CompileError → Work)
  /-- It is gone. -/
  | ended (result : Except CompileError String)

/-- The events that the worker will publish without another look at the flag. -/
def Phase.committed : Phase → Nat
  | sending .. => 1
  | _ => 0

/-- The moves of a worker and a consumer. -/
inductive Move where
  | check
  | send
  | take
  | timeout
  | poll
  | receive
  | acknowledge
  | cancel
  | drop
deriving DecidableEq

/-- The worker only waits on. -/
def Move.isIdle : Move → Bool
  | timeout | poll => true
  | _ => false

/-- The consumer stops the worker. -/
def Move.stops : Move → Bool
  | cancel | drop => true
  | _ => false

/-- A worker and a consumer, with what has happened so far. -/
structure System where
  worker : Phase
  link : Handshake := {}
  /-- The events put into the channel, in order. -/
  published : List Event := []
  /-- The events that the consumer received, in order. -/
  received : List Event := []
  /-- The acknowledgements that the consumer has sent. -/
  acknowledged : Nat := 0
  /-- The acknowledgements that the worker has taken. -/
  taken : Nat := 0
  /-- The event of a notification that failed. -/
  refused : Option Event := none

namespace System

/-- The worker goes on with a task; at its end it goes away. -/
def resume (s : System) : Work → System
  | .done result => { s with worker := .ended result, link := s.link.dropWorker }
  | .tell event next => { s with worker := .checking event next }

/-- The notification of an event fails. -/
def refuse (s : System) (event : Event) (next : Option CompileError → Work) : System :=
  { s with refused := some event }.resume (next (some .cancelled))

/-- An event is put into the channel. -/
def publish (s : System) (event : Event) (next : Option CompileError → Work) : System :=
  { s with
    worker := .waiting event next
    link := { s.link with channel := some event }
    published := s.published ++ [event] }

/-- The notification of an event succeeds, with an acknowledgement. -/
def accept (s : System) (next : Option CompileError → Work) : System :=
  { s with link := { s.link with acks := s.link.acks - 1 }, taken := s.taken + 1 }.resume (next none)

/-- A worker that is about to compile, and its consumer. -/
def start (options : Options) (file source : String) : System :=
  { worker := .ended (.error .cancelled) : System }.resume (compileTask options file source)

/-- One move. -/
inductive Step : System → Move → System → Prop
  | pass {s event next} : s.worker = .checking event next → s.link.cancelled = false →
    Step s .check { s with worker := .sending event next }
  | stop {s event next} : s.worker = .checking event next → s.link.cancelled = true →
    Step s .check (s.refuse event next)
  | send {s event next} : s.worker = .sending event next → s.link.consumer = true →
    s.link.channel = none → Step s .send (s.publish event next)
  | gone {s event next} : s.worker = .sending event next → s.link.consumer = false →
    Step s .send (s.refuse event next)
  | take {s event next} : s.worker = .waiting event next → 0 < s.link.acks →
    Step s .take (s.accept next)
  | lost {s event next} : s.worker = .waiting event next → s.link.acks = 0 →
    s.link.consumer = false → Step s .take (s.refuse event next)
  | timeout {s event next} : s.worker = .waiting event next → s.link.acks = 0 →
    s.link.consumer = true → Step s .timeout { s with worker := .polling event next }
  | again {s event next} : s.worker = .polling event next → s.link.cancelled = false →
    Step s .poll { s with worker := .waiting event next }
  | halt {s event next} : s.worker = .polling event next → s.link.cancelled = true →
    Step s .poll (s.refuse event next)
  | receive {s event} : s.link.consumer = true → s.link.channel = some event →
    Step s .receive
      { s with link := { s.link with channel := none }, received := s.received ++ [event] }
  | acknowledge {s} : s.link.consumer = true → s.acknowledged < s.received.length →
    Step s .acknowledge
      { s with link := s.link.acknowledge, acknowledged := s.acknowledged + 1 }
  | cancel {s} : Step s .cancel { s with link := s.link.cancel }
  | drop {s} : s.link.consumer = true → Step s .drop { s with link := s.link.dropConsumer }

/-- Moves one after another. -/
inductive Run (s : System) : List Move → System → Prop
  | nil : Run s [] s
  | snoc {moves s' m s''} : Run s moves s' → Step s' m s'' → Run s (moves ++ [m]) s''

variable {s s' : System} {m : Move} {event : Event} {next : Option CompileError → Work}

theorem Step.run (h : Step s m s') : Run s [m] s' := Run.snoc .nil h

theorem Run.trans {s'' : System} {moves moves' : List Move} (h : Run s moves s')
    (h' : Run s' moves' s'') : Run s (moves ++ moves') s'' := by
  induction h' with
  | nil => rwa [List.append_nil]
  | snoc _ hstep ih =>
    rw [← List.append_assoc]
    exact ih.snoc hstep

/-! ### To go on with a task -/

@[simp] theorem resume_published (t : Work) : (s.resume t).published = s.published := by cases t <;> rfl
@[simp] theorem resume_received (t : Work) : (s.resume t).received = s.received := by cases t <;> rfl
@[simp] theorem resume_taken (t : Work) : (s.resume t).taken = s.taken := by cases t <;> rfl
@[simp] theorem resume_refused (t : Work) : (s.resume t).refused = s.refused := by cases t <;> rfl
@[simp] theorem resume_acknowledged (t : Work) : (s.resume t).acknowledged = s.acknowledged := by
  cases t <;> rfl
@[simp] theorem resume_channel (t : Work) : (s.resume t).link.channel = s.link.channel := by
  cases t <;> rfl
@[simp] theorem resume_acks (t : Work) : (s.resume t).link.acks = s.link.acks := by cases t <;> rfl
@[simp] theorem resume_cancelled (t : Work) : (s.resume t).link.cancelled = s.link.cancelled := by
  cases t <;> rfl
@[simp] theorem resume_committed (t : Work) : (s.resume t).worker.committed = 0 := by cases t <;> rfl
@[simp] theorem resume_consumer (t : Work) : (s.resume t).link.consumer = s.link.consumer := by
  cases t <;> rfl

/-! ### The invariant -/

/-- The channels: what is published is received or in the channel, and what is acknowledged is taken or
under way.  No event is acknowledged before it is received. -/
structure Balanced (s : System) : Prop where
  events : s.published = s.received ++ s.link.channel.toList
  acks : s.link.acks + s.taken = s.acknowledged
  acknowledged : s.acknowledged ≤ s.received.length

/-- A task is what remains of an undisturbed one, of which some events are published. -/
structure Remains (E : List Event) (R : Except CompileError String) (published : List Event)
    (t : Work) : Prop where
  events : E = published ++ t.events
  result : t.result = R
  heeds : t.Heeds

/-- How a worker ended: undisturbed, or by a refusal. -/
inductive Over (E : List Event) (R : Except CompileError String) (published : List Event)
    (taken : Nat) : Option Event → Except CompileError String → Prop
  | finished : published = E → published.length = taken → Over E R published taken none R
  | cancelled {event : Event} : event.mode ≠ .error →
    Over E R published taken (some event) (.error .cancelled)
  | reported {event : Event} : event.mode = .error → E.getLast? = some event →
    Over E R published taken (some event) R

/-- Where the worker is in the undisturbed task.  While an event waits for its answer, one more event is
published than answers are taken. -/
def Located (E : List Event) (R : Except CompileError String) (s : System) : Prop :=
  match s.worker with
  | .checking event next | .sending event next =>
    s.refused = none ∧ s.published.length = s.taken ∧ Remains E R s.published (.tell event next)
  | .waiting event next | .polling event next =>
    s.refused = none ∧ s.published.length = s.taken + 1 ∧
      ∃ before, s.published = before ++ [event] ∧ Remains E R before (.tell event next)
  | .ended result =>
    s.link.worker = false ∧ s.published <+: E ∧ s.published.length ≤ s.taken + 1 ∧
      Over E R s.published s.taken s.refused result

/-- What holds in every state of a worker and its consumer. -/
structure Invariant (E : List Event) (R : Except CompileError String) (s : System) : Prop where
  balanced : s.Balanced
  located : s.Located E R

section Invariant

variable {E : List Event} {R : Except CompileError String}

theorem Remains.advance {published : List Event} (h : Remains E R published (.tell event next)) :
    Remains E R (published ++ [event]) (next none) where
  events := by rw [h.events, Task.events, List.append_assoc, List.singleton_append]
  result := h.result
  heeds := h.heeds.2.2

/-- An acknowledged event lets the worker go on with what remains. -/
theorem located_resume {t : Work} (hrefused : s.refused = none)
    (hlength : s.published.length = s.taken) (h : Remains E R s.published t) :
    (s.resume t).Located E R := by
  cases t with
  | tell event next => exact ⟨hrefused, hlength, h⟩
  | done result =>
    have hE : s.published = E := by rw [h.events, Task.events, List.append_nil]
    obtain rfl : result = R := h.result
    exact ⟨rfl, hE ▸ List.prefix_rfl, Nat.le_succ_of_le (Nat.le_of_eq hlength),
      hrefused ▸ .finished hE hlength⟩

/-- A refusal ends the work. -/
theorem located_refuse {before : List Event} (h : Remains E R before (.tell event next))
    (hbefore : s.published <+: before ++ [event]) (hlength : s.published.length ≤ s.taken + 1) :
    (s.refuse event next).Located E R := by
  have hE : s.published <+: E := by
    refine hbefore.trans ⟨(next none).events, ?_⟩
    rw [h.events, Task.events, List.append_assoc, List.singleton_append]
  by_cases hmode : event.mode = .error
  · obtain ⟨result, hnext⟩ := h.heeds.2.1 hmode
    have hlast : E.getLast? = some event := by
      rw [h.events, Task.events, hnext none, Task.events, List.getLast?_append]
      rfl
    obtain rfl : result = R := by
      have hresult := h.result
      rwa [Task.result, hnext none, Task.result] at hresult
    unfold refuse
    rw [hnext]
    exact ⟨rfl, hE, hlength, .reported hmode hlast⟩
  · unfold refuse
    rw [h.heeds.1 hmode]
    exact ⟨rfl, hE, hlength, .cancelled hmode⟩

/-- The consumer's moves leave the worker where it is. -/
theorem located_congr (hworker : s'.worker = s.worker) (hrefused : s'.refused = s.refused)
    (hpublished : s'.published = s.published) (htaken : s'.taken = s.taken)
    (hlink : s'.link.worker = s.link.worker) (h : s.Located E R) : s'.Located E R := by
  unfold Located
  rw [hworker, hrefused, hpublished, htaken, hlink]
  exact h

theorem balanced_resume (h : s.Balanced) (t : Work) : (s.resume t).Balanced where
  events := by simpa using h.events
  acks := by simpa using h.acks
  acknowledged := by simpa using h.acknowledged

theorem balanced_refuse (h : s.Balanced) : (s.refuse event next).Balanced := by
  apply balanced_resume
  exact ⟨h.events, h.acks, h.acknowledged⟩

theorem balanced_accept (h : s.Balanced) (hacks : 0 < s.link.acks) : (s.accept next).Balanced := by
  apply balanced_resume
  refine ⟨h.events, ?_, h.acknowledged⟩
  have := h.acks
  change s.link.acks - 1 + (s.taken + 1) = s.acknowledged
  omega

/-- Before an event is published the channel is empty: what was published before it has been
acknowledged, hence received. -/
theorem Balanced.channel_eq_none (h : s.Balanced) (hlength : s.published.length = s.taken) :
    s.link.channel = none := by
  have hevents := congrArg List.length h.events
  have hacks := h.acks
  have hacknowledged := h.acknowledged
  rw [List.length_append] at hevents
  have hnone : s.link.channel.toList.length = 0 := by omega
  simpa using hnone

/-- One move keeps the invariant. -/
theorem Step.invariant (hstep : Step s m s') (h : s.Invariant E R) : s'.Invariant E R := by
  obtain ⟨hb, hl⟩ := h
  unfold Located at hl
  cases hstep with
  | pass hw hflag | timeout hw hacks hconsumer | again hw hflag =>
    rw [hw] at hl
    exact ⟨⟨hb.events, hb.acks, hb.acknowledged⟩, hl⟩
  | stop hw hflag | gone hw hconsumer =>
    rw [hw] at hl
    obtain ⟨-, hlength, hremains⟩ := hl
    exact ⟨balanced_refuse hb,
      located_refuse hremains (List.prefix_append _ _) (Nat.le_succ_of_le (Nat.le_of_eq hlength))⟩
  | send hw hconsumer hchannel =>
    rw [hw] at hl
    obtain ⟨hrefused, hlength, hremains⟩ := hl
    refine ⟨⟨?_, hb.acks, hb.acknowledged⟩, hrefused, ?_, _, rfl, hremains⟩
    · have hevents := hb.events
      rw [hchannel, Option.toList_none, List.append_nil] at hevents
      exact congrArg (· ++ _) hevents
    · exact (List.length_append ..).trans (congrArg (· + 1) hlength)
  | take hw hacks =>
    rw [hw] at hl
    obtain ⟨hrefused, hlength, before, hpublished, hremains⟩ := hl
    refine ⟨balanced_accept hb hacks, located_resume hrefused hlength ?_⟩
    rw [hpublished]
    exact hremains.advance
  | lost hw hacks hconsumer | halt hw hflag =>
    rw [hw] at hl
    obtain ⟨-, hlength, before, hpublished, hremains⟩ := hl
    exact ⟨balanced_refuse hb,
      located_refuse hremains (hpublished ▸ List.prefix_rfl) (Nat.le_of_eq hlength)⟩
  | receive hconsumer hchannel =>
    refine ⟨⟨?_, hb.acks, ?_⟩, ?_⟩
    · have hevents := hb.events
      rw [hchannel] at hevents
      simpa using hevents
    · rw [List.length_append]
      exact Nat.le_succ_of_le hb.acknowledged
    · exact located_congr rfl rfl rfl rfl rfl hl
  | acknowledge hconsumer hlt =>
    refine ⟨⟨hb.events, ?_, hlt⟩, ?_⟩
    · have := hb.acks
      simp only [Handshake.acknowledge]
      omega
    · exact located_congr rfl rfl rfl rfl rfl hl
  | cancel => exact ⟨⟨hb.events, hb.acks, hb.acknowledged⟩, located_congr rfl rfl rfl rfl rfl hl⟩
  | drop hconsumer =>
    exact ⟨⟨hb.events, hb.acks, hb.acknowledged⟩, located_congr rfl rfl rfl rfl rfl hl⟩

/-- Whatever one move keeps, a run keeps. -/
theorem Run.keeps {P : System → Prop} {moves : List Move}
    (hstep : ∀ {s m s'}, m ∈ moves → Step s m s' → P s → P s') (h : Run s moves s') (hs : P s) :
    P s' := by
  induction h with
  | nil => exact hs
  | snoc _ hlast ih =>
    refine hstep (by simp) hlast (ih fun hm hstep' => hstep ?_ hstep')
    exact List.mem_append_left _ hm

theorem invariant_start (options : Options) (file source : String) :
    (start options file source).Invariant (transcript options file source)
      (outcome options file source) where
  balanced := balanced_resume ⟨rfl, rfl, Nat.le_refl 0⟩ _
  located := located_resume rfl rfl ⟨events_compileTask.symm, result_compileTask, heeds_compileTask⟩

theorem Run.invariant {moves : List Move} (h : Run s moves s') (hs : s.Invariant E R) :
    s'.Invariant E R :=
  h.keeps (fun _ hstep => hstep.invariant) hs

theorem Invariant.published_isPrefix (h : s.Invariant E R) : s.published <+: E := by
  obtain ⟨-, hl⟩ := h
  unfold Located at hl
  split at hl
  · exact ⟨_, hl.2.2.events.symm⟩
  · exact ⟨_, hl.2.2.events.symm⟩
  · obtain ⟨-, -, before, hpublished, hremains⟩ := hl
    exact ⟨_, hpublished ▸ hremains.advance.events.symm⟩
  · obtain ⟨-, -, before, hpublished, hremains⟩ := hl
    exact ⟨_, hpublished ▸ hremains.advance.events.symm⟩
  · exact hl.2.1

theorem Invariant.received_isPrefix (h : s.Invariant E R) : s.received <+: E :=
  .trans ⟨_, h.balanced.events.symm⟩ h.published_isPrefix

theorem Invariant.length_published_le (h : s.Invariant E R) : s.published.length ≤ s.taken + 1 := by
  obtain ⟨-, hl⟩ := h
  unfold Located at hl
  split at hl
  · exact Nat.le_succ_of_le (Nat.le_of_eq hl.2.1)
  · exact Nat.le_succ_of_le (Nat.le_of_eq hl.2.1)
  · exact Nat.le_of_eq hl.2.1
  · exact Nat.le_of_eq hl.2.1
  · exact hl.2.2.1

/-- A worker that is about to publish finds room. -/
theorem Invariant.channel_eq_none (h : s.Invariant E R) (hw : s.worker = .sending event next) :
    s.link.channel = none := by
  have hl := h.located
  unfold Located at hl
  rw [hw] at hl
  exact h.balanced.channel_eq_none hl.2.1

/-- After a refusal the worker is gone. -/
theorem Invariant.ended_of_refused (h : s.Invariant E R) (hrefused : s.refused = some event) :
    ∃ result, s.worker = .ended result ∧ Over E R s.published s.taken (some event) result := by
  have hl := h.located
  unfold Located at hl
  split at hl
  case h_5 result hw => exact ⟨result, hw, hrefused ▸ hl.2.2.2⟩
  all_goals simp [hrefused] at hl

end Invariant

/-! ### After the flag is raised, and after the end -/

/-- Once the flag is raised, no move makes the worker publish more than it is committed to. -/
theorem Step.cancelled (hstep : Step s m s') (h : s.link.cancelled = true) :
    s'.link.cancelled = true ∧
      s'.published.length + s'.worker.committed ≤ s.published.length + s.worker.committed := by
  cases hstep with
  | pass _ hflag => simp [h] at hflag
  | again _ hflag => simp [h] at hflag
  | send hw => exact ⟨h, by simp [publish, hw, Phase.committed]⟩
  | stop | gone | lost | halt => simp [refuse, h]
  | take => simp [accept, h]
  | timeout hw => exact ⟨h, by simp [hw, Phase.committed]⟩
  | receive | acknowledge | drop => exact ⟨h, Nat.le_refl _⟩
  | cancel => exact ⟨rfl, Nat.le_refl _⟩

theorem Run.cancelled {moves : List Move} (h : Run s moves s') (hs : s.link.cancelled = true) :
    s'.published.length ≤ s.published.length + 1 := by
  have hkept := h.keeps
    (P := fun s' => s'.link.cancelled = true ∧
      s'.published.length + s'.worker.committed ≤ s.published.length + s.worker.committed)
    (fun _ hstep hP => ⟨(hstep.cancelled hP.1).1, Nat.le_trans (hstep.cancelled hP.1).2 hP.2⟩)
    ⟨hs, Nat.le_refl _⟩
  have hone : s.worker.committed ≤ 1 := by
    unfold Phase.committed
    split <;> omega
  omega

/-- A worker that is gone stays gone and publishes nothing. -/
theorem Step.ended {result : Except CompileError String} (hstep : Step s m s')
    (h : s.worker = .ended result) : s'.worker = .ended result ∧ s'.published = s.published := by
  cases hstep with
  | receive | acknowledge | cancel | drop => exact ⟨h, rfl⟩
  | _ => simp_all

theorem Run.ended {moves : List Move} {result : Except CompileError String} (h : Run s moves s')
    (hs : s.worker = .ended result) : s'.worker = .ended result ∧ s'.published = s.published :=
  h.keeps (P := fun s' => s'.worker = .ended result ∧ s'.published = s.published)
    (fun _ hstep hP => ⟨(hstep.ended hP.1).1, (hstep.ended hP.1).2.trans hP.2⟩) ⟨hs, rfl⟩

/-! ### A consumer that only receives and acknowledges -/

/-- Nobody has stopped the worker. -/
structure Undisturbed (s : System) : Prop where
  cancelled : s.link.cancelled = false
  consumer : s.link.consumer = true
  refused : s.refused = none

/-- The moves made so far, but for those of waiting: each event is checked, sent, received, acknowledged
and taken. -/
def progress (s : System) : Nat :=
  2 * s.published.length + s.worker.committed + s.received.length + s.acknowledged + s.taken

theorem Step.undisturbed (hstep : Step s m s') (hm : m.stops = false) (h : s.Undisturbed) :
    s'.Undisturbed := by
  obtain ⟨hcancelled, hconsumer, hrefused⟩ := h
  cases hstep with
  | stop _ hflag | halt _ hflag => simp [hcancelled] at hflag
  | gone _ hgone | lost _ _ hgone => simp [hconsumer] at hgone
  | cancel | drop => simp [Move.stops] at hm
  | take => exact ⟨by simp [accept, hcancelled], by simp [accept, hconsumer], by simp [accept, hrefused]⟩
  | pass | send | timeout | again | receive | acknowledge => exact ⟨hcancelled, hconsumer, hrefused⟩

/-- Each move of an undisturbed worker and its consumer is progress, or waiting. -/
theorem Step.progress (hstep : Step s m s') (hm : m.stops = false) (h : s.Undisturbed) :
    s'.progress = s.progress + if m.isIdle then 0 else 1 := by
  obtain ⟨hcancelled, hconsumer, hrefused⟩ := h
  unfold System.progress
  cases hstep with
  | stop _ hflag | halt _ hflag => simp [hcancelled] at hflag
  | gone _ hgone | lost _ _ hgone => simp [hconsumer] at hgone
  | cancel | drop => simp [Move.stops] at hm
  | take hw =>
    simp only [accept, resume_committed, resume_published, resume_received, resume_acknowledged,
      resume_taken]
    simp [hw, Phase.committed, Move.isIdle]
    omega
  | pass hw => simp [hw, Phase.committed, Move.isIdle]; omega
  | send hw => simp [publish, hw, Phase.committed, Move.isIdle]; omega
  | timeout hw | again hw => simp [hw, Phase.committed, Move.isIdle]
  | receive | acknowledge => simp [Move.isIdle]; omega

/-- A consumer that only receives and acknowledges disturbs nothing, and the moves that are not waiting
add up. -/
theorem Run.undisturbed {moves : List Move} (h : Run s moves s')
    (hmoves : ∀ m ∈ moves, m.stops = false) (hs : s.Undisturbed) :
    s'.Undisturbed ∧ s'.progress = s.progress + moves.countP (!·.isIdle) := by
  induction h with
  | nil => exact ⟨hs, rfl⟩
  | snoc _ hlast ih =>
    obtain ⟨hundisturbed, hprogress⟩ := ih fun m hm => hmoves m (List.mem_append_left _ hm)
    have hstops := hmoves _ (List.mem_append_right _ List.mem_cons_self)
    refine ⟨hlast.undisturbed hstops hundisturbed, ?_⟩
    rw [hlast.progress hstops hundisturbed, hprogress, List.countP_append, List.countP_singleton,
      Nat.add_assoc]
    congr 2
    cases Move.isIdle _ <;> rfl

theorem undisturbed_start (options : Options) (file source : String) :
    (start options file source).Undisturbed where
  cancelled := resume_cancelled _
  consumer := resume_consumer _
  refused := resume_refused _

theorem progress_start (options : Options) (file source : String) :
    (start options file source).progress = 0 := by
  simp [progress, start]

section Undisturbed

variable {E : List Event} {R : Except CompileError String}

/-- There are five moves for each event, and no more. -/
theorem Invariant.progress_le (h : s.Invariant E R) : s.progress ≤ 5 * E.length := by
  have hevents := congrArg List.length h.balanced.events
  have hacks := h.balanced.acks
  have hacknowledged := h.balanced.acknowledged
  have hcommitted : s.published.length + s.worker.committed ≤ E.length := by
    have hl := h.located
    unfold Located at hl
    cases hw : s.worker with
    | sending event next =>
      rw [hw] at hl
      have hE := congrArg List.length hl.2.2.events
      simp only [Task.events, List.length_append, List.length_cons] at hE
      simp only [Phase.committed]
      omega
    | _ => exact h.published_isPrefix.length_le
  rw [List.length_append] at hevents
  unfold progress
  omega

/-- The end of an undisturbed worker: its result is the undisturbed one, and the consumer has received
everything. -/
theorem Invariant.of_ended {result : Except CompileError String} (h : s.Invariant E R)
    (hs : s.Undisturbed) (hw : s.worker = .ended result) :
    result = R ∧ s.received = E ∧ s.link.receive = some (none, s.link) := by
  have hl := h.located
  unfold Located at hl
  rw [hw, hs.refused] at hl
  obtain ⟨hworker, -, -, hover⟩ := hl
  cases hover with
  | finished hpublished hlength =>
    have hchannel := h.balanced.channel_eq_none hlength
    have hevents := h.balanced.events
    rw [hchannel, Option.toList_none, List.append_nil] at hevents
    exact ⟨rfl, hevents ▸ hpublished, by simp [Handshake.receive, hchannel, hworker]⟩

/-- While the worker is not gone there is a move that is not waiting, if need be after another look at
the flag: nobody waits for the other forever. -/
theorem Invariant.exists_step (h : s.Invariant E R) (hs : s.Undisturbed)
    (hw : ∀ result, s.worker ≠ .ended result) :
    ∃ m s', m.isIdle = false ∧ m.stops = false ∧
      (Step s m s' ∨ ∃ polled, Step s .poll polled ∧ Step polled m s') := by
  have hl := h.located
  unfold Located at hl
  by_cases hacknowledged : s.acknowledged < s.received.length
  · exact ⟨.acknowledge, _, rfl, rfl, .inl (.acknowledge hs.consumer hacknowledged)⟩
  cases hchannel : s.link.channel with
  | some event => exact ⟨.receive, _, rfl, rfl, .inl (.receive hs.consumer hchannel)⟩
  | none =>
    -- all that is published is received and acknowledged
    have hevents := congrArg List.length h.balanced.events
    rw [hchannel, Option.toList_none, List.append_nil] at hevents
    have hacks := h.balanced.acks
    cases hphase : s.worker with
    | checking event next => exact ⟨.check, _, rfl, rfl, .inl (.pass hphase hs.cancelled)⟩
    | sending event next => exact ⟨.send, _, rfl, rfl, .inl (.send hphase hs.consumer hchannel)⟩
    | waiting event next =>
      rw [hphase] at hl
      have hlength := hl.2.1
      exact ⟨.take, _, rfl, rfl, .inl (.take hphase (by omega))⟩
    | polling event next =>
      rw [hphase] at hl
      have hlength := hl.2.1
      refine ⟨.take, _, rfl, rfl, .inr ⟨_, .again hphase hs.cancelled, .take rfl ?_⟩⟩
      change 0 < s.link.acks
      omega
    | ended result => exact absurd hphase (hw result)

end Undisturbed

/-! ### A consumer that stops the worker after a number of events -/

/-- Nothing is under way between the worker and the consumer of a session. -/
structure Settled (s : System) (session : Session) : Prop where
  link : s.link = session.handshake
  received : s.received = session.received.toList
  channel : s.link.channel = none
  acks : s.link.acks = 0
  acknowledged : s.acknowledged ≤ s.received.length

/-- Without an acknowledgement, a worker whose consumer wants no more is refused. -/
theorem answer_of_stopped {h : Handshake} (hacks : h.acks = 0)
    (hstopped : (h.cancelled || !h.consumer) = true) : h.answer = some (some .cancelled, h) := by
  rw [Handshake.answer, if_neg (by omega), if_pos hstopped]

/-- A notification that the consumer receives, by its move and the answer that the worker takes. -/
theorem notify_of_answer {c : Consumer} {session : Session} {refusal : Option CompileError}
    {moved last : Handshake} (hcancelled : session.handshake.cancelled = false)
    (hconsumer : session.handshake.consumer = true) (hchannel : session.handshake.channel = none)
    (hreact : c.react (session.received.push event).size { session.handshake with channel := none } = moved)
    (hanswer : moved.answer = some (refusal, last)) :
    c.observer.notify session event = (refusal, ⟨last, session.received.push event⟩) := by
  have hpublish : session.handshake.publish event =
      some (.ok { session.handshake with channel := some event }) := by
    rw [Handshake.publish, if_neg (by simp [hcancelled, hconsumer]), hchannel]
  unfold Consumer.observer
  dsimp only at hreact ⊢
  rw [hpublish]
  dsimp only
  rw [hreact, hanswer]

/-- A notification of the observer of a consumer is a run: the event is received at once, and the worker
takes the answer at once. -/
theorem exists_run_notify (c : Consumer) {session : Session} (h : s.Settled session)
    (hw : s.worker = .checking event next) :
    ∃ moves, ∃ s' : System, Run s moves (s'.resume (next (c.observer.notify session event).1)) ∧
      s'.Settled (c.observer.notify session event).2 ∧
      (c.limit = none → ∀ m ∈ moves, m.stops = false) := by
  obtain ⟨hlink, hreceived, hchannel, hacks, hacknowledged⟩ := h
  have hrefused : ∀ worker, Settled { s with worker := worker, refused := some event } session :=
    fun _ => ⟨hlink, hreceived, hchannel, hacks, hacknowledged⟩
  cases hcancelled : s.link.cancelled with
  | true =>
    have hnotify : c.observer.notify session event = (some .cancelled, session) := by
      simp [Consumer.observer, Handshake.publish, ← hlink, hcancelled]
    rw [hnotify]
    exact ⟨_, _, (Step.stop hw hcancelled).run, hrefused _, by simp [Move.stops]⟩
  | false =>
    have hpass := (Step.pass hw hcancelled).run
    cases hconsumer : s.link.consumer with
    | false =>
      have hnotify : c.observer.notify session event = (some .cancelled, session) := by
        simp [Consumer.observer, Handshake.publish, ← hlink, hcancelled, hconsumer]
      rw [hnotify]
      exact ⟨_, _, hpass.snoc (.gone rfl hconsumer), hrefused _, by simp [Move.stops]⟩
    | true =>
      have hrun := (hpass.snoc (.send rfl hconsumer hchannel)).snoc (.receive hconsumer rfl)
      have hsize : s.acknowledged < (s.received ++ [event]).length := by
        rw [List.length_append]
        exact Nat.lt_succ_of_le hacknowledged
      have hpush : s.received ++ [event] = (session.received.push event).toList := by
        rw [hreceived, Array.toList_push]
      rw [hlink] at hcancelled hconsumer hchannel hacks hrun
      by_cases hlimit : c.limit.all ((session.received.push event).size ≤ ·) = true
      · rw [notify_of_answer hcancelled hconsumer hchannel (if_pos hlimit) (if_pos (Nat.succ_pos _))]
        exact ⟨_, _, (hrun.snoc (.acknowledge hconsumer hsize)).snoc (.take rfl (Nat.succ_pos _)),
          ⟨rfl, hpush, rfl, hacks, hsize⟩, by simp [Move.stops]⟩
      · cases hstop : c.stop with
        | cancel =>
          have hreact : c.react (session.received.push event).size { session.handshake with channel := none } =
              { session.handshake with channel := none, cancelled := true } := by
            rw [Consumer.react, if_neg hlimit, hstop]
            rfl
          rw [notify_of_answer hcancelled hconsumer hchannel hreact (answer_of_stopped hacks rfl)]
          exact ⟨_, _, ((hrun.snoc .cancel).snoc (.timeout rfl hacks hconsumer)).snoc (.halt rfl rfl),
            ⟨rfl, hpush, rfl, hacks, Nat.le_of_lt hsize⟩, fun hnone => by simp [hnone] at hlimit⟩
        | drop =>
          have hreact : c.react (session.received.push event).size { session.handshake with channel := none } =
              { session.handshake with channel := none, consumer := false } := by
            rw [Consumer.react, if_neg hlimit, hstop]
            rfl
          rw [notify_of_answer hcancelled hconsumer hchannel hreact (answer_of_stopped hacks (by simp))]
          exact ⟨_, _, (hrun.snoc (.drop hconsumer)).snoc (.lost rfl hacks rfl),
            ⟨rfl, hpush, rfl, hacks, Nat.le_of_lt hsize⟩, fun hnone => by simp [hnone] at hlimit⟩

/-- A task under the observer of a consumer is one of the orders in which worker and consumer may
move. -/
theorem exists_run_observer (c : Consumer) (t : Work) {session : Session} (h : s.Settled session) :
    ∃ moves s', Run (s.resume t) moves s' ∧
      s'.worker = .ended (t.run c.observer session).1 ∧
      s'.received = (t.run c.observer session).2.received.toList ∧
      (c.limit = none → ∀ m ∈ moves, m.stops = false) := by
  induction t generalizing s session with
  | done result => exact ⟨[], _, .nil, rfl, h.received, by simp⟩
  | tell event next ih =>
    have hchecking : Settled (s.resume (.tell event next)) session :=
      ⟨h.link, h.received, h.channel, h.acks, h.acknowledged⟩
    obtain ⟨moves, s', hrun, hs', hmoves⟩ := exists_run_notify c hchecking rfl
    obtain ⟨moves', s'', hrun', hended, hreceived, hmoves'⟩ := ih _ hs'
    refine ⟨_, s'', hrun.trans hrun', hended, hreceived, fun hnone m hm => ?_⟩
    exact (List.mem_append.mp hm).elim (hmoves hnone m) (hmoves' hnone m)

theorem exists_run_consumer (c : Consumer) (options : Options) (file source : String) :
    ∃ moves s, Run (start options file source) moves s ∧
      s.worker = .ended (compile options file source c.observer {}).1 ∧
      s.received = (compile options file source c.observer {}).2.received.toList ∧
      (c.limit = none → ∀ m ∈ moves, m.stops = false) := by
  rw [← run_compileTask]
  exact exists_run_observer c _ ⟨rfl, rfl, rfl, rfl, Nat.le_refl 0⟩

/-! ### The handshake -/

/-- A worker and its consumer, after any moves.  The consumer has received the first events of the
undisturbed compilation.  At most one event is published without an answer, and a worker that is about to
publish finds room.  After the flag is raised at most one more event is published; after a refusal none,
and the compilation is cancelled, unless it was the report of its error that was refused.  With a consumer
that only receives and acknowledges, nobody waits forever, and in the end the consumer has received all
events and the result is the undisturbed one. -/
theorem worker_handshake {ω : Type} {o : Observer ω} {w : ω} (ho : o.Passive) {options : Options}
    {file source : String} {moves : List Move} (h : Run (start options file source) moves s) :
    (s.received <+: eventsTold options file source o w ∧
      s.published <+: eventsTold options file source o w ∧
      s.published = s.received ++ s.link.channel.toList) ∧
    (s.published.length ≤ s.taken + 1 ∧
      ∀ event next, s.worker = .sending event next → s.link.channel = none) ∧
    (∀ moves' s', Run s moves' s' →
      (s.link.cancelled = true → s'.published.length ≤ s.published.length + 1) ∧
      (s.refused ≠ none → s'.published = s.published)) ∧
    (∀ result, s.worker = .ended result → s.refused = none →
      result = (compile options file source o w).1 ∧
      s.published = eventsTold options file source o w) ∧
    (∀ event, s.refused = some event → ∃ result, s.worker = .ended result ∧
      (event.mode ≠ .error → result = .error .cancelled) ∧
      (event.mode = .error → result = (compile options file source o w).1 ∧
        (eventsTold options file source o w).getLast? = some event)) ∧
    ((∀ m ∈ moves, m.stops = false) →
      moves.countP (!·.isIdle) ≤ 5 * (eventsTold options file source o w).length ∧
      (∀ result, s.worker = .ended result →
        result = (compile options file source o w).1 ∧
        s.received = eventsTold options file source o w ∧ s.link.receive = some (none, s.link)) ∧
      ((∀ result, s.worker ≠ .ended result) → ∃ m s', m.isIdle = false ∧ m.stops = false ∧
        (Step s m s' ∨ ∃ polled, Step s .poll polled ∧ Step polled m s'))) := by
  rw [eventsTold_of_passive ho, compile_of_passive ho]
  have hinv := h.invariant (invariant_start options file source)
  refine ⟨⟨hinv.received_isPrefix, hinv.published_isPrefix, hinv.balanced.events⟩,
    ⟨hinv.length_published_le, fun event next => hinv.channel_eq_none⟩, ?_, ?_, ?_, ?_⟩
  · intro moves' s' h'
    refine ⟨h'.cancelled, fun hrefused => ?_⟩
    obtain ⟨event, hevent⟩ := Option.ne_none_iff_exists'.mp hrefused
    obtain ⟨result, hended, -⟩ := hinv.ended_of_refused hevent
    exact (h'.ended hended).2
  · intro result hended hrefused
    have hl := hinv.located
    unfold Located at hl
    rw [hended, hrefused] at hl
    obtain ⟨-, -, -, hover⟩ := hl
    cases hover with
    | finished hpublished => exact ⟨rfl, hpublished⟩
  · intro event hrefused
    obtain ⟨result, hended, hover⟩ := hinv.ended_of_refused hrefused
    refine ⟨result, hended, ?_⟩
    cases hover with
    | cancelled hmode => exact ⟨fun _ => rfl, fun herror => absurd herror hmode⟩
    | reported hmode hlast => exact ⟨fun hne => absurd hmode hne, fun _ => ⟨rfl, hlast⟩⟩
  · intro hmoves
    obtain ⟨hundisturbed, hprogress⟩ := h.undisturbed hmoves (undisturbed_start options file source)
    refine ⟨?_, fun result => hinv.of_ended hundisturbed, hinv.exists_step hundisturbed⟩
    rw [progress_start, Nat.zero_add] at hprogress
    exact hprogress ▸ hinv.progress_le

/-- A consumer raises the flag at the second event, and one acknowledges all. -/
theorem worker_handshake_consumer :
    (∃ moves s, Run (start {} "t.mc" "int f() \x7b return 1; \x7d") moves s ∧
      s.received.length = 2 ∧ s.worker = .ended (.error .cancelled) ∧
      s.received <+: eventsTold {} "t.mc" "int f() \x7b return 1; \x7d"
        (.recorder (fun _ => true) none) {}) ∧
    ∃ moves s, Run (start {} "t.mc" "int f() \x7b return 1; \x7d") moves s ∧
      (∀ m ∈ moves, m.stops = false) ∧
      s.received = eventsTold {} "t.mc" "int f() \x7b return 1; \x7d"
        (.recorder (fun _ => true) none) {} ∧
      s.worker = .ended (compile {} "t.mc" "int f() \x7b return 1; \x7d"
        (.recorder (fun _ => true) none) {}).1 := by
  have hpassive := Observer.passive_recorder fun _ => true
  constructor
  · obtain ⟨moves, s, hrun, hended, hreceived, -⟩ :=
      exists_run_consumer ⟨some 1, .cancel⟩ {} "t.mc" "int f() \x7b return 1; \x7d"
    refine ⟨moves, s, hrun, ?_, ?_, (worker_handshake hpassive hrun).1.1⟩
    · rw [hreceived]
      decide +kernel
    · rw [hended]
      exact congrArg Phase.ended (by decide +kernel)
  · obtain ⟨moves, s, hrun, hended, -, hmoves⟩ :=
      exists_run_consumer ⟨none, .cancel⟩ {} "t.mc" "int f() \x7b return 1; \x7d"
    have hstops := hmoves rfl
    obtain ⟨-, hend, -⟩ := (worker_handshake hpassive hrun).2.2.2.2.2 hstops
    obtain ⟨hresult, hall, -⟩ := hend _ hended
    exact ⟨moves, s, hrun, hstops, hall, hresult ▸ hended⟩

end System

end ProcLang

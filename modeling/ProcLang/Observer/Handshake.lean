import ProcLang.Observer

/-!
The handshake between a worker, which compiles, and a consumer, which takes its events.  The worker
publishes an event in a channel with room for one and waits until the consumer acknowledges it.
The consumer may raise a flag, or go away; either ends the worker's wait with a refusal.
-/

namespace ProcLang

/-- The state between a worker and a consumer. -/
structure Handshake where
  /-- The event that is published and not yet received. -/
  channel : Option Event := none
  /-- The acknowledgements that are sent and not yet taken. -/
  acks : Nat := 0
  /-- The flag is raised. -/
  cancelled : Bool := false
  /-- The consumer is there. -/
  consumer : Bool := true
  /-- The worker is there. -/
  worker : Bool := true
deriving DecidableEq, Inhabited

namespace Handshake

/-- Publish an event, if the worker may.  Nothing comes of it if the worker has to wait for room. -/
def publish (h : Handshake) (event : Event) : Option (Except CompileError Handshake) :=
  if h.cancelled || !h.consumer then some (.error .cancelled)
  else
    match h.channel with
    | some _ => none
    | none => some (.ok { h with channel := some event })

/-- The answer to a published event, unless the worker has to wait: an acknowledgement if one was
sent, else a refusal if the flag is raised or the consumer is gone. -/
def answer (h : Handshake) : Option (Option CompileError × Handshake) :=
  if h.acks > 0 then some (none, { h with acks := h.acks - 1 })
  else if h.cancelled || !h.consumer then some (some .cancelled, h)
  else none

/-- Publish an event and take the answer to it, unless the worker has to wait. -/
def notify (h : Handshake) (event : Event) : Option (Option CompileError × Handshake) :=
  match h.publish event with
  | none => none
  | some (.error e) => some (some e, h)
  | some (.ok published) => published.answer

/-- Receive the published event; there is none once the worker is gone.  Nothing comes of it if the
consumer has to wait. -/
def receive (h : Handshake) : Option (Option Event × Handshake) :=
  match h.channel with
  | some event => some (some event, { h with channel := none })
  | none => if h.worker then none else some (none, h)

/-- Acknowledge an event. -/
def acknowledge (h : Handshake) : Handshake := { h with acks := h.acks + 1 }

/-- Raise the flag. -/
def cancel (h : Handshake) : Handshake := { h with cancelled := true }

/-- The consumer goes away. -/
def dropConsumer (h : Handshake) : Handshake := { h with consumer := false }

/-- The worker goes away. -/
def dropWorker (h : Handshake) : Handshake := { h with worker := false }

end Handshake

/-- How a consumer stops a worker. -/
inductive Stop where
  | cancel
  | drop
deriving DecidableEq, Inhabited

/-- A consumer at work: the handshake, and the events received. -/
structure Session where
  handshake : Handshake := {}
  received : Array Event := #[]
deriving DecidableEq, Inhabited

/-- A consumer that acknowledges a number of events, or all, and then stops the worker. -/
structure Consumer where
  limit : Option Nat := none
  stop : Stop := .cancel
deriving DecidableEq, Inhabited

namespace Consumer

/-- The consumer's move after it has received an event. -/
def react (c : Consumer) (received : Nat) (h : Handshake) : Handshake :=
  if c.limit.all (received ≤ ·) then h.acknowledge
  else
    match c.stop with
    | .cancel => h.cancel
    | .drop => h.dropConsumer

/-- The worker's notification: it publishes, the consumer receives and moves, and the worker takes
the answer. -/
def observer (c : Consumer) : Observer Session where
  notify w event :=
    match w.handshake.publish event with
    | none => (some .cancelled, w)
    | some (.error e) => (some e, w)
    | some (.ok published) =>
      let received := w.received.push event
      let moved := c.react received.size { published with channel := none }
      match moved.answer with
      | some (refusal, h) => (refusal, { handshake := h, received := received })
      | none => (some .cancelled, { handshake := moved, received := received })

end Consumer

end ProcLang

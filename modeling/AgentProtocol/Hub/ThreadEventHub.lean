import AgentProtocol.Lib.Dict
import AgentProtocol.Lib.Log

/-!
# The per-thread event hub (`hub.py`)

Seq-stamped envelopes, a bounded replay buffer and filtered fan-out to
subscriptions with a bounded queue and a dedup cursor. The payload type is a
parameter: the hub never looks inside `data`.

Python keys its subscriber set by object identity; here a subscription is known
by a `SubId`, and the hub's dictionary is the set together with the objects in
it. The clock is an argument of `publish`.
-/

namespace AgentProtocol

universe u

variable {δ : Type u}

def defaultReplaySize : Nat := 500

def maxQueue : Nat := 4096

/-- method (or method family) -> channel name on the wire -/
def methodChannels : List (String × String) :=
  [("lifecycle", "lifecycle"), ("messages", "messages"), ("tools", "tools"),
   ("values", "values"), ("updates", "updates"), ("checkpoints", "checkpoints"),
   ("custom", "custom"), ("tasks", "tasks"),
   -- the input channel's only event is named input.requested on the wire
   ("input.requested", "input")]

/-- Map a wire method to its channel; unknown methods map to themselves. -/
def channelForMethod (method : String) : String :=
  (Entries.get? method methodChannels).getD method

/-- The protocol envelope `publish` stamps; `namespace`, `timestamp` and `data`
sit under `params` on the wire. -/
structure Envelope (δ : Type u) where
  type : String := "event"
  eventId : String
  seq : Nat
  method : String
  ns : List String
  timestamp : Int
  data : δ

/-- One SSE consumer's view into a thread hub. -/
structure Subscription (δ : Type u) where
  queue : List (Envelope δ)
  /-- `none` = all channels -/
  channels : Option (List String)
  /-- empty = all namespaces -/
  namespaces : List (List String)
  lastSeq : Int

namespace Subscription

/-- The channel half of `matches`: no channel set, an empty one, or a member. -/
def channelPasses (channels : Option (List String)) (method : String) : Bool :=
  match channels with
  | none => true
  | some [] => true
  | some cs => cs.contains (channelForMethod method)

/-- The namespace half of `matches`. An explicitly empty prefix selects
root-namespace events only; non-empty prefixes are path prefix matches. -/
def namespacePasses (namespaces : List (List String)) (ns : List String) : Bool :=
  match namespaces with
  | [] => true
  | ps => ps.any fun p => if p.isEmpty then ns.isEmpty else ns.take p.length == p

def «matches» (sub : Subscription δ) (e : Envelope δ) : Bool :=
  if (e.seq : Int) ≤ sub.lastSeq then false
  else if !channelPasses sub.channels e.method then false
  else namespacePasses sub.namespaces e.ns

/-- The filter of a subscription without its cursor. -/
def passes (channels : Option (List String)) (namespaces : List (List String))
    (e : Envelope δ) : Bool :=
  channelPasses channels e.method && namespacePasses namespaces e.ns

/-- An envelope matches when it is past the cursor and passes the filter. -/
theorem matches_iff (sub : Subscription δ) (e : Envelope δ) :
    sub.matches e = true ↔
      sub.lastSeq < (e.seq : Int) ∧ passes sub.channels sub.namespaces e = true := by
  unfold «matches» passes
  by_cases hseq : (e.seq : Int) ≤ sub.lastSeq
  · simp only [if_pos hseq, Bool.false_eq_true, false_iff, not_and]
    omega
  · have : sub.lastSeq < (e.seq : Int) := by omega
    cases hc : channelPasses sub.channels e.method <;> simp [hseq, this]

/-- `put_nowait` would raise `QueueFull`. -/
def full (sub : Subscription δ) : Bool := decide (maxQueue ≤ sub.queue.length)

/-- `queue.put_nowait` with `QueueFull` suppressed: slow consumers lose the
envelope. -/
def putNowait (sub : Subscription δ) (e : Envelope δ) : Subscription δ :=
  if sub.full then sub else { sub with queue := sub.queue ++ [e] }

/-- What one turn of the fan-out loop does to a subscriber. -/
def offer (e : Envelope δ) (sub : Subscription δ) : Subscription δ :=
  if sub.matches e then sub.putNowait e else sub

@[simp] theorem offer_channels (e : Envelope δ) (sub : Subscription δ) :
    (sub.offer e).channels = sub.channels := by
  unfold offer putNowait; split <;> [split <;> rfl; rfl]

@[simp] theorem offer_namespaces (e : Envelope δ) (sub : Subscription δ) :
    (sub.offer e).namespaces = sub.namespaces := by
  unfold offer putNowait; split <;> [split <;> rfl; rfl]

@[simp] theorem offer_lastSeq (e : Envelope δ) (sub : Subscription δ) :
    (sub.offer e).lastSeq = sub.lastSeq := by
  unfold offer putNowait; split <;> [split <;> rfl; rfl]

/-- The fan-out appends a matching envelope to a queue with room and does
nothing to any other. -/
theorem offer_queue (e : Envelope δ) (sub : Subscription δ) :
    (sub.offer e).queue =
      if sub.matches e = true ∧ sub.full = false then sub.queue ++ [e] else sub.queue := by
  unfold offer putNowait
  cases hm : sub.matches e <;> cases hf : sub.full <;> simp

/-- Move the cursor to the last of the replayed envelopes. -/
def advance (sub : Subscription δ) (matched : List (Envelope δ)) : Subscription δ :=
  match matched.getLast? with
  | none => sub
  | some e => { sub with lastSeq := e.seq }

@[simp] theorem advance_channels (sub : Subscription δ) (l : List (Envelope δ)) :
    (sub.advance l).channels = sub.channels := by
  unfold advance; split <;> rfl

@[simp] theorem advance_namespaces (sub : Subscription δ) (l : List (Envelope δ)) :
    (sub.advance l).namespaces = sub.namespaces := by
  unfold advance; split <;> rfl

@[simp] theorem advance_queue (sub : Subscription δ) (l : List (Envelope δ)) :
    (sub.advance l).queue = sub.queue := by
  unfold advance; split <;> rfl

end Subscription

/-- Seq assignment, ring buffer and fan-out for one thread's protocol events. -/
structure ThreadEventHub (δ : Type u) where
  replaySize : Nat
  seq : Nat
  buffer : List (Envelope δ)
  subscribers : Dict Nat (Subscription δ)

namespace ThreadEventHub

def new (replaySize : Nat := defaultReplaySize) : ThreadEventHub δ :=
  { replaySize, seq := 0, buffer := [], subscribers := ∅ }

/-- The envelope the next `publish` stamps. -/
def stamp (hub : ThreadEventHub δ) (method : String) (data : δ) (ns : Option (List String))
    (timestamp : Option Int) (eventId : Option String) (nowMs : Int) : Envelope δ :=
  let ts := timestamp.getD nowMs
  { eventId :=
      match eventId with
      | none => s!"{ts}-{hub.seq + 1}"
      | some i => if i = "" then s!"{ts}-{hub.seq + 1}" else i
    seq := hub.seq + 1
    method
    ns := ns.getD []
    timestamp := ts
    data }

/-- Retain and fan out a stamped envelope. -/
def deliver (hub : ThreadEventHub δ) (e : Envelope δ) : ThreadEventHub δ :=
  { hub with
    seq := hub.seq + 1
    buffer := Ring.push hub.replaySize hub.buffer e
    subscribers := hub.subscribers.mapVals (Subscription.offer e) }

/-- Stamp, retain, and fan out one protocol event; returns the envelope. -/
def publish (hub : ThreadEventHub δ) (method : String) (data : δ)
    (ns : Option (List String)) (timestamp : Option Int) (eventId : Option String)
    (nowMs : Int) : ThreadEventHub δ × Envelope δ :=
  let e := hub.stamp method data ns timestamp eventId nowMs
  (hub.deliver e, e)

/-- The subscription a `subscribe` call builds: it starts after `since`. -/
def newSubscription (channels : Option (List String))
    (namespaces : Option (List (List String))) (since : Option Int) : Subscription δ :=
  { queue := []
    channels := channels.bind fun cs => if cs.isEmpty then none else some cs
    namespaces := namespaces.getD []
    lastSeq := max (since.getD 0) 0 }

/-- Register a filtered subscriber under the identity `id`. -/
def subscribe (hub : ThreadEventHub δ) (id : Nat) (channels : Option (List String))
    (namespaces : Option (List (List String))) (since : Option Int) : ThreadEventHub δ :=
  { hub with
    subscribers := hub.subscribers.set id (newSubscription channels namespaces since) }

def unsubscribe (hub : ThreadEventHub δ) (id : Nat) : ThreadEventHub δ :=
  { hub with subscribers := hub.subscribers.erase id }

/-- Matching buffered events newer than the subscriber's cursor, in order; the
cursor moves to the last of them. -/
def replay (hub : ThreadEventHub δ) (sub : Subscription δ) :
    List (Envelope δ) × Subscription δ :=
  let matched := hub.buffer.filter sub.matches
  (matched, sub.advance matched)

@[simp] theorem stamp_seq (hub : ThreadEventHub δ) (method : String) (data : δ)
    (ns : Option (List String)) (ts : Option Int) (eid : Option String) (now : Int) :
    (hub.stamp method data ns ts eid now).seq = hub.seq + 1 := rfl

end ThreadEventHub

end AgentProtocol

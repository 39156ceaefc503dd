import AgentProtocol.Lib.TSys
import AgentProtocol.Hub.ThreadEventHub

/-!
# The SSE response generator (`router.py`, `_stream.gen`)

A `/stream` request registers a subscription in the handler and hands the
response an async generator that is pulled item by item. Between two pulls any
other task may run, so publishes fall anywhere: before the generator is first
pulled, between its `: connected` block and the replay pass, inside the replay
loop, between two queue reads.

`StreamHub` is one thread's hub with all the generators open on it, and
`streamSys` its transition system. The history fields (`published`, and `since`,
`openedAt` and `sent` of a generator) record what happened; no step reads them,
save `since` and the filter, which are the request's own arguments.
-/

namespace AgentProtocol

universe u

variable {δ : Type u}

/-- What the generator yields. -/
inductive Block (δ : Type u)
  | connected
  | heartbeat
  | event (e : Envelope δ)

/-- Where the generator is suspended. -/
inductive GenPhase (δ : Type u)
  /-- built, never pulled -/
  | created
  /-- at the `: connected` yield -/
  | connected
  /-- at a yield of the replay loop; `rest` is still to be yielded -/
  | replaying (rest : List (Envelope δ))
  /-- in the queue loop -/
  | live
  /-- finished -/
  | closed

/-- The replayed envelopes a generator has yet to yield. -/
def GenPhase.rest : GenPhase δ → List (Envelope δ)
  | .replaying rest => rest
  | _ => []

/-- Suspended before the replay pass. -/
def GenPhase.Early : GenPhase δ → Prop
  | .created => True
  | .connected => True
  | _ => False

/-- One response generator with the arguments of its request. -/
structure Gen (δ : Type u) where
  channels : Option (List String)
  namespaces : Option (List (List String))
  since : Option Int
  phase : GenPhase δ
  /-- the hub's seq when the subscription was registered -/
  openedAt : Nat
  /-- the blocks yielded so far -/
  sent : List (Block δ)

namespace Gen

/-- The envelope of an event block. -/
def envelope? : Block δ → Option (Envelope δ)
  | .event e => some e
  | _ => none

/-- The envelopes delivered so far, in order. -/
def delivered (g : Gen δ) : List (Envelope δ) := g.sent.filterMap envelope?

/-- The cursor the request starts from. -/
def start (g : Gen δ) : Int := max (g.since.getD 0) 0

/-- The channel and namespace filter of the request. -/
def passes (g : Gen δ) (e : Envelope δ) : Bool :=
  Subscription.passes g.channels (g.namespaces.getD []) e

/-- The envelopes the request asks for. -/
def wants (g : Gen δ) (e : Envelope δ) : Bool :=
  decide (g.start < (e.seq : Int)) && g.passes e

theorem wants_iff (g : Gen δ) (e : Envelope δ) :
    g.wants e = true ↔ g.start < (e.seq : Int) ∧ g.passes e = true := by
  rw [wants, Bool.and_eq_true, decide_eq_true_eq]

/-- Yield a block and suspend in `phase`. -/
def yield (g : Gen δ) (b : Block δ) (phase : GenPhase δ) : Gen δ :=
  { g with phase, sent := g.sent ++ [b] }

end Gen

/-- One thread's hub and the response generators open on it. -/
structure StreamHub (δ : Type u) where
  hub : ThreadEventHub δ
  gens : Dict Nat (Gen δ)
  nextSub : Nat
  /-- every envelope ever stamped, oldest first -/
  published : List (Envelope δ)

inductive StreamAct (δ : Type u)
  | publish (method : String) (data : δ) (ns : Option (List String))
      (timestamp : Option Int) (eventId : Option String) (nowMs : Int)
  /-- the `/stream` handler registers a subscription and builds the response -/
  | subscribe (channels : Option (List String)) (namespaces : Option (List (List String)))
      (since : Option Int)
  /-- the response resumes generator `id` -/
  | pull (id : Nat)
  /-- `wait_for` on the queue of `id` times out -/
  | heartbeat (id : Nat)
  /-- the response drops generator `id` (disconnect, cancellation, shutdown) -/
  | close (id : Nat)

def StreamAct.isPublish : StreamAct δ → Bool
  | .publish .. => true
  | _ => false

namespace StreamHub

def new (replaySize : Nat) : StreamHub δ :=
  { hub := .new replaySize, gens := ∅, nextSub := 0, published := [] }

def publish (s : StreamHub δ) (method : String) (data : δ) (ns : Option (List String))
    (timestamp : Option Int) (eventId : Option String) (nowMs : Int) : StreamHub δ :=
  let r := s.hub.publish method data ns timestamp eventId nowMs
  { s with hub := r.1, published := s.published ++ [r.2] }

def subscribe (s : StreamHub δ) (channels : Option (List String))
    (namespaces : Option (List (List String))) (since : Option Int) : StreamHub δ :=
  { s with
    hub := s.hub.subscribe s.nextSub channels namespaces since
    gens := s.gens.set s.nextSub
      { channels, namespaces, since, phase := .created, openedAt := s.hub.seq, sent := [] }
    nextSub := s.nextSub + 1 }

def setGen (s : StreamHub δ) (id : Nat) (g : Gen δ) : StreamHub δ :=
  { s with gens := s.gens.set id g }

def setSub (s : StreamHub δ) (id : Nat) (sub : Subscription δ) : StreamHub δ :=
  { s with hub := { s.hub with subscribers := s.hub.subscribers.set id sub } }

/-- The replay pass: compute the list, move the cursor, yield its head. -/
def replayPass (s : StreamHub δ) (id : Nat) (g : Gen δ) (sub : Subscription δ) :
    StreamHub δ :=
  let r := s.hub.replay sub
  let s := s.setSub id r.2
  match r.1 with
  | [] => s.setGen id { g with phase := .live }
  | e :: rest => s.setGen id (g.yield (.event e) (.replaying rest))

/-- `queue.get()` returned the head of the queue: skip it when the cursor has
passed it, else move the cursor and yield it. -/
def readQueue (s : StreamHub δ) (id : Nat) (g : Gen δ) (sub : Subscription δ)
    (e : Envelope δ) (q : List (Envelope δ)) : StreamHub δ :=
  let sub := { sub with queue := q }
  if sub.matches e then
    (s.setSub id { sub with lastSeq := e.seq }).setGen id (g.yield (.event e) .live)
  else s.setSub id sub

/-- Resume a generator up to its next suspension. -/
def pull (s : StreamHub δ) (id : Nat) : Option (StreamHub δ) :=
  match s.gens.get? id, s.hub.subscribers.get? id with
  | some g, some sub =>
    match g.phase with
    | .created => some (s.setGen id (g.yield .connected .connected))
    | .connected => some (s.replayPass id g sub)
    | .replaying [] => some (s.setGen id { g with phase := .live })
    | .replaying (e :: rest) => some (s.setGen id (g.yield (.event e) (.replaying rest)))
    | .live =>
      match sub.queue with
      | [] => none
      | e :: q => some (s.readQueue id g sub e q)
    | .closed => none
  | _, _ => none

def heartbeat (s : StreamHub δ) (id : Nat) : Option (StreamHub δ) :=
  match s.gens.get? id with
  | some g =>
    match g.phase with
    | .live => some (s.setGen id (g.yield .heartbeat .live))
    | _ => none
  | none => none

/-- Drop a generator. Closing one that was never started does not run its
`finally` block, so its subscription stays registered. -/
def close (s : StreamHub δ) (id : Nat) : Option (StreamHub δ) :=
  match s.gens.get? id with
  | some g =>
    match g.phase with
    | .created => some (s.setGen id { g with phase := .closed })
    | .closed => none
    | _ =>
      some { s.setGen id { g with phase := .closed } with hub := s.hub.unsubscribe id }
  | none => none

def step (s : StreamHub δ) : StreamAct δ → Option (StreamHub δ)
  | .publish method data ns ts eid now => some (s.publish method data ns ts eid now)
  | .subscribe channels namespaces since => some (s.subscribe channels namespaces since)
  | .pull id => s.pull id
  | .heartbeat id => s.heartbeat id
  | .close id => s.close id

end StreamHub

/-- One hub under every interleaving of publishes, subscriptions and generator
steps, from an empty hub of the given replay size. -/
def streamSys (δ : Type u) (replaySize : Nat) : TSys (StreamHub δ) (StreamAct δ) where
  init s := s = .new replaySize
  step s a := s.step a

end AgentProtocol

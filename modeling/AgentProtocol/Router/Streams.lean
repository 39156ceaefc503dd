import AgentProtocol.Router.App

/-!
# The stream endpoint (`router.py`, `_stream`)

`POST /threads/{thread_id}/stream` reads its filter off the body, where the body has one of the
right type, and registers a subscription. The alias `/stream/events` is the same handler. The
row of a thread is never taken away, so that the handler may look it up when the body is there.

A filter may hold any JSON; a subscription of the model holds strings. `wireName` stands for what
is none by a name no event of the process has.
-/

namespace AgentProtocol

universe u

variable {δ : Type u}

/-- What a request asks for. -/
structure StreamQuery where
  channels : Option (List Json)
  namespaces : Option (List (List Json))
  since : Option Int

/-- What the handler takes from a body; it is `none` where it is no JSON, or comes too late. -/
def streamQuery (payload : Option Json) : StreamQuery :=
  let body : Dict String Json :=
    match payload with
    | some (.obj es) => .ofList es
    | _ => ∅
  { channels :=
      match body.get? "channels" with
      | some (.arr xs) => some xs
      | _ => none
    namespaces :=
      match body.get? "namespaces" with
      | some (.arr xs) => some (xs.filterMap fun
        | .arr ns => some ns
        | _ => none)
      | _ => none
    since :=
      match body.get? "since" with
      | some (.int i) => some i
      -- a `bool` is an `int`
      | some (.bool b) => some (if b then 1 else 0)
      | _ => none }

namespace Json

/-- `x == s` -/
def isStr (s : String) : Json → Bool
  | .str s' => s' == s
  | _ => false

/-- `hash(x)` -/
def hash : Json → Except PyExc Unit
  | .arr _ => .error ⟨"TypeError", "unhashable type: 'list'"⟩
  | .obj _ => .error ⟨"TypeError", "unhashable type: 'dict'"⟩
  | _ => .ok ()

/-- `ns[: len(prefix)] == prefix` -/
def isPath : List Json → List String → Bool
  | [], _ => true
  | _ :: _, [] => false
  | x :: xs, s :: ss => x.isStr s && isPath xs ss

def wireName : Json → String
  | .str s => s
  | _ => ""

end Json

namespace StreamQuery

/-- `matches`, but for the cursor, over the filter as the body has it. -/
def passes (q : StreamQuery) (e : Envelope δ) : Bool :=
  (match q.channels with
    | none => true
    | some [] => true
    | some cs => cs.any (Json.isStr (channelForMethod e.method))) &&
  match q.namespaces.getD [] with
  | [] => true
  | ps => ps.any fun p => if p.isEmpty then e.ns.isEmpty else Json.isPath p e.ns

/-- The request asks for this event. -/
def asks (q : StreamQuery) (e : Envelope δ) : Bool :=
  decide (max (q.since.getD 0) 0 < (e.seq : Int)) && q.passes e

end StreamQuery

/-- The answer to a stream request. -/
inductive StreamAnswer where
  | notFound
  | raised (exc : PyExc)
  /-- the response of this subscription -/
  | streaming (id : Nat)

/-- The handler, up to its response. -/
def App.openStream (a : App) (threadId : String) (payload : Option Json) : App × StreamAnswer :=
  match a.store.get threadId with
  | none => (a, .notFound)
  | some _ =>
    let q := streamQuery payload
    -- `frozenset(channels)`
    match (q.channels.getD []).forM Json.hash with
    | .error exc => (a, .raised exc)
    | .ok () =>
      let hub := (a.world.hub threadId).subscribe (q.channels.map (List.map Json.wireName))
        (q.namespaces.map (List.map (List.map Json.wireName))) q.since
      ({ a with world := { a.world with hubs := a.world.hubs.set threadId hub } },
        .streaming (a.world.hub threadId).nextSub)

end AgentProtocol

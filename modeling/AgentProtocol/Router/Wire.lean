import AgentProtocol.Runner.Manager
import AgentProtocol.State.Encode

/-!
# Events on the wire (`router.py`, `sse_block`)

The data of an event as the dict that is published, the envelope that `publish` puts around
it, and what `json.dumps` makes of the whole.
-/

namespace AgentProtocol

/-- A dict literal. -/
def strDict (es : List (String × Value)) : Value := .dict (es.map fun e => (.str e.1, e.2))

/-- A string or `None`. -/
def strOrNone (s : Option String) : Value := (s.map Value.str).getD .none

/-- What the translator hands to its sink. -/
def Frame.toValue : Frame → Value
  | .messageStart role id =>
    strDict [("event", .str "message-start"), ("role", .str role), ("id", .str id)]
  | .textDelta index text =>
    strDict [("event", .str "content-block-delta"), ("index", .int index),
      ("delta", strDict [("type", .str "text-delta"), ("text", .str text)])]
  | .blockStart index id name =>
    strDict [("event", .str "content-block-start"), ("index", .int index),
      ("content", strDict [("type", .str "tool_call_chunk"), ("id", strOrNone id),
        ("name", strOrNone name), ("args", .str ""), ("index", .int index)])]
  | .blockDelta index id name args =>
    strDict [("event", .str "content-block-delta"), ("index", .int index),
      ("delta", strDict [("type", .str "block-delta"),
        ("fields", strDict [("type", .str "tool_call_chunk"), ("id", strOrNone id),
          ("name", strOrNone name), ("args", .str args)])])]
  | .blockFinish index id name args =>
    strDict [("event", .str "content-block-finish"), ("index", .int index),
      ("content", strDict [("type", .str "tool_call"), ("id", strOrNone id),
        ("name", strOrNone name), ("args", args.toValue), ("index", .int index)])]
  | .messageFinish usage =>
    strDict (("event", .str "message-finish") ::
      if usage.entries.isEmpty then [] else [("usage", (Json.obj usage.entries).toValue)])

def EventData.toValue : EventData → Value
  | .lifecycle event graphName error =>
    strDict ([("event", .str event), ("graph_name", .str graphName)] ++
      match error with
      | none => []
      | some error => [("error", .str error)])
  | .message frame => frame.toValue
  | .values chunk => .ofDict chunk
  | .inputRequested interruptId payload =>
    strDict [("interrupt_id", .str interruptId), ("payload", payload)]

/-- The envelope dict around this data. -/
def Envelope.toValue {δ : Type} (data : δ → Value) (e : Envelope δ) : Value :=
  strDict [("type", .str e.type), ("event_id", .str e.eventId), ("seq", .int e.seq),
    ("method", .str e.method),
    ("params", strDict [("namespace", .list (e.ns.map .str)), ("timestamp", .int e.timestamp),
      ("data", data e.data)])]

/-- `json.dumps(envelope)`, in `sse_block` -/
def dumpEvent (limit : Nat) (e : Envelope Published) : Except PyExc Json :=
  encode limit (e.toValue fun p => p.data.toValue)

end AgentProtocol

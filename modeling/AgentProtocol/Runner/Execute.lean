import AgentProtocol.State.Serialize
import AgentProtocol.Translation.Finish

/-!
# One run (`runner.py`, `RunManager._execute`)

The coroutine of a run is suspended at one of three awaits: before its first step,
at the next item of `graph.astream`, or at `aget_state` in the snapshot fallback.
`Phase` says at which, `Awaited` how the await ends, and `TaskStep` what the
coroutine does up to its next suspension: what it publishes, and whether it
registers pending interrupts.

An exception out of `translator.finish` inside a handler ends the coroutine there:
the terminal event of that handler is then not published.
-/

namespace AgentProtocol

/-- The data of an event a run publishes. -/
inductive EventData where
  | lifecycle (event graphName : String) (error : Option String)
  | message (frame : Frame)
  | values (values : Dict String Value)
  | inputRequested (interruptId : String) (payload : Value)

/-- The wire method it is published under. -/
def EventData.method : EventData → String
  | .lifecycle .. => "lifecycle"
  | .message _ => "messages"
  | .values _ => "values"
  | .inputRequested .. => "input.requested"

/-- What `graph.astream` yields. -/
inductive StreamItem where
  | messages (chunk : Chunk)
  | values (chunk : Dict String Value)
  /-- an item of another mode -/
  | other
  /-- an item that does not unpack -/
  | malformed (exc : PyExc)

/-- How an await of the coroutine ends. -/
inductive Awaited where
  | item (item : StreamItem)
  | stop
  /-- `aget_state` returned a snapshot with these values -/
  | snapshot (values : Dict String Value)
  | raised (exc : PyExc)
  | cancelled

/-- The parts of a compiled graph the runner looks at. -/
structure Graph where
  /-- it has an `aget_state` -/
  hasGetState : Bool

inductive Phase where
  | created
  | streaming (translator : MessagesTranslator) (lastValues : Option (Dict String Value))
  | snapshot (translator : MessagesTranslator)
  | done

def Phase.isDone : Phase → Bool
  | .done => true
  | _ => false

/-- One stretch of the coroutine between two suspensions. -/
structure TaskStep where
  phase : Phase
  events : List EventData
  /-- the interrupts handed to `_register_pending`, when it is called -/
  pending : Option (List (String × Value))

/-- The same stretch after these events. -/
def TaskStep.after (events : List EventData) (s : TaskStep) : TaskStep :=
  { s with events := events ++ s.events }

def frameEvents (frames : List Frame) : List EventData := frames.map .message

section Execute

variable (rt : Runtime) (assistantId : String)

/-- A handler: finish the open messages, then report `terminal`. -/
def handle (tr : MessagesTranslator) (terminal : EventData) : TaskStep :=
  let r := tr.finish rt none
  { phase := .done
    events := frameEvents r.frames ++
      match r.raised with
      | none => [terminal]
      | some _ => []
    pending := none }

/-- `except Exception as exc` -/
def onException (tr : MessagesTranslator) (exc : PyExc) : TaskStep :=
  handle rt tr (.lifecycle "failed" assistantId (some exc.describe))

/-- `except asyncio.CancelledError` -/
def onCancelled (tr : MessagesTranslator) : TaskStep :=
  handle rt tr (.lifecycle "interrupted" assistantId none)

/-- A translator call of the `try` block, and what follows when it returns. -/
def orFail (r : Emission MessagesTranslator) (next : MessagesTranslator → TaskStep) : TaskStep :=
  (match r.raised with
    | some exc => onException rt assistantId r.state exc
    | none => next r.state).after (frameEvents r.frames)

/-- After the loop: the run is decided on the values of one snapshot. -/
def settle (tr : MessagesTranslator) (values : Dict String Value) : TaskStep :=
  match interruptsFromSnapshot rt values with
  | .error exc => onException rt assistantId tr exc
  | .ok [] =>
    orFail rt assistantId (tr.finish rt none) fun _ =>
      { phase := .done, events := [.lifecycle "completed" assistantId none], pending := none }
  | .ok interrupts =>
    { phase := .done
      events := .lifecycle "interrupted" assistantId none ::
        interrupts.map fun p => .inputRequested p.1 p.2
      pending := some interrupts }

/-- The body of the `async for` loop. -/
def onItem (tr : MessagesTranslator) (lastValues : Option (Dict String Value)) :
    StreamItem → TaskStep
  | .messages chunk =>
    orFail rt assistantId (tr.feed rt chunk) fun tr =>
      if chunk.usageMetadata.entries.isEmpty then
        { phase := .streaming tr lastValues, events := [], pending := none }
      else
        orFail rt assistantId (tr.finish rt (some chunk)) fun tr =>
          { phase := .streaming tr lastValues, events := [], pending := none }
  | .values chunk =>
    { phase := .streaming tr (some chunk), events := [.values (serializeValues rt chunk)],
      pending := none }
  | .other => { phase := .streaming tr lastValues, events := [], pending := none }
  | .malformed exc => onException rt assistantId tr exc

/-- The loop ended: take the last values, or ask the graph for a snapshot. -/
def onStop (graph : Graph) (tr : MessagesTranslator) :
    Option (Dict String Value) → TaskStep
  | some values => settle rt assistantId tr values
  | none =>
    if graph.hasGetState then { phase := .snapshot tr, events := [], pending := none }
    else settle rt assistantId tr ∅

/-- The first step of the coroutine, up to the first await of the stream. -/
def onStart : TaskStep :=
  { phase := .streaming .new none
    events := [.lifecycle "started" assistantId none, .lifecycle "running" assistantId none]
    pending := none }

/-- Resume the coroutine at the await it is suspended at. -/
def resume (graph : Graph) : Phase → Awaited → Option TaskStep
  | .streaming tr lastValues, .item item => some (onItem rt assistantId tr lastValues item)
  | .streaming tr lastValues, .stop => some (onStop rt assistantId graph tr lastValues)
  | .streaming tr _, .raised exc => some (onException rt assistantId tr exc)
  | .streaming tr _, .cancelled => some (onCancelled rt assistantId tr)
  | .snapshot tr, .snapshot values => some (settle rt assistantId tr values)
  -- uncheckpointed graphs simply have no snapshot
  | .snapshot tr, .raised _ => some (settle rt assistantId tr ∅)
  | .snapshot tr, .cancelled => some (onCancelled rt assistantId tr)
  | _, _ => none

end Execute

end AgentProtocol

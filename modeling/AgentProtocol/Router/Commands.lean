import AgentProtocol.Runner.Manager
import AgentProtocol.State.Snapshot
import AgentProtocol.Threads

/-!
# The command endpoint (`router.py`, `dispatch_command`)

A request is a coroutine. `Handler` says at which await it is suspended, and with
which of its local variables; each function below is the stretch of code from one
await to the next. An await of `registry.resolve` inside `manager.start` is that of
the manager's own model (`World.resolved`).
-/

namespace AgentProtocol

/-- The `result` of a success envelope. -/
inductive Result where
  | run (runId : String)
  | empty
  | state (state : ThreadState)

inductive Response where
  /-- 404 -/
  | notFound
  | success (id : Json) (result : Result)
  | error (id : Json) (code message : String)
  /-- 500: an exception leaves the handler -/
  | raised (exc : RunExc)

/-- The commands that read the state of the thread. -/
inductive StateCommand where
  | respond (interruptId : String) (response : Json)
  | get

inductive Handler where
  /-- at `request.json()` -/
  | body (record : ThreadRecord)
  /-- at `registry.resolve`, in `_state_graph` -/
  | stateGraph (id : Json) (command : StateCommand)
  /-- at `aget_state`; `read` are the interrupts it has found in the saver -/
  | stateRead (id : Json) (command : StateCommand) (read : Option (List String))
  /-- in `manager.start` -/
  | runStart (id : Json) (runId : String) (assistantId : Json)
  /-- in `manager.respond` -/
  | runResume (id : Json) (runId interruptId : String)
  | answered (response : Response)

/-- What `input.respond` answers: the envelope of a typed error; any other exception
leaves the handler. -/
def RunExc.envelope (rt : Runtime) (id : Json) : RunExc → Response
  | .runActive threadId runId =>
    .error id "invalid_argument" s!"thread {threadId} already has an active run ({runId})"
  | .unknownInterrupt threadId interruptId =>
    .error id "no_such_interrupt" s!"thread {threadId} has no pending interrupt {interruptId}"
  | .unknownAssistant assistantId known =>
    let registered := String.intercalate ", " known
    .error id "unknown_command"
      s!"unknown assistant_id {rt.repr assistantId} (registered: {registered})"
  | exc => .raised exc

/-- `run.start` does not expect an unknown interrupt. -/
def RunExc.startEnvelope (rt : Runtime) (id : Json) (exc : RunExc) : Response :=
  match exc with
  | .unknownInterrupt .. => .raised exc
  | _ => exc.envelope rt id

def noPendingInterrupt (id : Json) (interruptId : String) : Response :=
  .error id "no_such_interrupt" s!"no pending interrupt {interruptId}"

/-! ## `run.start` -/

/-- The arguments `run.start` hands to `manager.start`. -/
structure StartArgs where
  assistantId : Json
  input : Json
  config : Dict String Json
  metadata : Json

/-- `none` where `assistant_id` is missing. -/
def startArgs (record : ThreadRecord) (params : Json) : Except PyExc (Option StartArgs) := do
  let assistantId ← params.get "assistant_id"
  if !assistantId.truthy then return none
  let config ← ((← params.get "config").or (.obj [])).toDict
  let configurable ← (((config.get? "configurable").getD .null).or (.obj [])).toDict
  -- stamp stored metadata into configurable.session_metadata
  let configurable := configurable.set "session_metadata" (.obj record.metadata.entries)
  return some
    { assistantId, input := ← params.get "input"
      config := config.set "configurable" (.obj configurable.entries)
      metadata := ← params.get "metadata" }

def dispatchStart (rt : Runtime) (w : World) (threadId : String) (record : ThreadRecord)
    (id params : Json) (runId : String) : World × Handler :=
  match startArgs record params with
  | .error exc => (w, .answered (.raised (.other exc)))
  | .ok none => (w, .answered (.error id "invalid_argument" "missing assistant_id"))
  | .ok (some args) =>
    match w.start threadId args.assistantId.toValue (.input args.input) (some args.config)
        args.metadata runId with
    | (w, none) => (w, .runStart id runId args.assistantId)
    | (w, some exc) => (w, .answered (exc.startEnvelope rt id))

/-! ## `_state_graph` and `read_thread_state` -/

/-- `_thread_config` -/
def threadConfig (threadId : String) : Dict String Json :=
  .ofList [("configurable", .obj [("thread_id", .str threadId), ("checkpoint_ns", .str "")])]

/-- An exception out of `_state_graph`: `state.get` answers one of the typed errors. -/
def stateGraphRaised (threadId : String) (id : Json) : StateCommand → RunExc → Response
  | .get, .unknownAssistant .. =>
    .error id "unknown_command" s!"assistant for thread {threadId} is not registered"
  | _, exc => .raised exc

/-- Up to the await in `registry.resolve`. -/
def stateGraph (w : World) (store : MemoryThreadStore) (threadId : String) (id : Json)
    (command : StateCommand) : Handler :=
  match store.assistant threadId with
  | none =>
    match command with
    | .respond interruptId _ => .answered (noPendingInterrupt id interruptId)
    | .get => .answered (.success id (.state (emptyState threadId)))
  | some assistantId =>
    match findFactory w.factories (.str assistantId) with
    | .ok _ => .stateGraph id command
    | .error exc => .answered (stateGraphRaised threadId id command exc)

/-- The graph is there: read the state through it. -/
def graphResolved (threadId : String) (id : Json) (command : StateCommand) : Resolution → Handler
  | .graph graph =>
    if graph.hasGetState then .stateRead id command none
    else .answered (.raised (.other ⟨"AttributeError", "object has no attribute 'aget_state'"⟩))
  | .raised exc _ => .answered (stateGraphRaised threadId id command exc)
  | .cancelled => .answered (.raised .cancelled)

/-! ## `input.respond` -/

/-- The interrupt a response is for. -/
def interruptIdOf (rt : Runtime) (raw : Json) : String :=
  if raw.truthy then raw.toStr rt.repr else ""

/-- From the snapshot on, up to the await in `manager.respond`. -/
def dispatchRespond (rt : Runtime) (w : World) (store : MemoryThreadStore) (threadId : String)
    (id : Json) (interruptId : String) (response : Json) (pendingIds : List String)
    (runId : String) : World × Handler :=
  if interruptId ∈ pendingIds then
    match w.respond threadId interruptId response (store.assistant threadId) runId with
    | (w, none) => (w, .runResume id runId interruptId)
    | (w, some exc) => (w, .answered (exc.envelope rt id))
  else (w, .answered (noPendingInterrupt id interruptId))

/-- The ids of the interrupts of a snapshot, which are strings. -/
def Snapshot.interruptIds (snapshot : Snapshot) : Option (List String) :=
  snapshot.interrupts.mapM fun interrupt =>
    match interrupt.getattr "id" with
    | .str id => some id
    | _ => none

/-- A snapshot of a thread that waits for these interrupts. -/
def waitingSnapshot (interruptIds : List String) : Snapshot where
  values := ∅
  next := []
  checkpointId := none
  metadata := .dict []
  createdAt := .none
  tasks := []
  interrupts := interruptIds.map fun id => .obj "Interrupt" [("id", .str id), ("value", .none)] ""

theorem waitingSnapshot_interruptIds (ids : List String) :
    (waitingSnapshot ids).interruptIds = some ids := by
  unfold Snapshot.interruptIds waitingSnapshot
  induction ids with
  | nil => rfl
  | cons id ids ih =>
      rw [List.map_cons, List.mapM_cons, ih]
      rfl

/-- The snapshot is there: render it, and answer with it or go on to the manager. -/
def stateShown (rt : Runtime) (w : World) (store : MemoryThreadStore) (threadId : String)
    (id : Json) (command : StateCommand) (snapshot : Snapshot) (pendingIds : List String)
    (runId : String) : World × Handler :=
  match readThreadState rt snapshot (threadConfig threadId) with
  | .error exc => (w, .answered (.raised (.other exc)))
  | .ok state =>
    match command with
    | .get => (w, .answered (.success id (.state state)))
    | .respond interruptId response =>
      dispatchRespond rt w store threadId id interruptId response pendingIds runId

/-! ## `run.cancel` -/

/-- `manager.cancel` with a run id of any type. -/
def dispatchCancel (w : World) (threadId : String) : Json → World
  | .null => (w.cancel threadId none).1
  | .str runId => (w.cancel threadId (some runId)).1
  | _ => w

/-! ## The endpoint -/

/-- What a stretch of a handler leaves: the process, where the handler is, and the
interrupt it answers, where it is an `input.respond`. -/
structure Turn where
  world : World
  handler : Handler
  interrupt : Option String

/-- From the body of the request (`none` where it is no JSON) to the next await. -/
def dispatchCommand (rt : Runtime) (w : World) (store : MemoryThreadStore) (threadId : String)
    (record : ThreadRecord) (body : Option Json) (runId : String) : Turn :=
  let answer (response : Response) : Turn :=
    { world := w, handler := .answered response, interrupt := none }
  match body with
  | none => answer (.error .null "invalid_argument" "invalid JSON body")
  | some (.obj es) =>
    let body : Dict String Json := .ofList es
    let id := (body.get? "id").getD .null
    let method := (body.get? "method").getD .null
    let params := ((body.get? "params").getD .null).or (.obj [])
    match method with
    | .str "run.start" =>
      let r := dispatchStart rt w threadId record id params runId
      { world := r.1, handler := r.2, interrupt := none }
    | .str "input.respond" =>
      match params.get "interrupt_id", params.get "response" with
      | .ok raw, .ok response =>
        let interruptId := interruptIdOf rt raw
        if interruptId = "" then
          answer (.error id "invalid_argument" "missing interrupt_id")
        else
          { world := w
            handler := stateGraph w store threadId id (.respond interruptId response)
            interrupt := some interruptId }
      | .error exc, _ => answer (.raised (.other exc))
      | _, .error exc => answer (.raised (.other exc))
    | .str "run.cancel" =>
      match params.get "run_id" with
      | .error exc => answer (.raised (.other exc))
      | .ok run =>
        { world := dispatchCancel w threadId run, handler := .answered (.success id .empty)
          interrupt := none }
    | .str "state.get" =>
      { world := w, handler := stateGraph w store threadId id .get, interrupt := none }
    | method =>
      answer (.error id "unknown_command" s!"unsupported method: {method.toStr rt.repr}")
  | some _ => answer (.error .null "invalid_argument" "invalid command body")

end AgentProtocol

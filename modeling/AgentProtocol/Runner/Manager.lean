import AgentProtocol.Hub.Stream
import AgentProtocol.Runner.Execute

/-!
# The run manager (`runner.py`, `registry.py`)

`World` is the process: the manager's three dicts, the hubs, the `start`
coroutines suspended in graph resolution and the run tasks. One action is one
stretch of code between two awaits, so every interleaving of coroutines, tasks
and done-callbacks is a list of actions (`runSys`).

Object identity: a run id is drawn fresh, and a run's reserved entry and its real
one differ in `task`, so `is` on `ActiveRun` objects is equality of the two
fields. `drawn`, and `events` and `fed` of a task, are history: the ids drawn so
far, what a run published and how its awaits ended.
-/

namespace AgentProtocol

/-- The input of a graph run. -/
inductive GraphInput where
  | input (value : Json)
  /-- `Command(resume=response)` -/
  | resume (response : Json)

/-- How a call ends other than by returning. -/
inductive RunExc where
  | runActive (threadId runId : String)
  | unknownInterrupt (threadId interruptId : String)
  | unknownAssistant (assistantId : Value) (known : List String)
  /-- any other `Exception` -/
  | other (exc : PyExc)
  /-- `CancelledError`, which is not an `Exception` -/
  | cancelled

/-- How the awaited graph resolution ends. -/
inductive Resolution where
  | graph (graph : Graph)
  /-- the factory raises an `Exception`, which may be one of the typed ones -/
  | raised (exc : RunExc) (isException : exc ≠ .cancelled)
  /-- by `CancelledError`: the caller is cancelled, or the factory raises it -/
  | cancelled

structure ActiveRun where
  runId : String
  threadId : String
  assistantId : Value
  /-- the task, by the id of its run -/
  task : Option String

/-- A `start` coroutine suspended in `registry.resolve`. -/
structure Starting where
  threadId : String
  assistantId : String
  input : GraphInput
  config : Option (Dict String Json)
  metadata : Json

/-- The asyncio task of a run. -/
structure Task where
  threadId : String
  assistantId : String
  graph : Graph
  input : GraphInput
  config : Dict String Json
  phase : Phase
  cancelRequested : Bool
  /-- its done-callback has run -/
  cleared : Bool
  events : List EventData
  fed : List Awaited

/-- The payload of a run's envelopes: the wire data and, as history, its run. -/
structure Published where
  runId : String
  data : EventData

structure World where
  replaySize : Nat
  /-- the ids under which factories are registered -/
  factories : List String
  active : Dict String ActiveRun
  pendingInputs : Dict String (Dict String Value)
  lastAssistant : Dict String String
  hubs : Dict String (StreamHub Published)
  starting : Dict String Starting
  tasks : Dict String Task
  drawn : List String

/-! ## The config of a run -/

/-- The client's `configurable`, `{}` where there is none. -/
def clientConfigurable (config : Option (Dict String Json)) : Json :=
  let configurable := ((config.getD ∅).get? "configurable").getD .null
  if configurable.truthy then configurable else .obj []

/-- `run_config["metadata"] = {**run_config.get("metadata", {}), **metadata}` -/
def mergeMetadata (runConfig : Dict String Json) (metadata : Json) :
    Except PyExc (Dict String Json) :=
  if metadata.truthy then
    match ((runConfig.get? "metadata").getD (.obj [])).unpack, metadata.unpack with
    | .error exc, _ => .error exc
    | .ok _, .error exc => .error exc
    | .ok old, .ok new => .ok (runConfig.set "metadata" (.obj (old.update new.entries).entries))
  else .ok runConfig

/-- The config a run executes under. -/
def runConfig (threadId : String) (config : Option (Dict String Json)) (metadata : Json) :
    Except PyExc (Dict String Json) :=
  match (clientConfigurable config).unpack with
  | .error exc => .error exc
  | .ok client =>
    let configurable := (Dict.ofList [("thread_id", .str threadId)]).update client.entries
    let others := (config.getD ∅).erase "configurable"
    mergeMetadata
      ((Dict.ofList [("configurable", .obj configurable.entries)]).update others.entries) metadata

/-- `if self._active.get(thread_id) is entry: self._active.pop(thread_id, None)`,
for the entry of `runId` with this `task`. -/
def popIf (active : Dict String ActiveRun) (threadId runId : String) (task : Option String) :
    Dict String ActiveRun :=
  match active.get? threadId with
  | some a => if a.runId = runId ∧ a.task = task then active.erase threadId else active
  | none => active

/-! ## The registry -/

/-- `_factories.get(assistant_id)` and the check after it. -/
def findFactory (factories : List String) : Value → Except RunExc String
  | .str a =>
    if a ∈ factories then .ok a
    else .error (.unknownAssistant (.str a) (factories.insertionSort (· ≤ ·)))
  | .list _ => .error (.other ⟨"TypeError", "unhashable type: 'list'"⟩)
  | .dict _ => .error (.other ⟨"TypeError", "unhashable type: 'dict'"⟩)
  | .set _ => .error (.other ⟨"TypeError", "unhashable type: 'set'"⟩)
  | v => .error (.unknownAssistant v (factories.insertionSort (· ≤ ·)))

namespace World

def new (replaySize : Nat) : World :=
  { replaySize, factories := [], active := ∅, pendingInputs := ∅, lastAssistant := ∅, hubs := ∅,
    starting := ∅, tasks := ∅, drawn := [] }

def register (w : World) (assistantId : String) : World :=
  { w with factories := if assistantId ∈ w.factories then w.factories
                        else w.factories ++ [assistantId] }

/-- `hubs.hub(thread_id)` -/
def hub (w : World) (threadId : String) : StreamHub Published :=
  (w.hubs.get? threadId).getD (.new w.replaySize)

/-! ## `start` -/

/-- `existing.task is None or not existing.task.done()` -/
def busy (w : World) (existing : ActiveRun) : Bool :=
  match existing.task with
  | none => true
  | some id =>
    match w.tasks.get? id with
    | some task => !task.phase.isDone
    | none => false

/-- Reserve the slot and call `registry.resolve` up to its first await. -/
def reserve (w : World) (threadId : String) (assistantId : Value) (input : GraphInput)
    (config : Option (Dict String Json)) (metadata : Json) (runId : String) :
    World × Option RunExc :=
  let reserved : ActiveRun := { runId, threadId, assistantId, task := none }
  let w := { w with active := w.active.set threadId reserved, drawn := runId :: w.drawn }
  match findFactory w.factories assistantId with
  | .error exc => ({ w with active := popIf w.active threadId runId none }, some exc)
  | .ok assistantId =>
    ({ w with
        starting := w.starting.set runId { threadId, assistantId, input, config, metadata } },
      none)

/-- `start` up to its first await: raise, or suspend in graph resolution. -/
def start (w : World) (threadId : String) (assistantId : Value) (input : GraphInput)
    (config : Option (Dict String Json)) (metadata : Json) (runId : String) :
    World × Option RunExc :=
  match w.active.get? threadId with
  | some existing =>
    if w.busy existing then (w, some (.runActive threadId existing.runId))
    else w.reserve threadId assistantId input config metadata runId
  | none => w.reserve threadId assistantId input config metadata runId

/-- The task is created and takes the slot. -/
def launch (w : World) (runId : String) (s : Starting) (graph : Graph)
    (config : Dict String Json) : World :=
  { w with
    starting := w.starting.erase runId
    pendingInputs := w.pendingInputs.erase s.threadId
    lastAssistant := w.lastAssistant.set s.threadId s.assistantId
    active := w.active.set s.threadId
      { runId, threadId := s.threadId, assistantId := .str s.assistantId, task := some runId }
    tasks := w.tasks.set runId
      { threadId := s.threadId, assistantId := s.assistantId, graph, input := s.input, config,
        phase := .created, cancelRequested := false, cleared := false, events := [], fed := [] } }

/-- The rest of `start`, once the awaited resolution has ended. -/
def resolved (w : World) (runId : String) (outcome : Resolution) :
    Option (World × Option RunExc) :=
  match w.starting.get? runId with
  | none => none
  | some s =>
    let gone := { w with starting := w.starting.erase runId }
    match outcome with
    | .raised exc _ =>
      some ({ gone with active := popIf gone.active s.threadId runId none }, some exc)
    -- `except Exception` does not see a cancellation
    | .cancelled => some (gone, some .cancelled)
    | .graph graph =>
      match runConfig s.threadId s.config s.metadata with
      | .error exc => some (gone, some (.other exc))
      | .ok config => some (w.launch runId s graph config, none)

/-! ## `respond` and `cancel` -/

/-- The assistant a response resumes. -/
def resumeAssistant (pending : Dict String Value) (assistantId : Option String) : Value :=
  match strOr assistantId none with
  | some a => .str a
  | none => ((pending.get? "assistant_id").getD .none).or (.str "")

def respond (w : World) (threadId interruptId : String) (response : Json)
    (assistantId : Option String) (runId : String) : World × Option RunExc :=
  match w.pendingInputs.get? threadId with
  | some pending =>
    if pending.contains interruptId then
      w.start threadId (resumeAssistant pending assistantId) (.resume response) none .null runId
    else (w, some (.unknownInterrupt threadId interruptId))
  | none =>
    match strOr assistantId none with
    -- the interrupt lives in the thread's checkpoints
    | some a => w.start threadId (.str a) (.resume response) none .null runId
    | none => (w, some (.unknownInterrupt threadId interruptId))

/-- Cancel the active run; the result says whether there was one. -/
def cancel (w : World) (threadId : String) (runId : Option String) : World × Bool :=
  match w.active.get? threadId with
  | none => (w, false)
  | some a =>
    match a.task with
    | none => (w, false)
    | some id =>
      if runId.all (· = a.runId) then
        match w.tasks.get? id with
        | some task =>
          if task.phase.isDone then (w, true)
          else ({ w with tasks := w.tasks.set id { task with cancelRequested := true } }, true)
        | none => (w, true)
      else (w, false)

/-! ## The tasks -/

/-- Publish a run's events on a hub, in order. -/
def publishAll (rt : Runtime) (threadId runId : String) (h : StreamHub Published)
    (events : List EventData) : StreamHub Published :=
  events.foldl (fun h e =>
    h.publish e.method { runId, data := e } none none none (rt.nowMs threadId (h.hub.seq + 1))) h

/-- The pending map of a run: its assistant and its interrupts. -/
def pendingOf (assistantId : String) (interrupts : List (String × Value)) : Dict String Value :=
  (Dict.ofList [("assistant_id", .str assistantId)]).update interrupts

/-- The effects of a stretch of a task. -/
def perform (rt : Runtime) (w : World) (id : String) (task : Task) (s : TaskStep) : World :=
  { w with
    tasks := w.tasks.set id { task with phase := s.phase, events := task.events ++ s.events }
    hubs := w.hubs.set task.threadId (publishAll rt task.threadId id (w.hub task.threadId) s.events)
    pendingInputs :=
      match s.pending with
      | none => w.pendingInputs
      | some interrupts =>
        w.pendingInputs.set task.threadId (pendingOf task.assistantId interrupts) }

/-- The first step of a task. One that was cancelled before it never executes any
of its body. -/
def begin (rt : Runtime) (w : World) (id : String) : Option World :=
  match w.tasks.get? id with
  | none => none
  | some task =>
    match task.phase with
    | .created =>
      if task.cancelRequested then
        some { w with tasks := w.tasks.set id { task with phase := .done } }
      else some (w.perform rt id task (onStart task.assistantId))
    | _ => none

/-- A later step of a task. -/
def resumeTask (rt : Runtime) (w : World) (id : String) (awaited : Awaited) : Option World :=
  match w.tasks.get? id with
  | none => none
  | some task =>
    (resume rt task.assistantId task.graph task.phase awaited).map fun s =>
      w.perform rt id { task with fed := task.fed ++ [awaited] } s

/-- The done-callback of a task: pop the slot if the run is still in it. -/
def callback (w : World) (id : String) : Option World :=
  match w.tasks.get? id with
  | none => none
  | some task =>
    if task.phase.isDone ∧ task.cleared = false then
      some { w with
        tasks := w.tasks.set id { task with cleared := true }
        active := popIf w.active task.threadId id (some id) }
    else none

end World

/-! ## The system -/

inductive Act where
  | register (assistantId : String)
  | start (threadId : String) (assistantId : Value) (input : Json)
      (config : Option (Dict String Json)) (metadata : Json) (runId : String)
  | respond (threadId interruptId : String) (response : Json) (assistantId : Option String)
      (runId : String)
  | resolved (runId : String) (outcome : Resolution)
  | cancel (threadId : String) (runId : Option String)
  | begin (id : String)
  | resume (id : String) (awaited : Awaited)
  | callback (id : String)
  /-- a step of the `/stream` responses of a thread -/
  | stream (threadId : String) (act : StreamAct Published)

/-- The effect of an action; a run id that is drawn is a fresh one. -/
def World.step (rt : Runtime) (w : World) : Act → Option World
  | .register assistantId => some (w.register assistantId)
  | .start threadId assistantId input config metadata runId =>
    if runId ∈ w.drawn then none
    else some (w.start threadId assistantId (.input input) config metadata runId).1
  | .respond threadId interruptId response assistantId runId =>
    if runId ∈ w.drawn then none
    else some (w.respond threadId interruptId response assistantId runId).1
  | .resolved runId outcome => (w.resolved runId outcome).map Prod.fst
  | .cancel threadId runId => some (w.cancel threadId runId).1
  | .begin id => w.begin rt id
  | .resume id awaited => w.resumeTask rt id awaited
  | .callback id => w.callback id
  | .stream threadId act =>
    if act.isPublish then none
    else
      ((w.hub threadId).step act).map fun h => { w with hubs := w.hubs.set threadId h }

/-- Every interleaving of the process, from its start. -/
def runSys (rt : Runtime) (replaySize : Nat) : TSys World Act where
  init w := w = .new replaySize
  step w a := w.step rt a

end AgentProtocol

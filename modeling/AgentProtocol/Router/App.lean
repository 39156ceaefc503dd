import AgentProtocol.Router.Commands
import AgentProtocol.Runner.Slot

/-!
# The service (`router.py`, `dispatch_command` and its callers)

`App` is the process with the thread store, the interrupts that are pending in the
saver of each thread, and the requests under way. An action is a stretch of one
handler between two awaits, a step of the process that no handler takes, or a write
of a graph to its saver, so every interleaving of requests and runs is a list of
actions (`appSys`).

`answers` is history: which request, on which thread and for which interrupt, a run
was created to answer.

`AppStep` lists what an action can do; `AppStep.world` says that the process
below takes its own steps (`appSys_simulates`).
-/

namespace AgentProtocol

/-- A command request. -/
structure Request where
  threadId : String
  /-- the interrupt it answers, where it is an `input.respond` -/
  interrupt : Option String
  handler : Handler

/-- What a run was created to answer. -/
structure Answer where
  request : Nat
  threadId : String
  interruptId : String
  deriving DecidableEq

structure App where
  world : World
  store : MemoryThreadStore
  /-- the interrupts pending in the checkpoints of a thread -/
  saver : Dict String (List String)
  requests : Dict Nat Request
  answers : Dict String Answer

inductive AppAct
  /-- `POST /threads` -/
  | create (threadId now : String) (metadata : Dict String Json)
  /-- `POST /threads/{thread_id}/commands`, up to the await of the body -/
  | request (id : Nat) (threadId : String)
  | body (id : Nat) (body : Option Json) (runId : String)
  | graph (id : Nat) (outcome : Resolution)
  /-- `aget_state` reads the saver -/
  | read (id : Nat)
  /-- `aget_state` returns a snapshot with the interrupts it has read, or raises -/
  | state (id : Nat) (outcome : Except PyExc Snapshot) (runId : String)
  /-- the resolution inside `manager.start` ends -/
  | started (id : Nat) (outcome : Resolution) (now : String)
  /-- `POST /threads/{thread_id}/runs/{run_id}/cancel` -/
  | cancelRun (threadId runId : String)
  /-- a graph writes a checkpoint -/
  | checkpoint (threadId : String) (interrupts : List String)
  /-- a step of the process outside the handlers -/
  | world (act : Act)

/-- The answer to a cancel request. -/
inductive CancelAnswer where
  | notFound
  | reported (runId status : String)
  deriving DecidableEq

/-- Steps of the process that are no part of a request. -/
def Act.isInternal : Act → Bool
  | .register _ => true
  | .begin _ => true
  | .resume _ _ => true
  | .callback _ => true
  | .stream _ _ => true
  | _ => false

namespace App

/-- A handler has moved on to its next await. -/
def put (a : App) (id : Nat) (req : Request) (world : World) : App :=
  { a with world, requests := a.requests.set id req }

/-- `thread_store.set_assistant(thread_id, assistant_id)` -/
def bind (a : App) (threadId : String) (assistantId : Json) (now : String) : App :=
  match assistantId with
  | .str s => { a with store := a.store.setAssistant threadId s now }
  | _ => a

/-- The request asks the task of this run to cancel, and what it answers. -/
def cancelRun (a : App) (threadId runId : String) : App × CancelAnswer :=
  match a.store.get threadId with
  | none => (a, .notFound)
  | some _ =>
    let world := (a.world.cancel threadId (some runId)).1
    let status :=
      match world.active.get? threadId with
      | none => "interrupted"
      | some _ => "cancelling"
    ({ a with world }, .reported runId status)

theorem cancelRun_requests (a : App) (threadId runId : String) :
    (a.cancelRun threadId runId).1.requests = a.requests := by
  unfold cancelRun
  split <;> rfl

def step (rt : Runtime) (a : App) : AppAct → Option App
  | .create threadId now metadata =>
    if a.store.threads.contains threadId then none
    else some { a with store := (a.store.create threadId now metadata).2 }
  | .request id threadId =>
    if a.requests.contains id then none
    else
      match a.store.get threadId with
      | none =>
        some (a.put id { threadId, interrupt := none, handler := .answered .notFound } a.world)
      | some record =>
        some (a.put id { threadId, interrupt := none, handler := .body record } a.world)
  | .body id body runId =>
    match a.requests.get? id with
    | some ⟨threadId, _, .body record⟩ =>
      if runId ∈ a.world.drawn then none
      else
        let turn := dispatchCommand rt a.world a.store threadId record body runId
        some (a.put id { threadId, interrupt := turn.interrupt, handler := turn.handler }
          turn.world)
    | _ => none
  | .graph id outcome =>
    match a.requests.get? id with
    | some ⟨threadId, interrupt, .stateGraph cmdId command⟩ =>
      let handler := graphResolved threadId cmdId command outcome
      some (a.put id { threadId, interrupt, handler } a.world)
    | _ => none
  | .read id =>
    match a.requests.get? id with
    | some ⟨threadId, interrupt, .stateRead cmdId command _⟩ =>
      let ids := (a.saver.get? threadId).getD []
      some (a.put id { threadId, interrupt, handler := .stateRead cmdId command (some ids) }
        a.world)
    | _ => none
  | .state id outcome runId =>
    match a.requests.get? id with
    | some ⟨threadId, interrupt, .stateRead cmdId command read⟩ =>
      match outcome, read with
      | .error exc, _ =>
        some (a.put id { threadId, interrupt, handler := .answered (.raised (.other exc)) } a.world)
      | .ok _, none => none
      | .ok snapshot, some ids =>
        if runId ∈ a.world.drawn ∨ snapshot.interruptIds ≠ some ids then none
        else
          let r := stateShown rt a.world a.store threadId cmdId command snapshot ids runId
          some (a.put id { threadId, interrupt, handler := r.2 } r.1)
    | _ => none
  | .started id outcome now =>
    match a.requests.get? id with
    | some ⟨threadId, interrupt, .runStart cmdId runId assistantId⟩ =>
      match a.world.resolved runId outcome with
      | none => none
      | some (w, some exc) =>
        some (a.put id { threadId, interrupt, handler := .answered (exc.startEnvelope rt cmdId) } w)
      | some (w, none) =>
        some ((a.put id
          { threadId, interrupt, handler := .answered (.success cmdId (.run runId)) } w).bind
            threadId assistantId now)
    | some ⟨threadId, interrupt, .runResume cmdId runId interruptId⟩ =>
      match a.world.resolved runId outcome with
      | none => none
      | some (w, some exc) =>
        some (a.put id { threadId, interrupt, handler := .answered (exc.envelope rt cmdId) } w)
      | some (w, none) =>
        some { a.put id
            { threadId, interrupt, handler := .answered (.success cmdId (.run runId)) } w with
          answers := a.answers.set runId { request := id, threadId, interruptId } }
    | _ => none
  | .cancelRun threadId runId => some (a.cancelRun threadId runId).1
  | .checkpoint threadId interrupts =>
    some { a with saver := a.saver.set threadId interrupts }
  | .world act =>
    if act.isInternal then (a.world.step rt act).map fun world => { a with world }
    else none

end App

/-- The service from the start of its process. The store and the savers are those
of an earlier process. -/
def appSys (rt : Runtime) (replaySize : Nat) : TSys App AppAct where
  init a := a.world = .new replaySize ∧ a.requests = ∅ ∧ a.answers = ∅
  step a act := a.step rt act

/-- A service that has no threads yet. -/
def service : App :=
  { world := .new 500, store := ⟨∅⟩, saver := ∅, requests := ∅, answers := ∅ }

end AgentProtocol

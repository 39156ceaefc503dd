import AgentProtocol.Router.Commands
import AgentProtocol.State.History

/-!
# The read endpoints (`router.py`, `get_state`, `_history`)

Each of them awaits twice: `outcome` is how `registry.resolve` ends, and the snapshot or the
checkpointer is what the graph then gives. Both reads are made with `threadConfig`, which
names the thread and no checkpoint.
-/

namespace AgentProtocol

inductive ReadAnswer (α : Type) where
  | ok (content : α)
  | detail (status : Nat) (text : String)
  /-- 500: an exception leaves the handler -/
  | raised (exc : RunExc)

/-- `_state_graph` -/
def readGraph (factories : List String) (store : MemoryThreadStore) (threadId : String)
    (outcome : Resolution) : Except RunExc (Option Graph) :=
  match store.assistant threadId with
  | none => .ok none
  | some assistantId =>
    match findFactory factories (.str assistantId), outcome with
    | .error exc, _ => .error exc
    | .ok _, .graph graph => .ok (some graph)
    | .ok _, .raised exc _ => .error exc
    | .ok _, .cancelled => .error .cancelled

/-- An exception out of `_state_graph`. -/
def RunExc.readAnswer {α : Type} : RunExc → ReadAnswer α
  | .unknownAssistant .. => .detail 404 "thread not found"
  | exc => .raised exc

/-- What a reader of `state.py` returns or raises. -/
def ReadAnswer.of {α : Type} : Except PyExc α → ReadAnswer α
  | .ok content => .ok content
  | .error exc => .raised (.other exc)

def getState (rt : Runtime) (factories : List String) (store : MemoryThreadStore)
    (threadId : String) (outcome : Resolution) (snapshot : Except PyExc Snapshot) :
    ReadAnswer ThreadState :=
  match store.get threadId with
  | none => .detail 404 "thread not found"
  | some _ =>
    match readGraph factories store threadId outcome with
    | .error exc => exc.readAnswer
    | .ok none => .ok (emptyState threadId)
    | .ok (some graph) =>
      if graph.hasGetState then
        .of (snapshot.bind fun snapshot => readThreadState rt snapshot (threadConfig threadId))
      else .raised (.other ⟨"AttributeError", "object has no attribute 'aget_state'"⟩)

/-- The cursor of a request, which may be a full config. -/
def cursorOf (before : Json) : Except PyExc (Option String) := do
  let before ←
    match before with
    | .obj es =>
      ((((Dict.ofList es).get? "configurable").getD .null).or (.obj [])).get "checkpoint_id"
    | x => .ok x
  match before with
  | .str s => return some s
  | _ => return none

def history (rt : Runtime) (factories : List String) (store : MemoryThreadStore)
    (threadId : String) (limit : Int) (before : Json) (outcome : Resolution)
    (checkpointer : Option Saver) : ReadAnswer (List Entry) :=
  match store.get threadId with
  | none => .detail 404 "thread not found"
  | some _ =>
    if limit < 1 then .detail 422 "limit must be >= 1"
    else
      match cursorOf before with
      | .error exc => .raised (.other exc)
      | .ok before =>
        match readGraph factories store threadId outcome with
        | .error exc => exc.readAnswer
        | .ok none => .ok []
        | .ok (some _) => .of (readThreadHistory rt checkpointer limit.toNat before)

/-- `GET /threads/{thread_id}/history` -/
def getHistory (rt : Runtime) (factories : List String) (store : MemoryThreadStore)
    (threadId : String) (limit : Int) (before : Option String) (outcome : Resolution)
    (checkpointer : Option Saver) : ReadAnswer (List Entry) :=
  history rt factories store threadId limit ((before.map Json.str).getD .null) outcome checkpointer

/-- The body of a search: `none` where it is no JSON. -/
def searchBody : Option Json → Dict String Json
  | some (.obj es) => .ofList es
  | _ => ∅

def searchLimit (body : Dict String Json) : Int :=
  match body.get? "limit" with
  | some (.int i) => i
  -- a `bool` is an `int`
  | some (.bool b) => if b then 1 else 0
  | _ => 10

/-- `POST /threads/{thread_id}/history` -/
def searchHistory (rt : Runtime) (factories : List String) (store : MemoryThreadStore)
    (threadId : String) (payload : Option Json) (outcome : Resolution)
    (checkpointer : Option Saver) : ReadAnswer (List Entry) :=
  let body := searchBody payload
  history rt factories store threadId (searchLimit body) ((body.get? "before").getD .null) outcome
    checkpointer

end AgentProtocol

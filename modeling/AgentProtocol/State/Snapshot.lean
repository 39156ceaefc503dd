import AgentProtocol.State.Serialize

/-!
# Thread state (`state.py`, `read_thread_state`)

`aget_state` returns a snapshot, and the reader renders it, if it can iterate over what its
tasks have (`Snapshot.isReadable`). The checkpoint pointers of the result are read off the
config of the request, not off the snapshot.
-/

namespace AgentProtocol

/-- `getattr(value, name, default)` -/
def Value.getattrOr (name : String) (default : Value) : Value → Value
  | .obj _ attrs _ | .bare _ attrs _ => (Entries.get? name attrs).getD default
  | _ => default

/-- `x.get(key, default)` -/
def Json.getOr (x : Json) (key : String) (default : Json) : Except PyExc Json :=
  match x with
  | .obj es => .ok (((Dict.ofList es).get? key).getD default)
  | x => .error ⟨"AttributeError", s!"'{x.typeName}' object has no attribute 'get'"⟩

/-- `created_at` of a snapshot. -/
inductive CreatedAt where
  | none
  | text (s : String)
  /-- a `datetime`, by its `isoformat()` -/
  | datetime (isoformat : String)

/-- What `aget_state` returns. -/
structure Snapshot where
  values : Dict String Value
  next : List String
  /-- the checkpoint id in the `configurable` of its config -/
  checkpointId : Option String
  metadata : Value
  createdAt : CreatedAt
  tasks : List Value
  interrupts : List Value

structure InterruptDict where
  id : Value
  value : Value

structure TaskDict where
  id : Value
  name : Value
  path : List Value
  error : Value
  interrupts : List InterruptDict

structure CheckpointDict where
  checkpointId : Json
  threadId : Json
  checkpointNs : Json

/-- The state a state endpoint returns. -/
structure ThreadState where
  values : Dict String Value
  next : List String
  tasks : List TaskDict
  metadata : Value
  createdAt : Option String
  checkpoint : CheckpointDict
  parentCheckpoint : Json := .null
  interrupts : List InterruptDict
  checkpointId : Json
  parentCheckpointId : Json := .null

/-- Wire-shaped state for untouched threads. -/
def emptyState (threadId : String) : ThreadState where
  values := ∅
  next := []
  tasks := []
  metadata := .dict []
  createdAt := none
  checkpoint := { checkpointId := .null, threadId := .str threadId, checkpointNs := .str "" }
  interrupts := []
  checkpointId := .null

def interruptDict (interrupt : Value) : InterruptDict :=
  { id := interrupt.getattr "id", value := toJsonable (interrupt.getattr "value") }

def taskDict (task : Value) : Except PyExc TaskDict := do
  let path ← ((task.getattrOr "path" (.tuple [])).or (.tuple [])).iter
  let interrupts ← (task.getattrOr "interrupts" (.tuple [])).iter
  return { id := task.getattr "id", name := task.getattr "name", path
           error := toJsonable (task.getattr "error"), interrupts := interrupts.map interruptDict }

def CreatedAt.render : CreatedAt → Option String
  | .none => Option.none
  | .text s => some s
  | .datetime isoformat => some isoformat

/-- Render the snapshot that `aget_state` returned for this config. -/
def readThreadState (rt : Runtime) (snapshot : Snapshot) (config : Dict String Json) :
    Except PyExc ThreadState := do
  let values := serializeValues rt snapshot.values
  let interrupts := snapshot.interrupts.map interruptDict
  let tasks ← snapshot.tasks.mapM taskDict
  let threadConfig := ((config.get? "configurable").getD .null).or (.obj [])
  return {
    values
    next := snapshot.next
    tasks
    metadata := snapshot.metadata
    createdAt := snapshot.createdAt.render
    checkpoint := {
      checkpointId := ← threadConfig.get "checkpoint_id"
      threadId := ← threadConfig.get "thread_id"
      checkpointNs := ← threadConfig.getOr "checkpoint_ns" (.str "") }
    interrupts
    checkpointId := ← threadConfig.get "checkpoint_id" }

/-! ## Snapshots that can be read -/

/-- The items of `for x in value`; none where it raises. -/
def Value.items (value : Value) : List Value :=
  match value.iter with
  | .ok xs => xs
  | .error _ => []

/-- `for x in value` does not raise. -/
def Value.isIterable (value : Value) : Bool :=
  match value.iter with
  | .ok _ => true
  | .error _ => false

/-- What the path of a task is read from. -/
def Value.taskPath (task : Value) : Value := (task.getattrOr "path" (.tuple [])).or (.tuple [])

def Value.taskInterrupts (task : Value) : Value := task.getattrOr "interrupts" (.tuple [])

/-- The path of every task, where it is truthy, and its interrupts can be iterated over. -/
def Snapshot.isReadable (snapshot : Snapshot) : Bool :=
  snapshot.tasks.all fun task => task.taskPath.isIterable && task.taskInterrupts.isIterable

theorem Value.iter_cases (value : Value) :
    (value.isIterable = true ∧ value.iter = .ok value.items) ∨
      (value.isIterable = false ∧ ∃ exc, value.iter = .error exc) := by
  unfold isIterable items
  cases value.iter with
  | ok xs => exact .inl ⟨rfl, rfl⟩
  | error exc => exact .inr ⟨rfl, exc, rfl⟩

/-- What a task that can be read is shown as. -/
def Value.shownTask (task : Value) : TaskDict where
  id := task.getattr "id"
  name := task.getattr "name"
  path := task.taskPath.items
  error := toJsonable (task.getattr "error")
  interrupts := task.taskInterrupts.items.map interruptDict

theorem taskDict_cases (task : Value) :
    ((task.taskPath.isIterable && task.taskInterrupts.isIterable) = true ∧
        taskDict task = .ok task.shownTask) ∨
      ((task.taskPath.isIterable && task.taskInterrupts.isIterable) = false ∧
        ∃ exc, taskDict task = .error exc) := by
  have htask : taskDict task = do
      let path ← task.taskPath.iter
      let interrupts ← task.taskInterrupts.iter
      return { id := task.getattr "id", name := task.getattr "name", path,
               error := toJsonable (task.getattr "error"),
               interrupts := interrupts.map interruptDict } := rfl
  rw [htask]
  rcases task.taskPath.iter_cases with ⟨hp, hpath⟩ | ⟨hp, exc, hpath⟩
  · rcases task.taskInterrupts.iter_cases with ⟨hi, hinterrupts⟩ | ⟨hi, exc, hinterrupts⟩
    · rw [hp, hi, hpath, hinterrupts]
      exact .inl ⟨rfl, rfl⟩
    · rw [hp, hi, hpath, hinterrupts]
      exact .inr ⟨rfl, exc, rfl⟩
  · rw [hp, hpath]
    exact .inr ⟨rfl, exc, rfl⟩

theorem mapM_taskDict_cases (tasks : List Value) :
    ((tasks.all fun task => task.taskPath.isIterable && task.taskInterrupts.isIterable) = true ∧
        tasks.mapM taskDict = .ok (tasks.map Value.shownTask)) ∨
      ((tasks.all fun task => task.taskPath.isIterable && task.taskInterrupts.isIterable) = false ∧
        ∃ exc, tasks.mapM taskDict = .error exc) := by
  induction tasks with
  | nil => exact .inl ⟨rfl, rfl⟩
  | cons task tasks ih =>
      rw [List.all_cons, List.mapM_cons, List.map_cons]
      rcases taskDict_cases task with ⟨ht, htask⟩ | ⟨ht, exc, htask⟩
      · rcases ih with ⟨hall, htasks⟩ | ⟨hall, exc, htasks⟩
        · rw [ht, hall, htask, htasks]
          exact .inl ⟨rfl, rfl⟩
        · rw [ht, hall, htask, htasks]
          exact .inr ⟨rfl, exc, rfl⟩
      · rw [ht, htask]
        exact .inr ⟨rfl, exc, rfl⟩

/-! ## What a state is read from -/

/-- The interrupts of a state are those of the snapshot. Both its pointers are the entry of the
config it was asked with. -/
theorem readThreadState_eq_ok {rt : Runtime} {snapshot : Snapshot} {config : Dict String Json}
    {state : ThreadState} (h : readThreadState rt snapshot config = .ok state) :
    state.interrupts = snapshot.interrupts.map interruptDict ∧
      (((config.get? "configurable").getD .null).or (.obj [])).get "checkpoint_id" =
        .ok state.checkpointId ∧
      state.checkpoint.checkpointId = state.checkpointId := by
  -- the fields are read off the config in this order, the pointer twice
  obtain ⟨tasks, -, h⟩ := Except.bind_ok h
  obtain ⟨pointer, hpointer, h⟩ := Except.bind_ok h
  obtain ⟨threadId, -, h⟩ := Except.bind_ok h
  obtain ⟨ns, -, h⟩ := Except.bind_ok h
  obtain ⟨pointer', hpointer', h⟩ := Except.bind_ok h
  obtain rfl := Except.ok.inj (hpointer.symm.trans hpointer')
  obtain rfl := Except.ok.inj h
  exact ⟨rfl, hpointer, rfl⟩

end AgentProtocol

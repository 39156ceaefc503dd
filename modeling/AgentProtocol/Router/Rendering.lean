import AgentProtocol.Router.Commands
import AgentProtocol.Router.Wire

/-!
# What a response sends (`router.py`, `error_envelope`, `success_envelope`)

A `JSONResponse` renders its content when it is made, with `json.dumps(allow_nan=False)`: it
refuses what `json.dumps` refuses and every float that is not finite (`refused`). Then the
exception leaves the handler in the place of the envelope (`Response.sent`). What that asks of
a snapshot is `Snapshot.answers`.
-/

namespace AgentProtocol

/-! ## `json.dumps(x, allow_nan=False)` -/

/-- The floats that JSON can express. -/
def isFiniteRepr (repr : String) : Bool := repr != "nan" && repr != "inf" && repr != "-inf"

def outOfRange : PyExc := ⟨"ValueError", "Out of range float values are not JSON compliant"⟩

section Refused

variable (limit : Nat)

def refusedKey : Value → Option PyExc
  | .float r => if isFiniteRepr r then none else some outOfRange
  | k =>
    match keyText limit k with
    | .ok _ => none
    | .error exc => some exc

mutual

/-- What the rendering of a value raises. -/
def refused : Value → Option PyExc
  | .none => none
  | .bool _ => none
  | .int i => if printable limit i then none else some (tooManyDigits limit)
  | .float r => if isFiniteRepr r then none else some outOfRange
  | .str _ => none
  | .list xs => refusedList xs
  | .tuple xs => refusedList xs
  | .dict items => refusedItems items
  | .set xs => some (notSerializable (.set xs))
  | .obj cls attrs text => some (notSerializable (.obj cls attrs text))
  | .bare cls slots text => some (notSerializable (.bare cls slots text))

def refusedList : List Value → Option PyExc
  | [] => none
  | x :: xs => (refused x).or (refusedList xs)

def refusedItems : List (Value × Value) → Option PyExc
  | [] => none
  | (k, v) :: items => (refusedKey limit k).or ((refused v).or (refusedItems items))

end

/-- The value can be rendered. -/
def renders (v : Value) : Bool := (refused limit v).isNone

end Refused

/-! ## The content of a response -/

def InterruptDict.toValue (d : InterruptDict) : Value :=
  strDict [("id", d.id), ("value", d.value)]

def TaskDict.toValue (d : TaskDict) : Value :=
  strDict [("id", d.id), ("name", d.name), ("path", .list d.path), ("error", d.error),
    ("interrupts", .list (d.interrupts.map InterruptDict.toValue))]

def CheckpointDict.toValue (d : CheckpointDict) : Value :=
  strDict [("checkpoint_id", d.checkpointId.toValue), ("thread_id", d.threadId.toValue),
    ("checkpoint_ns", d.checkpointNs.toValue)]

/-- The dict that `read_thread_state` returns. -/
def ThreadState.toValue (state : ThreadState) : Value :=
  strDict [("values", .ofDict state.values), ("next", .list (state.next.map .str)),
    ("tasks", .list (state.tasks.map TaskDict.toValue)), ("metadata", state.metadata),
    ("created_at", strOrNone state.createdAt), ("checkpoint", state.checkpoint.toValue),
    ("parent_checkpoint", state.parentCheckpoint.toValue),
    ("interrupts", .list (state.interrupts.map InterruptDict.toValue)),
    ("checkpoint_id", state.checkpointId.toValue),
    ("parent_checkpoint_id", state.parentCheckpointId.toValue)]

def Result.toValue : Result → Value
  | .run runId => strDict [("run_id", .str runId)]
  | .empty => .dict []
  | .state shown => shown.toValue

/-- The content of a success envelope. -/
def successContent (id : Json) (result : Result) : Value :=
  strDict [("type", .str "success"), ("id", id.toValue), ("result", result.toValue)]

/-- The content of an error envelope. -/
def errorContent (id : Json) (code message : String) : Value :=
  strDict [("type", .str "error"), ("id", id.toValue), ("error", .str code),
    ("message", .str message)]

/-! ## Snapshots a command can answer with -/

section Snapshots

variable (rt : Runtime) (limit : Nat)

/-- What is shown of an interrupt can be rendered. -/
def rendersInterrupt (interrupt : Value) : Bool :=
  renders limit (interrupt.getattr "id") &&
    renders limit (toJsonable (interrupt.getattr "value"))

def rendersTask (task : Value) : Bool :=
  renders limit (task.getattr "id") && renders limit (task.getattr "name") &&
    task.taskPath.items.all (renders limit) &&
    renders limit (toJsonable (task.getattr "error")) &&
    task.taskInterrupts.items.all (rendersInterrupt limit)

/-- What a state shows of the snapshot can be rendered. -/
def Snapshot.rendersState (snapshot : Snapshot) : Bool :=
  renders limit (.ofDict (serializeValues rt snapshot.values)) &&
    snapshot.tasks.all (rendersTask limit) && renders limit snapshot.metadata &&
    snapshot.interrupts.all (rendersInterrupt limit)

/-- The snapshot can be read, and what it shows rendered where the command asks for it. -/
def Snapshot.answers (asks : Bool) (snapshot : Snapshot) : Bool :=
  snapshot.isReadable && (!asks || snapshot.rendersState rt limit)

/-- A NaN in a channel: the state can be read, and it cannot be rendered. -/
example : Snapshot.answers .inert 4300 true
    { waitingSnapshot [] with values := .ofList [("score", .float "nan")] } = false := rfl

variable {limit}

theorem isNone_or (x y : Option PyExc) : (x.or y).isNone = (x.isNone && y.isNone) := by
  cases x <;> cases y <;> rfl

/-- A dict whose keys are strings. -/
theorem renders_strDict (es : List (String × Value)) :
    renders limit (strDict es) = es.all fun e => renders limit e.2 := by
  show (refusedItems limit (es.map _)).isNone = _
  induction es with
  | nil => rfl
  | cons e es ih =>
      rw [List.map_cons, List.all_cons, ← ih, refusedItems, isNone_or, isNone_or]
      rfl

theorem renders_list (xs : List Value) : renders limit (.list xs) = xs.all (renders limit) := by
  show (refusedList limit xs).isNone = _
  induction xs with
  | nil => rfl
  | cons x xs ih =>
      rw [List.all_cons, ← ih, refusedList, isNone_or]
      rfl

theorem renders_interruptDict (interrupt : Value) :
    renders limit (interruptDict interrupt).toValue = rendersInterrupt limit interrupt := by
  rw [InterruptDict.toValue, renders_strDict, List.all_cons, List.all_cons, List.all_nil,
    Bool.and_true]
  rfl

theorem renders_interrupts (interrupts : List Value) :
    ((interrupts.map interruptDict).map InterruptDict.toValue).all (renders limit) =
      interrupts.all (rendersInterrupt limit) := by
  rw [List.map_map, List.all_map]
  exact List.all_congr rfl renders_interruptDict

theorem renders_shownTask (task : Value) :
    renders limit task.shownTask.toValue = rendersTask limit task := by
  simp only [TaskDict.toValue, Value.shownTask, renders_strDict, renders_list, renders_interrupts,
    List.all_cons, List.all_nil, Bool.and_true, rendersTask, Bool.and_assoc]

theorem renders_tasks (tasks : List Value) :
    ((tasks.map Value.shownTask).map TaskDict.toValue).all (renders limit) =
      tasks.all (rendersTask limit) := by
  rw [List.map_map, List.all_map]
  exact List.all_congr rfl renders_shownTask

theorem renders_strs (names : List String) : (names.map Value.str).all (renders limit) = true := by
  rw [List.all_map]
  exact List.all_eq_true.mpr fun _ _ => rfl

/-- The state that is read from a snapshot that can be read. -/
def Snapshot.shown (snapshot : Snapshot) (threadId : String) : ThreadState where
  values := serializeValues rt snapshot.values
  next := snapshot.next
  tasks := snapshot.tasks.map Value.shownTask
  metadata := snapshot.metadata
  createdAt := snapshot.createdAt.render
  checkpoint := { checkpointId := .null, threadId := .str threadId, checkpointNs := .str "" }
  interrupts := snapshot.interrupts.map interruptDict
  checkpointId := .null

theorem readThreadState_cases (snapshot : Snapshot) (threadId : String) :
    (snapshot.isReadable = true ∧
        readThreadState rt snapshot (threadConfig threadId) = .ok (snapshot.shown rt threadId)) ∨
      (snapshot.isReadable = false ∧
        ∃ exc, readThreadState rt snapshot (threadConfig threadId) = .error exc) := by
  unfold readThreadState
  rcases mapM_taskDict_cases snapshot.tasks with ⟨hread, htasks⟩ | ⟨hread, exc, htasks⟩
  · rw [htasks]
    exact .inl ⟨hread, rfl⟩
  · rw [htasks]
    exact .inr ⟨hread, exc, rfl⟩

theorem readThreadState_of_readable {snapshot : Snapshot} (h : snapshot.isReadable = true)
    (threadId : String) :
    readThreadState rt snapshot (threadConfig threadId) = .ok (snapshot.shown rt threadId) := by
  rcases readThreadState_cases rt snapshot threadId with ⟨-, heq⟩ | ⟨hnot, -⟩
  · exact heq
  · rw [h] at hnot
    cases hnot

theorem renders_shown (snapshot : Snapshot) (threadId : String) :
    renders limit (snapshot.shown rt threadId).toValue = snapshot.rendersState rt limit := by
  have hcreated : renders limit (strOrNone snapshot.createdAt.render) = true := by
    cases snapshot.createdAt <;> rfl
  have hcheckpoint : renders limit
      (CheckpointDict.mk .null (.str threadId) (.str "")).toValue = true := rfl
  have hnull : renders limit Json.null.toValue = true := rfl
  simp only [ThreadState.toValue, Snapshot.shown, renders_strDict, renders_list, renders_strs,
    renders_tasks, renders_interrupts, hcreated, hcheckpoint, hnull, List.all_cons, List.all_nil,
    Bool.true_and, Bool.and_true, Snapshot.rendersState, Bool.and_assoc]

end Snapshots

/-- The id of a command. -/
def commandId : Option Json → Json
  | some (.obj es) => ((Dict.ofList es).get? "id").getD .null
  | _ => .null

namespace Response

/-- The response, or what the rendering of its content raises. -/
def rendered (limit : Nat) (content : Value) (response : Response) : Response :=
  match refused limit content with
  | none => response
  | some exc => .raised (.other exc)

/-- What leaves the process. -/
def sent (limit : Nat) : Response → Response
  | .success id result => rendered limit (successContent id result) (.success id result)
  | .error id code message => rendered limit (errorContent id code message) (.error id code message)
  | response => response

/-- A success or error envelope with this id. -/
def IsEnvelope (id : Json) : Response → Prop
  | .success id' _ => id' = id
  | .error id' _ _ => id' = id
  | _ => False

/-- The result in it can be rendered. -/
def shows (limit : Nat) : Response → Bool
  | .success _ result => renders limit result.toValue
  | _ => true

variable {limit : Nat}

theorem rendered_of_renders {content : Value} (h : renders limit content = true)
    (response : Response) : rendered limit content response = response := by
  rw [rendered, Option.isNone_iff_eq_none.mp h]

theorem rendered_of_refused {content : Value} (h : renders limit content = false)
    (response : Response) : ∃ exc, rendered limit content response = .raised (.other exc) := by
  unfold renders at h
  unfold rendered
  cases hr : refused limit content with
  | none =>
      rw [hr] at h
      cases h
  | some exc => exact ⟨exc, rfl⟩

/-- Of a success envelope the id and the result can be refused, -/
theorem renders_success (id : Json) (result : Result) :
    renders limit (successContent id result) =
      (renders limit id.toValue && renders limit result.toValue) := by
  show ((refused limit id.toValue).or ((refused limit result.toValue).or none)).isNone = _
  rw [Option.or_none, isNone_or]
  rfl

/-- of an error envelope the id. -/
theorem renders_error (id : Json) (code message : String) :
    renders limit (errorContent id code message) = renders limit id.toValue := by
  show ((refused limit id.toValue).or none).isNone = _
  rw [Option.or_none]
  rfl

/-- An envelope is sent when its id and its result can be rendered. -/
theorem sent_isEnvelope_iff (id : Json) (response : Response) :
    (response.sent limit).IsEnvelope id ↔
      response.IsEnvelope id ∧ renders limit id.toValue = true ∧ response.shows limit = true := by
  have hkey : ∀ (id' : Json) (content : Value) (envelope : Response),
      (envelope.IsEnvelope id ↔ id' = id) →
      renders limit content = (renders limit id'.toValue && envelope.shows limit) →
      ((rendered limit content envelope).IsEnvelope id ↔
        envelope.IsEnvelope id ∧ renders limit id.toValue = true ∧ envelope.shows limit = true) := by
    intro id' content envelope henv hcontent
    cases hr : renders limit content with
    | true =>
        rw [rendered_of_renders hr]
        rw [hr, eq_comm, Bool.and_eq_true] at hcontent
        refine ⟨fun h => ⟨h, ?_, hcontent.2⟩, And.left⟩
        rw [← henv.mp h]
        exact hcontent.1
    | false =>
        obtain ⟨exc, hexc⟩ := rendered_of_refused hr envelope
        rw [hexc]
        rw [hr, eq_comm, ← Bool.not_eq_true, Bool.and_eq_true] at hcontent
        refine iff_of_false (fun h => h) fun h => hcontent ⟨?_, h.2.2⟩
        rw [henv.mp h.1]
        exact h.2.1
  cases response with
  | success id' result => exact hkey id' _ (.success id' result) Iff.rfl (renders_success id' result)
  | error id' code message =>
      refine hkey id' _ (.error id' code message) Iff.rfl ?_
      rw [renders_error]
      exact (Bool.and_true _).symm
  | notFound => exact iff_of_false (fun h => h) (fun h => h.1)
  | raised exc => exact iff_of_false (fun h => h) (fun h => h.1)

/-- An envelope that can be rendered is sent as it is. -/
theorem sent_eq {id : Json} {response : Response} (henv : response.IsEnvelope id)
    (hid : renders limit id.toValue = true) (hshows : response.shows limit = true) :
    response.sent limit = response := by
  cases response with
  | success id' result =>
      obtain rfl : id' = id := henv
      exact rendered_of_renders (by rw [renders_success, hid]; exact hshows) _
  | error id' code message =>
      obtain rfl : id' = id := henv
      exact rendered_of_renders (by rw [renders_error, hid]) _
  | notFound => cases henv
  | raised exc => cases henv

end Response

end AgentProtocol

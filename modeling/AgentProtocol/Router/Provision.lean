import AgentProtocol.Router.Binding
import AgentProtocol.Router.Reads
import AgentProtocol.Router.Registry

/-!
# Provisioning a thread (`router.py`, `create_thread`, `info`)

`POST /threads` takes the metadata from its body, where there is an object, and writes a row
with it. The row keeps all but its assistant (`ServiceStep.row_kept`).
-/

namespace AgentProtocol

/-- The metadata a body asks to keep; the body is `none` where it is no JSON. -/
def createdMetadata (payload : Option Json) : Dict String Json :=
  let body : Dict String Json :=
    match payload with
    | some (.obj es) => .ofList es
    | _ => ∅
  match body.get? "metadata" with
  | some (.obj es) => .ofList es
  | _ => ∅

/-- The thread as it is returned. -/
def ThreadRecord.created (record : ThreadRecord) : Json :=
  .obj [("thread_id", .str record.threadId), ("created_at", .str record.createdAt),
    ("updated_at", .str record.updatedAt), ("state_updated_at", .null),
    ("metadata", .obj record.metadata.entries), ("status", .str "idle"), ("config", .obj []),
    ("values", .null)]

/-- `POST /threads` -/
def App.createThread (a : App) (threadId now : String) (payload : Option Json) : App × Json :=
  let r := a.store.create threadId now (createdMetadata payload)
  ({ a with store := r.2 }, r.1.created)

/-- `GET /info` -/
def info (factories : List String) : Json :=
  .obj [("agents", .arr ((assistantIds factories).map fun aid =>
    .obj [("assistant_id", .str aid)]))]

theorem mem_agents {factories : List String} {assistantId : String} (h : assistantId ∈ factories) :
    Json.obj [("assistant_id", .str assistantId)] ∈
      (assistantIds factories).map fun aid => Json.obj [("assistant_id", .str aid)] :=
  List.mem_map_of_mem (mem_assistantIds.mpr h)

/-! ## The row of a thread -/

/-- The same row, but for the assistant and the time it was bound. -/
structure ThreadRecord.SameRow (record record' : ThreadRecord) : Prop where
  threadId : record'.threadId = record.threadId
  metadata : record'.metadata = record.metadata
  createdAt : record'.createdAt = record.createdAt

theorem ThreadRecord.SameRow.refl (record : ThreadRecord) : record.SameRow record := ⟨rfl, rfl, rfl⟩

theorem ThreadRecord.SameRow.trans {record record' record'' : ThreadRecord}
    (h : record.SameRow record') (h' : record'.SameRow record'') : record.SameRow record'' :=
  ⟨h'.threadId.trans h.threadId, h'.metadata.trans h.metadata, h'.createdAt.trans h.createdAt⟩

/-- The same row is the same answer, up to the time it was bound. -/
theorem ThreadRecord.SameRow.created {record record' : ThreadRecord} (h : record.SameRow record')
    (now : String) : { record with updatedAt := now }.created =
      { record' with updatedAt := now }.created := by
  simp only [ThreadRecord.created, h.threadId, h.metadata, h.createdAt]

theorem MemoryThreadStore.setAssistant_row {s : MemoryThreadStore} {t : String}
    {record : ThreadRecord} (h : s.get t = some record) (t' assistantId now : String) :
    ∃ record', (s.setAssistant t' assistantId now).get t = some record' ∧
      record.SameRow record' := by
  unfold setAssistant
  split
  · next record₀ h₀ =>
    show ∃ record', (s.threads.set t' _).get? t = some record' ∧ _
    rw [Dict.get?_set]
    split
    · next ht =>
      subst ht
      obtain rfl := Option.some.inj (h₀.symm.trans h)
      exact ⟨_, rfl, rfl, rfl, rfl⟩
    · exact ⟨record, h, .refl _⟩
  · exact ⟨record, h, .refl _⟩

variable {rt : Runtime} {n : Nat} {a a' : App} {t : String}

/-- No step removes a row, or changes more of it than its assistant. -/
theorem ServiceStep.row_kept {act : AppAct} {record : ThreadRecord}
    (h : ServiceStep rt a act a') (hrow : a.store.get t = some record) :
    ∃ record', a'.store.get t = some record' ∧ record.SameRow record' := by
  cases h with
  | @create t' now m hnone =>
      refine ⟨record, ?_, .refl _⟩
      show (a.store.threads.set t' _).get? t = _
      rw [Dict.get?_set_ne]
      · exact hrow
      · rintro rfl
        rw [hrow] at hnone
        cases hnone
  | @start _ t' _ _ v _ _ now =>
      unfold App.bind
      split
      · exact MemoryThreadStore.setAssistant_row hrow t' _ now
      · exact ⟨record, hrow, .refl _⟩
  | _ => exact ⟨record, hrow, .refl _⟩

namespace App

/-- A created thread has a row with the metadata of the body. -/
theorem createThread_get (a : App) (t now : String) (payload : Option Json) :
    (a.createThread t now payload).1.store.get t =
      some { threadId := t, metadata := createdMetadata payload, assistantId := none,
             createdAt := now, updatedAt := now } :=
  Dict.get?_set_self _ _ _

/-- The handler is a step of the service. -/
theorem step_createThread (rt : Runtime) (n : Nat) (hfresh : a.store.get t = none) (now : String)
    (payload : Option Json) :
    (appSys rt n).step a (.create t now (createdMetadata payload)) =
      some (a.createThread t now payload).1 := by
  have hnew : a.store.threads.contains t = false := by
    rw [Dict.contains]
    show (a.store.get t).isSome = false
    rw [hfresh]
    rfl
  show (if a.store.threads.contains t then none else _) = _
  rw [hnew]
  rfl

theorem row_of_reaches {ok : App → AppAct → Prop} (h : (appSys rt n).ReachesVia ok a a')
    {record : ThreadRecord} (hrow : a.store.get t = some record) :
    ∃ record', a'.store.get t = some record' ∧ record.SameRow record' := by
  induction h with
  | refl => exact ⟨record, hrow, .refl _⟩
  | tail _ _ hstep ih =>
      obtain ⟨record', hrow', hsame⟩ := ih
      obtain ⟨record'', hrow'', hsame'⟩ := (serviceStep_of_step hstep).row_kept hrow'
      exact ⟨record'', hrow'', hsame.trans hsame'⟩

end App

end AgentProtocol

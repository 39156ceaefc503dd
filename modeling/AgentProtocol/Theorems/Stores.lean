import AgentProtocol.Lib.TSys
import AgentProtocol.Threads

/-!
# The two built-in thread stores (`threads.py`)

`Represents` ties the rows of the SQLite store to the records of the in-memory one. Every
operation keeps it, and commits, so a store that is opened again on the same file still
represents the same records.
-/

namespace AgentProtocol

/-- The row of a record. -/
def ThreadRecord.row (dumps : Dict String Json → String) (record : ThreadRecord) : ThreadRow :=
  { threadId := record.threadId, metadataJson := dumps record.metadata
    assistantId := record.assistantId, createdAt := record.createdAt
    updatedAt := record.updatedAt }

/-- A dict is that of its entries. -/
theorem Dict.ofList_entries (d : Dict String Json) : Dict.ofList d.entries = d := by
  have hentries : (Dict.ofList d.entries).entries = d.entries :=
    Dict.entries_update_of_new ∅ d.nodupKeys
  cases hd : Dict.ofList d.entries
  cases d
  simpa [hd] using hentries

section Rows

variable {rt : Runtime} {dumps : Dict String Json → String}

theorem metadata_of_readsBack {d : Dict String Json} (h : rt.ReadsBack (dumps d) d) :
    SqliteThreadStore.metadata rt (dumps d) = .ok d := by
  unfold SqliteThreadStore.metadata
  rw [if_neg h.1, h.2]
  dsimp only
  rw [Dict.ofList_entries]

/-- Every record has its row, in the file too; the calls that are still to come draw ids
that are new, and dump metadata that is read back. -/
structure Represents (rt : Runtime) (dumps : Dict String Json → String) (ops : List StoreOp)
    (m : MemoryThreadStore) (s : SqliteThreadStore) : Prop where
  committed : s.committed = s.rows
  rows : ∀ id, s.rows.get? id = (m.threads.get? id).map (ThreadRecord.row dumps)
  readsBack : ∀ id record, m.threads.get? id = some record →
    rt.ReadsBack (dumps record.metadata) record.metadata
  fresh : ∀ id ∈ ops.filterMap StoreOp.drawn?, m.threads.get? id = none
  drawn : (ops.filterMap StoreOp.drawn?).Nodup
  dumped : ∀ threadId now metadata, .create threadId now metadata ∈ ops →
    rt.ReadsBack (dumps (metadata.getD ∅)) (metadata.getD ∅)

namespace Represents

variable {ops : List StoreOp} {m : MemoryThreadStore} {s : SqliteThreadStore}

/-- A call that draws no id leaves the calls that are still to come. -/
theorem tail {op : StoreOp} (h : Represents rt dumps (op :: ops) m s) (hop : op.drawn? = none) :
    Represents rt dumps ops m s := by
  have hdrawn : (op :: ops).filterMap StoreOp.drawn? = ops.filterMap StoreOp.drawn? :=
    List.filterMap_cons_none hop
  refine ⟨h.committed, h.rows, h.readsBack, ?_, ?_, ?_⟩
  · intro id hid
    exact h.fresh id (hdrawn ▸ hid)
  · rw [← hdrawn]
    exact h.drawn
  · intro threadId now metadata hmem
    exact h.dumped threadId now metadata (List.mem_cons_of_mem _ hmem)

/-- One record is written, and its row with it. -/
theorem set (h : Represents rt dumps ops m s) (id : String) (record : ThreadRecord)
    (hback : rt.ReadsBack (dumps record.metadata) record.metadata)
    (hnew : id ∉ ops.filterMap StoreOp.drawn?) :
    Represents rt dumps ops { threads := m.threads.set id record }
      { committed := s.rows.set id (record.row dumps)
        rows := s.rows.set id (record.row dumps) } := by
  refine ⟨rfl, ?_, ?_, ?_, h.drawn, h.dumped⟩
  · intro id'
    rw [Dict.get?_set, Dict.get?_set]
    split
    · rfl
    · exact h.rows id'
  · intro id' record' hget
    rw [Dict.get?_set] at hget
    split at hget
    · rw [← Option.some.inj hget]
      exact hback
    · exact h.readsBack id' record' hget
  · intro id' hid'
    rw [Dict.get?_set_ne]
    · exact h.fresh id' hid'
    · rintro rfl
      exact hnew hid'

theorem create {threadId now : String} {metadata : Option (Dict String Json)}
    (h : Represents rt dumps (.create threadId now metadata :: ops) m s) :
    (s.call rt dumps (.create threadId now metadata)).1 =
        .ok (m.call (.create threadId now metadata)).1 ∧
      Represents rt dumps ops (m.call (.create threadId now metadata)).2
        (s.call rt dumps (.create threadId now metadata)).2 := by
  have hdrawn : (StoreOp.create threadId now metadata :: ops).filterMap StoreOp.drawn? =
      threadId :: ops.filterMap StoreOp.drawn? := rfl
  have hnodup := h.drawn
  rw [hdrawn, List.nodup_cons] at hnodup
  have hnone : s.rows.get? threadId = none := by
    rw [h.rows, h.fresh threadId (by rw [hdrawn]; exact List.mem_cons_self), Option.map_none]
  have hinsert : ∀ row : ThreadRow, row.threadId = threadId →
      s.insert row = .ok { s with rows := s.rows.set row.threadId row } := by
    intro row hrow
    unfold SqliteThreadStore.insert Dict.contains
    rw [if_neg]
    rw [hrow, hnone]
    exact Bool.false_ne_true
  unfold SqliteThreadStore.call SqliteThreadStore.create
  dsimp only
  rw [hinsert _ rfl]
  have hrest : Represents rt dumps ops m s := by
    refine ⟨h.committed, h.rows, h.readsBack, ?_, hnodup.2, ?_⟩
    · intro id hid
      exact h.fresh id (by rw [hdrawn]; exact List.mem_cons_of_mem _ hid)
    · intro threadId' now' metadata' hmem
      exact h.dumped threadId' now' metadata' (List.mem_cons_of_mem _ hmem)
  exact ⟨rfl, hrest.set _ _ (h.dumped threadId now metadata List.mem_cons_self) hnodup.1⟩

theorem get (h : Represents rt dumps ops m s) (threadId : String) :
    s.get rt threadId = .ok (m.get threadId) := by
  unfold SqliteThreadStore.get MemoryThreadStore.get
  rw [h.rows]
  cases hget : m.threads.get? threadId with
  | none => rfl
  | some record =>
      have hback := metadata_of_readsBack (h.readsBack threadId record hget)
      simp only [Option.map_some, ThreadRecord.row, hback]

theorem setAssistant (h : Represents rt dumps ops m s) (threadId assistantId now : String) :
    Represents rt dumps ops (m.setAssistant threadId assistantId now)
      (s.setAssistant threadId assistantId now) := by
  unfold MemoryThreadStore.setAssistant SqliteThreadStore.setAssistant SqliteThreadStore.update
  rw [h.rows]
  cases hget : m.threads.get? threadId with
  | none => exact ⟨rfl, h.rows, h.readsBack, h.fresh, h.drawn, h.dumped⟩
  | some record =>
      refine h.set threadId { record with assistantId, updatedAt := now }
        (h.readsBack threadId record hget) ?_
      -- a thread that exists is not created again
      intro hmem
      rw [h.fresh threadId hmem] at hget
      cases hget

/-- What was committed is what the connection saw. -/
theorem reopen (h : Represents rt dumps ops m s) : Represents rt dumps ops m s.reopen := by
  have hrows : s.reopen.rows = s.rows := h.committed
  exact ⟨rfl, fun id => by rw [hrows]; exact h.rows id, h.readsBack, h.fresh, h.drawn, h.dumped⟩

theorem call {op : StoreOp} (h : Represents rt dumps (op :: ops) m s) :
    (s.call rt dumps op).1 = .ok (m.call op).1 ∧
      Represents rt dumps ops (m.call op).2 (s.call rt dumps op).2 := by
  cases op with
  | create threadId now metadata => exact h.create
  | get threadId => exact ⟨h.get threadId, h.tail rfl⟩
  | setAssistant threadId assistantId now =>
      exact ⟨rfl, (h.tail rfl).setAssistant threadId assistantId now⟩
  | reopen => exact ⟨rfl, (h.tail rfl).reopen⟩

end Represents

end Rows

/-- The two stores answer every sequence of calls alike, also when the SQLite store is
closed and opened again in between. -/
theorem stores_agree (rt : Runtime) (dumps : Dict String Json → String) (ops : List StoreOp)
    (hdrawn : (ops.filterMap StoreOp.drawn?).Nodup)
    (hdumps : ∀ threadId now metadata, .create threadId now metadata ∈ ops →
      rt.ReadsBack (dumps (metadata.getD ∅)) (metadata.getD ∅)) :
    replies (SqliteThreadStore.call rt dumps) (.open none) ops =
      (replies MemoryThreadStore.call { threads := ∅ } ops).map .ok := by
  apply replies_eq_map Except.ok fun _ _ _ _ (h : Represents rt dumps _ _ _) => h.call
  exact ⟨rfl, fun _ => rfl, fun _ _ h => (by cases h), fun _ _ => rfl, hdrawn, hdumps⟩

/-- A store that is opened again after a thread has been bound. -/
def boundAndReopened : List StoreOp :=
  [.create "t" "now" (some (.ofList [("project", .str "p1")])), .setAssistant "t" "sales" "later",
   .setAssistant "missing" "sales" "later", .reopen, .get "t", .get "missing"]

/-- A runtime that reads one object. -/
def projectRuntime : Runtime :=
  { Runtime.inert with
    loads := fun text =>
      if text = "\x7b\"project\": \"p1\"\x7d" then .value (.obj [("project", .str "p1")])
      else .decodeError }

theorem stores_agree_reopened :
    replies (SqliteThreadStore.call projectRuntime fun _ => "\x7b\"project\": \"p1\"\x7d")
        (.open none) boundAndReopened =
      (replies MemoryThreadStore.call { threads := ∅ } boundAndReopened).map .ok := by
  apply stores_agree projectRuntime _ boundAndReopened (by decide)
  intro threadId now metadata hmem
  obtain ⟨-, -, rfl⟩ : threadId = "t" ∧ now = "now" ∧
      metadata = some (.ofList [("project", .str "p1")]) := by
    simpa [boundAndReopened] using hmem
  exact ⟨by decide, rfl⟩

end AgentProtocol

import AgentProtocol.Value

/-!
# The thread stores (`threads.py`)

The in-memory store keeps the records themselves. The SQLite store keeps a row for
each, with the metadata as JSON text; its state is the table in the file, as last
committed, and the table its connection sees. Fresh ids and clock readings are
arguments of the operations.
-/

namespace AgentProtocol

structure ThreadRecord where
  threadId : String
  metadata : Dict String Json
  assistantId : Option String
  createdAt : String
  updatedAt : String

structure MemoryThreadStore where
  threads : Dict String ThreadRecord

namespace MemoryThreadStore

/-- A row for a new thread. -/
def create (s : MemoryThreadStore) (threadId now : String) (metadata : Dict String Json) :
    ThreadRecord × MemoryThreadStore :=
  let record : ThreadRecord :=
    { threadId, metadata, assistantId := none, createdAt := now, updatedAt := now }
  (record, { threads := s.threads.set threadId record })

def get (s : MemoryThreadStore) (threadId : String) : Option ThreadRecord :=
  s.threads.get? threadId

def setAssistant (s : MemoryThreadStore) (threadId assistantId now : String) :
    MemoryThreadStore :=
  match s.threads.get? threadId with
  | some record =>
    { threads := s.threads.set threadId { record with assistantId, updatedAt := now } }
  | none => s

/-- The assistant a thread is bound to. -/
def assistant (s : MemoryThreadStore) (threadId : String) : Option String :=
  (s.get threadId).bind ThreadRecord.assistantId

end MemoryThreadStore

/-- A row of the `threads` table. -/
structure ThreadRow where
  threadId : String
  metadataJson : String
  assistantId : Option String
  createdAt : String
  updatedAt : String

structure SqliteThreadStore where
  /-- the table in the file -/
  committed : Dict String ThreadRow
  /-- the table with the open transaction of the connection -/
  rows : Dict String ThreadRow

namespace SqliteThreadStore

/-- Connect to a file, which may have no `threads` table yet. -/
def «open» (file : Option (Dict String ThreadRow)) : SqliteThreadStore :=
  { committed := file.getD ∅, rows := file.getD ∅ }

/-- `self._conn.commit()` -/
def commit (s : SqliteThreadStore) : SqliteThreadStore := { s with committed := s.rows }

/-- `INSERT INTO threads` -/
def insert (s : SqliteThreadStore) (row : ThreadRow) : Except PyExc SqliteThreadStore :=
  if s.rows.contains row.threadId then
    .error ⟨"IntegrityError", "UNIQUE constraint failed: threads.thread_id"⟩
  else .ok { s with rows := s.rows.set row.threadId row }

/-- `UPDATE threads ... WHERE thread_id = ?` -/
def update (s : SqliteThreadStore) (threadId assistantId now : String) : SqliteThreadStore :=
  match s.rows.get? threadId with
  | some row =>
    { s with rows := s.rows.set threadId { row with assistantId, updatedAt := now } }
  | none => s

/-- A row for a new thread; `dumps` is `json.dumps`. -/
def create (dumps : Dict String Json → String) (s : SqliteThreadStore) (threadId now : String)
    (metadata : Dict String Json) : Except PyExc (ThreadRecord × SqliteThreadStore) :=
  let record : ThreadRecord :=
    { threadId, metadata, assistantId := none, createdAt := now, updatedAt := now }
  match s.insert { threadId, metadataJson := dumps record.metadata, assistantId := none,
                   createdAt := now, updatedAt := now } with
  | .error exc => .error exc
  | .ok s => .ok (record, s.commit)

/-- The metadata in a row. -/
def metadata (rt : Runtime) (metadataJson : String) : Except PyExc (Dict String Json) :=
  if metadataJson = "" then .ok ∅
  else
    match rt.loads metadataJson with
    | .value (.obj es) => .ok (.ofList es)
    | .value _ => .ok ∅
    | .decodeError => .ok ∅
    | .raised exc => if exc.typeName = "TypeError" then .ok ∅ else .error exc

def get (rt : Runtime) (s : SqliteThreadStore) (threadId : String) :
    Except PyExc (Option ThreadRecord) :=
  match s.rows.get? threadId with
  | none => .ok none
  | some row =>
    match metadata rt row.metadataJson with
    | .error exc => .error exc
    | .ok metadata =>
      .ok (some { threadId := row.threadId, metadata, assistantId := row.assistantId,
                  createdAt := row.createdAt, updatedAt := row.updatedAt })

def setAssistant (s : SqliteThreadStore) (threadId assistantId now : String) :
    SqliteThreadStore :=
  (s.update threadId assistantId now).commit

/-- `close`, and a new store on the same file. -/
def reopen (s : SqliteThreadStore) : SqliteThreadStore := .open (some s.committed)

end SqliteThreadStore

/-! ## The operations -/

/-- A call of a store, or the end of the process that holds it. -/
inductive StoreOp where
  | create (threadId now : String) (metadata : Option (Dict String Json))
  | get (threadId : String)
  | setAssistant (threadId assistantId now : String)
  | reopen

/-- The id that a call draws. -/
def StoreOp.drawn? : StoreOp → Option String
  | .create threadId _ _ => some threadId
  | _ => none

/-- What a call returns; `create` without metadata stores none. -/
def MemoryThreadStore.call (s : MemoryThreadStore) : StoreOp → Option ThreadRecord × MemoryThreadStore
  | .create threadId now metadata =>
    let r := s.create threadId now (metadata.getD ∅)
    (some r.1, r.2)
  | .get threadId => (s.get threadId, s)
  | .setAssistant threadId assistantId now => (none, s.setAssistant threadId assistantId now)
  | .reopen => (none, s)

/-- What a call returns or raises. -/
def SqliteThreadStore.call (rt : Runtime) (dumps : Dict String Json → String)
    (s : SqliteThreadStore) : StoreOp → Except PyExc (Option ThreadRecord) × SqliteThreadStore
  | .create threadId now metadata =>
    match s.create dumps threadId now (metadata.getD ∅) with
    | .error exc => (.error exc, s)
    | .ok r => (.ok (some r.1), r.2)
  | .get threadId => (s.get rt threadId, s)
  | .setAssistant threadId assistantId now => (.ok none, s.setAssistant threadId assistantId now)
  | .reopen => (.ok none, s.reopen)

end AgentProtocol

import AgentProtocol.Lib.Lock
import AgentProtocol.Theorems.Stores

/-!
# The SQLite store between threads and crashes (`SqliteThreadStore`)

Each call takes the lock, executes its statement, commits and gives the lock back; other
threads wait, and the process may die between any two of these. What the calls answer, and
what a new process finds in the file, is what the in-memory store would have after the same
calls one after the other.
-/

namespace AgentProtocol

/-- A call of a store. -/
inductive ThreadCall where
  | create (threadId now : String) (metadata : Option (Dict String Json))
  | get (threadId : String)
  | setAssistant (threadId assistantId now : String)

def ThreadCall.op : ThreadCall → StoreOp
  | .create threadId now metadata => .create threadId now metadata
  | .get threadId => .get threadId
  | .setAssistant threadId assistantId now => .setAssistant threadId assistantId now

/-- What a call answers. -/
abbrev ThreadAnswer := Except PyExc (Option ThreadRecord)

/-- Where a call is inside `with self._lock`. -/
inductive LockedAt where
  | execute (c : ThreadCall)
  | commit (answer : ThreadAnswer)
  | leave (answer : ThreadAnswer)

namespace SqliteThreadStore

section Guarded

variable (rt : Runtime) (dumps : Dict String Json → String)

/-- The statement of a call. A failed `INSERT` leaves the block; a `SELECT` needs no commit. -/
def execute (s : SqliteThreadStore) : ThreadCall → LockedAt × SqliteThreadStore
  | .create threadId now metadata =>
    let record : ThreadRecord :=
      { threadId, metadata := metadata.getD ∅, assistantId := none, createdAt := now,
        updatedAt := now }
    match s.insert { threadId, metadataJson := dumps record.metadata, assistantId := none,
                     createdAt := now, updatedAt := now } with
    | .error exc => (.leave (.error exc), s)
    | .ok s => (.commit (.ok (some record)), s)
  | .get threadId => (.leave (s.get rt threadId), s)
  | .setAssistant threadId assistantId now =>
    (.commit (.ok none), s.update threadId assistantId now)

def micro : LockedAt → SqliteThreadStore → (LockedAt ⊕ ThreadAnswer) × SqliteThreadStore
  | .execute c, s => (.inl (s.execute rt dumps c).1, (s.execute rt dumps c).2)
  | .commit answer, s => (.inl (.leave answer), s.commit)
  | .leave answer, s => (.inr answer, s)

/-- The store behind its lock. -/
def guarded : Guarded SqliteThreadStore ThreadCall LockedAt ThreadAnswer where
  enter := .execute
  micro := micro rt dumps
  durable
    | .leave _ => true
    | _ => false
  recover := reopen

end Guarded

variable {rt : Runtime} {dumps : Dict String Json → String} {s x : SqliteThreadStore}

/-- Nothing is written that is not committed. -/
def Settled (s : SqliteThreadStore) : Prop := s.committed = s.rows

theorem reopen_of_committed (hs : s.Settled) (h : x.committed = s.committed) : x.reopen = s := by
  have hopen : x.reopen = { committed := x.committed, rows := x.committed } := rfl
  rw [hopen, h]
  cases s
  exact congrArg _ hs

/-- Where a call can be, and what is written by then. -/
inductive Progress (rt : Runtime) (dumps : Dict String Json → String) (s : SqliteThreadStore)
    (c : ThreadCall) : LockedAt → SqliteThreadStore → Prop
  | execute : Progress rt dumps s c (.execute c) s
  | commit {answer x} : x.committed = s.committed → s.call rt dumps c.op = (answer, x.commit) →
      Progress rt dumps s c (.commit answer) x
  | leave {answer x} : x.Settled → s.call rt dumps c.op = (answer, x) →
      Progress rt dumps s c (.leave answer) x

/-- The statement, and what the whole call comes to. -/
theorem progress_execute (hs : s.Settled) (c : ThreadCall) :
    Progress rt dumps s c (s.execute rt dumps c).1 (s.execute rt dumps c).2 := by
  cases c with
  | create threadId now metadata =>
      unfold execute
      dsimp only
      split
      · next exc hinsert =>
        refine .leave hs ?_
        simp only [ThreadCall.op, call, create, hinsert]
      · next x hinsert =>
        have hcommitted : x.committed = s.committed := by
          unfold insert at hinsert
          split at hinsert
          · cases hinsert
          · rw [← Except.ok.inj hinsert]
        refine .commit hcommitted ?_
        simp only [ThreadCall.op, call, create, hinsert]
  | get threadId => exact .leave hs rfl
  | setAssistant threadId assistantId now =>
      refine .commit ?_ rfl
      show (s.update threadId assistantId now).committed = s.committed
      unfold update
      split <;> rfl

theorem progress_of_within (hs : s.Settled) {c : ThreadCall} {m : LockedAt}
    (h : (guarded rt dumps).Within s c m x) : Progress rt dumps s c m x := by
  induction h with
  | enter => exact .execute
  | micro _ hmicro ih =>
      cases ih with
      | execute =>
          obtain ⟨hm, rfl⟩ := Prod.mk.inj hmicro
          obtain rfl := Sum.inl.inj hm
          exact progress_execute hs c
      | commit hcommitted hcall =>
          obtain ⟨hm, rfl⟩ := Prod.mk.inj hmicro
          obtain rfl := Sum.inl.inj hm
          exact .leave rfl hcall
      | leave => cases hmicro

theorem settled_call (hs : s.Settled) (op : StoreOp) : (s.call rt dumps op).2.Settled := by
  cases op with
  | create threadId now metadata =>
      unfold call
      dsimp only
      split
      · exact hs
      · next r hcreate =>
        unfold create at hcreate
        dsimp only at hcreate
        split at hcreate
        · cases hcreate
        · rw [← Except.ok.inj hcreate]
          rfl
  | get threadId => exact hs
  | setAssistant threadId assistantId now => rfl
  | reopen => rfl

/-- A call is one step, and the commit is the moment from which it survives. -/
theorem atomic (rt : Runtime) (dumps : Dict String Json → String) :
    (guarded rt dumps).Atomic (fun s c => s.call rt dumps c.op) Settled where
  settled s c hs := settled_call hs c.op
  recover s hs := reopen_of_committed hs rfl
  returns s c m x r x' hs hwithin hmicro := by
    cases progress_of_within hs hwithin with
    | execute => cases hmicro
    | commit => cases hmicro
    | leave _ hcall =>
        obtain ⟨hr, rfl⟩ := Prod.mk.inj hmicro
        rw [hcall, Sum.inr.inj hr]
  crash s c m x hs hwithin := by
    cases progress_of_within hs hwithin with
    | execute => exact reopen_of_committed hs rfl
    | commit hcommitted _ => exact reopen_of_committed hs hcommitted
    | leave hx hcall =>
        show x.reopen = (s.call rt dumps c.op).2
        rw [hcall]
        exact reopen_of_committed hx rfl

end SqliteThreadStore

/-! ## Against the store in memory -/

/-- The calls of a log, as one caller would make them. -/
def oneAfterAnother (log : List (ThreadCall × Option ThreadAnswer)) : List StoreOp :=
  log.map fun e => e.1.op

/-- The store in memory after these calls. -/
def memoryAfter (m : MemoryThreadStore) (ops : List StoreOp) : MemoryThreadStore :=
  ops.foldl (fun m op => (m.call op).2) m

section Runs

variable {rt : Runtime} {dumps : Dict String Json → String}

/-- Along a sequential run the answers are those of the store in memory, and at its end the
file represents it. -/
theorem run_represents {m : MemoryThreadStore} {s : SqliteThreadStore}
    {log : List (ThreadCall × Option ThreadAnswer)}
    (hR : Represents rt dumps (oneAfterAnother log) m s)
    (hlog : Answers (fun s c => SqliteThreadStore.call rt dumps s c.op) s log) :
    (∀ (k : Nat) (c : ThreadCall) (answer : ThreadAnswer), log[k]? = some (c, some answer) →
      ∃ r, (replies MemoryThreadStore.call m (oneAfterAnother log))[k]? = some r ∧ answer = .ok r) ∧
      Represents rt dumps [] (memoryAfter m (oneAfterAnother log))
        (after (fun s c => SqliteThreadStore.call rt dumps s c.op) s log) := by
  induction log generalizing m s with
  | nil => exact ⟨fun k c answer hk => (by cases hk), hR⟩
  | cons e log ih =>
      obtain ⟨hanswer, hR'⟩ := hR.call
      obtain ⟨hanswers, hend⟩ := ih hR' hlog.2
      refine ⟨fun k c answer hk => ?_, hend⟩
      cases k with
      | zero =>
          obtain rfl := Option.some.inj hk
          exact ⟨_, rfl, (hlog.1 answer rfl).trans hanswer⟩
      | succ k => exact hanswers k c answer hk

theorem getElem?_append_of_some {α : Type*} {l more : List α} {k : Nat} {x : α}
    (h : l[k]? = some x) : (l ++ more)[k]? = some x := by
  rw [List.getElem?_append_left, h]
  exact (List.getElem?_eq_some_iff.mp h).1

theorem effective_eq_append {ι σ ο μ ρ : Type*} (G : Guarded σ ο μ ρ) (s : Shared ι σ ο μ ρ) :
    ∃ more, G.effective s = s.log ++ more := by
  unfold Guarded.effective
  cases s.lock with
  | none => exact ⟨[], (List.append_nil _).symm⟩
  | some i => exact ⟨_, rfl⟩

end Runs

/-- Threads and crashes in any order: every call that was answered has the answer that the
store in memory gives in one run of the calls that took effect, in the order in which they
gave back the lock; and a process that starts now on the file finds the records of that run.
The calls draw fresh ids, and `json.loads` reads the metadata back. -/
theorem durable_as_one_dict {ι : Type*} [DecidableEq ι] (rt : Runtime)
    (dumps : Dict String Json → String)
    (s : Shared ι SqliteThreadStore ThreadCall LockedAt ThreadAnswer)
    (hs : ((SqliteThreadStore.guarded rt dumps).lockSys ι (.open none)).Reachable s) :
    let log := (SqliteThreadStore.guarded rt dumps).effective s
    ((oneAfterAnother log).filterMap StoreOp.drawn?).Nodup →
    (∀ threadId now metadata, .create threadId now metadata ∈ oneAfterAnother log →
      rt.ReadsBack (dumps (metadata.getD ∅)) (metadata.getD ∅)) →
    (∀ (k : Nat) (c : ThreadCall) (answer : ThreadAnswer), s.log[k]? = some (c, some answer) →
      ∃ r, (replies MemoryThreadStore.call { threads := ∅ } (oneAfterAnother log))[k]? = some r ∧
        answer = .ok r) ∧
      ∀ id, s.obj.reopen.rows.get? id =
        ((memoryAfter { threads := ∅ } (oneAfterAnother log)).threads.get? id).map
          (ThreadRecord.row dumps) := by
  intro log hdrawn hdumps
  have hG := SqliteThreadStore.atomic rt dumps
  have hopen : (SqliteThreadStore.open none).Settled := rfl
  have hlinear := Guarded.linear_of_reachable hG hopen hs
  obtain ⟨hanswers, -, hobj⟩ := hlinear.effective hG
  have hR : Represents rt dumps (oneAfterAnother log) { threads := ∅ } (.open none) :=
    ⟨rfl, fun _ => rfl, fun _ _ h => (by cases h), fun _ _ => rfl, hdrawn, hdumps⟩
  obtain ⟨hreplies, hend⟩ := run_represents hR hanswers
  constructor
  · intro k c answer hk
    obtain ⟨more, hmore⟩ := effective_eq_append (SqliteThreadStore.guarded rt dumps) s
    apply hreplies k c answer
    rw [show log = _ from hmore]
    exact getElem?_append_of_some hk
  · intro id
    have hrows := hend.rows id
    rw [← hobj] at hrows
    exact hrows

/-- Caller 0 creates a thread, and the process dies between its commit and its answer; in the
next process caller 1 reads the thread. -/
def diesBeforeAnswer : List (LockAct Nat ThreadCall) :=
  [.invoke 0 (.create "t" "now" (some (.ofList [("project", .str "p1")]))), .acquire 0, .micro 0,
    .micro 0, .crash, .invoke 1 (.get "t"), .acquire 1, .micro 1, .micro 1]

theorem durable_as_one_dict_crash :
    let dumps : Dict String Json → String := fun _ => "\x7b\"project\": \"p1\"\x7d"
    let G := SqliteThreadStore.guarded projectRuntime dumps
    ∃ s, (G.lockSys Nat (.open none)).run (Guarded.start (.open none)) diesBeforeAnswer = some s ∧
      ∃ answer, s.log[1]? = some (.get "t", some answer) ∧
        ∃ record, answer = .ok (some record) ∧ record.threadId = "t" := by
  intro dumps G
  obtain ⟨s, hrun, heff, hlog⟩ : ∃ s,
      (G.lockSys Nat (.open none)).run (Guarded.start (.open none)) diesBeforeAnswer = some s ∧
      oneAfterAnother (G.effective s) =
        [.create "t" "now" (some (.ofList [("project", .str "p1")])), .get "t"] ∧
      ∃ answer, s.log[1]? = some (.get "t", some answer) := ⟨_, rfl, rfl, _, rfl⟩
  obtain ⟨answer, hanswer⟩ := hlog
  have hreach := TSys.reachable_of_run (M := G.lockSys Nat (.open none)) rfl hrun
  obtain ⟨hreplies, -⟩ := durable_as_one_dict projectRuntime dumps s hreach
    (by
      show ((oneAfterAnother (G.effective s)).filterMap StoreOp.drawn?).Nodup
      rw [heff]
      decide)
    (by
      intro threadId now metadata hmem
      have hmem : .create threadId now metadata ∈ oneAfterAnother (G.effective s) := hmem
      rw [heff] at hmem
      obtain ⟨-, -, rfl⟩ : threadId = "t" ∧ now = "now" ∧
          metadata = some (.ofList [("project", .str "p1")]) := by
        simpa using hmem
      exact ⟨by decide, rfl⟩)
  obtain ⟨r, hr, rfl⟩ := hreplies 1 (.get "t") answer hanswer
  have hr : (replies MemoryThreadStore.call { threads := ∅ }
      (oneAfterAnother (G.effective s)))[1]? = some r := hr
  rw [heff] at hr
  obtain rfl := Option.some.inj hr
  exact ⟨s, hrun, _, hanswer, _, rfl, rfl⟩

end AgentProtocol

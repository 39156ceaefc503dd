import AgentProtocol.Router.Reads
import AgentProtocol.Theorems.Pages

/-!
# The latest checkpoint, as the state and the history name it

`_history` names each entry by the id in its checkpoint tuple, newest first. `get_state`
names the state by the checkpoint id in the config it asked with, and that config never has
one. So the pointers of a state are null on every thread, and no client can go on from them
into the history.
-/

namespace AgentProtocol

/-- Both endpoints answer, and the pointers of the state are the id of the first entry of
the history. -/
def PointersAgree (state : ReadAnswer ThreadState) (past : ReadAnswer (List Entry)) : Prop :=
  ∃ s e es, state = .ok s ∧ past = .ok (e :: es) ∧
    s.checkpoint.checkpointId = .str e.checkpointId ∧ s.checkpointId = .str e.checkpointId

variable {rt : Runtime} {factories : List String} {store : MemoryThreadStore} {t : String}

theorem ReadAnswer.of_eq_ok {α : Type} {x : Except PyExc α} {a : α} (h : ReadAnswer.of x = .ok a) :
    x = .ok a := by
  cases x with
  | error exc => cases h
  | ok b =>
      cases h
      rfl

theorem RunExc.readAnswer_ne_ok {α : Type} (exc : RunExc) (a : α) : exc.readAnswer ≠ .ok a := by
  cases exc <;> simp [RunExc.readAnswer]

/-- A state without a checkpoint id. -/
def ThreadState.Unpointed (s : ThreadState) : Prop :=
  s.checkpoint.checkpointId = .null ∧ s.checkpointId = .null

/-- No state is asked for by the id of a checkpoint. -/
theorem unpointed_of_read {snapshot : Snapshot} {s : ThreadState}
    (h : readThreadState rt snapshot (threadConfig t) = .ok s) : s.Unpointed := by
  obtain ⟨-, hpointer, hsame⟩ := readThreadState_eq_ok h
  have hnull : s.checkpointId = .null := (Except.ok.inj hpointer).symm
  exact ⟨hsame.trans hnull, hnull⟩

theorem unpointed_of_getState {outcome : Resolution} {snapshot : Except PyExc Snapshot}
    {s : ThreadState} (h : getState rt factories store t outcome snapshot = .ok s) :
    s.Unpointed := by
  unfold getState at h
  split at h
  · cases h
  · split at h
    · exact absurd h (RunExc.readAnswer_ne_ok _ s)
    · cases h
      exact ⟨rfl, rfl⟩
    · split at h
      · cases snapshot with
        | error exc => cases h
        | ok snapshot => exact unpointed_of_read (ReadAnswer.of_eq_ok h)
      · cases h

/-- What an answer of the history was read from. -/
theorem history_eq_ok {limit : Int} {before : Json} {outcome : Resolution}
    {checkpointer : Option Saver} {es : List Entry}
    (h : history rt factories store t limit before outcome checkpointer = .ok es) :
    1 ≤ limit ∧ ∃ id, cursorOf before = .ok id ∧
      (es = [] ∨ readThreadHistory rt checkpointer limit.toNat id = .ok es) := by
  unfold history at h
  split at h
  · cases h
  · split at h
    · cases h
    · next hlimit =>
      split at h
      · cases h
      · next id hid =>
        refine ⟨by omega, id, hid, ?_⟩
        split at h
        · exact absurd h (RunExc.readAnswer_ne_ok _ es)
        · cases h
          exact .inl rfl
        · exact .inr (ReadAnswer.of_eq_ok h)

/-- Without a cursor the first entry is the newest checkpoint, whatever the limit. -/
theorem history_newest {limit : Int} {outcome : Resolution} {saver : Saver} {e : Entry}
    {es : List Entry}
    (h : getHistory rt factories store t limit none outcome (some saver) = .ok (e :: es)) :
    saver.tuples.head?.map CheckpointTuple.checkpointId = some e.checkpointId := by
  obtain ⟨hlimit, id, hid, hnil | hread⟩ := history_eq_ok h
  · cases hnil
  · obtain rfl := Except.ok.inj hid
    have hids := readWindow_ids rt hread
    have halist : saver.alist (cursor none) limit.toNat = saver.tuples.take limit.toNat := by
      simp [Saver.alist, cursor]
    rw [halist] at hids
    cases htuples : saver.tuples with
    | nil =>
        rw [htuples, List.take_nil] at hids
        cases hids
    | cons newest older =>
        -- a limit of at least 1 keeps the newest tuple
        obtain ⟨k, hk⟩ : ∃ k, limit.toNat = k + 1 := ⟨limit.toNat - 1, by omega⟩
        rw [htuples, hk, List.take_succ_cons, List.map_cons, List.map_cons, List.cons.injEq] at hids
        rw [List.head?_cons, Option.map_some, hids.1]

/-- On no thread do the state and the history name the same checkpoint: where both answer,
the pointers of the state are null and the first entry is the saver's newest checkpoint. -/
theorem pointers_never_agree (rt : Runtime) (factories : List String) (store : MemoryThreadStore)
    (t : String) (limit : Int) (outcome outcome' : Resolution) (snapshot : Except PyExc Snapshot)
    (saver : Saver) :
    let state := getState rt factories store t outcome snapshot
    let past := getHistory rt factories store t limit none outcome' (some saver)
    ¬PointersAgree state past ∧
      ∀ s e es, state = .ok s → past = .ok (e :: es) → s.Unpointed ∧
        saver.tuples.head?.map CheckpointTuple.checkpointId = some e.checkpointId := by
  intro state past
  constructor
  · rintro ⟨s, e, es, hstate, -, -, hpointer⟩
    have hnull := (unpointed_of_getState hstate).2
    rw [hpointer] at hnull
    cases hnull
  · intro s e es hstate hpast
    exact ⟨unpointed_of_getState hstate, history_newest hpast⟩

/-- A thread with a checkpoint, whose graph reports it. -/
def boundThread : MemoryThreadStore :=
  ((⟨∅⟩ : MemoryThreadStore).create "t" "now" ∅).2.setAssistant "t" "agent" "now"

def oneCheckpoint : Saver where
  tuples := [{ checkpointId := "c1", pendingWrites := [], metadata := none }]
  sorted := List.pairwise_singleton _ _
  named := by simp

def snapshotOfOne : Snapshot where
  values := ∅
  next := []
  checkpointId := some "c1"
  metadata := .dict []
  createdAt := .text "2026-01-01T00:00:00+00:00"
  tasks := []
  interrupts := []

/-- The saver and the snapshot have the checkpoint `c1`; both endpoints answer, and only the
history names it. -/
theorem state_pointer_null :
    snapshotOfOne.checkpointId = oneCheckpoint.tuples.head?.map CheckpointTuple.checkpointId ∧
      ∃ s e, getState .inert ["agent"] boundThread "t" (.graph ⟨true⟩) (.ok snapshotOfOne) = .ok s ∧
        getHistory .inert ["agent"] boundThread "t" 10 none (.graph ⟨true⟩) (some oneCheckpoint) =
          .ok [e] ∧
        e.checkpointId = "c1" ∧ s.checkpointId = .null ∧ s.checkpoint.checkpointId = .null :=
  ⟨rfl, _, _, rfl, rfl, rfl, rfl, rfl⟩

end AgentProtocol

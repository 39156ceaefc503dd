import AgentProtocol.Theorems.CancelReports
import AgentProtocol.Theorems.TerminalEvent

/-!
# A cancel decides how a run ends (`RunManager.cancel`, `_execute`)

The task of a run that is asked to cancel gets a `CancelledError` at the await it is suspended
at. So it takes one more step at most, whatever the graph had in store for it and however often
it is asked again, and in this step it closes its messages and reports `interrupted`; before its
first step it reports nothing at all.
-/

namespace AgentProtocol

def Awaited.isCancelled : Awaited → Bool
  | .cancelled => true
  | _ => false

/-- A task that was asked to cancel is resumed by a `CancelledError`: the graph does not
catch it. -/
def World.throws (w : World) : Act → Bool
  | .resume id awaited =>
    match w.tasks.get? id with
    | some task => !task.cancelRequested || awaited.isCancelled
    | none => true
  | _ => true

/-- What a task publishes when it is cancelled at this await. -/
def farewell (rt : Runtime) (assistantId : String) : Phase → List EventData
  | .created => []
  | .streaming tr _ => (onCancelled rt assistantId tr).events
  | .snapshot tr => (onCancelled rt assistantId tr).events
  | .done => []

/-- The task is as it was when it was asked to cancel, or has taken its leave. -/
structure Cancelled (rt : Runtime) (task task' : Task) : Prop where
  thread : task'.threadId = task.threadId
  assistant : task'.assistantId = task.assistantId
  asked : task'.cancelRequested = true
  decided : (task'.phase = task.phase ∧ task'.events = task.events) ∨
    (task'.phase = .done ∧ task'.events = task.events ++ farewell rt task.assistantId task.phase)

section Steps

variable {rt : Runtime} {n : Nat} {w v : World} {r : String} {task task' : Task}

/-- The step that ends it. -/
theorem Cancelled.ended (h : Cancelled rt task task') (hnd : task'.phase.isDone = false)
    {after : Task} (hthread : after.threadId = task'.threadId)
    (hassistant : after.assistantId = task'.assistantId) (hasked : after.cancelRequested = true)
    (hphase : after.phase = .done)
    (hevents : after.events = task'.events ++ farewell rt task'.assistantId task'.phase) :
    Cancelled rt task after where
  thread := hthread.trans h.thread
  assistant := hassistant.trans h.assistant
  asked := hasked
  decided := by
    rcases h.decided with ⟨hp, he⟩ | ⟨hp, -⟩
    · right
      rw [hevents, hp, he, h.assistant]
      exact ⟨hphase, rfl⟩
    · rw [hp] at hnd
      cases hnd

/-- The step of a cancelled coroutine. -/
theorem resume_cancelled {assistantId : String} {graph : Graph} {phase : Phase}
    {awaited : Awaited} {s : TaskStep} (hc : awaited.isCancelled = true)
    (h : resume rt assistantId graph phase awaited = some s) :
    s.phase = .done ∧ s.events = farewell rt assistantId phase := by
  cases awaited with
  | cancelled =>
      cases phase with
      | created | done => cases h
      | streaming tr last | snapshot tr =>
          obtain rfl := Option.some.inj h
          exact ⟨rfl, rfl⟩
  | _ => cases hc

theorem Cancelled.step {a : Act} (hI : w.SlotInv) (h : WorldStep rt w a v)
    (hthrows : w.throws a = true) (hg : w.tasks.get? r = some task')
    (hC : Cancelled rt task task') :
    ∃ after, v.tasks.get? r = some after ∧ Cancelled rt task after := by
  -- another task is replaced, or this one
  have hset : ∀ {id : String} {old new : Task}, w.tasks.get? id = some old →
      v.tasks = w.tasks.set id new → (old = task' → Cancelled rt task new) →
      ∃ after, v.tasks.get? r = some after ∧ Cancelled rt task after := by
    intro id old new hold htasks hnew
    rw [htasks, Dict.get?_set]
    split
    · next hid =>
      subst hid
      exact ⟨new, rfl, hnew (Option.some.inj (hold.symm.trans hg))⟩
    · exact ⟨task', hg, hC⟩
  cases h with
  | @launch runId graph s config hs _ =>
      have hne : runId ≠ r := by
        rintro rfl
        rw [(hI.starting_fresh hs).2] at hg
        cases hg
      exact ⟨task', (Dict.get?_set_ne _ _ hne).trans hg, hC⟩
  | cancel _ _ hold _ =>
      refine hset hold rfl ?_
      rintro rfl
      exact ⟨hC.thread, hC.assistant, rfl, hC.decided⟩
  | skip hold hphase _ =>
      refine hset hold rfl ?_
      rintro rfl
      refine hC.ended (by rw [hphase]; rfl) rfl rfl hC.asked rfl ?_
      rw [hphase]
      exact (List.append_nil _).symm
  | begin hold _ hc =>
      refine hset hold rfl ?_
      rintro rfl
      rw [hC.asked] at hc
      cases hc
  | @resume id old awaited s hold hs =>
      refine hset hold rfl ?_
      rintro rfl
      have hcancelled : awaited.isCancelled = true := by
        simpa [World.throws, hold, hC.asked] using hthrows
      obtain ⟨hphase, hevents⟩ := resume_cancelled hcancelled hs
      refine hC.ended (World.resume_not_done hs) rfl rfl hC.asked hphase ?_
      rw [← hevents]
  | callback hold _ =>
      refine hset hold rfl ?_
      rintro rfl
      exact ⟨hC.thread, hC.assistant, hC.asked, hC.decided⟩
  | _ => exact ⟨task', hg, hC⟩

theorem Cancelled.run (hw : (runSys rt n).Reachable w)
    (h : (runSys rt n).ReachesVia (fun u a => u.throws a = true) w v)
    (hg : w.tasks.get? r = some task') (hC : Cancelled rt task task') :
    ∃ after, v.tasks.get? r = some after ∧ Cancelled rt task after := by
  induction h with
  | refl => exact ⟨task', hg, hC⟩
  | tail hwu hthrows hstep ih =>
      obtain ⟨after, hg', hC'⟩ := ih
      have hu := hw.trans (hwu.mono fun _ _ _ => trivial)
      exact hC'.step (World.slotInv_of_reachable hu) (World.worldStep_of_step hstep) hthrows hg'

/-- Taking its leave a task reports nothing but `interrupted`. -/
theorem farewell_interrupted (phase : Phase) (assistantId : String) :
    ∀ e ∈ farewell rt assistantId phase,
      e.isTerminal = true → e = interruptedEvent assistantId := by
  have hhandle : ∀ tr, ∀ e ∈ (onCancelled rt assistantId tr).events, e.isTerminal = true →
      e = interruptedEvent assistantId := by
    intro tr e he hterm
    rcases List.mem_append.mp he with he | he
    · rw [frameEvents_open _ e he] at hterm
      cases hterm
    · split at he
      · exact List.mem_singleton.mp he
      · cases he
  intro e he hterm
  cases phase with
  | created | done => cases he
  | streaming tr last | snapshot tr => exact hhandle tr e he hterm

end Steps

/-- From the acceptance of a cancel on, in every order of steps, the run has published what it
had, or has ended and published its farewell after that: the frames that close its messages,
and `interrupted` unless a block of them does not parse; nothing, if it had not begun. It
never reports another end. -/
theorem cancel_decides (rt : Runtime) (n : Nat) (w : World) (hw : (runSys rt n).Reachable w)
    (r : String) (task : Task) (hg : w.tasks.get? r = some task)
    (hnd : task.phase.isDone = false) (v : World)
    (hv : (runSys rt n).ReachesVia (fun u a => u.throws a = true)
      (w.cancel task.threadId (some r)).1 v) :
    ∃ task', v.tasks.get? r = some task' ∧ task'.threadId = task.threadId ∧
      ((task'.phase = task.phase ∧ v.eventsOf task.threadId r = w.eventsOf task.threadId r) ∨
        (task'.phase = .done ∧ v.eventsOf task.threadId r =
          w.eventsOf task.threadId r ++ farewell rt task.assistantId task.phase)) ∧
      ∀ e ∈ v.eventsOf task.threadId r, e.isTerminal = true →
        e = interruptedEvent task.assistantId := by
  have hI := World.slotInv_of_reachable hw
  have hstep : (runSys rt n).step w (.cancel task.threadId (some r)) =
      some (w.cancel task.threadId (some r)).1 := rfl
  have hreach := hw.tail trivial hstep
  have hasked : (w.cancel task.threadId (some r)).1.tasks.get? r =
      some { task with cancelRequested := true } := by
    rw [World.cancel_of_running (hI.running_of_task hg rfl hnd) hg]
    exact Dict.get?_set_self _ _ _
  have hbegins : Cancelled rt task { task with cancelRequested := true } :=
    ⟨rfl, rfl, rfl, .inl ⟨rfl, rfl⟩⟩
  obtain ⟨task', hg', hC⟩ := Cancelled.run hreach hv hasked hbegins
  have hbefore := (World.logInv_of_reachable hw).eventsOf_eq hg
  have hafter := (World.logInv_of_reachable
    (hreach.trans (hv.mono fun _ _ _ => trivial))).eventsOf_eq hg'
  rw [hC.thread] at hafter
  have hopen := (closing_of_reachable hw hg).under_way hnd
  refine ⟨task', hg', hC.thread, ?_, ?_⟩
  · rw [hbefore, hafter]
    exact hC.decided
  · intro e he hterm
    rw [hafter] at he
    have hmem : e ∈ task.events ++ farewell rt task.assistantId task.phase := by
      rcases hC.decided with ⟨-, hev⟩ | ⟨-, hev⟩
      · exact List.mem_append_left _ (hev ▸ he)
      · exact hev ▸ he
    rcases List.mem_append.mp hmem with hmem | hmem
    · rw [hopen e hmem] at hterm
      cases hterm
    · exact farewell_interrupted task.phase task.assistantId e hmem hterm

/-- A run is in the middle of a message. -/
def midMessage : World :=
  ((runSys .inert 500).run (.new 500) ([.register "agent", .start "t" (.str "agent") .null none
    .null "1", .resolved "1" (.graph ⟨false⟩), .begin "1",
    .resume "1" (.item (.messages (textChunk "a" "Hel")))])).getD (.new 500)

theorem cancel_decides_midMessage :
    ∃ v task, (runSys .inert 500).ReachesVia (fun u a => u.throws a = true)
        (midMessage.cancel "t" (some "1")).1 v ∧ v.tasks.get? "1" = some task ∧
      task.phase = .done ∧
      ∀ e ∈ v.eventsOf "t" "1", e.isTerminal = true → e = interruptedEvent "agent" := by
  have hrun : (runSys .inert 500).run (.new 500) ([.register "agent", .start "t" (.str "agent")
      .null none .null "1", .resolved "1" (.graph ⟨false⟩), .begin "1",
      .resume "1" (.item (.messages (textChunk "a" "Hel")))]) = some midMessage := rfl
  obtain ⟨task, hg, ht, hasst, hnd⟩ : ∃ task, midMessage.tasks.get? "1" = some task ∧
      task.threadId = "t" ∧ task.assistantId = "agent" ∧ task.phase.isDone = false :=
    ⟨_, rfl, rfl, rfl, rfl⟩
  obtain ⟨v, hend, hdone⟩ : ∃ v, (runSys .inert 500).run (midMessage.cancel "t" (some "1")).1
      [.resume "1" .cancelled] = some v ∧ ∃ task, v.tasks.get? "1" = some task ∧
        task.phase = .done := ⟨_, rfl, _, rfl, rfl⟩
  have hv : (runSys .inert 500).ReachesVia (fun u a => u.throws a = true)
      (midMessage.cancel "t" (some "1")).1 v := TSys.reachesVia_of_run _ (by decide) hend
  obtain ⟨task', hg', hphase⟩ := hdone
  rw [← ht] at hv
  obtain ⟨-, -, -, -, honly⟩ := cancel_decides .inert 500 midMessage
    (TSys.reachable_of_run rfl hrun) "1" task hg hnd v hv
  rw [ht, hasst] at honly
  rw [ht] at hv
  exact ⟨v, task', hv, hg', hphase, honly⟩

end AgentProtocol

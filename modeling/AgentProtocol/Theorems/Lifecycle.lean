import AgentProtocol.Runner.Log
import AgentProtocol.Runner.Trace

/-!
# Lifecycle traces (`RunManager._execute`)

`Task.Bracketed` is the block one run contributes to the hub of its thread.
`lifecycle_well_bracketed`: the hub holds the blocks of the thread's runs one after
the other, in the order the runs were created. `end_reported_once`: a run that is
done has reported its start and its end once each, unless a cancel reached its task
before the first step, or a `finish` of it met arguments on which `json.loads` raises
something that is not a `JSONDecodeError`.
-/

namespace AgentProtocol

/-- The block of a run: nothing before its first step, or when it was cancelled
before it; then `started`, `running` and what it streamed; once it is done, one
terminal event by how it ended, and the requests for input. -/
inductive Task.Bracketed (rt : Runtime) (task : Task) : Prop
  | silent : task.events = [] → task.fed = [] →
      (task.phase = .created ∨ task.phase = .done ∧ task.cancelRequested = true) →
      Bracketed rt task
  | running {body : List EventData} :
      task.events = startedEvent task.assistantId :: runningEvent task.assistantId :: body →
      (∀ e ∈ body, e.isBody = true) → task.phase.isDone = false → Bracketed rt task
  | closed {body requests : List EventData} {status : String} {error : Option String}
      {e : Ending} :
      task.events = startedEvent task.assistantId :: runningEvent task.assistantId ::
        (body ++ .lifecycle status task.assistantId error :: requests) →
      (∀ e ∈ body, e.isBody = true) → (∀ e ∈ requests, e.isRequest = true) →
      task.phase = .done → ending task.graph none task.fed = some e →
      (status = "failed" ↔ e.raised rt = true) →
      (status = "interrupted" ↔ e.interrupted rt = true) →
      (status = "completed" ↔ e.raised rt = false ∧ e.interrupted rt = false) →
      Bracketed rt task

/-- The closing of a run is a terminal event by its ending, then requests. -/
theorem closing_spec (rt : Runtime) (assistantId : String) (e : Ending) :
    ∃ status error requests,
      closing rt assistantId e = .lifecycle status assistantId error :: requests ∧
      (∀ x ∈ requests, x.isRequest = true) ∧
      (status = "failed" ↔ e.raised rt = true) ∧
      (status = "interrupted" ↔ e.interrupted rt = true) ∧
      (status = "completed" ↔ e.raised rt = false ∧ e.interrupted rt = false) := by
  cases e with
  | failed exc =>
      exact ⟨"failed", some exc.describe, [], rfl, by simp, by simp [Ending.raised],
        by simp [Ending.interrupted], by simp [Ending.raised]⟩
  | cancelled =>
      exact ⟨"interrupted", none, [], rfl, by simp, by simp [Ending.raised],
        by simp [Ending.interrupted], by simp [Ending.interrupted]⟩
  | decided values =>
      cases hi : interruptsFromSnapshot rt values with
      | error exc =>
          refine ⟨"failed", some exc.describe, [], ?_, by simp, ?_, ?_, ?_⟩
          · simp only [closing, hi, failedEvent]
          · simp [Ending.raised, hi]
          · simp [Ending.interrupted, hi]
          · simp [Ending.raised, hi]
      | ok interrupts =>
          cases interrupts with
          | nil =>
              refine ⟨"completed", none, [], ?_, by simp, ?_, ?_, ?_⟩
              · simp only [closing, hi, completedEvent]
              · simp [Ending.raised, hi]
              · simp [Ending.interrupted, hi]
              · simp [Ending.raised, Ending.interrupted, hi]
          | cons p interrupts =>
              refine ⟨"interrupted", none, (p :: interrupts).map fun p => .inputRequested p.1 p.2,
                ?_, ?_, ?_, ?_, ?_⟩
              · simp only [closing, hi, interruptedEvent]
              · intro x hx
                obtain ⟨q, -, rfl⟩ := List.mem_map.mp hx
                rfl
              · simp [Ending.raised, hi]
              · simp [Ending.interrupted, hi]
              · simp [Ending.interrupted, hi]

/-- A task in shape is bracketed. -/
theorem Task.Shape.bracketed {rt : Runtime} {task : Task} (h : task.Shape rt) :
    task.Bracketed rt := by
  unfold Task.Shape at h
  cases hphase : task.phase with
  | created =>
      simp only [hphase] at h
      exact .silent h.1 h.2 (.inl hphase)
  | streaming tr last =>
      simp only [hphase] at h
      obtain ⟨body, hev, hbody, -⟩ := h
      exact .running hev hbody (by rw [hphase]; rfl)
  | snapshot tr =>
      simp only [hphase] at h
      obtain ⟨body, hev, hbody, -⟩ := h
      exact .running hev hbody (by rw [hphase]; rfl)
  | done =>
      simp only [hphase] at h
      rcases h with ⟨hev, hfed, hc⟩ | ⟨body, e, hend, hbody, hev⟩
      · exact .silent hev hfed (.inr ⟨hphase, hc⟩)
      · obtain ⟨status, error, requests, hclosing, hreq, hfailed, hint, hcomp⟩ :=
          closing_spec rt task.assistantId e
        rw [hclosing] at hev
        exact .closed hev hbody hreq hphase hend hfailed hint hcomp

/-- In every reachable state the hub of a thread has published the blocks of the
thread's runs, in the order of the runs, each under its own wire method; every block
is bracketed, and only the last run of the thread may still be under way. -/
theorem lifecycle_well_bracketed (rt : Runtime) (hloads : rt.LoadsTotal) (n : Nat) (w : World)
    (hw : (runSys rt n).Reachable w) (t : String) :
    (w.hub t).published.map Envelope.data = w.blocks t ∧
    (∀ e ∈ (w.hub t).published, e.method = e.data.data.method) ∧
    (∀ r task, (r, task) ∈ w.runsOf t → task.Bracketed rt) ∧
    ∀ r task older newer, w.runsOf t = older ++ (r, task) :: newer → newer ≠ [] →
      task.phase = .done := by
  have hL : w.LogInv := World.logInv_of_reachable hw
  refine ⟨hL.log t, hL.methods t, ?_, ?_⟩
  · intro r task hmem
    have hshape : task.Shape rt :=
      World.shape_of_reachable hw (fun w a _ => World.parsesAt_of_loadsTotal hloads w a)
        (World.mem_runsOf.mp hmem).1
    exact hshape.bracketed
  · intro r task older newer hruns hnewer
    have hmem : (r, task) ∈ w.runsOf t := by
      rw [hruns]
      exact List.mem_append_right _ List.mem_cons_self
    cases hphase : task.phase with
    | done => rfl
    | _ =>
        -- an unfinished run is the last one
        obtain ⟨older', hlast⟩ := hL.last t r task hmem (by rw [hphase]; rfl)
        have hnd := World.runsOf_keys_nodup w t
        rw [hruns] at hlast
        rw [hruns, List.map_append, List.map_cons, List.nodup_append, List.nodup_cons] at hnd
        have hin : (r, task) ∈ newer := by
          have hget : (older ++ (r, task) :: newer).getLast? = some (r, task) := by
            rw [hlast, List.getLast?_concat]
          obtain ⟨e, newer, rfl⟩ := List.exists_cons_of_ne_nil hnewer
          rw [List.getLast?_append_of_ne_nil _ (List.cons_ne_nil _ _), List.getLast?_cons_cons] at hget
          exact List.mem_of_getLast? hget
        exact absurd (List.mem_map_of_mem hin) hnd.2.1.1

/-- Run 1 stops at an interrupt, run 2 resumes it and is cancelled in its stream. -/
def approval : Dict String Value :=
  .ofList [("__interrupt__", .list [.dict [(.str "id", .str "i"), (.str "value", .str "go?")]])]

def resumedThread : List Act :=
  [.register "agent",
   .start "t" (.str "agent") .null none .null "1", .resolved "1" (.graph ⟨true⟩), .begin "1",
   .resume "1" (.item (.values approval)), .resume "1" .stop, .callback "1",
   .respond "t" "i" (.bool true) (some "agent") "2", .resolved "2" (.graph ⟨true⟩), .begin "2",
   .cancel "t" none, .resume "2" .cancelled]

def resumedThreadEnd : World :=
  ((runSys .inert 500).run (.new 500) resumedThread).getD (.new 500)

theorem lifecycle_well_bracketed_resumed :
    (resumedThreadEnd.hub "t").published.map Envelope.data = resumedThreadEnd.blocks "t" ∧
    ∀ r task, (r, task) ∈ resumedThreadEnd.runsOf "t" → task.Bracketed .inert := by
  have hrun : (runSys .inert 500).run (.new 500) resumedThread = some resumedThreadEnd := rfl
  have hreach := TSys.reachable_of_run (M := runSys .inert 500) rfl hrun
  have hloads : Runtime.inert.LoadsTotal := fun _ _ h => by cases h
  have h := lifecycle_well_bracketed .inert hloads 500 resumedThreadEnd hreach "t"
  exact ⟨h.1, h.2.2.1⟩

/-! ## Every run reports its end once -/

/-- None of these events is counted. -/
theorem countP_zero {es : List EventData} {p q : EventData → Bool}
    (h : ∀ e, p e = true → q e = false) (hes : ∀ e ∈ es, p e = true) : es.countP q = 0 := by
  rw [List.countP_eq_zero]
  intro e he
  rw [h e (hes e he)]
  exact Bool.false_ne_true

/-- A run that has begun and is done has one `started` and one terminal event. -/
theorem Task.Bracketed.counts {rt : Runtime} {task : Task} (h : task.Bracketed rt)
    (hdone : task.phase.isDone = true) (hne : task.events ≠ []) :
    task.events.countP EventData.isStarted = 1 ∧ task.events.countP EventData.isTerminal = 1 := by
  cases h with
  | silent hev => exact absurd hev hne
  | running _ _ hnd =>
      rw [hdone] at hnd
      cases hnd
  | @closed body requests status error e hev hbody hreq _ _ hfailed hint hcomp =>
      -- the terminal event is one of the three
      have hstatus : (status = "completed" ∨ status = "failed") ∨ status = "interrupted" := by
        cases hr : e.raised rt with
        | true => exact .inl (.inr (hfailed.mpr hr))
        | false =>
            cases hi : e.interrupted rt with
            | true => exact .inr (hint.mpr hi)
            | false => exact .inl (.inl (hcomp.mpr ⟨hr, hi⟩))
      have hterminal : (EventData.lifecycle status task.assistantId error).isTerminal = true := by
        simpa [EventData.isTerminal] using hstatus
      have hstarted : (EventData.lifecycle status task.assistantId error).isStarted = false := by
        rcases hstatus with (rfl | rfl) | rfl <;> rfl
      rw [hev]
      constructor
      · rw [List.countP_cons_of_pos (by rfl), List.countP_cons_of_neg (Bool.eq_false_iff.mp rfl),
          List.countP_append, List.countP_cons_of_neg (by rw [hstarted]; exact Bool.false_ne_true),
          countP_zero (fun _ => EventData.isStarted_of_isBody) hbody,
          countP_zero (fun _ => EventData.isStarted_of_isRequest) hreq]
      · rw [List.countP_cons_of_neg (Bool.eq_false_iff.mp rfl),
          List.countP_cons_of_neg (Bool.eq_false_iff.mp rfl), List.countP_append,
          List.countP_cons_of_pos hterminal,
          countP_zero (fun _ => EventData.isTerminal_of_isBody) hbody,
          countP_zero (fun _ => EventData.isTerminal_of_isRequest) hreq]

namespace World

variable {rt : Runtime} {n : Nat} {w : World}

/-- No task takes its first step cancelled, and no `finish` meets a block on which
`json.loads` fails. -/
def reportsAt (rt : Runtime) (w : World) : Act → Bool
  | .begin id =>
    match w.tasks.get? id with
    | some task => !task.cancelRequested
    | none => true
  | a => w.parsesAt rt a

theorem parsesAt_of_reportsAt {a : Act} (h : w.reportsAt rt a = true) :
    w.parsesAt rt a = true := by
  cases a with
  | begin => rfl
  | _ => exact h

end World

/-- In every run of the process in which no cancel reaches a task before its first
step and every message that is finished parses, a run whose task is done has exactly
one `started` and exactly one terminal event on the hub of its thread. -/
theorem end_reported_once (rt : Runtime) (n : Nat) (w : World)
    (hw : (runSys rt n).ReachableVia (fun w a => w.reportsAt rt a = true) w) (r : String)
    (task : Task) (hg : w.tasks.get? r = some task) (hdone : task.phase.isDone = true) :
    (w.eventsOf task.threadId r).countP EventData.isStarted = 1 ∧
      (w.eventsOf task.threadId r).countP EventData.isTerminal = 1 := by
  have hL : w.LogInv := World.logInv_of_reachable hw
  have hshape : task.Shape rt :=
    World.shape_of_reachable hw (fun _ _ => World.parsesAt_of_reportsAt) hg
  -- a task that left its first await has published `started`
  have hbegun : task.phase ≠ .created → task.events ≠ [] := by
    refine World.tasks_induct (P := fun task => task.phase ≠ .created → task.events ≠ []) hw
      ?_ ?_ ?_ ?_ ?_ ?_ r task hg
    · intro w runId s graph config task hg hne
      rw [World.launch, Dict.get?_set_self, Option.some.injEq] at hg
      exact absurd (by rw [← hg]) hne
    · intro task h
      exact h
    · intro w id task hok hg _ _ hc
      unfold World.reportsAt at hok
      simp only [hg, hc, Bool.not_true, Bool.false_eq_true] at hok
    · intro task _ _ _
      exact List.append_ne_nil_of_right_ne_nil _ (List.cons_ne_nil _ _)
    · intro w id task awaited s _ _ h hs _
      refine List.append_ne_nil_of_left_ne_nil (h ?_) _
      intro hphase
      rw [hphase] at hs
      cases awaited <;> cases hs
    · intro task h
      exact h
  have hne : task.events ≠ [] := by
    apply hbegun
    intro hphase
    rw [hphase] at hdone
    cases hdone
  rw [hL.eventsOf_eq hg]
  exact hshape.bracketed.counts hdone hne

/-- A run that is accepted and cancelled before its task has taken a step. -/
def cancelledEarly : List Act :=
  [.register "agent", .start "t" (.str "agent") .null none .null "1",
   .resolved "1" (.graph ⟨true⟩), .cancel "t" none, .begin "1"]

def cancelledEarlyEnd : World :=
  ((runSys .inert 500).run (.new 500) cancelledEarly).getD (.new 500)

theorem early_cancel_unreported :
    ¬∀ w, (runSys .inert 500).Reachable w → ∀ r task, w.tasks.get? r = some task →
      task.phase.isDone = true →
        (w.eventsOf task.threadId r).countP EventData.isStarted = 1 ∧
          (w.eventsOf task.threadId r).countP EventData.isTerminal = 1 := by
  intro hall
  have hrun : (runSys .inert 500).run (.new 500) cancelledEarly = some cancelledEarlyEnd := rfl
  have hreach := TSys.reachable_of_run (M := runSys .inert 500) rfl hrun
  have hcount := (hall cancelledEarlyEnd hreach "1" _ rfl rfl).1
  have hzero : (cancelledEarlyEnd.eventsOf "t" "1").countP EventData.isStarted = 0 := rfl
  exact absurd (hzero.symm.trans hcount) (by decide)

theorem end_reported_once_resumed :
    (resumedThreadEnd.eventsOf "t" "2").countP EventData.isStarted = 1 ∧
      (resumedThreadEnd.eventsOf "t" "2").countP EventData.isTerminal = 1 := by
  have hrun : (runSys .inert 500).run (.new 500) resumedThread = some resumedThreadEnd := rfl
  have hr := TSys.reachesVia_of_run (fun w a => w.reportsAt .inert a = true) (by decide) hrun
  obtain ⟨task, hg⟩ : ∃ task, resumedThreadEnd.tasks.get? "2" = some task := ⟨_, rfl⟩
  have hdone : (resumedThreadEnd.tasks.get? "2").map (fun task => task.phase.isDone) = some true :=
    rfl
  have ht : (resumedThreadEnd.tasks.get? "2").map Task.threadId = some "t" := rfl
  rw [hg, Option.map_some, Option.some.injEq] at hdone ht
  rw [← ht]
  exact end_reported_once .inert 500 resumedThreadEnd ⟨_, rfl, hr⟩ "2" task hg hdone

end AgentProtocol

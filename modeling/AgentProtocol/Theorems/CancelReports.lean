import AgentProtocol.Router.Binding
import AgentProtocol.Runner.Cancel

/-!
# What the cancel endpoint reports (`cancel_run`)

The status is read off the slot of the thread, whatever run holds it, while only the run
that the request names is asked to cancel. So the answer is right exactly where the slot
is free or holds that run, unfinished: over a reservation, a run that has ended and was not
cleared yet, or another run than the named one, the answer is `cancelling` and no task was
asked.
-/

namespace AgentProtocol

namespace World

variable {w : World} {t r : String}

/-- A run with an unfinished task on the thread is in its slot. -/
theorem SlotInv.running_of_task (hI : w.SlotInv) {task : Task} (hg : w.tasks.get? r = some task)
    (ht : task.threadId = t) (hnd : task.phase.isDone = false) : w.Running t r := by
  obtain ⟨entry, ha, hrun, htask⟩ := hI.running r task hg hnd
  rw [ht] at ha
  exact ⟨entry, task, ha, hrun, htask, hg, ht, hnd⟩

/-- No other task than that of the named run is touched. -/
theorem SlotInv.cancel_others (hI : w.SlotInv) {r' : String} (h : r ≠ r') :
    (w.cancel t (some r)).1.tasks.get? r' = w.tasks.get? r' := by
  by_cases hrun : w.Running t r
  · obtain ⟨entry, task, -, -, -, hg, -⟩ := id hrun
    rw [cancel_of_running hrun hg, Dict.get?_set_ne _ _ h]
  · rw [cancel_of_not_running hI hrun]

end World

namespace App

variable {rt : Runtime} {n : Nat} {a : App} {t r : String}

/-- The run is unfinished on this thread, and between `a` and `a'` its task was asked to
cancel. -/
def Asked (a a' : App) (t r : String) : Prop :=
  ∃ task, a.world.tasks.get? r = some task ∧ task.threadId = t ∧ task.phase.isDone = false ∧
    a'.world.tasks.get? r = some { task with cancelRequested := true }

/-- A cancel request says `cancelling` exactly of a run that it has asked to cancel, and
leaves the tasks of all other runs alone. -/
structure Reports (a : App) (t r : String) : Prop where
  status : (a.cancelRun t r).2 = .reported r "cancelling" ↔ a.Asked (a.cancelRun t r).1 t r
  others : ∀ r', r ≠ r' → (a.cancelRun t r).1.world.tasks.get? r' = a.world.tasks.get? r'

/-- The thread of a task has a row. -/
theorem row_of_task (h : (appSys rt n).Reachable a) {task : Task}
    (hg : a.world.tasks.get? r = some task) : a.store.get task.threadId ≠ none := by
  have hmem : (r, task) ∈ a.world.runsOf task.threadId := World.mem_runsOf.mpr ⟨hg, rfl⟩
  obtain ⟨older, last, hlast⟩ : ∃ older last, a.world.runsOf task.threadId = older ++ [last] :=
    (List.eq_nil_or_concat' _).resolve_left (List.ne_nil_of_mem hmem)
  have hbound := (boundInv_of_reachable h).runs task.threadId older last.1 last.2 hlast
  intro hnone
  have hstored := hbound.stored
  rw [MemoryThreadStore.assistant, hnone] at hstored
  cases hstored

theorem cancelRun_unknown (h : a.store.get t = none) : a.cancelRun t r = (a, .notFound) := by
  rw [cancelRun, h]

/-- The tasks after a request on a thread that exists. -/
theorem cancelRun_world (h : a.store.get t ≠ none) :
    (a.cancelRun t r).1.world = (a.world.cancel t (some r)).1 := by
  obtain ⟨record, hrow⟩ := Option.ne_none_iff_exists'.mp h
  simp only [cancelRun, hrow]

/-- The status is `cancelling` where anything is in the slot. -/
theorem cancelRun_status (h : a.store.get t ≠ none) :
    (a.cancelRun t r).2 = .reported r "cancelling" ↔ a.world.active.get? t ≠ none := by
  obtain ⟨record, hrow⟩ := Option.ne_none_iff_exists'.mp h
  simp only [cancelRun, hrow, World.active_cancel]
  cases a.world.active.get? t <;> simp

/-- The running run of the thread is what a request can ask. -/
theorem asked_iff (hI : a.world.SlotInv) (h : a.store.get t ≠ none) :
    a.Asked (a.cancelRun t r).1 t r ↔ a.world.Running t r := by
  constructor
  · rintro ⟨task, hg, ht, hnd, -⟩
    exact hI.running_of_task hg ht hnd
  · intro hrun
    obtain ⟨entry, task, -, -, -, hg, ht, hnd⟩ := id hrun
    refine ⟨task, hg, ht, hnd, ?_⟩
    rw [cancelRun_world h, World.cancel_of_running hrun hg, Dict.get?_set_self]

end App

/-- In every reachable state a request reports on the run it names exactly where the thread
does not exist, its slot is free, or that run is in the slot with an unfinished task. -/
theorem cancel_reports_iff (rt : Runtime) (n : Nat) (a : App) (h : (appSys rt n).Reachable a)
    (t r : String) :
    a.Reports t r ↔
      a.store.get t = none ∨ a.world.active.get? t = none ∨ a.world.Running t r := by
  have hI : a.world.SlotInv := World.slotInv_of_reachable (App.world_reachable h)
  by_cases hrow : a.store.get t = none
  · -- no task is on a thread without a row
    refine iff_of_true ⟨?_, ?_⟩ (.inl hrow)
    · rw [App.cancelRun_unknown hrow]
      refine iff_of_false (by simp) ?_
      rintro ⟨task, hg, rfl, -⟩
      exact App.row_of_task h hg hrow
    · intro r' _
      rw [App.cancelRun_unknown hrow]
  · -- the others are left alone in any case, so the status decides
    have hstatus : a.Reports t r ↔ (a.world.active.get? t ≠ none ↔ a.world.Running t r) := by
      rw [← App.cancelRun_status hrow, ← App.asked_iff hI hrow]
      constructor
      · exact App.Reports.status
      · intro hst
        refine ⟨hst, ?_⟩
        intro r' hne
        rw [App.cancelRun_world hrow, hI.cancel_others hne]
    have hslot : a.world.Running t r → a.world.active.get? t ≠ none := by
      rintro ⟨entry, -, ha, -⟩
      simp [ha]
    rw [hstatus]
    constructor
    · intro hiff
      by_cases hfree : a.world.active.get? t = none
      · exact .inr (.inl hfree)
      · exact .inr (.inr (hiff.mp hfree))
    · rintro (hnone | hfree | hrun)
      · exact absurd hnone hrow
      · exact ⟨fun hne => absurd hfree hne, hslot⟩
      · exact ⟨fun _ => hrun, hslot⟩

/-- A first run ends and a second one starts. -/
def replacedRun : List AppAct :=
  let start : Json := .obj [("method", .str "run.start"),
    ("params", .obj [("assistant_id", .str "agent")])]
  [.world (.register "agent"), .create "t" "now" ∅,
   .request 1 "t", .body 1 (some start) "r1", .started 1 (.graph ⟨false⟩) "now",
   .world (.begin "r1"), .world (.resume "r1" .stop), .world (.callback "r1"),
   .request 2 "t", .body 2 (some start) "r2", .started 2 (.graph ⟨false⟩) "now",
   .world (.begin "r2")]

def replacedRunEnd : App := ((appSys .inert 500).run service replacedRun).getD service

theorem cancel_reports_current : replacedRunEnd.Reports "t" "r2" := by
  have hrun : (appSys .inert 500).run service replacedRun = some replacedRunEnd := rfl
  have hreach := TSys.reachable_of_run (M := appSys .inert 500) ⟨rfl, rfl, rfl⟩ hrun
  exact (cancel_reports_iff .inert 500 replacedRunEnd hreach "t" "r2").mpr
    (.inr (.inr ⟨_, _, rfl, rfl, rfl, rfl, rfl, rfl⟩))

/-- A late cancel of the first run says that it is being cancelled. -/
theorem cancel_reports_replaced : (appSys .inert 500).Reachable replacedRunEnd ∧
    (replacedRunEnd.cancelRun "t" "r1").2 = .reported "r1" "cancelling" ∧
    ¬replacedRunEnd.Reports "t" "r1" := by
  have hrun : (appSys .inert 500).run service replacedRun = some replacedRunEnd := rfl
  refine ⟨TSys.reachable_of_run (M := appSys .inert 500) ⟨rfl, rfl, rfl⟩ hrun, rfl, ?_⟩
  intro hreports
  obtain ⟨task, hg, -, hnd, -⟩ := hreports.status.mp rfl
  obtain rfl := Option.some.inj hg
  cases hnd

end AgentProtocol

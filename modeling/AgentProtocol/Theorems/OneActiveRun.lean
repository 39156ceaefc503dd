import AgentProtocol.Runner.Slot

/-!
# One active run per thread (`RunManager.start`)

Whoever is reserved, starting or running on a thread is the run in its slot
(`World.SlotInv`), so there is at most one, and a second `start` meets it before it
does anything.
-/

namespace AgentProtocol

namespace World

variable {rt : Runtime} {n : Nat} {w : World} {t r : String}

/-- The run `r` occupies thread `t`: its reservation is in the slot, its `start` is
suspended, or its task is unfinished. -/
inductive Live (w : World) (t r : String) : Prop
  | reserved {a : ActiveRun} : w.active.get? t = some a → a.runId = r → a.task = none → Live w t r
  | starting {s : Starting} : w.starting.get? r = some s → s.threadId = t → Live w t r
  | running {task : Task} : w.tasks.get? r = some task → task.threadId = t →
      task.phase.isDone = false → Live w t r

/-- A live run is the entry of the slot, and `start` finds it busy. -/
theorem SlotInv.live_slot (hI : w.SlotInv) (h : w.Live t r) :
    ∃ a, w.active.get? t = some a ∧ a.runId = r ∧ w.busy a = true ∧
      ((a.task = none ∧ w.tasks.get? r = none) ∨
        ∃ task, a.task = some r ∧ w.tasks.get? r = some task ∧ task.phase.isDone = false) := by
  cases h with
  | reserved ha hr htask =>
      refine ⟨_, ha, hr, ?_, .inl ⟨htask, ?_⟩⟩
      · unfold busy
        rw [htask]
      · rw [← hr]
        exact (hI.slot t _ ha).reserved htask
  | starting hs ht =>
      obtain ⟨a, ha, hr, htask⟩ := hI.starting r _ hs
      refine ⟨a, ht ▸ ha, hr, ?_, .inl ⟨htask, (hI.starting_fresh hs).2⟩⟩
      unfold busy
      rw [htask]
  | running hg ht hnd =>
      obtain ⟨a, ha, hr, htask⟩ := hI.running r _ hg hnd
      refine ⟨a, ht ▸ ha, hr, ?_, .inr ⟨_, htask, hg, hnd⟩⟩
      unfold busy
      rw [htask]
      simp only [hg, hnd, Bool.not_false]

/-- A busy slot refuses a start and changes nothing. -/
theorem start_of_busy {a : ActiveRun} (ha : w.active.get? t = some a) (hb : w.busy a = true)
    (v : Value) (input : GraphInput) (config : Option (Dict String Json)) (metadata : Json)
    (runId : String) :
    w.start t v input config metadata runId = (w, some (.runActive t a.runId)) := by
  unfold start
  rw [ha]
  simp only [hb, if_true]

end World

/-- In every reachable state a thread has at most one live run, its slot holds
exactly that run, and any further start on the thread raises `RunActiveError` and
changes nothing. -/
theorem one_active_run (rt : Runtime) (n : Nat) (w : World) (hw : (runSys rt n).Reachable w)
    (t : String) :
    (∀ r r', w.Live t r → w.Live t r' → r = r') ∧
    ∀ r, w.Live t r →
      (∃ a, w.active.get? t = some a ∧ a.runId = r ∧ a.threadId = t ∧
        ((a.task = none ∧ w.tasks.get? r = none) ∨
          ∃ task, a.task = some r ∧ w.tasks.get? r = some task ∧
            task.phase.isDone = false)) ∧
      ∀ assistantId input config metadata runId,
        w.start t assistantId input config metadata runId = (w, some (.runActive t r)) := by
  have hI : w.SlotInv := World.slotInv_of_reachable hw
  refine ⟨?_, ?_⟩
  · intro r r' h h'
    obtain ⟨a, ha, hr, -⟩ := hI.live_slot h
    obtain ⟨a', ha', hr', -⟩ := hI.live_slot h'
    rw [ha, Option.some.injEq] at ha'
    rw [← hr, ← hr', ha']
  · intro r h
    obtain ⟨a, ha, hr, hb, hcase⟩ := hI.live_slot h
    refine ⟨⟨a, ha, hr, (hI.slot t a ha).thread, hcase⟩, ?_⟩
    intro assistantId input config metadata runId
    rw [World.start_of_busy ha hb, hr]

/-- Run 1 ends, run 2 reserves the slot before the done-callback of run 1 runs, and
the callback leaves the reservation alone. -/
def lateCallback : List Act :=
  [.register "agent",
   .start "t" (.str "agent") .null none .null "1", .resolved "1" (.graph ⟨false⟩),
   .begin "1", .resume "1" .stop,
   .start "t" (.str "agent") .null none .null "2", .callback "1"]

def lateCallbackEnd : World := ((runSys .inert 500).run (.new 500) lateCallback).getD (.new 500)

theorem one_active_run_late_callback :
    ∃ a, lateCallbackEnd.active.get? "t" = some a ∧ a.runId = "2" ∧ a.task = none ∧
      ∀ runId, (lateCallbackEnd.start "t" (.str "agent") (.input .null) none .null runId).2 =
        some (.runActive "t" "2") := by
  have hrun : (runSys .inert 500).run (.new 500) lateCallback = some lateCallbackEnd := rfl
  have hreach := TSys.reachable_of_run (M := runSys .inert 500) rfl hrun
  have hlive : lateCallbackEnd.Live "t" "2" := .reserved rfl rfl rfl
  obtain ⟨⟨a, ha, hr, -, hcase⟩, hstart⟩ := (one_active_run .inert 500 _ hreach "t").2 "2" hlive
  refine ⟨a, ha, hr, ?_, ?_⟩
  · rcases hcase with ⟨hnone, -⟩ | ⟨task, -, hg, -⟩
    · exact hnone
    · cases hg
  · intro runId
    rw [hstart]

end AgentProtocol

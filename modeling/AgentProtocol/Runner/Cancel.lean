import AgentProtocol.Runner.Slot

/-!
# Cancelling a run (`RunManager.cancel`)

A cancel reaches the task of a run that is in the slot of its thread and unfinished, and
does nothing otherwise.
-/

namespace AgentProtocol

namespace World

variable (w : World) (t r : String)

/-- The run is in the slot of the thread and its task is unfinished. -/
def Running : Prop :=
  ∃ entry task, w.active.get? t = some entry ∧ entry.runId = r ∧ entry.task = some r ∧
    w.tasks.get? r = some task ∧ task.threadId = t ∧ task.phase.isDone = false

theorem active_cancel (run : Option String) : (w.cancel t run).1.active = w.active := by
  unfold cancel
  repeat' split
  all_goals rfl

variable {w t r}

/-- Only a running run is asked. -/
theorem cancel_of_running {task : Task} (h : w.Running t r) (hg : w.tasks.get? r = some task) :
    (w.cancel t (some r)).1.tasks = w.tasks.set r { task with cancelRequested := true } := by
  obtain ⟨entry, task', ha, hrun, htask, hg', -, hnd⟩ := h
  obtain rfl := Option.some.inj (hg.symm.trans hg')
  simp [cancel, ha, htask, hrun, hg, hnd]

theorem cancel_of_not_running (hI : w.SlotInv) (h : ¬w.Running t r) :
    (w.cancel t (some r)).1 = w := by
  unfold cancel
  split
  · rfl
  · next entry ha =>
    split
    · rfl
    · next id hid =>
      split
      · next hr =>
        obtain ⟨hidr, task, hg, ht⟩ := (hI.slot t entry ha).real id hid
        rw [hg]
        have hrun : entry.runId = r := by simpa [eq_comm] using hr
        have hdone : task.phase.isDone = true := by
          rw [← Bool.not_eq_false]
          intro hnd
          exact h ⟨entry, task, ha, hrun, by rw [hid, hidr, hrun], by rw [← hrun, ← hidr, hg], ht,
            hnd⟩
        simp [hdone]
      · rfl

end World

end AgentProtocol

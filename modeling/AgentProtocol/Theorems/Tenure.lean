import AgentProtocol.Runner.Messages
import AgentProtocol.Runner.Slots

/-!
# The tenure of a run (`RunManager._active`)

A run holds the slot of its thread from the creation of its task to the end of it, without a
break, and it publishes on the hub of its thread in that time only. Both are read off the
slots that the process refines.
-/

namespace AgentProtocol

namespace World

variable {rt : Runtime} {n : Nat} {w v : World} {t r : String}

/-- What one step publishes on a thread is of the run that holds its slot. -/
theorem step_by_holder (hI : w.SlotInv) {a : Act} (h : WorldStep rt w a v) (t : String) :
    ∃ new, (v.hub t).published = (w.hub t).published ++ new ∧
      ∀ e ∈ new, w.slotOf t = .held e.data.runId := by
  have hnone : (v.hub t).published = (w.hub t).published →
      ∃ new, (v.hub t).published = (w.hub t).published ++ new ∧
        ∀ e ∈ new, w.slotOf t = .held e.data.runId := by
    intro heq
    exact ⟨[], by rw [heq, List.append_nil], fun e he => by cases he⟩
  have hperform : ∀ {id : String} {task task' : Task} {s : TaskStep},
      w.tasks.get? id = some task → task.phase.isDone = false → v = w.perform rt id task' s →
      task'.threadId = task.threadId →
      ∃ new, (v.hub t).published = (w.hub t).published ++ new ∧
        ∀ e ∈ new, w.slotOf t = .held e.data.runId := by
    intro id task task' s hg hnd hv hthread
    rw [hv, hub_perform]
    by_cases ht : task'.threadId = t
    · rw [if_pos ht, ht]
      obtain ⟨new, hnew, hdata, -⟩ := publishAll_published rt t id (w.hub t) s.events
      refine ⟨new, hnew, fun e he => ?_⟩
      have hmem := List.mem_map_of_mem (f := Envelope.data) he
      rw [hdata] at hmem
      obtain ⟨x, -, hx⟩ := List.mem_map.mp hmem
      rw [← hx, ← ht, hthread]
      exact hI.slotOf_running hg hnd
    · rw [if_neg ht]
      exact ⟨[], (List.append_nil _).symm, fun e he => by cases he⟩
  cases h with
  | @stream t' act h hp hstep =>
      apply hnone
      rw [hub_set]
      split
      · next ht => rw [StreamHub.step_published hstep hp, ht]
      · rfl
  | begin hg hphase _ => exact hperform hg (by rw [hphase]; rfl) rfl rfl
  | resume hg hs => exact hperform hg (resume_not_done hs) rfl rfl
  | _ => exact hnone rfl

/-- What a run of the process publishes on a thread was published by whoever held its slot
at that moment. -/
theorem run_by_holder (hw : (runSys rt n).Reachable w) (h : (runSys rt n).Reaches w v)
    (t : String) :
    ∃ new, (v.hub t).published = (w.hub t).published ++ new ∧
      ∀ e ∈ new, ∃ u, (runSys rt n).Reaches w u ∧ (runSys rt n).Reaches u v ∧
        u.slotOf t = .held e.data.runId := by
  induction h with
  | refl => exact ⟨[], (List.append_nil _).symm, fun e he => by cases he⟩
  | @tail u v a hwu _ hstep ih =>
      obtain ⟨before, hbefore, hheld⟩ := ih
      obtain ⟨new, hnew, hholder⟩ :=
        step_by_holder (slotInv_of_reachable (hw.trans hwu)) (worldStep_of_step hstep) t
      have huv : (runSys rt n).Reaches u v := .single trivial hstep
      refine ⟨before ++ new, by rw [hnew, hbefore, List.append_assoc], fun e he => ?_⟩
      rcases List.mem_append.mp he with he | he
      · obtain ⟨u', hwu', hu'u, hslot⟩ := hheld e he
        exact ⟨u', hwu', hu'u.trans huv, hslot⟩
      · exact ⟨u, hwu, huv, hholder e he⟩

end World

/-- The process refines the slots: each step is a run of slots that one job at a time holds.
There `reserved` is a suspended `start` of the thread and `held` an unfinished task. -/
theorem process_refines_slots (rt : Runtime) (n : Nat) :
    (runSys rt n).Simulates (slotSys String String) (fun _ _ => True) (fun _ _ => True)
        World.slots ∧
      ∀ w, (runSys rt n).Reachable w → ∀ t r,
        (w.slots.slot t = .reserved r ↔ ∃ s, w.starting.get? r = some s ∧ s.threadId = t) ∧
        (w.slots.slot t = .held r ↔
          ∃ task, w.tasks.get? r = some task ∧ task.threadId = t ∧ task.phase.isDone = false) := by
  refine ⟨slots_simulated rt n, fun w hw t r => ?_⟩
  have hI : w.SlotInv := World.slotInv_of_reachable hw
  constructor
  · constructor
    · exact hI.starting_of_reserved
    · rintro ⟨s, hs, rfl⟩
      exact hI.slotOf_starting hs
  · constructor
    · exact hI.task_of_held
    · rintro ⟨task, hg, rfl, hnd⟩
      exact hI.slotOf_running hg hnd

/-- From any reachable state on: while a run holds the slot of a thread nobody else does, and
what is published on the thread is its own; a run whose name is not on the slot, and which
was drawn before, is never on it again, and publishes nothing there. -/
theorem events_within_tenure (rt : Runtime) (n : Nat) (w v : World)
    (hw : (runSys rt n).Reachable w) (hwv : (runSys rt n).Reaches w v) (t : String) :
    ∃ new, (v.hub t).published = (w.hub t).published ++ new ∧
      ∀ r,
        (w.slotOf t = .held r → v.slotOf t = .held r →
          (∀ u, (runSys rt n).Reaches w u → (runSys rt n).Reaches u v → u.slotOf t = .held r) ∧
            ∀ e ∈ new, e.data.runId = r) ∧
        (r ∈ w.drawn → (w.slotOf t).job ≠ some r →
          (v.slotOf t).job ≠ some r ∧ ∀ e ∈ new, e.data.runId ≠ r) := by
  have hsim := slots_simulated rt n
  have hslots := hsim.reachable hw
  obtain ⟨new, hnew, hholder⟩ := World.run_by_holder hw hwv t
  refine ⟨new, hnew, fun r => ⟨fun hheld hheld' => ?_, fun hdrawn hjob => ?_⟩⟩
  · have hbetween : ∀ u, (runSys rt n).Reaches w u → (runSys rt n).Reaches u v →
        u.slotOf t = .held r := by
      intro u hwu huv
      have hu := hw.trans hwu
      exact Slots.held_between hslots (hsim.reaches hw hwu) (hsim.reaches hu huv) hheld hheld'
    refine ⟨hbetween, fun e he => ?_⟩
    obtain ⟨u, hwu, huv, hslot⟩ := hholder e he
    rw [hbetween u hwu huv] at hslot
    exact (Slot.held.inj hslot).symm
  · have hgone : ∀ u, (runSys rt n).Reaches w u → u.slots.Gone t r := fun u hwu =>
      Slots.Gone.mono hslots (hsim.reaches hw hwu) ⟨hdrawn, hjob⟩
    refine ⟨(hgone v hwv).2, fun e he heq => ?_⟩
    obtain ⟨u, hwu, -, hslot⟩ := hholder e he
    apply (hgone u hwu).2
    show (u.slotOf t).job = some r
    rw [hslot, heq]
    rfl

/-- Run 1 has ended and its slot is clear; then run 2 begins. -/
def firstEnded : World :=
  ((runSys .inert 500).run (.new 500) (streamed [] ++ [.callback "1"])).getD (.new 500)

def secondBegins : List Act :=
  [.start "t" (.str "agent") .null none .null "2", .resolved "2" (.graph ⟨false⟩), .begin "2"]

theorem events_within_tenure_second :
    ∃ v new, (runSys .inert 500).Reaches firstEnded v ∧
      (v.hub "t").published = (firstEnded.hub "t").published ++ new ∧ new.length = 2 ∧
      ∀ e ∈ new, e.data.runId ≠ "1" := by
  have hfirst : (runSys .inert 500).run (.new 500) (streamed [] ++ [.callback "1"]) =
      some firstEnded := rfl
  have hreach := TSys.reachable_of_run (M := runSys .inert 500) rfl hfirst
  obtain ⟨v, hsecond, hlen⟩ : ∃ v, (runSys .inert 500).run firstEnded secondBegins = some v ∧
      (v.hub "t").published.length = (firstEnded.hub "t").published.length + 2 := ⟨_, rfl, rfl⟩
  have hwv := TSys.reaches_of_run hsecond
  obtain ⟨new, hnew, hruns⟩ := events_within_tenure .inert 500 firstEnded v hreach hwv "t"
  have hgone := (hruns "1").2 (by decide) (by decide)
  rw [hnew, List.length_append] at hlen
  exact ⟨v, new, hwv, hnew, by omega, hgone.2⟩

end AgentProtocol

import AgentProtocol.Theorems.CatchUp
import AgentProtocol.Theorems.Lifecycle
import AgentProtocol.Theorems.TerminalEvent

/-!
# What a waiting client knows

A client follows a run on its response, and nothing is lost to it. While it has events coming, it
knows less than the process does. Where it waits, it knows as much: the run is over just where
the client has read a terminal event of it (`over_iff_read`). So no client waits for the end of
a run that is over, and none takes a run for over that goes on.
-/

namespace AgentProtocol

/-- A run of which nothing but its end is open has published its terminal event. -/
theorem terminal_of_done {rt : Runtime} {n : Nat} {w : World} (hloads : rt.LoadsTotal)
    (hw : (runSys rt n).Reachable w) {r : String} {task : Task} (hg : w.tasks.get? r = some task)
    (hdone : task.phase.isDone = true) (hbegun : task.events ≠ []) :
    ∃ e ∈ (w.hub task.threadId).published, e.data.runId = r ∧ e.data.data.isTerminal = true := by
  have hshape : task.Shape rt :=
    World.shape_of_reachable hw (fun w a _ => World.parsesAt_of_loadsTotal hloads w a) hg
  obtain ⟨-, hone⟩ := hshape.bracketed.counts hdone hbegun
  have hpos : 0 < task.events.countP EventData.isTerminal := by omega
  obtain ⟨d, hd, hterm⟩ := List.countP_pos_iff.mp hpos
  -- the hub of the thread has what the task published
  rw [← (World.logInv_of_reachable hw).eventsOf_eq hg, World.eventsOf] at hd
  obtain ⟨p, hp, rfl⟩ := List.mem_map.mp hd
  obtain ⟨hp, hrun⟩ := List.mem_filter.mp hp
  obtain ⟨e, he, rfl⟩ := List.mem_map.mp hp
  exact ⟨e, he, beq_iff_eq.mp hrun, hterm⟩

/-- Where a response waits, to which nothing was lost and which asks for the end of a run that has
begun, the run is over just where its client has read a terminal event of it. -/
theorem over_iff_read (rt : Runtime) (hloads : rt.LoadsTotal) (n : Nat) (w : World) (t : String)
    (id : Nat) (hw : (runSys rt n).ReachableVia (World.OnHub rt n t (StreamHub.Lossless id)) w)
    (g : Gen Published) (hg : (w.hub t).gens.get? id = some g) (hopen : g.phase ≠ .closed)
    (hwaits : w.step rt (.stream t (.pull id)) = none)
    (r : String) (task : Task) (htask : w.tasks.get? r = some task) (ht : task.threadId = t)
    (hbegun : task.events ≠ [])
    (hasks : ∀ e ∈ (w.hub t).published, e.data.runId = r → e.data.data.isTerminal = true →
      g.wants e = true) :
    task.phase.isDone = true ↔
      ∃ e ∈ g.delivered, e.data.runId = r ∧ e.data.data.isTerminal = true := by
  have hreach := hw.reachable
  have hI := inv_of_reachable (World.hub_reachable hreach t)
  constructor
  · intro hdone
    have hlossless := (World.onHub_simulates rt n t (StreamHub.Lossless id)).reachable hw
    have hnone : (w.hub t).pull id = none := by
      simpa [World.step, StreamAct.isPublish, StreamHub.step] using hwaits
    obtain ⟨sub, hsub⟩ := registered_of_reachable hlossless id g hg hopen
    obtain ⟨hlive, hqueue⟩ := StreamHub.waits_of_pull_none hnone hg hsub hopen
    have hsent := StreamHub.delivered_eq_of_waits hI (StreamHub.hasAll_of_reachable hlossless) hg
      hsub hlive hqueue
    obtain ⟨e, he, hrun, hterm⟩ := terminal_of_done hloads hreach htask hdone hbegun
    rw [ht] at he
    refine ⟨e, ?_, hrun, hterm⟩
    rw [hsent]
    exact List.mem_filter.mpr ⟨he, hasks e he hrun hterm⟩
  · rintro ⟨e, he, rfl, hterm⟩
    obtain ⟨hpub, -⟩ := (hI.sound id g hg).wanted e (List.mem_append_left _ he)
    obtain ⟨task', htask', -, hmem⟩ := (World.logInv_of_reachable hreach).task_of_mem hpub
    obtain rfl := Option.some.inj (htask.symm.trans htask')
    rw [done_of_terminal hreach htask hmem hterm]
    rfl

/-- A client that connects before the run reads all of it, and skips what is queued of it. -/
def waitedFor : List Act :=
  .stream "t" (.subscribe none none none) :: streamed [] ++
    List.replicate 8 (.stream "t" (.pull 0))

def waitedForEnd : World := ((runSys .inert 500).run (.new 500) waitedFor).getD (.new 500)

theorem over_iff_read_waited :
    ∃ g, (waitedForEnd.hub "t").gens.get? 0 = some g ∧
      ∃ e ∈ g.delivered, e.data.runId = "1" ∧ e.data.data.isTerminal = true := by
  have hrun : (runSys .inert 500).run (.new 500) waitedFor = some waitedForEnd := rfl
  have hok : (runSys .inert 500).RunsVia (World.OnHub .inert 500 "t" (StreamHub.Lossless 0))
      (.new 500) waitedFor := by
    decide
  have hloads : Runtime.inert.LoadsTotal := fun _ _ h => by cases h
  have hw := TSys.reachesVia_of_run _ hok hrun
  obtain ⟨g, hg, hlive, hstart, hpasses⟩ : ∃ g, (waitedForEnd.hub "t").gens.get? 0 = some g ∧
      g.phase = .live ∧ g.start = 0 ∧ ∀ e, g.passes e = true :=
    ⟨_, rfl, rfl, rfl, fun _ => rfl⟩
  obtain ⟨task, htask, ht, hdone, hlength⟩ : ∃ task, waitedForEnd.tasks.get? "1" = some task ∧
      task.threadId = "t" ∧ task.phase.isDone = true ∧ task.events.length = 3 :=
    ⟨_, rfl, rfl, rfl, rfl⟩
  have hopen : g.phase ≠ .closed := by simp [hlive]
  have hbegun : task.events ≠ [] := List.ne_nil_of_length_pos (by omega)
  have hiff := over_iff_read .inert hloads 500 waitedForEnd "t" 0 ⟨_, rfl, hw⟩ g hg hopen rfl "1"
    task htask ht hbegun fun e he _ _ => by
      have hpos := (inv_of_reachable (World.hub_reachable
        (TSys.reachable_of_run (M := runSys .inert 500) rfl hrun) "t")).numbered.bounds he
      rw [g.wants_iff, hstart]
      exact ⟨by omega, hpasses e⟩
  exact ⟨g, hg, hiff.mp hdone⟩

end AgentProtocol

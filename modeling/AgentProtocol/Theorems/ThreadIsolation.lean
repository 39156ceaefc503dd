import AgentProtocol.Router.Isolation

/-!
# Threads do not interfere (`runner.py`, `hub.py`)

The registries of the process are keyed by the thread or by a run, and a run is on one
thread. So whatever is done on other threads, and in whatever order, a thread ends up as
if only what concerns it had been done.
-/

namespace AgentProtocol

/-- For every schedule and every thread, the hub of the thread, its slot, its pending
interrupts, its last assistant and its row are those that the part of the schedule that
concerns the thread leads to. -/
theorem threads_isolated (rt : Runtime) (n : Nat) (a₀ a : App) (acts : List AppAct)
    (hinit : (appSys rt n).init a₀) (hrun : (appSys rt n).run a₀ acts = some a) (B : String) :
    ∃ b, (appSys rt n).run a₀ ((appSys rt n).project (App.concerns B) a₀ acts) = some b ∧
      a.world.hubs.get? B = b.world.hubs.get? B ∧
      a.world.active.get? B = b.world.active.get? B ∧
      a.world.pendingInputs.get? B = b.world.pendingInputs.get? B ∧
      a.world.lastAssistant.get? B = b.world.lastAssistant.get? B ∧
      a.store.get B = b.store.get B := by
  have hstart : a₀.Projection B a₀ := by
    refine { App.Agree.refl B a₀ with owned := ?_ }
    intro id req hg
    rw [hinit.2.1] at hg
    cases hg
  obtain ⟨b, hb, h⟩ := hstart.run (TSys.ReachableVia.of_init hinit) hrun
  exact ⟨b, hb, h.world.hubs, h.world.active, h.world.pendingInputs, h.world.lastAssistant, h.row⟩

/-- Runs on two threads, with their steps interleaved; the second one is cancelled. -/
def twoThreads : List AppAct :=
  let start : Json := .obj [("id", .int 1), ("method", .str "run.start"),
    ("params", .obj [("assistant_id", .str "agent")])]
  [.world (.register "agent"), .create "t" "now" ∅, .create "u" "now" ∅,
   .request 1 "t", .request 2 "u", .body 1 (some start) "r1", .body 2 (some start) "r2",
   .started 2 (.graph ⟨true⟩) "now", .started 1 (.graph ⟨true⟩) "now", .world (.begin "r1"),
   .world (.begin "r2"), .cancelRun "u" "r2", .world (.resume "r1" .stop),
   .world (.resume "r2" .cancelled), .world (.resume "r1" (.snapshot ∅)),
   .world (.callback "r2"), .world (.callback "r1")]

def twoThreadsEnd : App := ((appSys .inert 500).run service twoThreads).getD service

theorem threads_isolated_two :
    ∃ b, (appSys .inert 500).run service
        ((appSys .inert 500).project (App.concerns "t") service twoThreads) = some b ∧
      twoThreadsEnd.world.hubs.get? "t" = b.world.hubs.get? "t" ∧
      twoThreadsEnd.world.active.get? "t" = b.world.active.get? "t" ∧
      twoThreadsEnd.world.pendingInputs.get? "t" = b.world.pendingInputs.get? "t" ∧
      twoThreadsEnd.world.lastAssistant.get? "t" = b.world.lastAssistant.get? "t" ∧
      twoThreadsEnd.store.get "t" = b.store.get "t" :=
  threads_isolated .inert 500 service twoThreadsEnd twoThreads ⟨rfl, rfl, rfl⟩ rfl "t"

end AgentProtocol

import AgentProtocol.Router.Binding

/-!
# The assistant of a thread (`dispatch_command`, `RunManager`)

The assistant that last ran on a thread is written down four times: in the row of the
store, in `_last_assistant`, with the run itself and in the pending map. From the first
run of the process on a thread they agree, whatever starts are rejected and interrupts
resumed in between.
-/

namespace AgentProtocol

/-- In every state, and for every thread with a run of this process: the stored assistant,
the manager's last assistant and the assistant of the last run are equal, and so is that
of the pending map, unless the run has announced an interrupt of that name. -/
theorem assistant_bound (rt : Runtime) (n : Nat) (a : App) (h : (appSys rt n).Reachable a)
    (t : String) (older : List (String × Task)) (r : String) (task : Task)
    (hruns : a.world.runsOf t = older ++ [(r, task)]) :
    a.store.assistant t = some task.assistantId ∧
      a.world.lastAssistant.get? t = some task.assistantId ∧
      ∀ pending, a.world.pendingInputs.get? t = some pending → ¬task.Announces "assistant_id" →
        pending.get? "assistant_id" = some (.str task.assistantId) := by
  have hb := (App.boundInv_of_reachable h).runs t older r task hruns
  refine ⟨hb.stored, hb.last, ?_⟩
  intro pending hp hnot
  have hP : a.world.PendingInv rt := World.pendingInv_of_reachable (App.world_reachable h)
  have hmem : (r, task) ∈ a.world.runsOf t := by
    rw [hruns]
    exact List.mem_append_right _ (List.mem_singleton_self _)
  have hg := (World.mem_runsOf.mp hmem).1
  rw [hP.pending t, hruns, List.getLast?_concat] at hp
  have hpending : task.pending rt = some pending := hp
  unfold Task.pending at hpending
  split at hpending
  · cases hpending
  · rw [← Option.some.inj hpending]
    show ((Dict.ofList [("assistant_id", Value.str task.assistantId)]).update _).get? _ = _
    rw [Dict.get?_update_of_not_mem]
    · rfl
    · intro hin
      obtain ⟨p, hp, hid⟩ := List.mem_map.mp hin
      rw [← hP.announced r task hg] at hp
      exact hnot (hid ▸ announces_of_mem hp)

/-- A run stops at an interrupt, and the start of another assistant fails. -/
def rejectedAssistant : List AppAct :=
  let start (assistantId : String) : Json := .obj [("method", .str "run.start"),
    ("params", .obj [("assistant_id", .str assistantId)])]
  [.world (.register "planner"), .world (.register "writer"), .create "t" "now" ∅,
   .request 1 "t", .body 1 (some (start "planner")) "r1", .started 1 (.graph ⟨true⟩) "now",
   .world (.begin "r1"), .world (.resume "r1" (.item (.values (.ofList [("__interrupt__",
     .list [.dict [(.str "id", .str "i"), (.str "value", .str "go?")]])])))),
   .world (.resume "r1" .stop), .world (.callback "r1"),
   .request 2 "t", .body 2 (some (start "writer")) "r2",
   .started 2 (.raised (.other ⟨"ValueError", "no model"⟩) nofun) "now"]

def rejectedAssistantEnd : App :=
  ((appSys .inert 500).run service rejectedAssistant).getD service

theorem assistant_bound_rejected :
    rejectedAssistantEnd.store.assistant "t" = some "planner" ∧
      rejectedAssistantEnd.world.lastAssistant.get? "t" = some "planner" := by
  have hrun : (appSys .inert 500).run service rejectedAssistant = some rejectedAssistantEnd := rfl
  have hreach := TSys.reachable_of_run (M := appSys .inert 500) ⟨rfl, rfl, rfl⟩ hrun
  obtain ⟨task, hruns, hid⟩ : ∃ task, rejectedAssistantEnd.world.runsOf "t" = [] ++ [("r1", task)] ∧
      task.assistantId = "planner" := ⟨_, rfl, rfl⟩
  obtain ⟨hstored, hlast, -⟩ := assistant_bound .inert 500 rejectedAssistantEnd hreach "t" [] "r1"
    task hruns
  rw [hid] at hstored hlast
  exact ⟨hstored, hlast⟩

end AgentProtocol

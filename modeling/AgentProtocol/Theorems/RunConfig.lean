import AgentProtocol.Runner.Config
import AgentProtocol.Runner.Slot

/-!
# The thread a run executes on (`RunManager.start`, `run_config`)

The client's `configurable` is merged over `{"thread_id": thread_id}`, so it
decides which checkpoints a run reads and writes. The run stays on the thread whose
slot and hub it has exactly when the client names no other (`effective_iff`).
-/

namespace AgentProtocol

/-- `config["configurable"]["thread_id"]`, by which a checkpointer finds a thread. -/
def effectiveThreadId (config : Dict String Json) : Option Json :=
  match config.get? "configurable" with
  | some (.obj entries) => Entries.get? "thread_id" entries
  | _ => none

/-- The client's `configurable` names no thread, or this one. -/
def keepsThreadId (t : String) (config : Option (Dict String Json)) : Bool :=
  match clientConfigurable config with
  | .obj entries =>
    match (Dict.ofList entries).get? "thread_id" with
    | none => true
    | some (.str s) => s == t
    | some _ => false
  | _ => true

/-- A start call that keeps its thread. -/
def Act.keepsThread : Act → Bool
  | .start t _ _ config _ _ => keepsThreadId t config
  | _ => true

/-- A run executes on its own thread exactly when the client names no other. -/
theorem effective_iff {t : String} {config : Option (Dict String Json)} {metadata : Json}
    {cfg : Dict String Json} (h : runConfig t config metadata = .ok cfg) :
    effectiveThreadId cfg = some (.str t) ↔ keepsThreadId t config = true := by
  obtain ⟨client, hclient, hcfg⟩ := runConfig_configurable h
  have heff : effectiveThreadId cfg = (client.get? "thread_id").or (some (.str t)) := by
    unfold effectiveThreadId
    rw [hcfg]
    show ((Dict.ofList [("thread_id", Json.str t)]).update client.entries).get? "thread_id" = _
    rw [Dict.get?_update_entries]
    rfl
  rw [heff]
  unfold keepsThreadId
  cases hc : clientConfigurable config with
  | obj entries =>
      rw [hc, Json.unpack, Except.ok.injEq] at hclient
      subst hclient
      dsimp only
      cases hget : (Dict.ofList entries).get? "thread_id" with
      | none => simp
      | some v => cases v <;> simp
  | _ =>
      rw [hc] at hclient
      cases hclient

namespace World

variable {rt : Runtime} {n : Nat} {w w' : World}

/-- Every start under way and every run created keeps to its thread. -/
structure OnOwnThread (w : World) : Prop where
  starting : ∀ r s, w.starting.get? r = some s → keepsThreadId s.threadId s.config = true
  tasks : ∀ r task, w.tasks.get? r = some task →
    effectiveThreadId task.config = some (.str task.threadId)

theorem OnOwnThread.of_set {r : String} {task task' : Task} (h : w.OnOwnThread)
    (hstarting : w'.starting = w.starting) (htasks : w'.tasks = w.tasks.set r task')
    (hg : w.tasks.get? r = some task) (ht : task'.threadId = task.threadId)
    (hcfg : task'.config = task.config) : w'.OnOwnThread := by
  refine ⟨fun r s hs => h.starting r s (hstarting ▸ hs), ?_⟩
  intro r' task₁ h₁
  rw [htasks, Dict.get?_set] at h₁
  split at h₁
  · obtain rfl := Option.some.inj h₁
    rw [ht, hcfg]
    exact h.tasks r task hg
  · exact h.tasks r' task₁ h₁

/-- One step whose start, if it is one, keeps its thread. -/
theorem OnOwnThread.step {a : Act} (h : w.OnOwnThread) (hok : a.keepsThread = true)
    (hstep : WorldStep rt w a w') : w'.OnOwnThread := by
  cases hstep with
  | rejected => exact h
  | register => exact ⟨h.starting, h.tasks⟩
  | stream => exact ⟨h.starting, h.tasks⟩
  | refuse => exact ⟨h.starting, h.tasks⟩
  | @reserve a t runId s _ _ hstarts ht hconfig _ =>
      refine ⟨?_, h.tasks⟩
      intro r s' hs'
      simp only [Dict.get?_set] at hs'
      split at hs'
      · obtain rfl := Option.some.inj hs'
        rw [ht, hconfig]
        cases a with
        | start t' v input config metadata r => exact hstarts.1 ▸ hok
        | _ => rfl
      · exact h.starting r s' hs'
  | release => exact ⟨fun r s hs => h.starting r s (starting_of_erase hs), h.tasks⟩
  | abandon => exact ⟨fun r s hs => h.starting r s (starting_of_erase hs), h.tasks⟩
  | @launch runId graph s config hs hcfg =>
      refine ⟨fun r s hs => h.starting r s (starting_of_erase hs), ?_⟩
      intro r task hg
      simp only [World.launch, Dict.get?_set] at hg
      split at hg
      · obtain rfl := Option.some.inj hg
        exact (effective_iff hcfg).mpr (h.starting runId s hs)
      · exact h.tasks r task hg
  | cancel _ _ hg _ => exact h.of_set rfl rfl hg rfl rfl
  | skip hg _ _ => exact h.of_set rfl rfl hg rfl rfl
  | begin hg _ _ => exact h.of_set rfl rfl hg rfl rfl
  | resume hg _ => exact h.of_set rfl rfl hg rfl rfl
  | callback hg _ => exact h.of_set rfl rfl hg rfl rfl

theorem onOwnThread_of_reachable
    (h : (runSys rt n).ReachableVia (fun _ a => a.keepsThread = true) w) : w.OnOwnThread := by
  refine h.induct ?_ ?_
  · rintro w rfl
    exact ⟨fun r s hs => (by cases hs), fun r task hg => (by cases hg)⟩
  · intro w a w' _ hown hok hstep
    exact hown.step hok (worldStep_of_step hstep)

end World

/-- First half: in every run of the process whose `run.start` configs name no other
thread, each run executes under its own thread id, and no two unfinished runs
execute under the same one. Second half: a run gets its own thread id if and only
if the client's `configurable` has no `thread_id` or that one. -/
theorem run_keeps_thread_iff (rt : Runtime) (n : Nat) :
    (∀ w, (runSys rt n).ReachableVia (fun _ a => a.keepsThread = true) w →
      (∀ r task, w.tasks.get? r = some task →
        effectiveThreadId task.config = some (.str task.threadId)) ∧
      ∀ r r' task task', w.tasks.get? r = some task → w.tasks.get? r' = some task' →
        task.phase.isDone = false → task'.phase.isDone = false →
        effectiveThreadId task.config = effectiveThreadId task'.config → r = r') ∧
    ∀ t config metadata cfg, runConfig t config metadata = .ok cfg →
      (effectiveThreadId cfg = some (.str t) ↔ keepsThreadId t config = true) := by
  refine ⟨?_, fun t config metadata cfg h => effective_iff h⟩
  intro w hw
  have hown := World.onOwnThread_of_reachable hw
  have hI : w.SlotInv := World.slotInv_of_reachable hw
  refine ⟨hown.tasks, ?_⟩
  intro r r' task task' hg hg' hnd hnd' heff
  rw [hown.tasks r task hg, hown.tasks r' task' hg', Option.some.injEq, Json.str.injEq] at heff
  -- two unfinished runs of one thread are both in its slot
  obtain ⟨a, ha, hr, -⟩ := hI.running r task hg hnd
  obtain ⟨a', ha', hr', -⟩ := hI.running r' task' hg' hnd'
  rw [heff, ha', Option.some.injEq] at ha
  rw [← hr, ← hr', ha]

/-- A client starts a run on thread `a` with the config of thread `b`, where
another run is executing. -/
def strayConfig : Dict String Json :=
  .ofList [("configurable", .obj [("thread_id", .str "b")])]

def strayRun : List Act :=
  [.register "agent",
   .start "b" (.str "agent") .null none .null "1", .resolved "1" (.graph ⟨true⟩), .begin "1",
   .start "a" (.str "agent") .null (some strayConfig) .null "2", .resolved "2" (.graph ⟨true⟩),
   .begin "2"]

def strayEnd : World := ((runSys .inert 500).run (.new 500) strayRun).getD (.new 500)

/-- The run in the slot of `a` executes on the checkpoints of `b`. -/
theorem stray_config_shares_thread :
    ¬∀ w, (runSys .inert 500).Reachable w → ∀ r task, w.tasks.get? r = some task →
      task.phase.isDone = false → effectiveThreadId task.config = some (.str task.threadId) := by
  intro hall
  have hrun : (runSys .inert 500).run (.new 500) strayRun = some strayEnd := rfl
  have hreach := TSys.reachable_of_run (M := runSys .inert 500) rfl hrun
  have heff := hall strayEnd hreach "2" _ rfl rfl
  have hids : some (Json.str "b") = some (.str "a") := heff
  rw [Option.some.injEq, Json.str.injEq] at hids
  exact absurd hids (by decide)

/-- Two runs whose clients set other configurable keys. -/
def tunedConfig : Dict String Json :=
  .ofList [("configurable", .obj [("model", .str "small")])]

def tunedRuns : List Act :=
  [.register "agent",
   .start "b" (.str "agent") .null (some tunedConfig) .null "1", .resolved "1" (.graph ⟨true⟩),
   .begin "1",
   .start "a" (.str "agent") .null (some tunedConfig) .null "2", .resolved "2" (.graph ⟨true⟩),
   .begin "2"]

def tunedEnd : World := ((runSys .inert 500).run (.new 500) tunedRuns).getD (.new 500)

theorem run_keeps_thread_schedule :
    (∀ r task, tunedEnd.tasks.get? r = some task →
      effectiveThreadId task.config = some (.str task.threadId)) ∧
    (effectiveThreadId strayConfig = some (.str "a") ↔
      keepsThreadId "a" (some strayConfig) = true) := by
  have hrun : (runSys .inert 500).run (.new 500) tunedRuns = some tunedEnd := rfl
  have hr := TSys.reachesVia_of_run (fun _ a => a.keepsThread = true) (by decide) hrun
  refine ⟨((run_keeps_thread_iff .inert 500).1 tunedEnd ⟨_, rfl, hr⟩).1, ?_⟩
  exact (run_keeps_thread_iff .inert 500).2 "a" (some strayConfig) .null strayConfig rfl

end AgentProtocol

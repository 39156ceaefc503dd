import AgentProtocol.Router.Origins
import AgentProtocol.Runner.Config

/-!
# The session metadata of a run (`dispatch_command`)

`run.start` writes the stored metadata of the thread into the config it hands to
`manager.start`, and the merge there keeps it. `input.respond` hands over no config. So a
run has the metadata of its thread exactly when a `run.start` has created it, and the
resume of an interrupted run never has it.
-/

namespace AgentProtocol

/-- `config["configurable"]["session_metadata"]` -/
def sessionMetadata (config : Dict String Json) : Option Json :=
  match config.get? "configurable" with
  | some (.obj entries) => Entries.get? "session_metadata" entries
  | _ => none

/-- The config carries the metadata that is stored for the thread. -/
def App.Stamped (a : App) (threadId : String) (config : Dict String Json) : Prop :=
  ∃ m, a.store.metadata threadId = some m ∧ sessionMetadata config = some (.obj m.entries)

/-! ## The two configs -/

/-- The merge keeps the session metadata of the config, or its absence. -/
theorem sessionMetadata_runConfig {t : String} {config : Option (Dict String Json)}
    {metadata : Json} {cfg : Dict String Json} (h : runConfig t config metadata = .ok cfg) :
    sessionMetadata cfg = ((clientConfigurable config).unpack.toOption.bind
      fun client => client.get? "session_metadata") := by
  obtain ⟨client, hclient, hcfg⟩ := runConfig_configurable h
  rw [sessionMetadata, hcfg, hclient]
  show ((Dict.ofList [("thread_id", Json.str t)]).update client.entries).get? _ = _
  rw [Dict.get?_update_entries]
  show (client.get? "session_metadata").or none = client.get? "session_metadata"
  rw [Option.or_none]

theorem sessionMetadata_stamped {t : String} {config configurable : Dict String Json}
    {v metadata : Json} {cfg : Dict String Json}
    (h : runConfig t (some (config.set "configurable"
      (.obj (configurable.set "session_metadata" v).entries))) metadata = .ok cfg) :
    sessionMetadata cfg = some v := by
  have hget : (configurable.set "session_metadata" v).get? "session_metadata" = some v :=
    Dict.get?_set_self _ _ _
  have hne : (configurable.set "session_metadata" v).entries ≠ [] := by
    intro hnil
    rw [Dict.get?, hnil] at hget
    cases hget
  have hclient : clientConfigurable (some (config.set "configurable"
      (.obj (configurable.set "session_metadata" v).entries))) =
      .obj (configurable.set "session_metadata" v).entries := by
    unfold clientConfigurable
    rw [Option.getD_some, Dict.get?_set_self, Option.getD_some]
    exact if_pos (by simp [Json.truthy, hne])
  rw [sessionMetadata_runConfig h, hclient]
  show ((∅ : Dict String Json).update (configurable.set "session_metadata" v).entries).get? _ = _
  rw [Dict.get?_update_entries, hget]
  rfl

/-- The config of a resume is not stamped. -/
theorem sessionMetadata_resume {t : String} {cfg : Dict String Json}
    (h : runConfig t none .null = .ok cfg) : sessionMetadata cfg = none := by
  rw [sessionMetadata_runConfig h]
  rfl

/-! ## The starts and the runs of the service -/

namespace App

variable {rt : Runtime} {n : Nat} {a a' : App}

/-- A start of `run.start` has a stamped config, and hands it to the merge; a resume has
none. -/
inductive StartStamped (a : App) (s : Starting) : Prop
  | start {config configurable m : Dict String Json} : s.input.isResume = false →
      a.store.metadata s.threadId = some m →
      s.config = some (config.set "configurable"
        (.obj (configurable.set "session_metadata" (.obj m.entries)).entries)) → StartStamped a s
  | resume : s.input.isResume = true → s.config = none → s.metadata = .null → StartStamped a s

/-- What the config of a run holds, by what has created it. -/
structure RunStamped (a : App) (task : Task) : Prop where
  start : task.input.isResume = false → a.Stamped task.threadId task.config
  resume : task.input.isResume = true → sessionMetadata task.config = none

structure StampInv (a : App) : Prop where
  starting : ∀ r s, a.world.starting.get? r = some s → a.StartStamped s
  tasks : ∀ r task, a.world.tasks.get? r = some task → a.RunStamped task

theorem StartStamped.stamped_iff {s : Starting} (h : a.StartStamped s) :
    a.Stamped s.threadId (s.config.getD ∅) ↔ s.input.isResume = false := by
  cases h with
  | start hin hm hcfg =>
      refine iff_of_true ⟨_, hm, ?_⟩ hin
      rw [hcfg, Option.getD_some, sessionMetadata, Dict.get?_set_self]
      exact Dict.get?_set_self _ _ _
  | resume hin hcfg _ =>
      refine iff_of_false ?_ (by rw [hin]; exact Bool.noConfusion)
      rintro ⟨m, -, hsm⟩
      rw [hcfg] at hsm
      cases hsm

theorem RunStamped.stamped_iff {task : Task} (h : a.RunStamped task) :
    a.Stamped task.threadId task.config ↔ task.input.isResume = false := by
  cases hin : task.input.isResume with
  | false => exact iff_of_true (h.start hin) rfl
  | true =>
      refine iff_of_false ?_ Bool.noConfusion
      rintro ⟨m, -, hsm⟩
      rw [h.resume hin] at hsm
      cases hsm

/-- The run of a start is stamped as its start is. -/
theorem StartStamped.creates {s : Starting} {task : Task} (h : a.StartStamped s)
    (hs : s.Creates task) : a.RunStamped task := by
  have hcfg := hs.config
  constructor
  · intro hin
    rw [hs.input] at hin
    cases h with
    | start _ hm heq =>
        rw [heq] at hcfg
        exact ⟨_, hs.threadId ▸ hm, sessionMetadata_stamped hcfg⟩
    | resume hres _ _ =>
        rw [hin] at hres
        cases hres
  · intro hin
    rw [hs.input] at hin
    cases h with
    | start hres _ _ =>
        rw [hin] at hres
        cases hres
    | resume _ hnone hnull =>
        rw [hnone, hnull] at hcfg
        exact sessionMetadata_resume hcfg

/-- What a handler asks for is stamped: it holds the metadata of its row. -/
theorem StartStamped.of_asks {s : Starting} (hR : a.RowInv) (h : a.Asks s) : a.StartStamped s := by
  cases h with
  | start hg hargs _ =>
      obtain ⟨m, hm, hbody⟩ := hR _ _ hg rfl
      obtain ⟨-, config, configurable, heq⟩ := startArgs_inv hargs
      rw [hbody _ rfl] at heq
      exact .start rfl hm (congrArg some heq)
  | resume => exact .resume rfl rfl rfl

theorem StartStamped.mono {s : Starting} {act : AppAct} (h : a.StartStamped s)
    (hstep : ServiceStep rt a act a') : a'.StartStamped s := by
  cases h with
  | start hin hm heq => exact .start hin (hstep.metadata_kept hm) heq
  | resume hin hnone hnull => exact .resume hin hnone hnull

theorem RunStamped.mono {task task' : Task} {act : AppAct} (h : a.RunStamped task)
    (hsame : task.SameRun task') (hstep : ServiceStep rt a act a') : a'.RunStamped task' := by
  constructor
  · intro hin
    obtain ⟨m, hm, hsm⟩ := h.start (hsame.input ▸ hin)
    rw [hsame.threadId, hsame.config]
    exact ⟨m, hstep.metadata_kept hm, hsm⟩
  · intro hin
    rw [hsame.config]
    exact h.resume (hsame.input ▸ hin)

theorem StampInv.step {act : AppAct} (hS : a.StampInv) (hR : a.RowInv)
    (h : ServiceStep rt a act a') : a'.StampInv := by
  constructor
  · intro r s hs
    rcases h.starting_origin hs with hold | hasks
    · exact (hS.starting r s hold).mono h
    · exact (StartStamped.of_asks hR hasks).mono h
  · intro r task' hg
    rcases h.task_origin hg with ⟨task, hold, hsame⟩ | ⟨s, hs, hcreates⟩
    · exact (hS.tasks r task hold).mono hsame h
    · exact ((hS.starting r s hs).creates hcreates).mono (.refl _) h

theorem stampInv_of_reachable {ok : App → AppAct → Prop} (h : (appSys rt n).ReachableVia ok a) :
    a.StampInv := by
  refine h.induct ?_ ?_
  · rintro a ⟨hw, -, -⟩
    constructor
    · intro r s hs
      rw [hw] at hs
      cases hs
    · intro r task hg
      rw [hw] at hg
      cases hg
  · intro a act a' hreach ih _ hstep
    exact ih.step (rowInv_of_reachable hreach) (serviceStep_of_step hstep)

end App

/-- In every state the graph of a run is resolved with, and the run executes under, the
stored metadata of its thread if and only if the run is no resume: a `run.start` has
asked for it. -/
theorem session_metadata_iff (rt : Runtime) (n : Nat) (a : App)
    (h : (appSys rt n).Reachable a) :
    (∀ r s, a.world.starting.get? r = some s →
      (a.Stamped s.threadId (s.config.getD ∅) ↔ s.input.isResume = false)) ∧
    ∀ r task, a.world.tasks.get? r = some task →
      (a.Stamped task.threadId task.config ↔ task.input.isResume = false) := by
  have hS := App.stampInv_of_reachable h
  exact ⟨fun r s hs => (hS.starting r s hs).stamped_iff,
    fun r task hg => (hS.tasks r task hg).stamped_iff⟩

/-- A run of a thread of project `p` stops at an interrupt and is resumed. -/
def resumedRun : List AppAct :=
  let start : Json := .obj [("id", .int 1), ("method", .str "run.start"),
    ("params", .obj [("assistant_id", .str "agent")])]
  let respond : Json := .obj [("id", .int 2), ("method", .str "input.respond"),
    ("params", .obj [("interrupt_id", .str "i"), ("response", .bool true)])]
  [.world (.register "agent"), .create "t" "now" (.ofList [("proj", .str "p")]),
   .request 1 "t", .body 1 (some start) "r1", .started 1 (.graph ⟨true⟩) "now",
   .world (.begin "r1"), .world (.resume "r1" (.item (.values (.ofList [("__interrupt__",
     .list [.dict [(.str "id", .str "i"), (.str "value", .str "go?")]])])))),
   .checkpoint "t" ["i"], .world (.resume "r1" .stop), .world (.callback "r1"),
   .request 2 "t", .body 2 (some respond) "", .graph 2 (.graph ⟨true⟩), .read 2,
   .state 2 (.ok (waitingSnapshot ["i"])) "r2", .started 2 (.graph ⟨true⟩) "now"]

def resumedRunEnd : App := ((appSys .inert 500).run service resumedRun).getD service

/-- The resumed run does not see that its thread is one of the project. -/
theorem resume_without_session_metadata :
    ¬∀ a, (appSys .inert 500).Reachable a → ∀ r task, a.world.tasks.get? r = some task →
      a.Stamped task.threadId task.config := by
  intro hall
  have hrun : (appSys .inert 500).run service resumedRun = some resumedRunEnd := rfl
  have hreach := TSys.reachable_of_run (M := appSys .inert 500) ⟨rfl, rfl, rfl⟩ hrun
  obtain ⟨task, hg, hcfg⟩ : ∃ task, resumedRunEnd.world.tasks.get? "r2" = some task ∧
      sessionMetadata task.config = none := ⟨_, rfl, rfl⟩
  obtain ⟨m, -, hm⟩ := hall resumedRunEnd hreach "r2" task hg
  rw [hcfg] at hm
  cases hm

/-- The run it resumes sees it. -/
theorem session_metadata_started :
    ∃ task, resumedRunEnd.world.tasks.get? "r1" = some task ∧
      resumedRunEnd.Stamped task.threadId task.config := by
  have hrun : (appSys .inert 500).run service resumedRun = some resumedRunEnd := rfl
  have hreach := TSys.reachable_of_run (M := appSys .inert 500) ⟨rfl, rfl, rfl⟩ hrun
  obtain ⟨task, hg, hin⟩ : ∃ task, resumedRunEnd.world.tasks.get? "r1" = some task ∧
      task.input.isResume = false := ⟨_, rfl, rfl⟩
  exact ⟨task, hg, ((session_metadata_iff .inert 500 resumedRunEnd hreach).2 "r1" task hg).mpr hin⟩

end AgentProtocol

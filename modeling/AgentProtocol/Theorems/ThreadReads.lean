import AgentProtocol.Router.Provision
import AgentProtocol.Theorems.RunReports

/-!
# What a thread reads as

`_state_graph` reads a thread with the assistant that last ran on it. A thread is bound just
where a run was created on it, to the assistant of the last one, and that one is registered. So
from its creation on, a thread reads as empty exactly as long as no run was created on it, and
through the graph of the last run from then on; it is never not found (`thread_reads`).
-/

namespace AgentProtocol

variable {rt : Runtime} {n : Nat} {a a' : App} {t : String}

/-! ## The assistant a thread is read with -/

namespace App

/-- A thread that no run was created on is bound to nothing. -/
theorem unbound_of_no_run {act : AppAct} (hF : a.FrameInv) (hI : a.world.SlotInv)
    (hU : a.world.runsOf t = [] → a.store.assistant t = none) (h : ServiceStep rt a act a')
    (hempty : a'.world.runsOf t = []) : a'.store.assistant t = none := by
  rcases unbound_or_binds hF hI h t with hkept | ⟨id, req, r, s, task, rfl, hb⟩
  · rw [hkept.stored]
    apply hU
    -- a run that was there would be there still
    rw [List.eq_nil_iff_forall_not_mem]
    rintro ⟨r, task⟩ hmem
    obtain ⟨hg, ht⟩ := World.mem_runsOf.mp hmem
    obtain ⟨task', hg', ht'⟩ := task_kept hI (appStep_of_serviceStep h) hg
    have hmem' : (r, task') ∈ a'.world.runsOf t := World.mem_runsOf.mpr ⟨hg', ht'.trans ht⟩
    rw [hempty] at hmem'
    cases hmem'
  · rw [hb.runs] at hempty
    exact absurd hempty (List.append_ne_nil_of_right_ne_nil _ (List.cons_ne_nil _ _))

theorem unbound_of_reaches {ok : App → AppAct → Prop} (ha : (appSys rt n).ReachableVia ok a)
    (hU : a.world.runsOf t = [] → a.store.assistant t = none)
    (h : (appSys rt n).ReachesVia ok a a') :
    a'.world.runsOf t = [] → a'.store.assistant t = none := by
  induction h with
  | refl => exact hU
  | tail hr _ hstep ih =>
      have hreach := ha.trans hr
      exact unbound_of_no_run (frameInv_of_reachable hreach)
        (World.slotInv_of_reachable (world_reachable hreach)) ih (serviceStep_of_step hstep)

/-- The last run on a thread is of a registered assistant, and has bound it. -/
theorem bound_of_run {ok : App → AppAct → Prop} (h : (appSys rt n).ReachableVia ok a)
    {older : List (String × Task)} {r : String} {task : Task}
    (hruns : a.world.runsOf t = older ++ [(r, task)]) :
    a.store.assistant t = some task.assistantId ∧ task.assistantId ∈ a.world.factories := by
  have hmem : (r, task) ∈ a.world.runsOf t := by
    rw [hruns]
    exact List.mem_append_right _ (List.mem_singleton_self _)
  exact ⟨((boundInv_of_reachable h).runs t older r task hruns).stored,
    (World.knownInv_of_reachable (world_reachable h)).tasks r task (World.mem_runsOf.mp hmem).1⟩

/-- A thread is bound to the assistant of its last run. -/
theorem assistant_of_runs {ok : App → AppAct → Prop} (h : (appSys rt n).ReachableVia ok a)
    (hU : a.world.runsOf t = [] → a.store.assistant t = none) :
    a.store.assistant t = (a.world.runsOf t).getLast?.map fun e => e.2.assistantId := by
  rcases List.eq_nil_or_concat (a.world.runsOf t) with hnil | ⟨older, ⟨r, task⟩, hruns⟩
  · rw [hU hnil, hnil]
    rfl
  · rw [List.concat_eq_append] at hruns
    rw [(bound_of_run h hruns).1, hruns, List.getLast?_concat]
    rfl

end App

/-! ## The reads -/

theorem readGraph_unbound {store : MemoryThreadStore} (h : store.assistant t = none)
    (factories : List String) (outcome : Resolution) :
    readGraph factories store t outcome = .ok none := by
  rw [readGraph, h]

theorem readGraph_bound {store : MemoryThreadStore} {factories : List String} {assistantId : String}
    (h : store.assistant t = some assistantId) (hmem : assistantId ∈ factories) (graph : Graph) :
    readGraph factories store t (.graph graph) = .ok (some graph) := by
  have hfind : findFactory factories (.str assistantId) = .ok assistantId := if_pos hmem
  simp only [readGraph, h, hfind]

/-- A thread is read with no graph until it has a run. -/
theorem App.readGraph_of_runs {ok : App → AppAct → Prop} (h : (appSys rt n).ReachableVia ok a)
    (hU : a.world.runsOf t = [] → a.store.assistant t = none) (graph : Graph) :
    readGraph a.world.factories a.store t (.graph graph) =
      .ok (if (a.world.runsOf t).isEmpty then none else some graph) := by
  rcases List.eq_nil_or_concat (a.world.runsOf t) with hnil | ⟨older, ⟨r, task⟩, hruns⟩
  · rw [readGraph_unbound (hU hnil), hnil]
    rfl
  · rw [List.concat_eq_append] at hruns
    obtain ⟨hbound, hmem⟩ := bound_of_run h hruns
    have hsome : (a.world.runsOf t).isEmpty = false := by
      rw [hruns]
      cases older <;> rfl
    rw [readGraph_bound hbound hmem, hsome]
    rfl

/-- What the cursor of a `GET` comes to. -/
theorem cursorOf_query (before : Option String) :
    cursorOf ((before.map Json.str).getD .null) = .ok before := by
  cases before <;> rfl

section Reads

variable {store : MemoryThreadStore} {factories : List String} {record : ThreadRecord}
  {outcome : Resolution}

theorem getState_unbound (hrow : store.get t = some record)
    (hgraph : readGraph factories store t outcome = .ok none) (snapshot : Except PyExc Snapshot) :
    getState rt factories store t outcome snapshot = .ok (emptyState t) := by
  simp only [getState, hrow, hgraph]

theorem getState_bound {graph : Graph} (hrow : store.get t = some record)
    (hgraph : readGraph factories store t outcome = .ok (some graph))
    (hstate : graph.hasGetState = true) (snapshot : Snapshot) :
    getState rt factories store t outcome (.ok snapshot) =
      .of (readThreadState rt snapshot (threadConfig t)) := by
  simp only [getState, hrow, hgraph, hstate]
  rfl

theorem history_unbound (hrow : store.get t = some record)
    (hgraph : readGraph factories store t outcome = .ok none) {limit : Int} (hlimit : 1 ≤ limit)
    {before : Json} {id : Option String} (hcursor : cursorOf before = .ok id)
    (checkpointer : Option Saver) :
    history rt factories store t limit before outcome checkpointer = .ok [] := by
  simp only [history, hrow, if_neg (Int.not_lt.mpr hlimit), hcursor, hgraph]

theorem history_bound {graph : Graph} (hrow : store.get t = some record)
    (hgraph : readGraph factories store t outcome = .ok (some graph)) {limit : Int}
    (hlimit : 1 ≤ limit) {before : Json} {id : Option String} (hcursor : cursorOf before = .ok id)
    (checkpointer : Option Saver) :
    history rt factories store t limit before outcome checkpointer =
      .of (readThreadHistory rt checkpointer limit.toNat id) := by
  simp only [history, hrow, if_neg (Int.not_lt.mpr hlimit), hcursor, hgraph]

end Reads

/-- In every later state a created thread is as it was answered, and bound to the assistant of
its last run, if there is one. It reads as empty where there is none, and through the graph of that
assistant, which is listed, where there is; so it does for a search of its history. -/
theorem thread_reads (rt : Runtime) (n : Nat) (a : App) (ha : (appSys rt n).Reachable a)
    (t now : String) (payload : Option Json) (hfresh : a.store.get t = none) (acts : List AppAct)
    (b : App) (hrun : (appSys rt n).run (a.createThread t now payload).1 acts = some b) :
    (∃ record, b.store.get t = some record ∧ record.metadata = createdMetadata payload ∧
      (a.createThread t now payload).2 = ThreadRecord.created { record with updatedAt := now } ∧
      record.assistantId = (b.world.runsOf t).getLast?.map fun e => e.2.assistantId) ∧
    (∃ agents, info b.world.factories = .obj [("agents", .arr agents)] ∧
      ∀ e ∈ b.world.runsOf t, .obj [("assistant_id", .str e.2.assistantId)] ∈ agents) ∧
    (∀ graph snapshot limit before checkpointer, graph.hasGetState = true → 1 ≤ limit →
      getState rt b.world.factories b.store t (.graph graph) (.ok snapshot) =
        (if (b.world.runsOf t).isEmpty then .ok (emptyState t)
          else .of (readThreadState rt snapshot (threadConfig t))) ∧
      getHistory rt b.world.factories b.store t limit before (.graph graph) checkpointer =
        (if (b.world.runsOf t).isEmpty then .ok []
          else .of (readThreadHistory rt checkpointer limit.toNat before))) ∧
    ∀ graph search before checkpointer, 1 ≤ searchLimit (searchBody search) →
      cursorOf (((searchBody search).get? "before").getD .null) = .ok before →
      searchHistory rt b.world.factories b.store t search (.graph graph) checkpointer =
        (if (b.world.runsOf t).isEmpty then .ok []
          else .of (readThreadHistory rt checkpointer (searchLimit (searchBody search)).toNat
            before)) := by
  have hcreated := ha.tail trivial (App.step_createThread rt n hfresh now payload)
  have hreaches := TSys.reaches_of_run hrun
  have hb := hcreated.trans hreaches
  have hget := a.createThread_get t now payload
  obtain ⟨record, hrow, hsame⟩ := App.row_of_reaches hreaches hget
  have hunbound : b.world.runsOf t = [] → b.store.assistant t = none := by
    refine App.unbound_of_reaches hcreated (fun _ => ?_) hreaches
    rw [MemoryThreadStore.assistant, hget]
    rfl
  have hknown := World.knownInv_of_reachable (App.world_reachable hb)
  have hhistory : ∀ (graph : Graph) (limit : Int) (before : Json) (cursor : Option String)
      (checkpointer : Option Saver), 1 ≤ limit → cursorOf before = .ok cursor →
      history rt b.world.factories b.store t limit before (.graph graph) checkpointer =
        (if (b.world.runsOf t).isEmpty then .ok []
          else .of (readThreadHistory rt checkpointer limit.toNat cursor)) := by
    intro graph limit before cursor checkpointer hlimit hcursor
    have hgraph := App.readGraph_of_runs hb hunbound graph
    cases hruns : (b.world.runsOf t).isEmpty with
    | true =>
        rw [hruns] at hgraph
        exact history_unbound hrow hgraph hlimit hcursor _
    | false =>
        rw [hruns] at hgraph
        exact history_bound hrow hgraph hlimit hcursor _
  refine ⟨⟨record, hrow, hsame.metadata, hsame.created now, ?_⟩, ⟨_, rfl, ?_⟩, ?_, ?_⟩
  · rw [← App.assistant_of_runs hb hunbound, MemoryThreadStore.assistant, hrow, Option.bind_some]
  · rintro ⟨r, task⟩ hmem
    exact mem_agents (hknown.tasks r task (World.mem_runsOf.mp hmem).1)
  · intro graph snapshot limit before checkpointer hstate hlimit
    refine ⟨?_, hhistory graph limit _ before checkpointer hlimit (cursorOf_query before)⟩
    have hgraph := App.readGraph_of_runs hb hunbound graph
    cases hruns : (b.world.runsOf t).isEmpty with
    | true =>
        rw [hruns] at hgraph
        exact getState_unbound hrow hgraph _
    | false =>
        rw [hruns] at hgraph
        exact getState_bound hrow hgraph hstate _
  · exact fun graph search before checkpointer hlimit hcursor =>
      hhistory graph _ _ before checkpointer hlimit hcursor

/-- The body of a thread that is kept with its project. -/
def projectBody : Json := .obj [("metadata", .obj [("project", .str "p1")])]

/-- An assistant is registered, and runs on the thread. -/
def planned : List AppAct :=
  [.world (.register "planner"), .request 1 "t",
   .body 1 (some (.obj [("method", .str "run.start"),
     ("params", .obj [("assistant_id", .str "planner")])])) "r1",
   .started 1 (.graph ⟨true⟩) "later"]

def plannedEnd : App :=
  ((appSys .inert 500).run (service.createThread "t" "now" (some projectBody)).1 planned).getD
    service

/-- The state of a graph that waits to begin. -/
def plannedSnapshot : Snapshot where
  values := ∅
  next := ["plan"]
  checkpointId := some "c1"
  metadata := .dict []
  createdAt := .none
  tasks := []
  interrupts := []

theorem thread_reads_planned :
    (∃ record, plannedEnd.store.get "t" = some record ∧
      record.metadata.entries = [("project", .str "p1")] ∧ record.assistantId = some "planner") ∧
    ∃ state, getState .inert plannedEnd.world.factories plannedEnd.store "t" (.graph ⟨true⟩)
      (.ok plannedSnapshot) = .ok state ∧ state.next = ["plan"] := by
  have hrun : (appSys .inert 500).run (service.createThread "t" "now" (some projectBody)).1
      planned = some plannedEnd := rfl
  have hservice : (appSys .inert 500).Reachable service := .of_init ⟨rfl, rfl, rfl⟩
  obtain ⟨⟨record, hrow, hmetadata, -, hassistant⟩, -, hreads, -⟩ :=
    thread_reads .inert 500 service hservice "t" "now" (some projectBody) rfl planned plannedEnd
      hrun
  refine ⟨⟨record, hrow, by rw [hmetadata]; rfl, hassistant⟩, ?_⟩
  exact ⟨_, (hreads ⟨true⟩ plannedSnapshot 1 none none rfl (by decide)).1, rfl⟩

end AgentProtocol

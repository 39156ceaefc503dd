import AgentProtocol.Router.Binding
import AgentProtocol.Router.Rendering
import AgentProtocol.Runner.Config
import AgentProtocol.Theorems.RunReports

/-!
# Interrupts outlive the process (`_state_graph`, `input.respond`, `RunManager.respond`)

The manager forgets its slots, its pending maps and its hubs when the process ends; the store
and the savers stay. A response to an interrupt of an earlier process is checked against the
saver, read through the graph of the assistant that the store has for the thread, and resumes
that assistant. So it is answered by the next process, whatever happens there before, as
long as no run is created on the thread.
-/

namespace AgentProtocol

namespace App

/-- The next process, over the store and the savers of this one. -/
def restarted (a : App) (replaySize : Nat) : App :=
  { a with world := .new replaySize, requests := ∅, answers := ∅ }

variable {rt : Runtime} {n : Nat} {a b : App} {t : String}

theorem restarted_init (a : App) : (appSys rt n).init (a.restarted n) := ⟨rfl, rfl, rfl⟩

/-- A thread without a run had none before. -/
theorem runsOf_nil_before {act : AppAct} (hI : a.world.SlotInv) (h : AppStep rt a act b)
    (hruns : b.world.runsOf t = []) : a.world.runsOf t = [] := by
  rw [List.eq_nil_iff_forall_not_mem]
  rintro ⟨r, task⟩ hmem
  obtain ⟨hg, ht⟩ := World.mem_runsOf.mp hmem
  obtain ⟨task', hg', ht'⟩ := task_kept hI h hg
  have hmem' : (r, task') ∈ b.world.runsOf t := World.mem_runsOf.mpr ⟨hg', ht'.trans ht⟩
  rw [hruns] at hmem'
  cases hmem'

/-- The stored assistant of a thread is that of the start of the process, until a run is
created on it. -/
theorem assistant_of_no_run (ha : (appSys rt n).Reachable a) (h : (appSys rt n).Reaches a b)
    (hruns : b.world.runsOf t = []) : b.store.assistant t = a.store.assistant t := by
  induction h with
  | refl => rfl
  | @tail u v act hau _ hstep ih =>
      have hu := ha.trans hau
      have hI := World.slotInv_of_reachable (world_reachable hu)
      have hbefore := runsOf_nil_before hI (appStep_of_step hstep) hruns
      rw [← ih hbefore]
      rcases unbound_or_binds (frameInv_of_reachable hu) hI (serviceStep_of_step hstep) t with
        hsame | ⟨id, req, r, s, task, ht, hbinds⟩
      · exact hsame.stored
      · -- a run of this thread is created in this step
        have hnew := hbinds.runs
        rw [ht, hruns] at hnew
        exact absurd hnew.symm (List.append_ne_nil_of_right_ne_nil _ (List.cons_ne_nil _ _))

end App

/-! ## A response -/

/-- The body of an `input.respond`. -/
def respondBody (cmdId : Json) (interruptId : String) (response : Json) : Json :=
  .obj [("id", cmdId), ("method", .str "input.respond"),
    ("params", .obj [("interrupt_id", .str interruptId), ("response", response)])]

/-- The stretches of its handler, up to the read of the saver. -/
def readActs (id : Nat) (t : String) (cmdId : Json) (interruptId : String) (response : Json)
    (graph : Graph) (runId : String) : List AppAct :=
  [.request id t, .body id (some (respondBody cmdId interruptId response)) runId,
   .graph id (.graph graph), .read id]

namespace App

variable {rt : Runtime} {n : Nat} {a b : App} {t : String}

theorem step_request {id : Nat} {record : ThreadRecord} (hid : b.requests.get? id = none)
    (hrow : b.store.get t = some record) :
    (appSys rt n).step b (.request id t) =
      some (b.put id { threadId := t, interrupt := none, handler := .body record } b.world) := by
  simp [appSys, step, Dict.contains, hid, hrow]

theorem step_body {id : Nat} {record : ThreadRecord} {asst i runId : String}
    {cmdId response : Json} (hreq : b.requests.get? id = some ⟨t, none, .body record⟩)
    (hstored : b.store.assistant t = some asst) (hreg : asst ∈ b.world.factories) (hi : i ≠ "")
    (hrun : runId ∉ b.world.drawn) :
    (appSys rt n).step b (.body id (some (respondBody cmdId i response)) runId) =
      some (b.put id ⟨t, some i, .stateGraph cmdId (.respond i response)⟩ b.world) := by
  have hturn : dispatchCommand rt b.world b.store t record (some (respondBody cmdId i response))
      runId = { world := b.world, handler := .stateGraph cmdId (.respond i response),
                interrupt := some i } := by
    have hid : interruptIdOf rt (.str i) = i := by
      simp [interruptIdOf, Json.truthy, hi, Json.toStr, Json.toValue, Value.toStr]
    have hgraph : stateGraph b.world b.store t cmdId (.respond i response) =
        .stateGraph cmdId (.respond i response) := by
      simp [stateGraph, hstored, findFactory, hreg]
    show (if interruptIdOf rt (.str i) = "" then _ else
      Turn.mk b.world (stateGraph b.world b.store t cmdId
        (.respond (interruptIdOf rt (.str i)) response)) (some (interruptIdOf rt (.str i)))) = _
    rw [hid, if_neg hi, hgraph]
  simp only [appSys, step, hreq, if_neg hrun, hturn]

theorem step_graph {id : Nat} {i : Option String} {cmdId : Json} {command : StateCommand}
    {graph : Graph} (hreq : b.requests.get? id = some ⟨t, i, .stateGraph cmdId command⟩)
    (hgraph : graph.hasGetState = true) :
    (appSys rt n).step b (.graph id (.graph graph)) =
      some (b.put id ⟨t, i, .stateRead cmdId command none⟩ b.world) := by
  simp [appSys, step, hreq, graphResolved, hgraph]

theorem step_read {id : Nat} {i : Option String} {cmdId : Json} {command : StateCommand}
    {read : Option (List String)}
    (hreq : b.requests.get? id = some ⟨t, i, .stateRead cmdId command read⟩) :
    (appSys rt n).step b (.read id) =
      some (b.put id ⟨t, i, .stateRead cmdId command (some ((b.saver.get? t).getD []))⟩
        b.world) := by
  simp [appSys, step, hreq]

/-- A snapshot that can be read sends an `input.respond` on. -/
theorem step_state {id : Nat} {j : Option String} {i runId : String} {ids : List String}
    {cmdId response : Json} {snapshot : Snapshot}
    (hreq : b.requests.get? id = some ⟨t, j, .stateRead cmdId (.respond i response) (some ids)⟩)
    (hids : snapshot.interruptIds = some ids) (hread : snapshot.isReadable = true)
    (hrun : runId ∉ b.world.drawn) :
    (appSys rt n).step b (.state id (.ok snapshot) runId) = some
      (b.put id ⟨t, j, (dispatchRespond rt b.world b.store t cmdId i response ids runId).2⟩
        (dispatchRespond rt b.world b.store t cmdId i response ids runId).1) := by
  have hshown : stateShown rt b.world b.store t cmdId (.respond i response) snapshot ids runId =
      dispatchRespond rt b.world b.store t cmdId i response ids runId := by
    unfold stateShown
    rw [readThreadState_of_readable rt hread t]
  simp only [appSys, step, hreq, hids, ne_eq, not_true, or_false, if_neg hrun, hshown]

/-- A handler whose run is created answers with it. -/
theorem step_resumed {id : Nat} {i runId now : String} {cmdId : Json} {graph : Graph} {w : World}
    (hreq : b.requests.get? id = some ⟨t, some i, .runResume cmdId runId i⟩)
    (hw : b.world.resolved runId (.graph graph) = some (w, none)) :
    (appSys rt n).step b (.started id (.graph graph) now) = some
      { b.put id ⟨t, some i, .answered (.success cmdId (.run runId))⟩ w with
        answers := b.answers.set runId { request := id, threadId := t, interruptId := i } } := by
  simp only [appSys, step, hreq, hw]

/-- Up to the read of the saver nothing has changed but the request. -/
theorem run_read {id : Nat} {asst i runId : String} {cmdId response : Json} {graph : Graph}
    (hstored : b.store.assistant t = some asst) (hreg : asst ∈ b.world.factories)
    (hid : b.requests.get? id = none) (hi : i ≠ "") (hgraph : graph.hasGetState = true)
    (hrun : runId ∉ b.world.drawn) :
    ∃ c, (appSys rt n).run b (readActs id t cmdId i response graph runId) = some c ∧
      c.world = b.world ∧ c.store = b.store ∧
      c.requests.get? id = some ⟨t, some i, .stateRead cmdId (.respond i response)
        (some ((b.saver.get? t).getD []))⟩ := by
  obtain ⟨record, hrow, -⟩ := Option.bind_eq_some_iff.mp hstored
  let b₁ := b.put id { threadId := t, interrupt := none, handler := .body record } b.world
  let b₂ := b₁.put id ⟨t, some i, .stateGraph cmdId (.respond i response)⟩ b.world
  let b₃ := b₂.put id ⟨t, some i, .stateRead cmdId (.respond i response) none⟩ b.world
  have hbody : (appSys rt n).step b₁ (.body id (some (respondBody cmdId i response)) runId) =
      some b₂ := step_body (Dict.get?_set_self _ _ _) hstored hreg hi hrun
  have hresolved : (appSys rt n).step b₂ (.graph id (.graph graph)) = some b₃ :=
    step_graph (Dict.get?_set_self _ _ _) hgraph
  have hread : (appSys rt n).step b₃ (.read id) = some _ :=
    step_read (Dict.get?_set_self b₂.requests id _)
  rw [readActs, TSys.run_cons _ (step_request hid hrow), TSys.run_cons _ hbody,
    TSys.run_cons _ hresolved, TSys.run_cons _ hread]
  exact ⟨_, rfl, rfl, rfl, Dict.get?_set_self _ _ _⟩

end App

/-- Where the manager knows nothing of the thread, a response starts the stored assistant. -/
theorem World.respond_unknown {w : World} {t asst : String} (i : String) (response : Json)
    (runId : String) (hfree : w.active.get? t = none) (hpending : w.pendingInputs.get? t = none)
    (hne : asst ≠ "") (hreg : asst ∈ w.factories) :
    ∃ w', w.respond t i response (some asst) runId = (w', none) ∧
      w'.starting.get? runId = some
        { threadId := t, assistantId := asst, input := .resume response, config := none,
          metadata := .null } := by
  simp only [respond, hpending, strOr, if_neg hne, start, hfree, reserve, findFactory, if_pos hreg]
  exact ⟨_, rfl, Dict.get?_set_self _ _ _⟩

theorem World.resolved_resume {w : World} {t asst runId : String} {response : Json}
    (hs : w.starting.get? runId = some
      { threadId := t, assistantId := asst, input := .resume response, config := none,
        metadata := .null }) (graph : Graph) :
    ∃ w' task, w.resolved runId (.graph graph) = some (w', none) ∧
      w'.tasks.get? runId = some task ∧ task.threadId = t ∧ task.assistantId = asst ∧
      task.input = .resume response := by
  obtain ⟨cfg, hcfg⟩ := (runConfig_ok_iff t none .null).mpr rfl
  simp only [resolved, hs, hcfg]
  exact ⟨_, _, rfl, Dict.get?_set_self _ _ _, rfl, rfl, rfl⟩

/-- An interrupt of an earlier process is answered by the next one, wherever both stand: as
long as the next process has registered the assistant of the last run of the earlier one and
has created no run on the thread, and its slot is free, an `input.respond` for an interrupt
that is pending in the saver resumes that assistant; for any other interrupt it is turned
away, and no step of the manager is taken. Its awaits do not fail, and it is let run. -/
theorem interrupts_outlive_process (rt : Runtime) (limit n n' : Nat) (a : App)
    (ha : (appSys rt n).Reachable a) (t : String) (older : List (String × Task)) (r : String)
    (task : Task) (hlast : a.world.runsOf t = older ++ [(r, task)]) (b : App)
    (hb : (appSys rt n').Reaches (a.restarted n') b) (hidle : b.world.runsOf t = [])
    (hfree : b.world.active.get? t = none) (hreg : task.assistantId ∈ b.world.factories)
    (id : Nat) (hid : b.requests.get? id = none) (i : String) (hi : i ≠ "") (cmdId response : Json)
    (hcmd : renders limit cmdId.toValue = true) (runId : String) (hrun : runId ∉ b.world.drawn)
    (graph : Graph) (hgraph : graph.hasGetState = true) (snapshot : Snapshot)
    (hids : snapshot.interruptIds = some ((b.saver.get? t).getD []))
    (hread : snapshot.isReadable = true) (now : String) :
    (i ∈ (b.saver.get? t).getD [] →
      ∃ b' answer, (appSys rt n').run b (readActs id t cmdId i response graph runId ++
          [.state id (.ok snapshot) runId, .started id (.graph graph) now]) = some b' ∧
        b'.requests.get? id = some ⟨t, some i, .answered answer⟩ ∧
        answer.sent limit = .success cmdId (.run runId) ∧
        ∃ task', b'.world.tasks.get? runId = some task' ∧ task'.threadId = t ∧
          task'.assistantId = task.assistantId ∧ task'.input = .resume response) ∧
    (i ∉ (b.saver.get? t).getD [] →
      ∃ b' answer, (appSys rt n').run b (readActs id t cmdId i response graph runId ++
          [.state id (.ok snapshot) runId]) = some b' ∧
        b'.requests.get? id = some ⟨t, some i, .answered answer⟩ ∧
        answer.sent limit = noPendingInterrupt cmdId i ∧
        b'.world = b.world) := by
  have hbound := (App.boundInv_of_reachable ha).runs t older r task hlast
  have hinit : (appSys rt n').Reachable (a.restarted n') := .of_init (App.restarted_init a)
  have hstored : b.store.assistant t = some task.assistantId := by
    rw [App.assistant_of_no_run hinit hb hidle]
    exact hbound.stored
  have hpending : b.world.pendingInputs.get? t = none := by
    have hP := World.pendingInv_of_reachable (App.world_reachable (hinit.trans hb))
    rw [hP.pending t, hidle]
    rfl
  obtain ⟨c, hc, hworld, hstore, hreq⟩ :
      ∃ c, (appSys rt n').run b (readActs id t cmdId i response graph runId) = some c ∧ _ :=
    App.run_read hstored hreg hid hi hgraph hrun
  have hstate : (appSys rt n').step c (.state id (.ok snapshot) runId) = some _ :=
    App.step_state hreq hids hread (by rwa [hworld])
  rw [hworld, hstore] at hstate
  have hsent : ∀ {answer : Response}, answer.IsEnvelope cmdId → answer.shows limit = true →
      answer.sent limit = answer := fun henv hshows => Response.sent_eq henv hcmd hshows
  constructor
  · intro hin
    obtain ⟨w, hw, hs⟩ := World.respond_unknown i response runId hfree hpending hbound.nonempty hreg
    obtain ⟨w', task', hw', hg, ht, hasst, hinput⟩ := World.resolved_resume hs graph
    have hdispatch : dispatchRespond rt b.world b.store t cmdId i response
        ((b.saver.get? t).getD []) runId = (w, .runResume cmdId runId i) := by
      simp only [dispatchRespond, if_pos hin, hstored, hw]
    rw [hdispatch] at hstate
    have hstarted : (appSys rt n').step (c.put id ⟨t, some i, .runResume cmdId runId i⟩ w)
        (.started id (.graph graph) now) = some _ :=
      App.step_resumed (Dict.get?_set_self _ _ _) hw'
    rw [TSys.run_append _ hc, TSys.run_cons _ hstate, TSys.run_cons _ hstarted]
    exact ⟨_, _, rfl, Dict.get?_set_self _ _ _, hsent rfl rfl, task', hg, ht, hasst, hinput⟩
  · intro hout
    have hdispatch : dispatchRespond rt b.world b.store t cmdId i response
        ((b.saver.get? t).getD []) runId =
          (b.world, .answered (noPendingInterrupt cmdId i)) := by
      simp only [dispatchRespond, if_neg hout]
    rw [hdispatch] at hstate
    rw [TSys.run_append _ hc, TSys.run_cons _ hstate]
    exact ⟨_, _, rfl, Dict.get?_set_self _ _ _, hsent rfl rfl, rfl⟩

/-- A run is under way and has asked for input when its process ends. -/
def askedEnd : App :=
  ((appSys .inert 500).run service (oneStarted ++ [.checkpoint "t" ["i"]])).getD service

/-- The next process has registered the assistant. -/
def reopened : App :=
  ((appSys .inert 500).run (askedEnd.restarted 500) [.world (.register "agent")]).getD service

theorem interrupts_outlive_process_asked :
    ∃ b', (appSys .inert 500).run reopened (readActs 1 "t" .null "i" (.str "yes") ⟨true⟩ "r3" ++
        [.state 1 (.ok (waitingSnapshot ["i"])) "r3", .started 1 (.graph ⟨true⟩) "now"]) = some b' ∧
      ∃ task, b'.world.tasks.get? "r3" = some task ∧ task.assistantId = "agent" ∧
        task.input = .resume (.str "yes") := by
  have hrun : (appSys .inert 500).run service (oneStarted ++ [.checkpoint "t" ["i"]]) =
      some askedEnd := rfl
  have hreopened : (appSys .inert 500).run (askedEnd.restarted 500)
      [.world (.register "agent")] = some reopened := rfl
  obtain ⟨task, hlast, hasst⟩ : ∃ task, askedEnd.world.runsOf "t" = [] ++ [("r1", task)] ∧
      task.assistantId = "agent" := ⟨_, rfl, rfl⟩
  have hread : (waitingSnapshot ["i"]).isReadable = true := rfl
  obtain ⟨b', -, hb', -, -, task', hg, -, hasst', hinput⟩ := (interrupts_outlive_process .inert 4300
    500 500 askedEnd (TSys.reachable_of_run (M := appSys .inert 500) ⟨rfl, rfl, rfl⟩ hrun) "t" []
    "r1" task hlast reopened (TSys.reaches_of_run hreopened) rfl rfl (by rw [hasst]; decide) 1 rfl
    "i" (by decide) .null (.str "yes") rfl "r3" (by decide) ⟨true⟩ rfl (waitingSnapshot ["i"]) rfl
    hread "now").1 (by decide)
  exact ⟨b', hb', task', hg, hasst'.trans hasst, hinput⟩

end AgentProtocol

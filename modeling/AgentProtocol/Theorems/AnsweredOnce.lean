import AgentProtocol.Router.Responses

/-!
# Each interrupt is answered once (`input.respond`)

Between two runs created for one interrupt some run has announced the interrupt
again (`AnsweredOnce`), and every request is answered with a success envelope that
names its run, or with an error envelope (`interrupt_answered_once`), in every run
of the service whose steps meet `App.answersAt`.
-/

namespace AgentProtocol

namespace App

variable {rt : Runtime} {limit n : Nat} {a a' : App}

theorem answeredOnce_of_step {act : AppAct}
    (hO : ∀ t, AnsweredOnce a.answers (a.world.runsOf t)) (hF : a.FrameInv) (hI : a.world.SlotInv)
    (hU : a.UnansweredWaits) (h : AppStep rt a act a') (t : String) :
    AnsweredOnce a'.answers (a'.world.runsOf t) := by
  obtain ⟨hold, hruns⟩ := runs_of_step hF hI h t
  rcases hruns with hgrow | ⟨id, req, r, hlaunch⟩
  · exact ((hO t).congr hold).grow hgrow
  · obtain ⟨task, hruns⟩ := hlaunch.runs
    rw [hruns]
    refine (hO t).concat hold fun x hx => ?_
    rw [← hlaunch.thread]
    exact hU id req x.interruptId hlaunch.before (hlaunch.answer x hx)

theorem answeredOnce_of_reachable
    (h : (appSys rt n).ReachableVia (fun a act => a.answersAt limit act = true) a) :
    ∀ t, AnsweredOnce a.answers (a.world.runsOf t) := by
  refine h.induct (P := fun a => ∀ t, AnsweredOnce a.answers (a.world.runsOf t)) ?_ ?_
  · rintro a ⟨-, -, hans⟩ t k r task x - hx
    rw [hans] at hx
    cases hx
  · intro a act a' hreach ih _ hstep
    exact answeredOnce_of_step ih (frameInv_of_reachable hreach)
      (World.slotInv_of_reachable (world_reachable hreach)) (unansweredWaits_of_reachable hreach)
      (appStep_of_step hstep)

end App

/-- While the manager can tell, an interrupt is answered once: every run that resumes a
thread was created for an interrupt of that thread, two for the same one only if it was
announced again in between, and every other response sends an error envelope. -/
theorem interrupt_answered_once (rt : Runtime) (limit n : Nat) (a : App)
    (h : (appSys rt n).ReachableVia (fun a act => a.answersAt limit act = true) a) :
    (∀ t, AnsweredOnce a.answers (a.world.runsOf t)) ∧
    (∀ r task, a.world.tasks.get? r = some task → task.input.isResume = true →
      ∃ x, a.answers.get? r = some x ∧ x.threadId = task.threadId) ∧
    (∀ id req i response, a.requests.get? id = some req → req.interrupt = some i →
      req.handler = .answered response →
      (∃ cmdId r, response.sent limit = .success cmdId (.run r) ∧
        a.answers.get? r = some { request := id, threadId := req.threadId, interruptId := i }) ∨
      (∃ cmdId code message, response.sent limit = .error cmdId code message ∧
        ∀ r x, a.answers.get? r = some x → x.request ≠ id)) := by
  have hF := App.frameInv_of_reachable h
  refine ⟨App.answeredOnce_of_reachable h, ?_, ?_⟩
  · intro r task hg hres
    obtain ⟨x, hx⟩ := hF.resumed r task hg hres
    obtain ⟨⟨task', hg', ht, -⟩, -⟩ := hF.answered r x hx
    obtain rfl := Option.some.inj (hg.symm.trans hg')
    exact ⟨x, hx, ht.symm⟩
  · intro id req i response hg hi hh
    have hproper := App.proper_of_reachable h id req i hg hi
    rw [hh] at hproper
    cases hproper with
    | @refused cmdId code message hid =>
        have henv : (Response.error cmdId code message).IsEnvelope cmdId := rfl
        refine .inr ⟨cmdId, code, message, Response.sent_eq henv hid rfl, ?_⟩
        rintro r x hx rfl
        -- the request of a run has been told of it
        obtain ⟨-, req', cmdId', hg', -, -, hh'⟩ := hF.answered r x hx
        obtain rfl := Option.some.inj (hg.symm.trans hg')
        rw [hh] at hh'
        cases hh'
    | @resumed cmdId r hid hx =>
        have henv : (Response.success cmdId (.run r)).IsEnvelope cmdId := rfl
        exact .inl ⟨cmdId, r, Response.sent_eq henv hid rfl, hx⟩

/-- A service whose agent has stopped at interrupt `i` of thread `t`, and two clients
that have read it from the snapshot. -/
def pausedService : List AppAct :=
  let start : Json := .obj [("id", .int 1), ("method", .str "run.start"),
    ("params", .obj [("assistant_id", .str "agent")])]
  let respond : Json := .obj [("id", .int 2), ("method", .str "input.respond"),
    ("params", .obj [("interrupt_id", .str "i"), ("response", .bool true)])]
  [.world (.register "agent"), .create "t" "now" ∅,
   .request 1 "t", .body 1 (some start) "r1", .started 1 (.graph ⟨true⟩) "now",
   .world (.begin "r1"), .world (.resume "r1" (.item (.values (.ofList [("__interrupt__",
     .list [.dict [(.str "id", .str "i"), (.str "value", .str "go?")]])])))),
   .checkpoint "t" ["i"], .world (.resume "r1" .stop), .world (.callback "r1"),
   .request 2 "t", .request 3 "t", .body 2 (some respond) "", .body 3 (some respond) "",
   .graph 2 (.graph ⟨true⟩), .graph 3 (.graph ⟨true⟩), .read 2, .read 3,
   .state 2 (.ok (waitingSnapshot ["i"])) "r2"]

/-- The first response resumes the run to its end before the second client goes on. -/
def staleResponse : List AppAct :=
  pausedService ++ [.started 2 (.graph ⟨true⟩) "now", .world (.begin "r2"),
    .world (.resume "r2" (.item (.values (.ofList [("x", .int 1)])))), .checkpoint "t" [],
    .world (.resume "r2" .stop), .world (.callback "r2"),
    .state 3 (.ok (waitingSnapshot ["i"])) "r3", .started 3 (.graph ⟨true⟩) "now"]

/-- The second client goes on while the first response resolves its graph. -/
def overlappingResponse : List AppAct :=
  pausedService ++ [.state 3 (.ok (waitingSnapshot ["i"])) "r3", .started 2 (.graph ⟨true⟩) "now"]

def staleEnd : App := ((appSys .inert 500).run service staleResponse).getD service

def overlappingEnd : App := ((appSys .inert 500).run service overlappingResponse).getD service

/-- Both responses start a run, and no run in between has announced the interrupt. -/
theorem interrupt_answered_twice :
    (appSys .inert 500).Reachable staleEnd ∧
      (staleEnd.requests.get? 2).map Request.handler =
        some (.answered (.success (.int 2) (.run "r2"))) ∧
      (staleEnd.requests.get? 3).map Request.handler =
        some (.answered (.success (.int 2) (.run "r3"))) ∧
      ¬AnsweredOnce staleEnd.answers (staleEnd.world.runsOf "t") := by
  have hrun : (appSys .inert 500).run service staleResponse = some staleEnd := rfl
  refine ⟨TSys.reachable_of_run (M := appSys .inert 500) ⟨rfl, rfl, rfl⟩ hrun, rfl, rfl, ?_⟩
  intro honce
  obtain ⟨task₂, h₂⟩ : ∃ task, ((staleEnd.world.runsOf "t").take 2)[1]? = some ("r2", task) := ⟨_, rfl⟩
  obtain ⟨task₃, h₃⟩ : ∃ task, (staleEnd.world.runsOf "t")[2]? = some ("r3", task) := ⟨_, rfl⟩
  obtain ⟨m, e, hjm, hm, payload, hmem⟩ := honce 2 "r3" task₃
    { request := 3, threadId := "t", interruptId := "i" } h₃ rfl 1 "r2" task₂
    { request := 2, threadId := "t", interruptId := "i" } h₂ rfl rfl
  -- the run in between is the one of the first response
  have hlen := (List.getElem?_eq_some_iff.mp hm).1
  have hlen₂ : ((staleEnd.world.runsOf "t").take 2).length = 2 := rfl
  obtain rfl : m = 1 := by omega
  have hmethods :
      (((staleEnd.world.runsOf "t").take 2)[1]?.map fun e => e.2.events.map EventData.method) =
      some ["lifecycle", "lifecycle", "values", "lifecycle"] := rfl
  rw [hm, Option.map_some, Option.some.injEq] at hmethods
  have hannounced : "input.requested" ∈ e.2.events.map EventData.method :=
    List.mem_map_of_mem hmem
  rw [hmethods] at hannounced
  exact absurd hannounced (by decide)

theorem interrupt_answered_once_overlapping :
    AnsweredOnce overlappingEnd.answers (overlappingEnd.world.runsOf "t") := by
  have hrun : (appSys .inert 500).run service overlappingResponse = some overlappingEnd := rfl
  exact (interrupt_answered_once .inert 4300 500 overlappingEnd
    ⟨service, ⟨rfl, rfl, rfl⟩, TSys.reachesVia_of_run _ (by decide) hrun⟩).1 "t"

end AgentProtocol

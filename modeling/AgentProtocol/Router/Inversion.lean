import AgentProtocol.Router.App
import AgentProtocol.Runner.Slot

/-!
# What a step of the service can do

`ServiceStep` lists the effects an action can have on the service, each as an update
of the state it left; `serviceStep_of_step` says that there are no others. What a
handler does between two awaits is a `RequestStep`.
-/

namespace AgentProtocol

namespace Handler

/-- The run whose start the handler waits for. -/
def runId? : Handler → Option String
  | .runStart _ runId _ => some runId
  | .runResume _ runId _ => some runId
  | _ => none

/-- The interrupt that run answers. -/
def resumes? : Handler → Option String
  | .runResume _ _ interruptId => some interruptId
  | _ => none

/-- The interrupt a handler of `input.respond` is about. -/
def interrupt? : Handler → Option String
  | .stateGraph _ (.respond interruptId _) => some interruptId
  | .stateRead _ (.respond interruptId _) _ => some interruptId
  | .runResume _ _ interruptId => some interruptId
  | _ => none

def isAnswered : Handler → Bool
  | .answered _ => true
  | _ => false

/-- The handler is at an await outside `manager.start`. -/
def isOpen (h : Handler) : Bool := !h.isAnswered && h.runId?.isNone

/-- The handler has its body, and waits for no run. -/
def isPassive : Handler → Bool
  | .stateGraph .. => true
  | .stateRead .. => true
  | .answered _ => true
  | _ => false

theorem isAnswered_of_runId? {h : Handler} {r : String} (hr : h.runId? = some r) :
    h.isAnswered = false := by
  cases h with
  | answered => cases hr
  | _ => rfl

theorem runId?_of_passive {h : Handler} (hp : h.isPassive = true) : h.runId? = none := by
  cases h with
  | runStart => cases hp
  | runResume => cases hp
  | _ => rfl

end Handler

/-- One of the errors that the handlers answer with an envelope. -/
def RunExc.isTyped : RunExc → Bool
  | .runActive .. => true
  | .unknownInterrupt .. => true
  | .unknownAssistant .. => true
  | _ => false

/-! ## A stretch of a handler -/

/-- The request an action is a step of. -/
def AppAct.requestId? : AppAct → Option Nat
  | .request id _ => some id
  | .body id _ _ => some id
  | .graph id _ => some id
  | .read id => some id
  | .state id _ _ => some id
  | .started id _ _ => some id
  | _ => none

/-- The interrupt a handler is about has been noted with the request, now or before. -/
def Request.Notes (req req' : Request) : Prop :=
  ∀ i, req'.handler.interrupt? = some i → req'.interrupt = some i ∨
    req.handler.interrupt? = some i ∧ req'.interrupt = req.interrupt

/-- What a stretch of a handler does to the process and to its request, where it
creates no run. -/
inductive RequestStep (rt : Runtime) (w : World) (store : MemoryThreadStore) (id : Nat) :
    AppAct → Request → World → Request → Prop
  /-- to an await outside `manager.start`, or to an answer -/
  | quiet {act : AppAct} {req req' : Request} : req.handler.isOpen = true →
      req'.threadId = req.threadId → req'.handler.isPassive = true → req.Notes req' →
      RequestStep rt w store id act req w req'
  | cancel {act : AppAct} {t : String} {i : Option String} {record : ThreadRecord}
      {cmdId run : Json} :
      RequestStep rt w store id act ⟨t, i, .body record⟩ (dispatchCancel w t run)
        ⟨t, none, .answered (.success cmdId .empty)⟩
  /-- there is no such factory -/
  | refuse {act : AppAct} {req req' : Request} {runId : String} {v : Value} {exc : RunExc}
      {response : Response} : req.handler.isOpen = true → req'.threadId = req.threadId →
      req'.handler = .answered response → runId ∉ w.drawn → w.Free req.threadId →
      findFactory w.factories v = .error exc →
      RequestStep rt w store id act req (w.turnAway req.threadId v runId) req'
  | start {act : AppAct} {t : String} {i : Option String} {record : ThreadRecord}
      {params cmdId : Json} {args : StartArgs} {assistantId runId : String} :
      startArgs record params = .ok (some args) → args.assistantId = .str assistantId →
      runId ∉ w.drawn → w.Free t → assistantId ∈ w.factories →
      RequestStep rt w store id act ⟨t, i, .body record⟩
        (w.hold runId { threadId := t, assistantId, input := .input args.input,
                        config := some args.config, metadata := args.metadata })
        ⟨t, none, .runStart cmdId runId args.assistantId⟩
  | resume {t : String} {i : Option String} {cmdId response : Json} {interruptId : String}
      {snapshot : Snapshot} {ids : List String} {assistantId runId : String} :
      interruptId ∈ ids → w.ResumesAs t interruptId (store.assistant t) (.str assistantId) →
      runId ∉ w.drawn → w.Free t → assistantId ∈ w.factories →
      RequestStep rt w store id (.state id (.ok snapshot) runId)
        ⟨t, i, .stateRead cmdId (.respond interruptId response) (some ids)⟩
        (w.hold runId { threadId := t, assistantId, input := .resume response, config := none,
                        metadata := .null })
        ⟨t, i, .runResume cmdId runId interruptId⟩
  /-- the start has failed -/
  | fail {act : AppAct} {req : Request} {runId : String} {outcome : Resolution} {exc : RunExc}
      {w' : World} {cmdId : Json} {response : Response} : req.handler.runId? = some runId →
      w.resolved runId outcome = some (w', some exc) →
      (response = exc.startEnvelope rt cmdId ∨ response = exc.envelope rt cmdId) →
      RequestStep rt w store id act req w' { req with handler := .answered response }

/-- The effects of an action on the service. -/
inductive ServiceStep (rt : Runtime) (a : App) : AppAct → App → Prop
  /-- a cancel on a thread that does not exist -/
  | idle {act : AppAct} : act.requestId? = none → ServiceStep rt a act a
  | create {t now : String} {metadata : Dict String Json} : a.store.get t = none →
      ServiceStep rt a (.create t now metadata)
        { a with store := (a.store.create t now metadata).2 }
  | notFound {id : Nat} {t : String} : a.requests.get? id = none → a.store.get t = none →
      ServiceStep rt a (.request id t)
        (a.put id { threadId := t, interrupt := none, handler := .answered .notFound } a.world)
  | accept {id : Nat} {t : String} {record : ThreadRecord} : a.requests.get? id = none →
      a.store.get t = some record →
      ServiceStep rt a (.request id t)
        (a.put id { threadId := t, interrupt := none, handler := .body record } a.world)
  | handler {act : AppAct} {id : Nat} {req req' : Request} {w' : World} :
      act.requestId? = some id → a.requests.get? id = some req →
      RequestStep rt a.world a.store id act req w' req' →
      ServiceStep rt a act (a.put id req' w')
  /-- `run.start` has its run -/
  | start {id : Nat} {t : String} {i : Option String} {cmdId assistantId : Json} {runId : String}
      {outcome : Resolution} {now : String} {w' : World} :
      a.requests.get? id = some ⟨t, i, .runStart cmdId runId assistantId⟩ →
      a.world.resolved runId outcome = some (w', none) →
      ServiceStep rt a (.started id outcome now)
        ((a.put id ⟨t, i, .answered (.success cmdId (.run runId))⟩ w').bind t assistantId now)
  /-- `input.respond` has its run -/
  | resume {id : Nat} {t : String} {i : Option String} {cmdId : Json} {runId interruptId : String}
      {outcome : Resolution} {now : String} {w' : World} :
      a.requests.get? id = some ⟨t, i, .runResume cmdId runId interruptId⟩ →
      a.world.resolved runId outcome = some (w', none) →
      ServiceStep rt a (.started id outcome now)
        { a.put id ⟨t, i, .answered (.success cmdId (.run runId))⟩ w' with
          answers := a.answers.set runId { request := id, threadId := t, interruptId } }
  | cancelRun {t runId : String} :
      ServiceStep rt a (.cancelRun t runId) { a with world := (a.world.cancel t (some runId)).1 }
  | checkpoint {t : String} {interrupts : List String} :
      ServiceStep rt a (.checkpoint t interrupts) { a with saver := a.saver.set t interrupts }
  | internal {act : Act} {w' : World} : act.isInternal = true → a.world.step rt act = some w' →
      ServiceStep rt a (.world act) { a with world := w' }

/-- `_state_graph` waits or answers. -/
theorem stateGraph_passive (w : World) (store : MemoryThreadStore) (t : String) (cmdId : Json)
    (command : StateCommand) : (stateGraph w store t cmdId command).isPassive = true := by
  unfold stateGraph
  repeat' split
  all_goals rfl

theorem stateGraph_interrupt {w : World} {store : MemoryThreadStore} {t : String} {cmdId : Json}
    {command : StateCommand} {i : String}
    (h : (stateGraph w store t cmdId command).interrupt? = some i) :
    (Handler.stateGraph cmdId command).interrupt? = some i := by
  unfold stateGraph at h
  repeat' split at h
  all_goals first | exact h | cases h

theorem graphResolved_passive (t : String) (cmdId : Json) (command : StateCommand)
    (outcome : Resolution) : (graphResolved t cmdId command outcome).isPassive = true := by
  cases outcome with
  | graph graph =>
      simp only [graphResolved]
      split <;> rfl
  | _ => rfl

theorem graphResolved_interrupt {t : String} {cmdId : Json} {command : StateCommand}
    {outcome : Resolution} {i : String}
    (h : (graphResolved t cmdId command outcome).interrupt? = some i) :
    (Handler.stateGraph cmdId command).interrupt? = some i := by
  cases outcome with
  | graph graph =>
      simp only [graphResolved] at h
      split at h
      · cases command with
        | respond => exact h
        | get => cases h
      · cases h
  | _ => cases h

namespace RequestStep

variable {rt : Runtime} {w : World} {store : MemoryThreadStore} {id : Nat} {act : AppAct}
  {t runId : String} {i : Option String}

/-- An answer with nothing else done. -/
theorem answer (req : Request) (hopen : req.handler.isOpen = true) (interrupt : Option String)
    (response : Response) :
    RequestStep rt w store id act req w ⟨req.threadId, interrupt, .answered response⟩ :=
  .quiet hopen rfl rfl fun j hj => by cases hj

/-- The stretch of `run.start` after the body. -/
theorem of_start {record : ThreadRecord} {cmdId params : Json} (hfresh : runId ∉ w.drawn) :
    RequestStep rt w store id act ⟨t, i, .body record⟩
      (dispatchStart rt w t record cmdId params runId).1
      ⟨t, none, (dispatchStart rt w t record cmdId params runId).2⟩ := by
  unfold dispatchStart
  cases hargs : startArgs record params with
  | error exc => exact answer ⟨t, i, .body record⟩ rfl none _
  | ok args =>
      cases args with
      | none => exact answer ⟨t, i, .body record⟩ rfl none _
      | some args =>
          dsimp only
          have hstart := w.startStep t args.assistantId.toValue (.input args.input)
            (some args.config) args.metadata runId
          generalize w.start t args.assistantId.toValue (.input args.input) (some args.config)
            args.metadata runId = r at hstart
          cases hstart with
          | busy => exact answer ⟨t, i, .body record⟩ rfl none _
          | unknown hfree hf =>
              exact .refuse rfl rfl rfl hfresh hfree hf
          | @held assistantId hfree hv hmem =>
              have hstr : args.assistantId = .str assistantId := by
                cases hid : args.assistantId with
                | str s =>
                    rw [hid] at hv
                    cases hv
                    rfl
                | _ =>
                    rw [hid] at hv
                    cases hv
              exact .start hargs hstr hfresh hfree hmem

/-- The stretch of `input.respond` after the snapshot. -/
theorem of_respond {cmdId response : Json} {interruptId : String} {snapshot : Snapshot}
    {ids : List String} (hfresh : runId ∉ w.drawn) :
    RequestStep rt w store id (.state id (.ok snapshot) runId)
      ⟨t, i, .stateRead cmdId (.respond interruptId response) (some ids)⟩
      (dispatchRespond rt w store t cmdId interruptId response ids runId).1
      ⟨t, i, (dispatchRespond rt w store t cmdId interruptId response ids runId).2⟩ := by
  unfold dispatchRespond
  by_cases hin : interruptId ∈ ids
  · simp only [if_pos hin]
    rcases w.respond_cases t interruptId response (store.assistant t) runId with
      heq | ⟨v, hv, heq⟩
    · rw [heq]
      exact answer ⟨t, i, .stateRead cmdId (.respond interruptId response) (some ids)⟩
        rfl i _
    · rw [heq]
      have hstart := w.startStep t v (.resume response) none .null runId
      generalize w.start t v (.resume response) none .null runId = r at hstart
      cases hstart with
      | busy =>
          exact answer ⟨t, i, .stateRead cmdId (.respond interruptId response) (some ids)⟩
            rfl i _
      | unknown hfree hf =>
          exact .refuse
            rfl rfl rfl hfresh hfree hf
      | held hfree hstr hmem =>
          subst hstr
          exact .resume hin hv hfresh hfree hmem
  · simp only [if_neg hin]
    exact answer ⟨t, i, .stateRead cmdId (.respond interruptId response) (some ids)⟩
      rfl i _

theorem of_state {cmdId : Json} {command : StateCommand} {snapshot : Snapshot}
    {ids : List String} (hfresh : runId ∉ w.drawn) :
    RequestStep rt w store id (.state id (.ok snapshot) runId)
      ⟨t, i, .stateRead cmdId command (some ids)⟩
      (stateShown rt w store t cmdId command snapshot ids runId).1
      ⟨t, i, (stateShown rt w store t cmdId command snapshot ids runId).2⟩ := by
  unfold stateShown
  cases readThreadState rt snapshot (threadConfig t) with
  | error exc => exact answer ⟨t, i, .stateRead cmdId command (some ids)⟩ rfl i _
  | ok state =>
      cases command with
      | get => exact answer ⟨t, i, .stateRead cmdId .get (some ids)⟩ rfl i _
      | respond => exact of_respond hfresh

/-- The stretch after the body of a request. -/
theorem of_body {record : ThreadRecord} (body : Option Json) (hfresh : runId ∉ w.drawn) :
    let turn := dispatchCommand rt w store t record body runId
    RequestStep rt w store id act ⟨t, i, .body record⟩ turn.world
      ⟨t, turn.interrupt, turn.handler⟩ := by
  intro turn
  have hanswer : ∀ interrupt response, RequestStep rt w store id act ⟨t, i, .body record⟩ w
      ⟨t, interrupt, .answered response⟩ :=
    fun interrupt response => answer ⟨t, i, .body record⟩ rfl interrupt response
  have hturn : turn = dispatchCommand rt w store t record body runId := rfl
  clear_value turn
  unfold dispatchCommand at hturn
  split at hturn
  · rw [hturn]
    exact hanswer _ _
  · next es =>
    dsimp only at hturn
    split at hturn
    · rw [hturn]
      exact of_start hfresh
    · split at hturn
      · split at hturn
        · rw [hturn]
          exact hanswer _ _
        · rw [hturn]
          refine .quiet rfl rfl ?_ fun j hj => .inl ?_
          · dsimp only
            exact stateGraph_passive _ _ _ _ _
          · dsimp only at hj
            exact stateGraph_interrupt hj
      · rw [hturn]
        exact hanswer _ _
      · rw [hturn]
        exact hanswer _ _
    · split at hturn
      · rw [hturn]
        exact hanswer _ _
      · rw [hturn]
        exact .cancel
    · rw [hturn]
      refine .quiet rfl rfl ?_ fun j hj => ?_
      · dsimp only
        exact stateGraph_passive _ _ _ _ _
      · dsimp only at hj
        cases stateGraph_interrupt hj
    · rw [hturn]
      exact hanswer _ _
  · rw [hturn]
    exact hanswer _ _

end RequestStep

namespace App

variable {rt : Runtime} {a a' : App}

/-- Every step is one of the listed ones. -/
theorem serviceStep_of_step {act : AppAct} (h : a.step rt act = some a') :
    ServiceStep rt a act a' := by
  cases act with
  | create t now metadata =>
      simp only [step] at h
      split at h
      · cases h
      · next hnew =>
        obtain rfl := Option.some.inj h
        refine .create ?_
        simpa [Dict.contains, MemoryThreadStore.get] using hnew
  | checkpoint t interrupts =>
      obtain rfl := Option.some.inj h
      exact .checkpoint
  | cancelRun t runId =>
      obtain rfl := Option.some.inj h
      unfold cancelRun
      split
      · exact .idle rfl
      · exact .cancelRun
  | world act =>
      simp only [step] at h
      split at h
      · next hact =>
        obtain ⟨w', hw, rfl⟩ := Option.map_eq_some_iff.mp h
        exact .internal hact hw
      · cases h
  | request id t =>
      simp only [step] at h
      split at h
      · cases h
      · next hnew =>
        have hnone : a.requests.get? id = none := by simpa [Dict.contains] using hnew
        split at h
        · next hget =>
          obtain rfl := Option.some.inj h
          exact .notFound hnone hget
        · next record hget =>
          obtain rfl := Option.some.inj h
          exact .accept hnone hget
  | body id body runId =>
      simp only [step] at h
      split at h
      · next t interrupt record hg =>
        split at h
        · cases h
        · next hfresh =>
          obtain rfl := Option.some.inj h
          exact .handler rfl hg (.of_body body hfresh)
      · cases h
  | graph id outcome =>
      simp only [step] at h
      split at h
      · next t interrupt cmdId command hg =>
        obtain rfl := Option.some.inj h
        refine .handler rfl hg (.quiet rfl rfl (graphResolved_passive _ _ _ _) ?_)
        exact fun j hj => .inr ⟨graphResolved_interrupt hj, rfl⟩
      · cases h
  | read id =>
      simp only [step] at h
      split at h
      · next t interrupt cmdId command read hg =>
        obtain rfl := Option.some.inj h
        refine .handler rfl hg (.quiet rfl rfl rfl ?_)
        intro j hj
        refine .inr ⟨?_, rfl⟩
        cases command with
        | respond => exact hj
        | get => cases hj
      · cases h
  | state id outcome runId =>
      simp only [step] at h
      split at h
      · next t interrupt cmdId command read hg =>
        have hopen : (Handler.stateRead cmdId command read).isOpen = true := rfl
        split at h
        · obtain rfl := Option.some.inj h
          exact .handler rfl hg (.answer _ hopen _ _)
        · cases h
        · split at h
          · cases h
          · next hguard =>
            obtain rfl := Option.some.inj h
            exact .handler rfl hg (.of_state (not_or.mp hguard).1)
      · cases h
  | started id outcome now =>
      simp only [step] at h
      split at h
      · next t interrupt cmdId runId assistantId hg =>
        split at h
        · cases h
        · next w' exc hw =>
          obtain rfl := Option.some.inj h
          exact .handler rfl hg (.fail rfl hw (.inl rfl))
        · next w' hw =>
          obtain rfl := Option.some.inj h
          exact .start hg hw
      · next t interrupt cmdId runId interruptId hg =>
        split at h
        · cases h
        · next w' exc hw =>
          obtain rfl := Option.some.inj h
          exact .handler rfl hg (.fail rfl hw (.inr rfl))
        · next w' hw =>
          obtain rfl := Option.some.inj h
          exact .resume hg hw
      · cases h

end App

end AgentProtocol

import AgentProtocol.Router.Origins
import AgentProtocol.Router.Rendering
import AgentProtocol.Runner.Log

/-!
# The runs that clients are told of (`dispatch_command`)

A handler that has its run answers with the id of it in the same step, and no other answer
names a run. So the runs of the process and the answers that name a run are one to one, and
nothing is published on a thread but for a run that a request on that thread was answered
with: a client that keeps the ids it was sent knows every run it can see events of. The one
answer that is not sent is the one whose command id cannot be rendered (`Request.Reports`).
-/

namespace AgentProtocol

/-- The run a response names. -/
def Response.run? : Response → Option String
  | .success _ (.run r) => some r
  | _ => none

/-- The run a handler has answered with. -/
def Handler.told? : Handler → Option String
  | .answered response => response.run?
  | _ => none

/-- The run in the response as it is sent. -/
def Handler.sends? (limit : Nat) : Handler → Option String
  | .answered response => (response.sent limit).run?
  | _ => none

/-- The request is answered with the run: the envelope that names it is sent if and only if
the id in it can be rendered. -/
def Request.Reports (limit : Nat) (req : Request) (r : String) : Prop :=
  ∃ cmdId, req.handler = .answered (.success cmdId (.run r)) ∧
    (req.handler.sends? limit = some r ↔ renders limit cmdId.toValue = true)

theorem told?_iff {handler : Handler} {r : String} :
    handler.told? = some r ↔ ∃ cmdId, handler = .answered (.success cmdId (.run r)) := by
  constructor
  · intro h
    cases handler with
    | answered response =>
        cases response with
        | success cmdId result =>
            cases result with
            | run r' =>
                obtain rfl := Option.some.inj h
                exact ⟨cmdId, rfl⟩
            | _ => cases h
        | _ => cases h
    | _ => cases h
  · rintro ⟨cmdId, rfl⟩
    rfl

/-- What is sent with a run was answered with it. -/
theorem told?_of_sends? {limit : Nat} {handler : Handler} {r : String}
    (h : handler.sends? limit = some r) : handler.told? = some r := by
  have hkey : ∀ (content : Value) (response : Response),
      (Response.rendered limit content response).run? = some r → response.run? = some r := by
    intro content response hr
    unfold Response.rendered at hr
    split at hr
    · exact hr
    · cases hr
  cases handler with
  | answered response =>
      cases response with
      | success cmdId result => exact hkey _ (.success cmdId result) h
      | error cmdId code message => exact hkey _ (.error cmdId code message) h
      | _ => exact h
  | _ => cases h

theorem Request.reports_iff {limit : Nat} {req : Request} {r : String} :
    req.Reports limit r ↔ req.handler.told? = some r := by
  rw [told?_iff]
  refine ⟨fun ⟨cmdId, h, _⟩ => ⟨cmdId, h⟩, fun ⟨cmdId, h⟩ => ⟨cmdId, h, ?_⟩⟩
  rw [h]
  constructor
  · intro hsends
    by_contra hnot
    have hrefused : renders limit (successContent cmdId (.run r)) = false := by
      rw [Response.renders_success, Bool.not_eq_true _ |>.mp hnot, Bool.false_and]
    obtain ⟨exc, hexc⟩ := Response.rendered_of_refused hrefused (.success cmdId (.run r))
    have hsent : (Response.success cmdId (.run r)).sent limit = .raised (.other exc) := hexc
    simp only [Handler.sends?, hsent] at hsends
    cases hsends
  · intro hid
    have henv : (Response.success cmdId (.run r)).IsEnvelope cmdId := rfl
    have hsent := Response.sent_eq henv hid rfl
    simp only [Handler.sends?, hsent]
    rfl

theorem run?_stateGraphRaised (t : String) (cmdId : Json) (command : StateCommand)
    (exc : RunExc) : (stateGraphRaised t cmdId command exc).run? = none := by
  unfold stateGraphRaised
  split <;> rfl

theorem run?_envelope (rt : Runtime) (cmdId : Json) (exc : RunExc) :
    (exc.envelope rt cmdId).run? = none := by
  cases exc <;> rfl

theorem run?_startEnvelope (rt : Runtime) (cmdId : Json) (exc : RunExc) :
    (exc.startEnvelope rt cmdId).run? = none := by
  unfold RunExc.startEnvelope
  split
  · rfl
  · exact run?_envelope rt cmdId exc

theorem told?_stateGraph (w : World) (store : MemoryThreadStore) (t : String) (cmdId : Json)
    (command : StateCommand) : (stateGraph w store t cmdId command).told? = none := by
  unfold stateGraph
  split
  · cases command <;> rfl
  · split
    · rfl
    · exact run?_stateGraphRaised t cmdId command _

theorem told?_graphResolved (t : String) (cmdId : Json) (command : StateCommand)
    (outcome : Resolution) : (graphResolved t cmdId command outcome).told? = none := by
  cases outcome with
  | graph graph =>
      simp only [graphResolved]
      split <;> rfl
  | raised exc _ => exact run?_stateGraphRaised t cmdId command exc
  | cancelled => rfl

theorem told?_dispatchStart (rt : Runtime) (w : World) (t : String) (record : ThreadRecord)
    (cmdId params : Json) (runId : String) :
    (dispatchStart rt w t record cmdId params runId).2.told? = none := by
  unfold dispatchStart
  split
  · rfl
  · rfl
  · split
    · rfl
    · exact run?_startEnvelope rt cmdId _

theorem told?_dispatchRespond (rt : Runtime) (w : World) (store : MemoryThreadStore) (t : String)
    (cmdId : Json) (interruptId : String) (response : Json) (ids : List String)
    (runId : String) :
    (dispatchRespond rt w store t cmdId interruptId response ids runId).2.told? = none := by
  unfold dispatchRespond
  split
  · split
    · rfl
    · exact run?_envelope rt cmdId _
  · rfl

theorem told?_stateShown (rt : Runtime) (w : World) (store : MemoryThreadStore) (t : String)
    (cmdId : Json) (command : StateCommand) (snapshot : Snapshot) (ids : List String)
    (runId : String) :
    (stateShown rt w store t cmdId command snapshot ids runId).2.told? = none := by
  unfold stateShown
  split
  · rfl
  · split
    · rfl
    · exact told?_dispatchRespond ..

/-- No command is answered with a run before the run is created. -/
theorem told?_dispatchCommand (rt : Runtime) (w : World) (store : MemoryThreadStore) (t : String)
    (record : ThreadRecord) (body : Option Json) (runId : String) :
    (dispatchCommand rt w store t record body runId).handler.told? = none := by
  unfold dispatchCommand
  split
  · rfl
  · dsimp only
    split
    · exact told?_dispatchStart ..
    · split
      · split
        · rfl
        · dsimp only
          exact told?_stateGraph ..
      · rfl
      · rfl
    · split <;> rfl
    · dsimp only
      exact told?_stateGraph ..
    · rfl
  · rfl

namespace App

variable {rt : Runtime} {n : Nat} {a a' : App} {act : AppAct}

/-- A handler that comes to be told of no run is not the one that is. -/
theorem told_of_silent {id id₀ : Nat} {req req₀ : Request} {r : String}
    (hreq : a'.requests = a.requests.set id₀ req₀) (hnone : req₀.handler.told? = none)
    (hg : a'.requests.get? id = some req) (htold : req.handler.told? = some r) :
    a.requests.get? id = some req := by
  rw [hreq, Dict.get?_set] at hg
  split at hg
  · obtain rfl := Option.some.inj hg
    rw [hnone] at htold
    cases htold
  · exact hg

/-- The handler that is told of a run has waited for it, and it is created on its thread. -/
theorem told_of_launch {id id₀ : Nat} {req req₀ req₁ : Request} {r runId : String}
    {outcome : Resolution} {w' : World} (hF : a.FrameInv) (hg₀ : a.requests.get? id₀ = some req₀)
    (hrun : req₀.handler.runId? = some runId)
    (hw : a.world.resolved runId outcome = some (w', none)) (hworld : a'.world = w')
    (hreq : a'.requests = a.requests.set id₀ req₁) (hthread : req₁.threadId = req₀.threadId)
    (htold₁ : req₁.handler.told? = some runId) (hg : a'.requests.get? id = some req)
    (htold : req.handler.told? = some r) :
    a.requests.get? id = some req ∨
      ∃ req₀ task, a.requests.get? id = some req₀ ∧ req₀.handler.runId? = some r ∧
        a'.world.tasks.get? r = some task ∧ task.threadId = req.threadId := by
  rw [hreq, Dict.get?_set] at hg
  split at hg
  · next hid =>
    obtain rfl := Option.some.inj hg
    obtain rfl := Option.some.inj (htold₁.symm.trans htold)
    obtain ⟨s, graph, config, hs, -, -, heq⟩ := World.resolved_launched hw
    obtain ⟨s', hs', ht, -⟩ := hF.waits id₀ req₀ runId hg₀ hrun
    obtain rfl := Option.some.inj (hs.symm.trans hs')
    obtain ⟨task, hg', ht'⟩ : ∃ task, a'.world.tasks.get? runId = some task ∧
        task.threadId = s.threadId := by
      rw [hworld, heq]
      exact ⟨_, Dict.get?_set_self _ _ _, rfl⟩
    exact .inr ⟨req₀, task, hid ▸ hg₀, hrun, hg', (ht'.trans ht).trans hthread.symm⟩
  · exact .inl hg

/-- Who is told of a run was told before, or has waited for it, and the run is created. -/
theorem told_origin {id : Nat} {req : Request} {r : String} (hF : a.FrameInv)
    (h : a.step rt act = some a') (hg : a'.requests.get? id = some req)
    (htold : req.handler.told? = some r) :
    a.requests.get? id = some req ∨
      ∃ req₀ task, a.requests.get? id = some req₀ ∧ req₀.handler.runId? = some r ∧
        a'.world.tasks.get? r = some task ∧ task.threadId = req.threadId := by
  cases act with
  | create t now metadata =>
      simp only [step] at h
      split at h
      · cases h
      · obtain rfl := Option.some.inj h
        exact .inl hg
  | cancelRun t runId =>
      obtain rfl := Option.some.inj h
      rw [cancelRun_requests] at hg
      exact .inl hg
  | checkpoint t interrupts =>
      obtain rfl := Option.some.inj h
      exact .inl hg
  | world act =>
      simp only [step] at h
      split at h
      · obtain ⟨w', -, rfl⟩ := Option.map_eq_some_iff.mp h
        exact .inl hg
      · cases h
  | request id₀ t =>
      simp only [step] at h
      split at h
      · cases h
      · split at h <;>
          (obtain rfl := Option.some.inj h; exact .inl (told_of_silent rfl rfl hg htold))
  | body id₀ body runId =>
      simp only [step] at h
      split at h
      · split at h
        · cases h
        · obtain rfl := Option.some.inj h
          exact .inl (told_of_silent rfl (told?_dispatchCommand ..) hg htold)
      · cases h
  | graph id₀ outcome =>
      simp only [step] at h
      split at h
      · obtain rfl := Option.some.inj h
        exact .inl (told_of_silent rfl (told?_graphResolved ..) hg htold)
      · cases h
  | read id₀ =>
      simp only [step] at h
      split at h
      · obtain rfl := Option.some.inj h
        exact .inl (told_of_silent rfl rfl hg htold)
      · cases h
  | state id₀ outcome runId =>
      simp only [step] at h
      split at h
      · split at h
        · obtain rfl := Option.some.inj h
          exact .inl (told_of_silent rfl rfl hg htold)
        · cases h
        · split at h
          · cases h
          · obtain rfl := Option.some.inj h
            exact .inl (told_of_silent rfl (told?_stateShown ..) hg htold)
      · cases h
  | started id₀ outcome now =>
      simp only [step] at h
      split at h
      · next t interrupt cmdId runId assistantId hg₀ =>
        split at h
        · cases h
        · next exc _ =>
          obtain rfl := Option.some.inj h
          have hnone : Handler.told? (.answered (exc.startEnvelope rt cmdId)) = none :=
            run?_startEnvelope rt cmdId exc
          exact .inl (told_of_silent rfl hnone hg htold)
        · next w' hw =>
          obtain rfl := Option.some.inj h
          exact told_of_launch hF hg₀ rfl hw (bind_world ..) (bind_requests ..) rfl rfl hg htold
      · next t interrupt cmdId runId interruptId hg₀ =>
        split at h
        · cases h
        · next exc _ =>
          obtain rfl := Option.some.inj h
          have hnone : Handler.told? (.answered (exc.envelope rt cmdId)) = none :=
            run?_envelope rt cmdId exc
          exact .inl (told_of_silent rfl hnone hg htold)
        · next w' hw =>
          obtain rfl := Option.some.inj h
          exact told_of_launch hF hg₀ rfl hw rfl rfl rfl rfl hg htold
      · cases h

/-- Requests and runs are one to one: a start under way has a handler that waits for it, a
run one that has told of it. -/
structure ReportInv (a : App) : Prop where
  asked : ∀ r s, a.world.starting.get? r = some s → ∃ id req, a.requests.get? id = some req ∧
    req.handler.runId? = some r ∧ req.threadId = s.threadId
  told : ∀ r task, a.world.tasks.get? r = some task → ∃ id req, a.requests.get? id = some req ∧
    req.handler.told? = some r ∧ req.threadId = task.threadId
  real : ∀ id req r, a.requests.get? id = some req → req.handler.told? = some r →
    ∃ task, a.world.tasks.get? r = some task ∧ task.threadId = req.threadId
  once : ∀ id id' req req' r, a.requests.get? id = some req → a.requests.get? id' = some req' →
    req.handler.told? = some r → req'.handler.told? = some r → id = id'

theorem told?_isAnswered {handler : Handler} {r : String} (h : handler.told? = some r) :
    handler.isAnswered = true := by
  cases handler with
  | answered => rfl
  | _ => cases h

/-- A run that was created is there, on its thread. -/
theorem task_kept {r : String} {task : Task} (hI : a.world.SlotInv) (h : AppStep rt a act a')
    (hg : a.world.tasks.get? r = some task) :
    ∃ task', a'.world.tasks.get? r = some task' ∧ task'.threadId = task.threadId := by
  have hkept : a.world.SameRuns a'.world →
      ∃ task', a'.world.tasks.get? r = some task' ∧ task'.threadId = task.threadId := by
    intro hruns
    obtain ⟨task', hg', ht, -⟩ := hruns.kept r task hg
    exact ⟨task', hg', ht⟩
  cases h with
  | outside hw _ _ => exact ⟨task, hw ▸ hg, rfl⟩
  | process hw hact => exact hkept (.of_step hw hact)
  | move _ _ _ hw =>
      rcases hw with hw | ⟨act', hw, hact, -⟩
      · exact ⟨task, hw ▸ hg, rfl⟩
      · exact hkept (.of_step hw hact)
  | reserve _ _ _ _ _ hw hact => exact hkept (.of_step hw hact)
  | fail _ _ hw =>
      obtain ⟨-, -, -, htasks, -⟩ := World.resolved_failed hw
      exact ⟨task, htasks ▸ hg, rfl⟩
  | @launch _ _ runId _ _ _ _ hw =>
      obtain ⟨s, graph, config, hs, -, -, heq⟩ := World.resolved_launched hw
      have hne : runId ≠ r := by
        rintro rfl
        rw [(hI.starting_fresh hs).2] at hg
        cases hg
      refine ⟨task, ?_, rfl⟩
      rw [heq, World.launch, Dict.get?_set_ne _ _ hne]
      exact hg

/-- A run was there before, or its handler is told of it now. -/
theorem told_of_task {r : String} {task' : Task} (hF : a.FrameInv) (hI : a.world.SlotInv)
    (h : AppStep rt a act a') (hg : a'.world.tasks.get? r = some task') :
    (∃ task, a.world.tasks.get? r = some task ∧ task'.threadId = task.threadId) ∨
      ∃ id req, a'.requests.get? id = some req ∧ req.handler.told? = some r ∧
        req.threadId = task'.threadId := by
  have hsame : ∀ {task}, a.world.tasks.get? r = some task →
      ∃ task, a.world.tasks.get? r = some task ∧ task'.threadId = task.threadId := by
    intro task hg₀
    obtain ⟨task₁, hg₁, ht⟩ := task_kept hI h hg₀
    obtain rfl := Option.some.inj (hg₁.symm.trans hg)
    exact ⟨task, hg₀, ht⟩
  have hruns : a.world.SameRuns a'.world →
      ∃ task, a.world.tasks.get? r = some task ∧ task'.threadId = task.threadId := by
    intro hruns
    obtain ⟨task, hg₀, -⟩ := hruns.before r task' hg
    exact hsame hg₀
  cases h with
  | outside hw _ _ => exact .inl (hsame (hw ▸ hg))
  | process hw hact => exact .inl (hruns (.of_step hw hact))
  | move _ _ _ hw =>
      rcases hw with hw | ⟨act', hw, hact, -⟩
      · exact .inl (hsame (hw ▸ hg))
      · exact .inl (hruns (.of_step hw hact))
  | reserve _ _ _ _ _ hw hact => exact .inl (hruns (.of_step hw hact))
  | fail _ _ hw =>
      obtain ⟨-, -, -, htasks, -⟩ := World.resolved_failed hw
      exact .inl (hsame (htasks ▸ hg))
  | @launch id req runId _ cmdId hreq hrun hw hset =>
      obtain ⟨s, graph, config, hs, -, -, heq⟩ := World.resolved_launched hw
      obtain ⟨s', hs', ht, -⟩ := hF.waits id req runId hreq hrun
      obtain rfl := Option.some.inj (hs.symm.trans hs')
      by_cases hr : runId = r
      · subst hr
        rw [heq, World.launch, Dict.get?_set_self] at hg
        obtain rfl := Option.some.inj hg
        refine .inr ⟨id, { req with handler := .answered (.success cmdId (.run runId)) }, ?_, rfl,
          ht.symm⟩
        rw [hset]
        exact Dict.get?_set_self _ _ _
      · rw [heq, World.launch, Dict.get?_set_ne _ _ hr] at hg
        exact .inl (hsame hg)

/-- The handler of a start that was there is not the one that moves. -/
theorem asked_of_set {id : Nat} {req : Request} {r : String} {s : Starting}
    (hA : ∀ r s, a.world.starting.get? r = some s → ∃ id req, a.requests.get? id = some req ∧
      req.handler.runId? = some r ∧ req.threadId = s.threadId)
    (hreq : a'.requests = a.requests.set id req) (hs : a.world.starting.get? r = some s)
    (hne : ∀ req₀, a.requests.get? id = some req₀ → req₀.handler.runId? ≠ some r) :
    ∃ id req, a'.requests.get? id = some req ∧ req.handler.runId? = some r ∧
      req.threadId = s.threadId := by
  obtain ⟨id', req', hg', hrun', ht'⟩ := hA r s hs
  refine ⟨id', req', ?_, hrun', ht'⟩
  rw [hreq, Dict.get?_set_ne]
  · exact hg'
  · rintro rfl
    exact hne req' hg' hrun'

/-- Nor is it the one whose start has ended. -/
theorem asked_of_erase {id : Nat} {req req₁ : Request} {r runId : String} {s : Starting}
    (hA : ∀ r s, a.world.starting.get? r = some s → ∃ id req, a.requests.get? id = some req ∧
      req.handler.runId? = some r ∧ req.threadId = s.threadId)
    (hg : a.requests.get? id = some req) (hrun : req.handler.runId? = some runId)
    (hreq : a'.requests = a.requests.set id req₁)
    (hs : (a.world.starting.erase runId).get? r = some s) :
    ∃ id req, a'.requests.get? id = some req ∧ req.handler.runId? = some r ∧
      req.threadId = s.threadId := by
  have hr : runId ≠ r := by
    rintro rfl
    rw [Dict.get?_erase_self] at hs
    cases hs
  rw [Dict.get?_erase_ne _ hr] at hs
  refine asked_of_set hA hreq hs fun req₀ hg₀ hrun₀ => ?_
  obtain rfl := Option.some.inj (hg.symm.trans hg₀)
  exact hr (Option.some.inj (hrun.symm.trans hrun₀))

/-- A start under way has its handler. -/
theorem asked_step {r : String} {s : Starting}
    (hA : ∀ r s, a.world.starting.get? r = some s → ∃ id req, a.requests.get? id = some req ∧
      req.handler.runId? = some r ∧ req.threadId = s.threadId)
    (h : AppStep rt a act a') (hs : a'.world.starting.get? r = some s) :
    ∃ id req, a'.requests.get? id = some req ∧ req.handler.runId? = some r ∧
      req.threadId = s.threadId := by
  have hopen : ∀ {handler : Handler}, handler.isOpen = true → handler.runId? ≠ some r := by
    intro handler hopen hrun
    rw [((isOpen_iff _).mp hopen).2] at hrun
    cases hrun
  cases h with
  | outside hw hreq _ =>
      rw [hw] at hs
      rw [hreq]
      exact hA r s hs
  | process _ _ hstarting hreq _ =>
      rw [hstarting] at hs
      rw [hreq]
      exact hA r s hs
  | @move id req hop _ _ hw hreq _ =>
      have hs₀ : a.world.starting.get? r = some s := by
        rcases hw with hw | ⟨act', -, -, hstarting⟩
        · rwa [hw] at hs
        · rwa [hstarting] at hs
      exact asked_of_set hA hreq hs₀ fun req₀ hg₀ => hopen (hop req₀ hg₀)
  | @reserve id req₀ req act' runId s₀ hg hop hrun _ _ _ _ hstarting ht _ _ _ _ hreq _ =>
      rw [hstarting, Dict.get?_set] at hs
      split at hs
      · next hr =>
        obtain rfl := Option.some.inj hs
        refine ⟨id, req, ?_, hr ▸ hrun, ht.symm⟩
        rw [hreq]
        exact Dict.get?_set_self _ _ _
      · refine asked_of_set hA hreq hs fun req₁ hg₁ => ?_
        obtain rfl := Option.some.inj (hg.symm.trans hg₁)
        exact hopen hop
  | fail hg hrun hw hreq _ =>
      obtain ⟨s₀, -, hstarting, -⟩ := World.resolved_failed hw
      exact asked_of_erase hA hg hrun hreq (hstarting ▸ hs)
  | launch hg hrun hw hreq _ =>
      obtain ⟨s₀, graph, config, -, -, -, heq⟩ := World.resolved_launched hw
      refine asked_of_erase hA hg hrun hreq ?_
      rw [heq] at hs
      exact hs

theorem ReportInv.step (hR : a.ReportInv) (hF : a.FrameInv) (hI : a.world.SlotInv)
    (h : a.step rt act = some a') : a'.ReportInv := by
  have happ := appStep_of_step h
  constructor
  · exact fun r s hs => asked_step hR.asked happ hs
  · intro r task' hg
    rcases told_of_task hF hI happ hg with ⟨task, hg₀, ht⟩ | hnow
    · obtain ⟨id, req, hreq, htold, hthread⟩ := hR.told r task hg₀
      exact ⟨id, req, (serviceStep_of_step h).answered_kept hreq (told?_isAnswered htold), htold,
        hthread.trans ht.symm⟩
    · exact hnow
  · intro id req r hg htold
    rcases told_origin hF h hg htold with hold | ⟨req₀, task, -, -, htask, ht⟩
    · obtain ⟨task, hg₀, ht⟩ := hR.real id req r hold htold
      obtain ⟨task', hg', ht'⟩ := task_kept hI happ hg₀
      exact ⟨task', hg', ht'.trans ht⟩
    · exact ⟨task, htask, ht⟩
  · -- who waits for a run and who has told of it are never two
    have hne : ∀ {id id' : Nat} {req req₀ : Request} {r : String},
        a.requests.get? id = some req → req.handler.told? = some r →
        a.requests.get? id' = some req₀ → req₀.handler.runId? = some r → False := by
      intro id id' req req₀ r hg htold hg₀ hrun
      obtain ⟨task, htask, -⟩ := hR.real id req r hg htold
      obtain ⟨s, hs, -⟩ := hF.waits id' req₀ r hg₀ hrun
      rw [(hI.starting_fresh hs).2] at htask
      cases htask
    intro id id' req req' r hg hg' htold htold'
    rcases told_origin hF h hg htold with hold | ⟨req₀, -, hg₀, hrun, -⟩
    · rcases told_origin hF h hg' htold' with hold' | ⟨req₀, -, hg₀, hrun, -⟩
      · exact hR.once id id' req req' r hold hold' htold htold'
      · exact (hne hold htold hg₀ hrun).elim
    · rcases told_origin hF h hg' htold' with hold' | ⟨req₁, -, hg₁, hrun₁, -⟩
      · exact (hne hold' htold' hg₀ hrun).elim
      · exact hF.unique id id' req₀ req₁ r hg₀ hg₁ hrun hrun₁

theorem reportInv_of_reachable (ha : (appSys rt n).Reachable a) : a.ReportInv := by
  refine ha.induct ?_ ?_
  · rintro a ⟨hw, hreq, -⟩
    constructor
    · intro r s hs
      rw [hw] at hs
      cases hs
    · intro r task hg
      rw [hw] at hg
      cases hg
    · intro id req r hg
      rw [hreq] at hg
      cases hg
    · intro id id' req req' r hg
      rw [hreq] at hg
      cases hg
  · intro a act a' ha hR _ hstep
    exact hR.step (frameInv_of_reachable ha) (World.slotInv_of_reachable (world_reachable ha)) hstep

end App

/-- In every reachable state of the service: each run was told of in the answer of exactly one
request, on its thread, and each envelope that is sent and names a run names one that was
created; each start under way has exactly one handler waiting for it; and what is published on
a thread is of runs that requests on that thread were answered with. -/
theorem runs_told_once (rt : Runtime) (limit n : Nat) (a : App)
    (ha : (appSys rt n).Reachable a) :
    (∀ r task, a.world.tasks.get? r = some task → ∃! id, ∃ req, a.requests.get? id = some req ∧
      req.Reports limit r ∧ req.threadId = task.threadId) ∧
    (∀ id req r, a.requests.get? id = some req → req.handler.sends? limit = some r →
      ∃ task, a.world.tasks.get? r = some task ∧ task.threadId = req.threadId) ∧
    (∀ r s, a.world.starting.get? r = some s → ∃! id, ∃ req, a.requests.get? id = some req ∧
      req.handler.runId? = some r ∧ req.threadId = s.threadId) ∧
    ∀ t, ∀ e ∈ (a.world.hub t).published, ∃ id req, a.requests.get? id = some req ∧
      req.threadId = t ∧ req.Reports limit e.data.runId := by
  have hR := App.reportInv_of_reachable ha
  have hF := App.frameInv_of_reachable ha
  refine ⟨fun r task hg => ?_, ?_, fun r s hs => ?_, fun t e he => ?_⟩
  · obtain ⟨id, req, hreq, htold, ht⟩ := hR.told r task hg
    refine ⟨id, ⟨req, hreq, Request.reports_iff.mpr htold, ht⟩, ?_⟩
    rintro id' ⟨req', hreq', hreports, -⟩
    exact hR.once id' id req' req r hreq' hreq (Request.reports_iff.mp hreports) htold
  · exact fun id req r hg hsends => hR.real id req r hg (told?_of_sends? hsends)
  · obtain ⟨id, req, hreq, hrun, ht⟩ := hR.asked r s hs
    refine ⟨id, ⟨req, hreq, hrun, ht⟩, ?_⟩
    rintro id' ⟨req', hreq', hrun', -⟩
    exact hF.unique id' id req' req r hreq' hreq hrun' hrun
  · -- the log of a thread is that of its runs
    obtain ⟨task, hg, ht, -⟩ :=
      (World.logInv_of_reachable (App.world_reachable ha)).task_of_mem he
    obtain ⟨id, req, hreq, htold, hthread⟩ := hR.told e.data.runId task hg
    exact ⟨id, req, hreq, hthread.trans ht, Request.reports_iff.mpr htold⟩

/-- A client starts a run, which begins, and a second client is turned away. -/
def oneStarted : List AppAct :=
  let start : Json := .obj [("method", .str "run.start"),
    ("params", .obj [("assistant_id", .str "agent")])]
  [.world (.register "agent"), .create "t" "now" ∅, .request 1 "t", .request 2 "t",
   .body 1 (some start) "r1", .body 2 (some start) "r2", .started 1 (.graph ⟨false⟩) "now",
   .world (.begin "r1")]

def oneStartedEnd : App := ((appSys .inert 500).run service oneStarted).getD service

theorem runs_told_once_started :
    (oneStartedEnd.world.hub "t").published.length = 2 ∧
      ∃! id, ∃ req, oneStartedEnd.requests.get? id = some req ∧ req.Reports 4300 "r1" ∧
        req.threadId = "t" := by
  have hrun : (appSys .inert 500).run service oneStarted = some oneStartedEnd := rfl
  have hreach := TSys.reachable_of_run (M := appSys .inert 500) ⟨rfl, rfl, rfl⟩ hrun
  obtain ⟨htold, -, -, -⟩ := runs_told_once .inert 4300 500 oneStartedEnd hreach
  exact ⟨rfl, htold "r1" _ rfl⟩

end AgentProtocol

import AgentProtocol.Router.Inversion

/-!
# The requests and the process below

`AppStep` lists what an action of the service can do to the requests and to the process
below. `FrameInv` ties the handlers that wait in `manager.start` to the suspended
calls of the manager, one each, and the runs that answer an interrupt to the
request they answer.
-/

namespace AgentProtocol

def GraphInput.isResume : GraphInput → Bool
  | .resume _ => true
  | .input _ => false

def Act.isResolved : Act → Bool
  | .resolved .. => true
  | _ => false

theorem Act.isResolved_of_internal {act : Act} (h : act.isInternal = true) :
    act.isResolved = false := by
  cases act with
  | resolved => cases h
  | _ => rfl

/-- The interrupt a handler is about has been noted with the request, now or before. -/
def App.NotesInterrupt (a : App) (id : Nat) (req : Request) : Prop :=
  ∀ i, req.handler.interrupt? = some i → req.interrupt = some i ∨
    ∃ req₀, a.requests.get? id = some req₀ ∧ req₀.handler.interrupt? = some i ∧
      req.interrupt = req₀.interrupt

/-- A handler waits for a run that answers an interrupt: it has found the interrupt in
the snapshot, on a free thread, and in the pending map if there is one. -/
def App.Resumes (a : App) (act : AppAct) (id : Nat) (req₀ req : Request) : Prop :=
  ∀ i, req.handler.resumes? = some i →
    (∃ snapshot runId cmdId response ids, act = .state id (.ok snapshot) runId ∧
      req₀.handler = .stateRead cmdId (.respond i response) (some ids) ∧ i ∈ ids) ∧
    req.threadId = req₀.threadId ∧ a.world.Free req.threadId ∧
    (a.world.pendingInputs.get? req.threadId = none ∨
      ∃ pending, a.world.pendingInputs.get? req.threadId = some pending ∧
        pending.contains i = true)

inductive AppStep (rt : Runtime) (a : App) : AppAct → App → Prop
  /-- the store, or a saver -/
  | outside {act : AppAct} {a' : App} : a'.world = a.world → a'.requests = a.requests →
      a'.answers = a.answers → AppStep rt a act a'
  /-- the process, by itself -/
  | process {act : AppAct} {a' : App} {act' : Act} : a.world.step rt act' = some a'.world →
      act'.isResolved = false → a'.world.starting = a.world.starting →
      a'.requests = a.requests → a'.answers = a.answers → AppStep rt a act a'
  /-- a handler comes to another await outside `manager.start`, or answers -/
  | move {act : AppAct} {a' : App} {id : Nat} {req : Request} :
      (∀ req₀, a.requests.get? id = some req₀ → req₀.handler.isOpen = true) →
      req.handler.runId? = none → a.NotesInterrupt id req →
      (a'.world = a.world ∨ ∃ act', a.world.step rt act' = some a'.world ∧
        act'.isResolved = false ∧ a'.world.starting = a.world.starting) →
      a'.requests = a.requests.set id req → a'.answers = a.answers → AppStep rt a act a'
  /-- a handler has reserved the slot -/
  | reserve {act : AppAct} {a' : App} {id : Nat} {req₀ req : Request} {act' : Act} {runId : String}
      {s : Starting} : a.requests.get? id = some req₀ → req₀.handler.isOpen = true →
      req.handler.runId? = some runId → a.NotesInterrupt id req → runId ∉ a.world.drawn →
      a.world.step rt act' = some a'.world → act'.isResolved = false →
      a'.world.starting = a.world.starting.set runId s → s.threadId = req.threadId →
      s.input.isResume = req.handler.resumes?.isSome →
      (s.input.isResume = true → s.config = none ∧ s.metadata = .null) →
      a.Resumes act id req₀ req → a'.world.pendingInputs = a.world.pendingInputs →
      a'.requests = a.requests.set id req → a'.answers = a.answers → AppStep rt a act a'
  /-- its start has failed -/
  | fail {act : AppAct} {a' : App} {id : Nat} {req : Request} {runId : String} {outcome : Resolution}
      {exc : RunExc} {response : Response} : a.requests.get? id = some req →
      req.handler.runId? = some runId →
      a.world.resolved runId outcome = some (a'.world, some exc) →
      a'.requests = a.requests.set id { req with handler := .answered response } →
      a'.answers = a.answers → AppStep rt a act a'
  /-- its run is created -/
  | launch {act : AppAct} {a' : App} {id : Nat} {req : Request} {runId : String} {outcome : Resolution}
      {cmdId : Json} : a.requests.get? id = some req → req.handler.runId? = some runId →
      a.world.resolved runId outcome = some (a'.world, none) →
      a'.requests =
        a.requests.set id { req with handler := .answered (.success cmdId (.run runId)) } →
      a'.answers =
        (match req.handler.resumes? with
          | none => a.answers
          | some interruptId => a.answers.set runId
            { request := id, threadId := req.threadId, interruptId := interruptId }) →
      AppStep rt a act a'

namespace World

variable {rt : Runtime} {w w' : World} {t runId : String} {v : Value} {input : GraphInput}
  {config : Option (Dict String Json)} {metadata : Json}

theorem start_of_free (h : w.Free t) :
    w.start t v input config metadata runId = w.reserve t v input config metadata runId := by
  rcases w.start_cases t v input config metadata runId with ⟨b, hb, hbusy, -⟩ | ⟨-, heq⟩
  · rw [h b hb] at hbusy
    cases hbusy
  · exact heq

theorem start_held {assistantId : String} (h : w.Free t) (hmem : assistantId ∈ w.factories) :
    w.start t (.str assistantId) input config metadata runId =
      (w.hold runId { threadId := t, assistantId, input, config, metadata }, none) := by
  have hf : findFactory w.factories (.str assistantId) = .ok assistantId := if_pos hmem
  rw [start_of_free h, reserve]
  simp only [hf]
  rfl

theorem start_unknown {exc : RunExc} (h : w.Free t) (hf : findFactory w.factories v = .error exc) :
    w.start t v input config metadata runId = (w.turnAway t v runId, some exc) := by
  rw [start_of_free h, reserve]
  simp only [hf]
  rfl

theorem respond_resumes {i : String} {response : Json} {asst : Option String}
    (h : w.ResumesAs t i asst v) :
    w.respond t i response asst runId = w.start t v (.resume response) none .null runId := by
  unfold respond
  rcases h with ⟨pending, hp, hc, rfl⟩ | ⟨hp, a, ha, rfl⟩
  · simp only [hp, hc, if_true]
  · simp only [hp, ha]

/-- A step that resolves no start and calls none leaves the suspended ones. -/
theorem starting_of_internal {act : Act} (h : w.step rt act = some w')
    (hact : act.isInternal = true ∨ ∃ t r, act = .cancel t r) : w'.starting = w.starting := by
  have hnot : ∀ {t r}, ¬act.Starts t r := by
    intro t r hs
    rcases hact with hi | ⟨t', r', rfl⟩
    · cases act with
      | start => cases hi
      | respond => cases hi
      | _ => exact hs
    · exact hs
  have hres : ∀ {r outcome}, act ≠ .resolved r outcome := by
    rintro r outcome rfl
    rcases hact with hi | ⟨t', r', heq⟩
    · cases hi
    · cases heq
  cases worldStep_of_step h with
  | refuse _ _ hs => exact absurd hs hnot
  | reserve _ _ hs => exact absurd hs hnot
  | release => exact absurd rfl hres
  | abandon => exact absurd rfl hres
  | launch => exact absurd rfl hres
  | _ => rfl

end World

/-- A cancel is a step of the process. -/
theorem dispatchCancel_cases (rt : Runtime) (w : World) (t : String) (run : Json) :
    dispatchCancel w t run = w ∨
      ∃ r, w.step rt (.cancel t r) = some (dispatchCancel w t run) := by
  cases run with
  | null => exact .inr ⟨none, rfl⟩
  | str s => exact .inr ⟨some s, rfl⟩
  | _ => exact .inl rfl

namespace App

variable {rt : Runtime} {a a' : App}

theorem resumes_none {act : AppAct} {id : Nat} {req₀ req : Request}
    (h : req.handler.resumes? = none) : a.Resumes act id req₀ req := by
  intro i hi
  rw [h] at hi
  cases hi

theorem notesInterrupt_none {id : Nat} {req : Request} (h : req.handler.interrupt? = none) :
    a.NotesInterrupt id req := by
  intro i hi
  rw [h] at hi
  cases hi

/-- A stretch of a handler that creates no run. -/
theorem appStep_of_request {act : AppAct} {id : Nat} {req req' : Request} {w' : World}
    (hg : a.requests.get? id = some req)
    (h : RequestStep rt a.world a.store id act req w' req') :
    AppStep rt a act (a.put id req' w') := by
  have hopen : req.handler.isOpen = true →
      ∀ req₀, a.requests.get? id = some req₀ → req₀.handler.isOpen = true := by
    intro h req₀ hg₀
    rwa [← Option.some.inj (hg.symm.trans hg₀)]
  cases h with
  | quiet h _ hpassive hnotes =>
      refine .move (hopen h) (Handler.runId?_of_passive hpassive) ?_ (.inl rfl) rfl rfl
      intro i hi
      exact (hnotes i hi).imp_right fun ⟨hi₀, heq⟩ => ⟨req, hg, hi₀, heq⟩
  | @cancel _ t _ _ _ run =>
      refine .move (hopen rfl) rfl (notesInterrupt_none rfl) ?_ rfl rfl
      rcases dispatchCancel_cases rt a.world t run with hsame | ⟨r, hstep⟩
      · exact .inl hsame
      · exact .inr ⟨_, hstep, rfl, World.starting_of_internal hstep (.inr ⟨t, r, rfl⟩)⟩
  | @refuse _ _ _ runId v _ _ h _ hans hfresh hfree hf =>
      refine .move (hopen h) (by rw [hans]; rfl) (notesInterrupt_none (by rw [hans]; rfl)) ?_ rfl rfl
      refine .inr ⟨.start req.threadId v .null none .null runId, ?_, rfl, rfl⟩
      show (if runId ∈ a.world.drawn then none else _) = _
      rw [if_neg hfresh, World.start_unknown hfree hf]
      rfl
  | @start _ t _ _ _ _ args assistantId runId _ _ hfresh hfree hmem =>
      have hstart : a.world.step rt (.start t (.str assistantId) args.input (some args.config)
          args.metadata runId) = some (a.world.hold runId
            { threadId := t, assistantId, input := .input args.input, config := some args.config,
              metadata := args.metadata }) := by
        show (if runId ∈ a.world.drawn then none else _) = _
        rw [if_neg hfresh, World.start_held hfree hmem]
      refine .reserve hg rfl rfl (notesInterrupt_none rfl) hfresh hstart rfl rfl rfl rfl ?_
        (resumes_none rfl) rfl rfl rfl
      intro hres
      cases hres
  | @resume t _ cmdId response interruptId snapshot ids assistantId runId hin hv hfresh hfree
      hmem =>
      have hrespond : a.world.step rt (.respond t interruptId response (a.store.assistant t) runId) =
          some (a.world.hold runId { threadId := t, assistantId, input := .resume response,
                                     config := none, metadata := .null }) := by
        show (if runId ∈ a.world.drawn then none else _) = _
        rw [if_neg hfresh, World.respond_resumes hv, World.start_held hfree hmem]
      refine .reserve hg rfl rfl ?_ hfresh hrespond rfl rfl rfl rfl (fun _ => ⟨rfl, rfl⟩) ?_ rfl rfl
        rfl
      · exact fun j hj => .inr ⟨_, hg, hj, rfl⟩
      · rintro j ⟨⟩
        refine ⟨⟨snapshot, runId, cmdId, response, ids, rfl, rfl, hin⟩, rfl, hfree, ?_⟩
        rcases hv with ⟨pending, hp, hc, -⟩ | ⟨hp, -⟩
        · exact .inr ⟨pending, hp, hc⟩
        · exact .inl hp
  | fail hrun hw _ => exact .fail hg hrun hw rfl rfl

theorem appStep_of_serviceStep {act : AppAct} (h : ServiceStep rt a act a') :
    AppStep rt a act a' := by
  have hnew : ∀ {id}, a.requests.get? id = none →
      ∀ req₀, a.requests.get? id = some req₀ → req₀.handler.isOpen = true := by
    intro id hnone req₀ hg
    rw [hnone] at hg
    cases hg
  cases h with
  | idle => exact .outside rfl rfl rfl
  | create => exact .outside rfl rfl rfl
  | notFound hnone _ => exact .move (hnew hnone) rfl (notesInterrupt_none rfl) (.inl rfl) rfl rfl
  | accept hnone _ => exact .move (hnew hnone) rfl (notesInterrupt_none rfl) (.inl rfl) rfl rfl
  | handler _ hg hreq => exact appStep_of_request hg hreq
  | start hg hw =>
      unfold App.bind
      split
      · exact .launch hg rfl hw rfl rfl
      · exact .launch hg rfl hw rfl rfl
  | resume hg hw => exact .launch hg rfl hw rfl rfl
  | @cancelRun t runId =>
      have hstep : a.world.step rt (.cancel t (some runId)) =
        some (a.world.cancel t (some runId)).1 := rfl
      exact .process hstep rfl (World.starting_of_internal hstep (.inr ⟨t, some runId, rfl⟩)) rfl rfl
  | checkpoint => exact .outside rfl rfl rfl
  | @internal act w' hact hw =>
      exact .process hw (Act.isResolved_of_internal hact)
        (World.starting_of_internal hw (.inl hact)) rfl rfl

/-- Every step is one of the listed ones. -/
theorem appStep_of_step {act : AppAct} (h : a.step rt act = some a') : AppStep rt a act a' :=
  appStep_of_serviceStep (serviceStep_of_step h)

end App

/-! ## The process below -/

namespace World

variable {rt : Runtime} {w w' : World} {r : String} {outcome : Resolution}

/-- No run is created, and each keeps its thread and its input. -/
structure SameRuns (w w' : World) : Prop where
  kept : ∀ r task, w.tasks.get? r = some task →
    ∃ task', w'.tasks.get? r = some task' ∧ task'.threadId = task.threadId ∧
      task'.input = task.input
  before : ∀ r task', w'.tasks.get? r = some task' →
    ∃ task, w.tasks.get? r = some task ∧ task'.input = task.input

theorem SameRuns.of_eq (h : w'.tasks = w.tasks) : w.SameRuns w' where
  kept _ task hg := ⟨task, h ▸ hg, rfl, rfl⟩
  before _ task hg := ⟨task, h ▸ hg, rfl⟩

theorem SameRuns.of_set {task task' : Task} (htasks : w'.tasks = w.tasks.set r task')
    (hg : w.tasks.get? r = some task) (ht : task'.threadId = task.threadId)
    (hin : task'.input = task.input) : w.SameRuns w' := by
  constructor
  · intro r₁ task₁ hg₁
    rw [htasks, Dict.get?_set]
    by_cases hr : r = r₁
    · subst hr
      obtain rfl := Option.some.inj (hg.symm.trans hg₁)
      exact ⟨task', if_pos rfl, ht, hin⟩
    · exact ⟨task₁, by rw [if_neg hr, hg₁], rfl, rfl⟩
  · intro r₁ task₁ hg₁
    rw [htasks, Dict.get?_set] at hg₁
    split at hg₁
    · next hr =>
      subst hr
      exact ⟨task, hg, by rw [← Option.some.inj hg₁, hin]⟩
    · exact ⟨task₁, hg₁, rfl⟩

theorem SameRuns.of_step {act : Act} (h : w.step rt act = some w')
    (hact : act.isResolved = false) : w.SameRuns w' := by
  cases worldStep_of_step h with
  | launch => cases hact
  | cancel _ _ hg _ => exact .of_set rfl hg rfl rfl
  | skip hg _ _ => exact .of_set rfl hg rfl rfl
  | begin hg _ _ => exact .of_set rfl hg rfl rfl
  | resume hg _ => exact .of_set rfl hg rfl rfl
  | callback hg _ => exact .of_set rfl hg rfl rfl
  | _ => exact .of_eq rfl

/-- A start that fails after its resolution. -/
theorem resolved_failed {exc : RunExc} (h : w.resolved r outcome = some (w', some exc)) :
    ∃ s, w.starting.get? r = some s ∧ w'.starting = w.starting.erase r ∧ w'.tasks = w.tasks ∧
      w'.pendingInputs = w.pendingInputs := by
  unfold resolved at h
  split at h
  · cases h
  · next s hs =>
    refine ⟨s, hs, ?_⟩
    cases outcome with
    | raised e =>
        cases h
        exact ⟨rfl, rfl, rfl⟩
    | cancelled =>
        cases h
        exact ⟨rfl, rfl, rfl⟩
    | graph graph =>
        simp only at h
        split at h
        · cases h
          exact ⟨rfl, rfl, rfl⟩
        · cases h

/-- A start that creates its run. -/
theorem resolved_launched (h : w.resolved r outcome = some (w', none)) :
    ∃ s graph config, w.starting.get? r = some s ∧ outcome = .graph graph ∧
      runConfig s.threadId s.config s.metadata = .ok config ∧ w' = w.launch r s graph config := by
  unfold resolved at h
  split at h
  · cases h
  · next s hs =>
    cases outcome with
    | raised e => cases h
    | cancelled => cases h
    | graph graph =>
        simp only at h
        split at h
        · cases h
        · next config hcfg =>
          cases h
          exact ⟨s, graph, config, hs, rfl, hcfg, rfl⟩

/-- Either is a step of the process. -/
theorem step_of_resolved {res : Option RunExc} (h : w.resolved r outcome = some (w', res)) :
    w.step rt (.resolved r outcome) = some w' := by
  show (w.resolved r outcome).map Prod.fst = some w'
  rw [h]
  rfl

end World

/-- The process takes its own steps. -/
theorem AppStep.world {rt : Runtime} {a a' : App} {act : AppAct} (h : AppStep rt a act a') :
    a'.world = a.world ∨ ∃ act, a.world.step rt act = some a'.world := by
  cases h with
  | outside hw _ _ => exact .inl hw
  | process hw _ _ _ _ => exact .inr ⟨_, hw⟩
  | move _ _ _ hw _ _ => exact hw.imp_right fun ⟨act, hstep, _⟩ => ⟨act, hstep⟩
  | reserve _ _ _ _ _ hw => exact .inr ⟨_, hw⟩
  | fail _ _ hw _ _ => exact .inr ⟨_, World.step_of_resolved hw⟩
  | launch _ _ hw _ _ => exact .inr ⟨_, World.step_of_resolved hw⟩

/-- Every run of the service is a run of the process, which starts anew. -/
theorem appSys_simulates (rt : Runtime) (n : Nat) :
    (appSys rt n).Simulates (runSys rt n) (fun _ _ => True) (fun _ _ => True) App.world where
  init _ h := h.1
  step a act a' _ _ hstep := by
    rcases (App.appStep_of_step hstep).world with hsame | ⟨act', hw⟩
    · rw [hsame]
      exact .refl
    · exact .single trivial hw

theorem App.world_reachable {rt : Runtime} {n : Nat} {ok : App → AppAct → Prop} {a : App}
    (h : (appSys rt n).ReachableVia ok a) : (runSys rt n).Reachable a.world :=
  (appSys_simulates rt n).reachable h.reachable

/-! ## The handlers that start a run -/

/-- The handler waits for a suspended start on its thread, of the kind it asked for. -/
def App.Waits (a : App) (req : Request) (r : String) : Prop :=
  ∃ s, a.world.starting.get? r = some s ∧ s.threadId = req.threadId ∧
    s.input.isResume = req.handler.resumes?.isSome ∧
    (s.input.isResume = true → s.config = none ∧ s.metadata = .null)

/-- The resume run `r` was created by a request that has been told so. -/
def App.Answered (a : App) (r : String) (x : Answer) : Prop :=
  (∃ task, a.world.tasks.get? r = some task ∧ task.threadId = x.threadId ∧
    task.input.isResume = true) ∧
  ∃ req cmdId, a.requests.get? x.request = some req ∧ req.threadId = x.threadId ∧
    req.interrupt = some x.interruptId ∧ req.handler = .answered (.success cmdId (.run r))

structure App.FrameInv (a : App) : Prop where
  waits : ∀ id req r, a.requests.get? id = some req → req.handler.runId? = some r → a.Waits req r
  unique : ∀ id id' req req' r, a.requests.get? id = some req → a.requests.get? id' = some req' →
    req.handler.runId? = some r → req'.handler.runId? = some r → id = id'
  noted : ∀ id req i, a.requests.get? id = some req → req.handler.interrupt? = some i →
    req.interrupt = some i
  answered : ∀ r x, a.answers.get? r = some x → a.Answered r x
  resumed : ∀ r task, a.world.tasks.get? r = some task → task.input.isResume = true →
    ∃ x, a.answers.get? r = some x

namespace App

variable {rt : Runtime} {n : Nat} {a a' : App}

theorem isOpen_iff (h : Handler) : h.isOpen = true ↔ h.isAnswered = false ∧ h.runId? = none := by
  simp [Handler.isOpen]

/-- An answer stays where it is while its request is not touched. -/
theorem Answered.mono {id : Nat} {req : Request} {r : String} {x : Answer} (h : a.Answered r x)
    (hreq : a'.requests = a.requests.set id req)
    (hnot : ∀ req₀, a.requests.get? id = some req₀ → req₀.handler.isAnswered = false)
    (hruns : ∀ task, a.world.tasks.get? r = some task →
      ∃ task', a'.world.tasks.get? r = some task' ∧ task'.threadId = task.threadId ∧
        task'.input = task.input) :
    a'.Answered r x := by
  obtain ⟨⟨task, hg, ht, hin⟩, req₁, cmdId, hget, hthread, hint, hans⟩ := h
  obtain ⟨task', hg', ht', hin'⟩ := hruns task hg
  refine ⟨⟨task', hg', ht'.trans ht, hin' ▸ hin⟩, req₁, cmdId, ?_, hthread, hint, hans⟩
  rw [hreq, Dict.get?_set_ne _ _ ?_]
  · exact hget
  · rintro rfl
    have h := hnot req₁ hget
    rw [hans] at h
    cases h

theorem Waits.congr {req : Request} {r : String} (h : a.Waits req r)
    (hstarting : a'.world.starting.get? r = a.world.starting.get? r) : a'.Waits req r := by
  obtain ⟨s, hs, hrest⟩ := h
  exact ⟨s, hstarting.trans hs, hrest⟩

/-- One request is touched, and the starts of the others are left alone. -/
theorem FrameInv.of_set (hF : a.FrameInv) {id : Nat} {req : Request}
    (hreq : a'.requests = a.requests.set id req)
    (hothers : ∀ id' req' r, id ≠ id' → a.requests.get? id' = some req' →
      req'.handler.runId? = some r → a'.world.starting.get? r = a.world.starting.get? r ∧
        req.handler.runId? ≠ some r)
    (hnew : ∀ r, req.handler.runId? = some r → a'.Waits req r)
    (hnoted : a.NotesInterrupt id req)
    (hanswered : ∀ r x, a'.answers.get? r = some x → a'.Answered r x)
    (hresumed : ∀ r task, a'.world.tasks.get? r = some task → task.input.isResume = true →
      ∃ x, a'.answers.get? r = some x) : a'.FrameInv := by
  -- a request of the new state is the touched one or an old one
  have hcases : ∀ {id' req'}, a'.requests.get? id' = some req' →
      (id = id' ∧ req = req') ∨ (id ≠ id' ∧ a.requests.get? id' = some req') := by
    intro id' req' hg
    rw [hreq, Dict.get?_set] at hg
    split at hg
    · next hid => exact .inl ⟨hid, Option.some.inj hg⟩
    · next hid => exact .inr ⟨hid, hg⟩
  refine ⟨?_, ?_, ?_, hanswered, hresumed⟩
  · intro id' req' r hg hr
    rcases hcases hg with ⟨rfl, rfl⟩ | ⟨hid, hg⟩
    · exact hnew r hr
    · exact (hF.waits id' req' r hg hr).congr (hothers id' req' r hid hg hr).1
  · intro id₁ id₂ req₁ req₂ r hg₁ hg₂ hr₁ hr₂
    rcases hcases hg₁ with ⟨rfl, rfl⟩ | ⟨hid₁, hg₁⟩
    · rcases hcases hg₂ with ⟨rfl, -⟩ | ⟨hid₂, hg₂⟩
      · rfl
      · exact absurd hr₁ (hothers id₂ req₂ r hid₂ hg₂ hr₂).2
    · rcases hcases hg₂ with ⟨rfl, rfl⟩ | ⟨-, hg₂⟩
      · exact absurd hr₂ (hothers id₁ req₁ r hid₁ hg₁ hr₁).2
      · exact hF.unique id₁ id₂ req₁ req₂ r hg₁ hg₂ hr₁ hr₂
  · intro id' req' i hg hi
    rcases hcases hg with ⟨rfl, rfl⟩ | ⟨-, hg⟩
    · rcases hnoted i hi with h | ⟨req₀, hg₀, hi₀, heq⟩
      · exact h
      · rw [heq]
        exact hF.noted id req₀ i hg₀ hi₀
    · exact hF.noted id' req' i hg hi

/-- A step that touches no request and no suspended start. -/
theorem FrameInv.of_same (hF : a.FrameInv) (hruns : a.world.SameRuns a'.world)
    (hstarting : a'.world.starting = a.world.starting) (hreq : a'.requests = a.requests)
    (hans : a'.answers = a.answers) : a'.FrameInv := by
  refine ⟨?_, ?_, ?_, ?_, ?_⟩
  · unfold Waits
    rw [hstarting, hreq]
    exact hF.waits
  · rw [hreq]
    exact hF.unique
  · rw [hreq]
    exact hF.noted
  · intro r x hx
    rw [hans] at hx
    obtain ⟨⟨task, hg, ht, hin⟩, hx'⟩ := hF.answered r x hx
    obtain ⟨task', hg', ht', hin'⟩ := hruns.kept r task hg
    exact ⟨⟨task', hg', ht'.trans ht, hin' ▸ hin⟩, by rw [hreq]; exact hx'⟩
  · intro r task' hg hres
    obtain ⟨task, hg₀, hin⟩ := hruns.before r task' hg
    rw [hans]
    exact hF.resumed r task hg₀ (hin ▸ hres)

/-- One that moves a request on, and creates no run. -/
theorem FrameInv.of_runs (hF : a.FrameInv) {id : Nat} {req : Request}
    (hruns : a.world.SameRuns a'.world)
    (hopen : ∀ req₀, a.requests.get? id = some req₀ → req₀.handler.isAnswered = false)
    (hreq : a'.requests = a.requests.set id req) (hans : a'.answers = a.answers)
    (hothers : ∀ id' req' r, id ≠ id' → a.requests.get? id' = some req' →
      req'.handler.runId? = some r → a'.world.starting.get? r = a.world.starting.get? r ∧
        req.handler.runId? ≠ some r)
    (hnew : ∀ r, req.handler.runId? = some r → a'.Waits req r)
    (hnoted : a.NotesInterrupt id req) : a'.FrameInv := by
  refine hF.of_set hreq hothers hnew hnoted ?_ ?_
  · intro r x hx
    rw [hans] at hx
    exact (hF.answered r x hx).mono hreq hopen (hruns.kept r)
  · intro r task' hg hres
    obtain ⟨task, hg₀, hin⟩ := hruns.before r task' hg
    rw [hans]
    exact hF.resumed r task hg₀ (hin ▸ hres)

/-- The handler whose run is created is told so. -/
theorem FrameInv.launch (hF : a.FrameInv) (hI : a.world.SlotInv) {id : Nat} {req : Request}
    {runId : String} {outcome : Resolution} {cmdId : Json} (hg : a.requests.get? id = some req)
    (hrun : req.handler.runId? = some runId)
    (hw : a.world.resolved runId outcome = some (a'.world, none))
    (hreq : a'.requests =
      a.requests.set id { req with handler := .answered (.success cmdId (.run runId)) })
    (hans : a'.answers =
      (match req.handler.resumes? with
        | none => a.answers
        | some interruptId => a.answers.set runId
          { request := id, threadId := req.threadId, interruptId := interruptId })) :
    a'.FrameInv := by
  obtain ⟨s, graph, config, hs, -, hcfg, heq⟩ := World.resolved_launched hw
  obtain ⟨s', hs', hthread, hres, -⟩ := hF.waits id req runId hg hrun
  obtain rfl := Option.some.inj (hs.symm.trans hs')
  have hnone := (hI.starting_fresh hs).2
  have hnot : ∀ req₁, a.requests.get? id = some req₁ → req₁.handler.isAnswered = false := by
    intro req₁ hg₁
    obtain rfl := Option.some.inj (hg.symm.trans hg₁)
    exact Handler.isAnswered_of_runId? hrun
  -- a run that was there before has another id
  have hkept : ∀ r task, a.world.tasks.get? r = some task →
      ∃ task', a'.world.tasks.get? r = some task' ∧ task'.threadId = task.threadId ∧
        task'.input = task.input := by
    intro r task hg₀
    have hne : runId ≠ r := by
      rintro rfl
      rw [hnone] at hg₀
      cases hg₀
    refine ⟨task, ?_, rfl, rfl⟩
    rw [heq, World.launch, Dict.get?_set_ne _ _ hne]
    exact hg₀
  have hmine : ∃ task, a'.world.tasks.get? runId = some task ∧ task.threadId = s.threadId ∧
      task.input = s.input := by
    rw [heq, World.launch]
    exact ⟨_, Dict.get?_set_self _ _ _, rfl, rfl⟩
  refine hF.of_set hreq ?_ ?_ (notesInterrupt_none rfl) ?_ ?_
  · intro id' req' r hid hg' hr'
    refine ⟨?_, by rintro ⟨⟩⟩
    rw [heq, World.launch, Dict.get?_erase_ne]
    rintro rfl
    exact hid (hF.unique id id' req req' runId hg hg' hrun hr')
  · rintro r ⟨⟩
  · intro r x hx
    rw [hans] at hx
    cases hi : req.handler.resumes? with
    | none =>
        simp only [hi] at hx
        exact (hF.answered r x hx).mono hreq hnot (hkept r)
    | some i =>
        simp only [hi, Dict.get?_set] at hx
        split at hx
        · next hr =>
          subst hr
          obtain rfl := Option.some.inj hx
          obtain ⟨task, hg', ht, hin⟩ := hmine
          refine ⟨⟨task, hg', ht.trans hthread, by rw [hin, hres, hi]; rfl⟩,
            { req with handler := .answered (.success cmdId (.run runId)) }, cmdId, ?_, rfl, ?_, rfl⟩
          · rw [hreq]
            exact Dict.get?_set_self _ _ _
          · apply hF.noted id req i hg
            cases hh : req.handler with
            | runResume =>
                rw [hh] at hi
                exact hi
            | _ =>
                rw [hh] at hi
                cases hi
        · exact (hF.answered r x hx).mono hreq hnot (hkept r)
  · intro r task' hg' hres'
    by_cases hr : runId = r
    · subst hr
      obtain ⟨task, hg₁, -, hin⟩ := hmine
      obtain rfl := Option.some.inj (hg₁.symm.trans hg')
      rw [hin, hres] at hres'
      obtain ⟨i, hi⟩ := Option.isSome_iff_exists.mp hres'
      rw [hans]
      simp only [hi]
      exact ⟨_, Dict.get?_set_self _ _ _⟩
    · rw [heq, World.launch, Dict.get?_set_ne _ _ hr] at hg'
      obtain ⟨x, hx⟩ := hF.resumed r task' hg' hres'
      rw [hans]
      cases hi : req.handler.resumes? with
      | none => exact ⟨x, hx⟩
      | some i => exact ⟨x, by simp only [Dict.get?_set_ne _ _ hr, hx]⟩

/-- One step keeps the frames. -/
theorem FrameInv.step {act : AppAct} (hF : a.FrameInv) (hI : a.world.SlotInv)
    (h : AppStep rt a act a') :
    a'.FrameInv := by
  cases h with
  | outside hw hreq hans => exact hF.of_same (.of_eq (by rw [hw])) (by rw [hw]) hreq hans
  | process hw hact hstarting hreq hans =>
      exact hF.of_same (.of_step hw hact) hstarting hreq hans
  | @move id req hopen hrun hnotes hw hreq hans =>
      have hruns : a.world.SameRuns a'.world := by
        rcases hw with hw | ⟨act, hw, hact, -⟩
        · exact .of_eq (by rw [hw])
        · exact .of_step hw hact
      have hstarting : a'.world.starting = a.world.starting := by
        rcases hw with hw | ⟨act, -, -, hs⟩
        · rw [hw]
        · exact hs
      refine hF.of_runs hruns ?_ hreq hans ?_ ?_ hnotes
      · intro req₀ hg
        exact ((isOpen_iff _).mp (hopen req₀ hg)).1
      · intro id' req' r _ _ _
        exact ⟨by rw [hstarting], by rw [hrun]; exact Option.some_ne_none r |>.symm⟩
      · intro r hr
        rw [hrun] at hr
        cases hr
  | @reserve id req₀ req act' runId s hg hopen hrun hnotes hfresh hw hact hstarting hthread hres
      hcfg _ _ hreq hans =>
      refine hF.of_runs (.of_step hw hact) ?_ hreq hans ?_ ?_ hnotes
      · intro req₁ hg₁
        rw [← Option.some.inj (hg.symm.trans hg₁)]
        exact ((isOpen_iff _).mp hopen).1
      · intro id' req' r _ hg' hr'
        obtain ⟨s', hs', -⟩ := hF.waits id' req' r hg' hr'
        -- the ids of the suspended starts have been drawn
        have hne : runId ≠ r := by
          rintro rfl
          exact hfresh (hI.starting_fresh hs').1
        refine ⟨by rw [hstarting, Dict.get?_set_ne _ _ hne], ?_⟩
        rw [hrun]
        exact fun heq => hne (Option.some.inj heq)
      · intro r hr
        obtain rfl := Option.some.inj (hrun.symm.trans hr)
        exact ⟨s, by rw [hstarting, Dict.get?_set_self], hthread, hres, hcfg⟩
  | @fail id req runId outcome exc response hg hrun hw hreq hans =>
      obtain ⟨s, hs, hstarting, htasks, -⟩ := World.resolved_failed hw
      refine hF.of_runs (.of_eq htasks) ?_ hreq hans ?_ ?_ (notesInterrupt_none rfl)
      · intro req₁ hg₁
        rw [← Option.some.inj (hg.symm.trans hg₁)]
        exact Handler.isAnswered_of_runId? hrun
      · intro id' req' r hid hg' hr'
        refine ⟨?_, by rintro ⟨⟩⟩
        rw [hstarting, Dict.get?_erase_ne]
        rintro rfl
        exact hid (hF.unique id id' req req' runId hg hg' hrun hr')
      · rintro r ⟨⟩
  | launch hg hrun hw hreq hans => exact hF.launch hI hg hrun hw hreq hans

theorem frameInv_of_reachable {ok : App → AppAct → Prop}
    (h : (appSys rt n).ReachableVia ok a) : a.FrameInv := by
  refine h.induct ?_ ?_
  · rintro a ⟨hw, hreq, hans⟩
    refine ⟨?_, ?_, ?_, ?_, ?_⟩
    · intro id req r hg
      rw [hreq] at hg
      cases hg
    · intro id id' req req' r hg
      rw [hreq] at hg
      cases hg
    · intro id req i hg
      rw [hreq] at hg
      cases hg
    · intro r x hx
      rw [hans] at hx
      cases hx
    · intro r task hg
      rw [hw] at hg
      cases hg
  · intro a act a' hreach ih _ hstep
    exact ih.step (World.slotInv_of_reachable (world_reachable hreach)) (appStep_of_step hstep)

end App

end AgentProtocol

import AgentProtocol.Router.Rows

/-!
# Where the runs come from

A start under way was asked for by a `run.start` or an `input.respond`
(`ServiceStep.starting_origin`), and a run was created from a start under way
(`ServiceStep.task_origin`), with the assistant, the input and the config of that start.
-/

namespace AgentProtocol

/-- The same run, at another point of its execution. -/
structure Task.SameRun (task task' : Task) : Prop where
  threadId : task'.threadId = task.threadId
  assistantId : task'.assistantId = task.assistantId
  input : task'.input = task.input
  config : task'.config = task.config

theorem Task.SameRun.refl (task : Task) : task.SameRun task := ⟨rfl, rfl, rfl, rfl⟩

/-- The run that this start creates. -/
structure Starting.Creates (s : Starting) (task : Task) : Prop where
  threadId : task.threadId = s.threadId
  assistantId : task.assistantId = s.assistantId
  input : task.input = s.input
  config : runConfig s.threadId s.config s.metadata = .ok task.config

/-- `run.start` needs an assistant, and stamps the config it hands over. -/
theorem startArgs_inv {record : ThreadRecord} {params : Json} {args : StartArgs}
    (h : startArgs record params = .ok (some args)) :
    args.assistantId.truthy = true ∧
      ∃ config configurable : Dict String Json, args.config = config.set "configurable"
        (.obj (configurable.set "session_metadata" (.obj record.metadata.entries)).entries) := by
  unfold startArgs at h
  obtain ⟨assistantId, -, h⟩ := Except.bind_ok h
  split at h
  · cases h
  · next htruthy =>
    rw [Bool.not_eq_true', Bool.not_eq_false] at htruthy
    obtain ⟨field, -, h⟩ := Except.bind_ok h
    obtain ⟨config, -, h⟩ := Except.bind_ok h
    obtain ⟨configurable, -, h⟩ := Except.bind_ok h
    obtain ⟨input, -, h⟩ := Except.bind_ok h
    obtain ⟨metadata, -, h⟩ := Except.bind_ok h
    obtain rfl := Option.some.inj (Except.ok.inj h)
    exact ⟨htruthy, config, configurable, rfl⟩

/-- The starts that the handlers of a state can ask for. -/
inductive App.Asks (a : App) : Starting → Prop
  | start {id : Nat} {t : String} {i : Option String} {record : ThreadRecord} {params : Json}
      {args : StartArgs} {assistantId : String} :
      a.requests.get? id = some ⟨t, i, .body record⟩ →
      startArgs record params = .ok (some args) → args.assistantId = .str assistantId →
      a.Asks { threadId := t, assistantId, input := .input args.input, config := some args.config,
               metadata := args.metadata }
  | resume {t interruptId assistantId : String} {response : Json} :
      a.world.ResumesAs t interruptId (a.store.assistant t) (.str assistantId) →
      a.Asks { threadId := t, assistantId, input := .resume response, config := none,
               metadata := .null }

namespace World

variable {rt : Runtime} {w w' : World} {r : String}

theorem same_run_of_set {r₀ : String} {task₀ task₁ task' : Task} (hg : w'.tasks.get? r = some task')
    (htasks : w'.tasks = w.tasks.set r₀ task₁) (hg₀ : w.tasks.get? r₀ = some task₀)
    (hsame : task₀.SameRun task₁) : ∃ task, w.tasks.get? r = some task ∧ task.SameRun task' := by
  rw [htasks, Dict.get?_set] at hg
  split at hg
  · next hr =>
    obtain rfl := Option.some.inj hg
    exact ⟨task₀, hr ▸ hg₀, hsame⟩
  · exact ⟨task', hg, .refl _⟩

/-- No step but the end of a resolution creates a run. -/
theorem same_run_of_step {act : Act} {task' : Task} (h : w.step rt act = some w')
    (hact : act.isResolved = false) (hg : w'.tasks.get? r = some task') :
    ∃ task, w.tasks.get? r = some task ∧ task.SameRun task' := by
  cases worldStep_of_step h with
  | launch => cases hact
  | cancel _ _ hg₀ _ => exact same_run_of_set hg rfl hg₀ ⟨rfl, rfl, rfl, rfl⟩
  | skip hg₀ _ _ => exact same_run_of_set hg rfl hg₀ ⟨rfl, rfl, rfl, rfl⟩
  | begin hg₀ _ _ => exact same_run_of_set hg rfl hg₀ ⟨rfl, rfl, rfl, rfl⟩
  | resume hg₀ _ => exact same_run_of_set hg rfl hg₀ ⟨rfl, rfl, rfl, rfl⟩
  | callback hg₀ _ => exact same_run_of_set hg rfl hg₀ ⟨rfl, rfl, rfl, rfl⟩
  | _ => exact ⟨task', hg, .refl _⟩

/-- The end of a resolution may create one. -/
theorem created_of_resolved {r₀ : String} {outcome : Resolution} {res : Option RunExc} {task' : Task}
    (h : w.resolved r₀ outcome = some (w', res)) (hg : w'.tasks.get? r = some task') :
    w.tasks.get? r = some task' ∨ ∃ s, w.starting.get? r = some s ∧ s.Creates task' := by
  cases res with
  | some exc =>
      obtain ⟨s, -, -, htasks, -⟩ := resolved_failed h
      exact .inl (htasks ▸ hg)
  | none =>
      obtain ⟨s, graph, config, hs, -, hcfg, rfl⟩ := resolved_launched h
      simp only [launch, Dict.get?_set] at hg
      split at hg
      · next hr =>
        obtain rfl := Option.some.inj hg
        exact .inr ⟨s, hr ▸ hs, rfl, rfl, rfl, hcfg⟩
      · exact .inl hg

theorem starting_of_resolved {r₀ : String} {outcome : Resolution} {res : Option RunExc}
    {s : Starting} (h : w.resolved r₀ outcome = some (w', res))
    (hs : w'.starting.get? r = some s) : w.starting.get? r = some s := by
  cases res with
  | some exc =>
      obtain ⟨s₀, -, hstarting, -⟩ := resolved_failed h
      exact starting_of_erase (hstarting ▸ hs)
  | none =>
      obtain ⟨s₀, graph, config, -, -, -, rfl⟩ := resolved_launched h
      exact starting_of_erase hs

/-- A cancel leaves the starts under way. -/
theorem starting_dispatchCancel (rt : Runtime) (w : World) (t : String) (run : Json) :
    (dispatchCancel w t run).starting = w.starting := by
  rcases dispatchCancel_cases rt w t run with hsame | ⟨i, hstep⟩
  · rw [hsame]
  · exact starting_of_internal hstep (.inr ⟨t, i, rfl⟩)

theorem starting_of_hold {runId : String} {s s' : Starting}
    (h : (w.hold runId s').starting.get? r = some s) : w.starting.get? r = some s ∨ s = s' := by
  simp only [hold, Dict.get?_set] at h
  split at h
  · exact .inr (Option.some.inj h).symm
  · exact .inl h

end World

namespace ServiceStep

variable {rt : Runtime} {a a' : App} {act : AppAct} {r : String}

/-- A start under way was under way before, or a handler has asked for it. -/
theorem starting_origin {s : Starting} (h : ServiceStep rt a act a')
    (hs : a'.world.starting.get? r = some s) : a.world.starting.get? r = some s ∨ a.Asks s := by
  cases h with
  | handler _ hg hreq =>
      cases hreq with
      | cancel =>
          rw [App.put, World.starting_dispatchCancel rt] at hs
          exact .inl hs
      | start hargs hstr _ _ _ =>
          refine (World.starting_of_hold hs).imp_right ?_
          rintro rfl
          exact .start hg hargs hstr
      | resume _ hv _ _ _ =>
          refine (World.starting_of_hold hs).imp_right ?_
          rintro rfl
          exact .resume hv
      | fail _ hw _ => exact .inl (World.starting_of_resolved hw hs)
      | _ => exact .inl hs
  | start _ hw =>
      rw [App.bind_world] at hs
      exact .inl (World.starting_of_resolved hw hs)
  | resume _ hw => exact .inl (World.starting_of_resolved hw hs)
  | @cancelRun t runId =>
      have hcancel : a.world.step rt (.cancel t (some runId)) = some _ := rfl
      have hsame := World.starting_of_internal hcancel (.inr ⟨t, some runId, rfl⟩)
      exact .inl (hsame ▸ hs)
  | internal hact hw => exact .inl (World.starting_of_internal hw (.inl hact) ▸ hs)
  | _ => exact .inl hs

/-- A step of another request, or of none, leaves a request where it is. -/
theorem request_kept {id : Nat} (h : ServiceStep rt a act a') (hne : act.requestId? ≠ some id) :
    a'.requests.get? id = a.requests.get? id := by
  have hset : ∀ {id₀ req₀}, act.requestId? = some id₀ →
      (a.requests.set id₀ req₀).get? id = a.requests.get? id := by
    intro id₀ req₀ hid
    refine Dict.get?_set_ne _ _ ?_
    rintro rfl
    exact hne hid
  cases h with
  | notFound => exact hset rfl
  | accept => exact hset rfl
  | handler hid => exact hset hid
  | start =>
      rw [App.bind_requests]
      exact hset rfl
  | resume => exact hset rfl
  | _ => rfl

/-- A start whose id was drawn before was under way before. -/
theorem starting_before {s : Starting} (h : ServiceStep rt a act a') (hr : r ∈ a.world.drawn)
    (hs : a'.world.starting.get? r = some s) : a.world.starting.get? r = some s := by
  rcases (App.appStep_of_serviceStep h).world with hsame | ⟨act', hw⟩
  · exact hsame ▸ hs
  · exact World.starting_before (World.worldStep_of_step hw) hr hs

/-- A handler that waits for a run waited for it before, or has just reserved the slot,
for the assistant it will bind. -/
theorem waiting_origin {id : Nat} {req : Request} (h : ServiceStep rt a act a')
    (hg : a'.requests.get? id = some req) (hrun : req.handler.runId? = some r) :
    a.requests.get? id = some req ∨
      ∃ s, a'.world.starting.get? r = some s ∧
        ∀ cmdId v, req.handler = .runStart cmdId r v → v = .str s.assistantId := by
  have hset : ∀ {id₀ req₀}, (a.requests.set id₀ req₀).get? id = some req →
      a.requests.get? id = some req ∨ req₀ = req := by
    intro id₀ req₀ hg
    rw [Dict.get?_set] at hg
    split at hg
    · exact .inr (Option.some.inj hg)
    · exact .inl hg
  have hidle : ∀ {id₀ req₀}, (a.requests.set id₀ req₀).get? id = some req →
      req₀.handler.runId? = none → a.requests.get? id = some req := by
    intro id₀ req₀ hg hnone
    rcases hset hg with hold | rfl
    · exact hold
    · rw [hnone] at hrun
      cases hrun
  cases h with
  | notFound => exact .inl (hidle hg rfl)
  | accept => exact .inl (hidle hg rfl)
  | handler _ _ hreq =>
      cases hreq with
      | quiet _ _ hpassive _ => exact .inl (hidle hg (Handler.runId?_of_passive hpassive))
      | cancel => exact .inl (hidle hg rfl)
      | refuse _ _ hans => exact .inl (hidle hg (by rw [hans]; rfl))
      | start _ hstr =>
          refine (hset hg).imp_right ?_
          rintro rfl
          obtain rfl := Option.some.inj hrun
          refine ⟨_, Dict.get?_set_self _ _ _, ?_⟩
          rintro cmdId v ⟨⟩
          exact hstr
      | resume =>
          refine (hset hg).imp_right ?_
          rintro rfl
          obtain rfl := Option.some.inj hrun
          refine ⟨_, Dict.get?_set_self _ _ _, ?_⟩
          rintro cmdId v ⟨⟩
      | fail => exact .inl (hidle hg rfl)
  | start =>
      rw [App.bind_requests] at hg
      exact .inl (hidle hg rfl)
  | resume => exact .inl (hidle hg rfl)
  | _ => exact .inl hg

/-- A run was there before, or a start under way has created it. -/
theorem task_origin {task' : Task} (h : ServiceStep rt a act a')
    (hg : a'.world.tasks.get? r = some task') :
    (∃ task, a.world.tasks.get? r = some task ∧ task.SameRun task') ∨
      ∃ s, a.world.starting.get? r = some s ∧ s.Creates task' := by
  have hold : a.world.tasks.get? r = some task' →
      (∃ task, a.world.tasks.get? r = some task ∧ task.SameRun task') ∨
        ∃ s, a.world.starting.get? r = some s ∧ s.Creates task' :=
    fun hg => .inl ⟨task', hg, .refl _⟩
  have hresolved : ∀ {r₀ outcome res w'}, a.world.resolved r₀ outcome = some (w', res) →
      w'.tasks.get? r = some task' →
      (∃ task, a.world.tasks.get? r = some task ∧ task.SameRun task') ∨
        ∃ s, a.world.starting.get? r = some s ∧ s.Creates task' :=
    fun hw hg => (World.created_of_resolved hw hg).elim hold .inr
  cases h with
  | handler _ _ hreq =>
      cases hreq with
      | @cancel _ t _ _ _ run =>
          rcases dispatchCancel_cases rt a.world t run with hsame | ⟨i, hstep⟩
          · exact hold (by rw [← hsame]; exact hg)
          · exact .inl (World.same_run_of_step hstep rfl hg)
      | fail _ hw _ => exact hresolved hw hg
      | _ => exact hold hg
  | start _ hw =>
      rw [App.bind_world] at hg
      exact hresolved hw hg
  | resume _ hw => exact hresolved hw hg
  | @cancelRun t runId =>
      have hcancel : a.world.step rt (.cancel t (some runId)) = some _ := rfl
      exact .inl (World.same_run_of_step hcancel rfl hg)
  | @internal act w' hact hw =>
      exact .inl (World.same_run_of_step hw (Act.isResolved_of_internal hact) hg)
  | _ => exact hold hg

end ServiceStep

end AgentProtocol

import AgentProtocol.Runner.Manager

/-!
# What a step of the process can do

`WorldStep` lists the effects an action can have on the process, each as an update
of the world it left; `worldStep_of_step` says that there are no others. Every
invariant of the manager is a case analysis on it. What becomes of a call of `start`
up to its first await is a `StartStep`.
-/

namespace AgentProtocol

/-- Nothing on the thread keeps `start` from reserving its slot. -/
def World.Free (w : World) (t : String) : Prop :=
  ∀ a, w.active.get? t = some a → w.busy a = false

/-- The config a starting call carries. -/
def Act.config : Act → Option (Dict String Json)
  | .start _ _ _ config _ _ => config
  | _ => none

/-- The metadata a starting call carries. -/
def Act.metadata : Act → Json
  | .start _ _ _ _ metadata _ => metadata
  | _ => .null

/-- The action is a call of `start` or `respond` on thread `t` with this run id. -/
def Act.Starts (t runId : String) : Act → Prop
  | .start t' _ _ _ _ r => t' = t ∧ r = runId
  | .respond t' _ _ _ r => t' = t ∧ r = runId
  | _ => False

inductive WorldStep (rt : Runtime) (w : World) : Act → World → Prop
  /-- a call that is refused, or finds nothing to do -/
  | rejected {a} : WorldStep rt w a w
  | register {assistantId factories} :
      WorldStep rt w (.register assistantId) { w with factories }
  | stream {t act h} : act.isPublish = false → (w.hub t).step act = some h →
      WorldStep rt w (.stream t act) { w with hubs := w.hubs.set t h }
  /-- reserved, and released again: there is no factory -/
  | refuse {a t runId reserved} : w.Free t → runId ∉ w.drawn → a.Starts t runId →
      reserved.threadId = t → reserved.runId = runId → reserved.task = none →
      WorldStep rt w a { w with
        active := popIf (w.active.set t reserved) t runId none
        drawn := runId :: w.drawn }
  | reserve {a t runId} {s : Starting} : w.Free t → runId ∉ w.drawn → a.Starts t runId →
      s.threadId = t → s.config = a.config → s.metadata = a.metadata →
      WorldStep rt w a { w with
        active := w.active.set t
          { runId, threadId := t, assistantId := .str s.assistantId, task := none }
        drawn := runId :: w.drawn
        starting := w.starting.set runId s }
  /-- the resolution raised an `Exception` -/
  | release {runId exc hexc s} : w.starting.get? runId = some s →
      WorldStep rt w (.resolved runId (.raised exc hexc)) { w with
        starting := w.starting.erase runId
        active := popIf w.active s.threadId runId none }
  /-- the resolution ended in a `CancelledError`, or the merge raised -/
  | abandon {runId outcome s} : w.starting.get? runId = some s →
      (outcome = .cancelled ∨ ∃ graph exc, outcome = .graph graph ∧
        runConfig s.threadId s.config s.metadata = .error exc) →
      WorldStep rt w (.resolved runId outcome) { w with starting := w.starting.erase runId }
  | launch {runId graph s config} : w.starting.get? runId = some s →
      runConfig s.threadId s.config s.metadata = .ok config →
      WorldStep rt w (.resolved runId (.graph graph)) (w.launch runId s graph config)
  | cancel {t runId id a task} : w.active.get? t = some a → a.task = some id →
      w.tasks.get? id = some task → task.phase.isDone = false →
      WorldStep rt w (.cancel t runId)
        { w with tasks := w.tasks.set id { task with cancelRequested := true } }
  /-- the first step of a task that was cancelled before it -/
  | skip {id task} : w.tasks.get? id = some task → task.phase = .created →
      task.cancelRequested = true →
      WorldStep rt w (.begin id) { w with tasks := w.tasks.set id { task with phase := .done } }
  | begin {id task} : w.tasks.get? id = some task → task.phase = .created →
      task.cancelRequested = false →
      WorldStep rt w (.begin id) (w.perform rt id task (onStart task.assistantId))
  | resume {id task awaited s} : w.tasks.get? id = some task →
      resume rt task.assistantId task.graph task.phase awaited = some s →
      WorldStep rt w (.resume id awaited)
        (w.perform rt id { task with fed := task.fed ++ [awaited] } s)
  | callback {id task} : w.tasks.get? id = some task → task.phase.isDone = true →
      WorldStep rt w (.callback id) { w with
        tasks := w.tasks.set id { task with cleared := true }
        active := popIf w.active task.threadId id (some id) }

theorem findFactory_ok {factories : List String} {v : Value} {a : String}
    (h : findFactory factories v = .ok a) : v = .str a := by
  unfold findFactory at h
  split at h
  · split at h
    · rw [Except.ok.inj h]
    · cases h
  all_goals cases h

namespace World

variable {rt : Runtime} {w w' : World}

/-- `start` refuses a busy thread and reserves a free one. -/
theorem start_cases (w : World) (t : String) (v : Value) (input : GraphInput)
    (config : Option (Dict String Json)) (metadata : Json) (runId : String) :
    (∃ a, w.active.get? t = some a ∧ w.busy a = true ∧
      w.start t v input config metadata runId = (w, some (.runActive t a.runId))) ∨
    (w.Free t ∧ w.start t v input config metadata runId =
      w.reserve t v input config metadata runId) := by
  unfold start Free
  cases hget : w.active.get? t with
  | none => exact .inr ⟨fun a ha => (by cases ha), rfl⟩
  | some a =>
      cases hb : w.busy a with
      | true => exact .inl ⟨a, rfl, hb, by simp only [hb, if_true]⟩
      | false =>
          refine .inr ⟨?_, by simp only [hb, Bool.false_eq_true, if_false]⟩
          intro a' ha'
          rwa [← Option.some.inj ha']

/-- The step of a call of `start`. -/
theorem worldStep_of_start {a : Act} {t : String} {v : Value} {input : GraphInput}
    {config : Option (Dict String Json)} {metadata : Json} {runId : String}
    (hfresh : runId ∉ w.drawn) (hstarts : a.Starts t runId) (hconfig : config = a.config)
    (hmetadata : metadata = a.metadata) :
    WorldStep rt w a (w.start t v input config metadata runId).1 := by
  rcases w.start_cases t v input config metadata runId with ⟨b, -, -, heq⟩ | ⟨hfree, heq⟩
  · rw [heq]
    exact .rejected
  · rw [heq, reserve]
    cases hf : findFactory w.factories v with
    | error exc => exact .refuse hfree hfresh hstarts rfl rfl rfl
    | ok assistantId =>
        obtain rfl := findFactory_ok hf
        exact .reserve (s := { threadId := t, assistantId, input, config, metadata }) hfree hfresh
          hstarts rfl hconfig hmetadata

/-- Every step is one of the listed ones. -/
theorem worldStep_of_step {a : Act} (h : w.step rt a = some w') : WorldStep rt w a w' := by
  cases a with
  | register assistantId =>
      obtain rfl := Option.some.inj h
      exact .register
  | start t v input config metadata runId =>
      simp only [step] at h
      split at h
      · cases h
      · next hfresh =>
        obtain rfl := Option.some.inj h
        exact worldStep_of_start hfresh ⟨rfl, rfl⟩ rfl rfl
  | respond t interruptId response assistantId runId =>
      simp only [step] at h
      split at h
      · cases h
      · next hfresh =>
        obtain rfl := Option.some.inj h
        unfold respond
        split
        · split
          · exact worldStep_of_start hfresh ⟨rfl, rfl⟩ rfl rfl
          · exact .rejected
        · split
          · exact worldStep_of_start hfresh ⟨rfl, rfl⟩ rfl rfl
          · exact .rejected
  | resolved runId outcome =>
      simp only [step, resolved] at h
      split at h
      · cases h
      · next s hs =>
        cases outcome with
        | raised exc _ =>
            obtain rfl := Option.some.inj h
            exact .release hs
        | cancelled =>
            obtain rfl := Option.some.inj h
            exact .abandon hs (.inl rfl)
        | graph graph =>
            simp only at h
            split at h
            · next exc hcfg =>
              obtain rfl := Option.some.inj h
              exact .abandon hs (.inr ⟨graph, exc, rfl, hcfg⟩)
            · next config hcfg =>
              obtain rfl := Option.some.inj h
              exact .launch hs hcfg
  | cancel t runId =>
      obtain rfl := Option.some.inj h
      unfold cancel
      split
      · exact .rejected
      · next a ha =>
        split
        · exact .rejected
        · next id hid =>
          split
          · split
            · next task htask =>
              split
              · exact .rejected
              · next hnd => exact .cancel ha hid htask (Bool.eq_false_iff.mpr hnd)
            · exact .rejected
          · exact .rejected
  | begin id =>
      simp only [step, begin] at h
      split at h
      · cases h
      · next task htask =>
        split at h
        · next hphase =>
          split at h
          · next hc =>
            obtain rfl := Option.some.inj h
            exact .skip htask hphase hc
          · next hc =>
            obtain rfl := Option.some.inj h
            exact .begin htask hphase (Bool.eq_false_iff.mpr hc)
        · cases h
  | resume id awaited =>
      simp only [step, resumeTask] at h
      split at h
      · cases h
      · next task htask =>
        obtain ⟨s, hs, rfl⟩ := Option.map_eq_some_iff.mp h
        exact .resume htask hs
  | callback id =>
      simp only [step, callback] at h
      split at h
      · cases h
      · next task htask =>
        split at h
        · next hdone =>
          obtain rfl := Option.some.inj h
          exact .callback htask hdone.1
        · cases h
  | stream t act =>
      simp only [step] at h
      split at h
      · cases h
      · next hp =>
        obtain ⟨hub, hhub, rfl⟩ := Option.map_eq_some_iff.mp h
        exact .stream (Bool.eq_false_iff.mpr hp) hhub

end World

namespace World

/-- What a later step of a task comes from. -/
theorem resume_inv {rt : Runtime} {w w' : World} {id : String} {awaited : Awaited}
    (h : w.step rt (.resume id awaited) = some w') :
    ∃ task s, w.tasks.get? id = some task ∧
      resume rt task.assistantId task.graph task.phase awaited = some s ∧
      w' = w.perform rt id { task with fed := task.fed ++ [awaited] } s := by
  simp only [step, resumeTask] at h
  split at h
  · cases h
  · next task htask =>
    obtain ⟨s, hs, rfl⟩ := Option.map_eq_some_iff.mp h
    exact ⟨task, s, htask, hs, rfl⟩

end World

/-! ## The conditional pop -/

theorem get?_popIf_ne (active : Dict String ActiveRun) {t t' : String} (runId : String)
    (task : Option String) (h : t ≠ t') : (popIf active t runId task).get? t' = active.get? t' := by
  unfold popIf
  split
  · split
    · exact Dict.get?_erase_ne _ h
    · rfl
  · rfl

/-- An entry that is another one stays. -/
theorem get?_popIf_of_other {active : Dict String ActiveRun} {t runId : String}
    {task : Option String} {a : ActiveRun} (h : active.get? t = some a)
    (hother : ¬(a.runId = runId ∧ a.task = task)) :
    (popIf active t runId task).get? t = some a := by
  unfold popIf
  rw [h]
  simp only [if_neg hother]
  exact h

/-- The entry itself is popped. -/
theorem get?_popIf_self {active : Dict String ActiveRun} {t : String} {a : ActiveRun}
    (h : active.get? t = some a) : (popIf active t a.runId a.task).get? t = none := by
  unfold popIf
  rw [h]
  simp only [and_self, if_true, Dict.get?_erase_self]

/-- A pop adds no entry. -/
theorem get?_of_get?_popIf {active : Dict String ActiveRun} {t runId t' : String}
    {task : Option String} {a : ActiveRun} (h : (popIf active t runId task).get? t' = some a) :
    active.get? t' = some a := by
  by_cases ht : t = t'
  · subst ht
    cases hget : active.get? t with
    | none =>
        unfold popIf at h
        rw [hget] at h
        simp only at h
        rw [hget] at h
        cases h
    | some b =>
        by_cases hb : b.runId = runId ∧ b.task = task
        · obtain ⟨rfl, rfl⟩ := hb
          rw [get?_popIf_self hget] at h
          cases h
        · rwa [get?_popIf_of_other hget hb] at h
  · rwa [get?_popIf_ne _ _ _ ht] at h

/-! ## Up to the first await of `start` -/

namespace World

variable {rt : Runtime} {w : World} {t runId : String} {v : Value} {input : GraphInput}
  {config : Option (Dict String Json)} {metadata : Json}

/-- The slot is reserved, and the graph of the run is being resolved. -/
def hold (w : World) (runId : String) (s : Starting) : World :=
  { w with
    active := w.active.set s.threadId
      { runId, threadId := s.threadId, assistantId := .str s.assistantId, task := none }
    drawn := runId :: w.drawn
    starting := w.starting.set runId s }

/-- The slot was reserved and is released again. -/
def turnAway (w : World) (t : String) (v : Value) (runId : String) : World :=
  { w with
    active :=
      popIf (w.active.set t { runId, threadId := t, assistantId := v, task := none }) t runId none
    drawn := runId :: w.drawn }

/-- What a call of `start` comes to. -/
inductive StartStep (w : World) (t : String) (v : Value) (input : GraphInput)
    (config : Option (Dict String Json)) (metadata : Json) (runId : String) :
    World × Option RunExc → Prop
  | busy {existing : ActiveRun} : w.active.get? t = some existing → w.busy existing = true →
      StartStep w t v input config metadata runId (w, some (.runActive t existing.runId))
  | unknown {exc : RunExc} : w.Free t → findFactory w.factories v = .error exc →
      StartStep w t v input config metadata runId (w.turnAway t v runId, some exc)
  | held {assistantId : String} : w.Free t → v = .str assistantId → assistantId ∈ w.factories →
      StartStep w t v input config metadata runId
        (w.hold runId { threadId := t, assistantId, input, config, metadata }, none)

theorem mem_of_findFactory {factories : List String} {a : String}
    (h : findFactory factories v = .ok a) : a ∈ factories := by
  obtain rfl := findFactory_ok h
  simp only [findFactory] at h
  split at h
  · next hmem => exact hmem
  · cases h

theorem startStep (w : World) (t : String) (v : Value) (input : GraphInput)
    (config : Option (Dict String Json)) (metadata : Json) (runId : String) :
    StartStep w t v input config metadata runId (w.start t v input config metadata runId) := by
  rcases w.start_cases t v input config metadata runId with ⟨b, hb, hbusy, heq⟩ | ⟨hfree, heq⟩
  · rw [heq]
    exact .busy hb hbusy
  · rw [heq, reserve]
    cases hf : findFactory w.factories v with
    | error exc => exact .unknown hfree hf
    | ok assistantId =>
        obtain rfl := findFactory_ok hf
        exact .held hfree rfl (mem_of_findFactory hf)

/-- The assistant `respond` starts for an interrupt. -/
def ResumesAs (w : World) (t i : String) (asst : Option String) (v : Value) : Prop :=
  (∃ pending, w.pendingInputs.get? t = some pending ∧ pending.contains i = true ∧
    v = resumeAssistant pending asst) ∨
  (w.pendingInputs.get? t = none ∧ ∃ a, strOr asst none = some a ∧ v = .str a)

/-- `respond` does not know the interrupt, or starts a run. -/
theorem respond_cases (w : World) (t i : String) (response : Json) (asst : Option String)
    (runId : String) :
    w.respond t i response asst runId = (w, some (.unknownInterrupt t i)) ∨
      ∃ v, w.ResumesAs t i asst v ∧
        w.respond t i response asst runId = w.start t v (.resume response) none .null runId := by
  unfold respond
  cases hp : w.pendingInputs.get? t with
  | some pending =>
      dsimp only
      split
      · next hc => exact .inr ⟨_, .inl ⟨pending, hp, hc, rfl⟩, rfl⟩
      · exact .inl rfl
  | none =>
      cases ha : strOr asst none with
      | some a => exact .inr ⟨_, .inr ⟨hp, a, ha, rfl⟩, rfl⟩
      | none => exact .inl rfl

end World

end AgentProtocol

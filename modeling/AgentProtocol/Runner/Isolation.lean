import AgentProtocol.Lib.Projection
import AgentProtocol.Runner.Slot

/-!
# The process as one thread sees it

`World.Agree B` relates two processes that are the same to thread `B`: its slot, its
pending map, its last assistant, its hub, and the starts and the runs on it. What the
manager does on `B` it does on both alike (the `_congr` lemmas), and what it does on
another thread leaves `B` what it was (the `_frame` lemmas).
-/

namespace AgentProtocol

/-- Two processes that are the same to thread `B`; in the first one as many run ids have
been drawn. -/
structure World.Agree (B : String) (w u : World) : Prop where
  replaySize : w.replaySize = u.replaySize
  factories : w.factories = u.factories
  active : w.active.get? B = u.active.get? B
  pendingInputs : w.pendingInputs.get? B = u.pendingInputs.get? B
  lastAssistant : w.lastAssistant.get? B = u.lastAssistant.get? B
  hubs : w.hubs.get? B = u.hubs.get? B
  starting : Dict.AgreeOn (fun s => s.threadId = B) w.starting u.starting
  tasks : Dict.AgreeOn (fun task => task.threadId = B) w.tasks u.tasks
  drawn : ∀ r ∈ u.drawn, r ∈ w.drawn

namespace World

variable {rt : Runtime} {B t r : String} {w w' u u' v : World}

theorem Agree.refl (B : String) (w : World) : w.Agree B w where
  replaySize := rfl
  factories := rfl
  active := rfl
  pendingInputs := rfl
  lastAssistant := rfl
  hubs := rfl
  starting := .refl _ _
  tasks := .refl _ _
  drawn _ hr := hr

theorem Agree.trans (h : w.Agree B u) (h' : u.Agree B v) : w.Agree B v where
  replaySize := h.replaySize.trans h'.replaySize
  factories := h.factories.trans h'.factories
  active := h.active.trans h'.active
  pendingInputs := h.pendingInputs.trans h'.pendingInputs
  lastAssistant := h.lastAssistant.trans h'.lastAssistant
  hubs := h.hubs.trans h'.hubs
  starting := h.starting.trans h'.starting
  tasks := h.tasks.trans h'.tasks
  drawn r hr := h.drawn r (h'.drawn r hr)

theorem Agree.hub (h : w.Agree B u) : w.hub B = u.hub B := by
  unfold World.hub
  rw [h.hubs, h.replaySize]

/-- The run in the slot of the thread is a run of both. -/
theorem Agree.task (h : w.Agree B u) (hI : w.SlotInv) {e : ActiveRun} {id : String}
    (he : w.active.get? B = some e) (hid : e.task = some id) :
    w.tasks.get? id = u.tasks.get? id := by
  obtain ⟨-, task, hg, ht⟩ := (hI.slot B e he).real id hid
  rw [hg]
  exact ((h.tasks id task ht).mp hg).symm

theorem Agree.busy (h : w.Agree B u) (hI : w.SlotInv) {e : ActiveRun}
    (he : w.active.get? B = some e) : w.busy e = u.busy e := by
  unfold World.busy
  cases hid : e.task with
  | none => rfl
  | some id =>
      dsimp only
      rw [h.task hI he hid]

/-! ## What is done on the thread -/

theorem get?_popIf_congr {active active' : Dict String ActiveRun} (runId : String)
    (task : Option String) (h : active.get? B = active'.get? B) :
    (popIf active B runId task).get? B = (popIf active' B runId task).get? B := by
  unfold popIf
  rw [← h]
  cases hg : active.get? B with
  | none => exact h
  | some a =>
      dsimp only
      split
      · rw [Dict.get?_erase_self, Dict.get?_erase_self]
      · exact h

theorem drawn_cons (h : ∀ r ∈ u.drawn, r ∈ w.drawn) (r : String) :
    ∀ r' ∈ r :: u.drawn, r' ∈ r :: w.drawn := by
  intro r' hr'
  rcases List.mem_cons.mp hr' with rfl | hr'
  · exact List.mem_cons_self
  · exact List.mem_cons_of_mem _ (h r' hr')

theorem Agree.reserve_congr (h : w.Agree B u) (assistantId : Value) (input : GraphInput)
    (config : Option (Dict String Json)) (metadata : Json) (r : String) :
    (w.reserve B assistantId input config metadata r).1.Agree B
        (u.reserve B assistantId input config metadata r).1 ∧
      (w.reserve B assistantId input config metadata r).2 =
        (u.reserve B assistantId input config metadata r).2 := by
  have hactive : ∀ e : ActiveRun, (w.active.set B e).get? B = (u.active.set B e).get? B := by
    intro e
    rw [Dict.get?_set_self, Dict.get?_set_self]
  have hfind : findFactory w.factories assistantId = findFactory u.factories assistantId := by
    rw [h.factories]
  unfold reserve
  dsimp only
  rw [hfind]
  cases findFactory u.factories assistantId with
  | error exc =>
      exact ⟨{ h with active := get?_popIf_congr r none (hactive _)
                      drawn := drawn_cons h.drawn r }, rfl⟩
  | ok assistantId =>
      exact ⟨{ h with active := hactive _
                      drawn := drawn_cons h.drawn r
                      starting := h.starting.set r _ }, rfl⟩

theorem Agree.start_congr (h : w.Agree B u) (hI : w.SlotInv) (assistantId : Value)
    (input : GraphInput) (config : Option (Dict String Json)) (metadata : Json) (r : String) :
    (w.start B assistantId input config metadata r).1.Agree B
        (u.start B assistantId input config metadata r).1 ∧
      (w.start B assistantId input config metadata r).2 =
        (u.start B assistantId input config metadata r).2 := by
  unfold start
  rw [← h.active]
  cases he : w.active.get? B with
  | none => exact h.reserve_congr _ _ _ _ _
  | some existing =>
      dsimp only
      rw [← h.busy hI he]
      cases w.busy existing with
      | true => exact ⟨h, rfl⟩
      | false => exact h.reserve_congr _ _ _ _ _

theorem Agree.respond_congr (h : w.Agree B u) (hI : w.SlotInv) (interruptId : String)
    (response : Json) (asst : Option String) (r : String) :
    (w.respond B interruptId response asst r).1.Agree B
        (u.respond B interruptId response asst r).1 ∧
      (w.respond B interruptId response asst r).2 = (u.respond B interruptId response asst r).2 := by
  unfold respond
  rw [← h.pendingInputs]
  cases w.pendingInputs.get? B with
  | none =>
      cases strOr asst none with
      | none => exact ⟨h, rfl⟩
      | some a => exact h.start_congr hI _ _ _ _ _
  | some pending =>
      dsimp only
      split
      · exact h.start_congr hI _ _ _ _ _
      · exact ⟨h, rfl⟩

theorem Agree.launch_congr (h : w.Agree B u) {s : Starting} (hs : s.threadId = B) (graph : Graph)
    (config : Dict String Json) (r : String) :
    (w.launch r s graph config).Agree B (u.launch r s graph config) := by
  subst hs
  exact
    { h with
      starting := h.starting.erase r
      pendingInputs := by
        show (w.pendingInputs.erase _).get? _ = (u.pendingInputs.erase _).get? _
        rw [Dict.get?_erase_self, Dict.get?_erase_self]
      lastAssistant := by
        show (w.lastAssistant.set _ _).get? _ = (u.lastAssistant.set _ _).get? _
        rw [Dict.get?_set_self, Dict.get?_set_self]
      active := by
        show (w.active.set _ _).get? _ = (u.active.set _ _).get? _
        rw [Dict.get?_set_self, Dict.get?_set_self]
      tasks := h.tasks.set r _ }

/-- The end of a resolution on the thread. -/
theorem Agree.resolved_congr (h : w.Agree B u) {s : Starting} (hg : w.starting.get? r = some s)
    (hs : s.threadId = B) (outcome : Resolution) {res : Option RunExc}
    (hw : w.resolved r outcome = some (w', res)) :
    ∃ u', u.resolved r outcome = some (u', res) ∧ w'.Agree B u' := by
  have hg' : u.starting.get? r = some s := (h.starting r s hs).mp hg
  simp only [resolved, hg] at hw
  simp only [resolved, hg']
  cases outcome with
  | raised exc =>
      obtain ⟨rfl, rfl⟩ := Prod.mk.inj (Option.some.inj hw)
      subst hs
      exact ⟨_, rfl, { h with starting := h.starting.erase r
                              active := get?_popIf_congr r none h.active }⟩
  | cancelled =>
      obtain ⟨rfl, rfl⟩ := Prod.mk.inj (Option.some.inj hw)
      exact ⟨_, rfl, { h with starting := h.starting.erase r }⟩
  | graph graph =>
      dsimp only at hw ⊢
      cases hcfg : runConfig s.threadId s.config s.metadata with
      | error exc =>
          rw [hcfg] at hw
          obtain ⟨rfl, rfl⟩ := Prod.mk.inj (Option.some.inj hw)
          exact ⟨_, rfl, { h with starting := h.starting.erase r }⟩
      | ok config =>
          rw [hcfg] at hw
          obtain ⟨rfl, rfl⟩ := Prod.mk.inj (Option.some.inj hw)
          exact ⟨_, rfl, h.launch_congr hs graph config r⟩

theorem Agree.cancel_congr (h : w.Agree B u) (hI : w.SlotInv) (runId : Option String) :
    (w.cancel B runId).1.Agree B (u.cancel B runId).1 := by
  unfold cancel
  rw [← h.active]
  cases he : w.active.get? B with
  | none => exact h
  | some e =>
      dsimp only
      cases hid : e.task with
      | none => exact h
      | some id =>
          dsimp only
          rw [← h.task hI he hid]
          split
          · cases w.tasks.get? id with
            | none => exact h
            | some task =>
                dsimp only
                split
                · exact h
                · exact { h with tasks := h.tasks.set id _ }
          · exact h

theorem Agree.perform_congr (h : w.Agree B u) {task : Task} (ht : task.threadId = B) (id : String)
    (s : TaskStep) : (w.perform rt id task s).Agree B (u.perform rt id task s) := by
  subst ht
  exact
    { h with
      tasks := h.tasks.set id _
      hubs := by
        show (w.hubs.set _ _).get? _ = (u.hubs.set _ _).get? _
        rw [Dict.get?_set_self, Dict.get?_set_self, h.hub]
      pendingInputs := by
        unfold perform
        dsimp only
        split
        · exact h.pendingInputs
        · rw [Dict.get?_set_self, Dict.get?_set_self] }

/-! ## What is done on another thread -/

theorem agreeOn_tasks {r : String} {task task' : Task} (hg : w.tasks.get? r = some task)
    (ht : task.threadId ≠ B) (hsame : task'.threadId = task.threadId) :
    Dict.AgreeOn (fun task => task.threadId = B) (w.tasks.set r task') w.tasks := by
  apply Dict.agreeOn_set_of_not (by rwa [hsame])
  intro task₀ hg₀
  rwa [← Option.some.inj (hg.symm.trans hg₀)]

theorem agreeOn_starting {r : String} {s : Starting} (hs : w.starting.get? r = some s)
    (ht : s.threadId ≠ B) :
    Dict.AgreeOn (fun s => s.threadId = B) (w.starting.erase r) w.starting := by
  apply Dict.agreeOn_erase_of_not
  intro s₀ hs₀
  rwa [← Option.some.inj (hs.symm.trans hs₀)]

/-- A free slot is taken on another thread. -/
theorem turnAway_frame (ht : t ≠ B) (v : Value) (r : String) : (w.turnAway t v r).Agree B w :=
  { Agree.refl B w with
    active := by
      show (popIf (w.active.set t _) t r none).get? B = _
      rw [get?_popIf_ne _ _ _ ht, Dict.get?_set_ne _ _ ht]
    drawn := fun _ hr => List.mem_cons_of_mem _ hr }

theorem hold_frame (hI : w.SlotInv) {s : Starting} (hfresh : r ∉ w.drawn)
    (ht : s.threadId ≠ B) : (w.hold r s).Agree B w :=
  { Agree.refl B w with
    active := Dict.get?_set_ne _ _ ht
    starting := by
      refine Dict.agreeOn_set_of_not ht ?_
      intro s₀ hs₀
      exact absurd (hI.starting_fresh hs₀).1 hfresh
    drawn := fun _ hr => List.mem_cons_of_mem _ hr }

theorem launch_frame (hI : w.SlotInv) {s : Starting} (hs : w.starting.get? r = some s)
    (ht : s.threadId ≠ B) (graph : Graph) (config : Dict String Json) :
    (w.launch r s graph config).Agree B w :=
  { Agree.refl B w with
    active := Dict.get?_set_ne _ _ ht
    pendingInputs := Dict.get?_erase_ne _ ht
    lastAssistant := Dict.get?_set_ne _ _ ht
    starting := agreeOn_starting hs ht
    tasks := by
      refine Dict.agreeOn_set_of_not ht ?_
      intro task hg
      rw [(hI.starting_fresh hs).2] at hg
      cases hg }

theorem perform_frame {id : String} {task task' : Task} (hg : w.tasks.get? id = some task)
    (ht : task.threadId ≠ B) (hsame : task'.threadId = task.threadId) (s : TaskStep) :
    (w.perform rt id task' s).Agree B w :=
  { Agree.refl B w with
    tasks := agreeOn_tasks hg ht hsame
    hubs := Dict.get?_set_ne _ _ (by rwa [hsame])
    pendingInputs := by
      unfold perform
      dsimp only
      split
      · rfl
      · exact Dict.get?_set_ne _ _ (by rwa [hsame]) }

/-! ## A step of the process -/

/-- The action is about thread `B`, or about every thread. -/
def concerns (B : String) (w : World) : Act → Bool
  | .register _ => true
  | .start t _ _ _ _ _ => t = B
  | .respond t _ _ _ _ => t = B
  | .resolved r _ => (w.starting.get? r).any fun s => s.threadId = B
  | .cancel t _ => t = B
  | .begin id => (w.tasks.get? id).any fun task => task.threadId = B
  | .resume id _ => (w.tasks.get? id).any fun task => task.threadId = B
  | .callback id => (w.tasks.get? id).any fun task => task.threadId = B
  | .stream t _ => t = B

theorem ne_of_starts {act : Act} (h : act.Starts t r) (hact : w.concerns B act = false) :
    t ≠ B := by
  cases act with
  | start =>
      obtain ⟨rfl, -⟩ := h
      exact of_decide_eq_false hact
  | respond =>
      obtain ⟨rfl, -⟩ := h
      exact of_decide_eq_false hact
  | _ => cases h

/-- A step that does not concern the thread leaves it as it was. -/
theorem step_frame {act : Act} (hI : w.SlotInv) (h : w.step rt act = some w')
    (hact : w.concerns B act = false) : w'.Agree B w := by
  have htask : ∀ {id task}, w.tasks.get? id = some task →
      ((w.tasks.get? id).any fun task => task.threadId = B) = false → task.threadId ≠ B := by
    intro id task hg hany
    simpa [hg] using hany
  have hstarting : ∀ {r s}, w.starting.get? r = some s →
      ((w.starting.get? r).any fun s => s.threadId = B) = false → s.threadId ≠ B := by
    intro r s hs hany
    simpa [hs] using hany
  cases worldStep_of_step h with
  | rejected => exact .refl B w
  | register => cases hact
  | stream =>
      exact { Agree.refl B w with hubs := Dict.get?_set_ne _ _ (of_decide_eq_false hact) }
  | @refuse _ t r reserved _ _ hstarts hthread hrun htask =>
      have ht : t ≠ B := ne_of_starts hstarts hact
      obtain ⟨_, _, v, _⟩ := reserved
      subst hthread hrun htask
      exact turnAway_frame ht v _
  | @reserve _ t r s _ hfresh hstarts ht =>
      subst ht
      exact hold_frame hI hfresh (ne_of_starts hstarts hact)
  | @release r _ _ s hs =>
      have ht : s.threadId ≠ B := hstarting hs hact
      exact { Agree.refl B w with starting := agreeOn_starting hs ht
                                  active := get?_popIf_ne _ _ _ ht }
  | abandon hs =>
      exact { Agree.refl B w with starting := agreeOn_starting hs (hstarting hs hact) }
  | launch hs => exact launch_frame hI hs (hstarting hs hact) _ _
  | @cancel t _ id e task he hid hg _ =>
      -- the task in the slot of a thread is on that thread
      obtain ⟨-, task₀, hg₀, ht₀⟩ := (hI.slot t e he).real id hid
      obtain rfl := Option.some.inj (hg₀.symm.trans hg)
      have ht : t ≠ B := of_decide_eq_false hact
      exact { Agree.refl B w with tasks := agreeOn_tasks hg (by rwa [ht₀]) rfl }
  | skip hg => exact { Agree.refl B w with tasks := agreeOn_tasks hg (htask hg hact) rfl }
  | begin hg => exact perform_frame hg (htask hg hact) rfl _
  | @resume id task awaited s hg _ =>
      have hfed : { task with fed := task.fed ++ [awaited] }.threadId = task.threadId := rfl
      exact perform_frame hg (htask hg hact) hfed s
  | callback hg =>
      have ht := htask hg hact
      exact { Agree.refl B w with tasks := agreeOn_tasks hg ht rfl
                                  active := get?_popIf_ne _ _ _ ht }

theorem Agree.begin_congr (h : w.Agree B u) {id : String} {task : Task}
    (hg : w.tasks.get? id = some task) (ht : task.threadId = B) (hw : w.begin rt id = some w') :
    ∃ u', u.begin rt id = some u' ∧ w'.Agree B u' := by
  have hg' : u.tasks.get? id = some task := (h.tasks id task ht).mp hg
  simp only [begin, hg] at hw
  simp only [begin, hg']
  split at hw
  · split at hw
    · next hc =>
      obtain rfl := Option.some.inj hw
      refine ⟨_, if_pos hc, ?_⟩
      exact { h with tasks := h.tasks.set id _ }
    · next hc =>
      obtain rfl := Option.some.inj hw
      exact ⟨_, if_neg hc, h.perform_congr ht id _⟩
  · cases hw

theorem Agree.resumeTask_congr (h : w.Agree B u) {id : String} {task : Task} {awaited : Awaited}
    (hg : w.tasks.get? id = some task) (ht : task.threadId = B)
    (hw : w.resumeTask rt id awaited = some w') :
    ∃ u', u.resumeTask rt id awaited = some u' ∧ w'.Agree B u' := by
  have hg' : u.tasks.get? id = some task := (h.tasks id task ht).mp hg
  simp only [resumeTask, hg] at hw
  simp only [resumeTask, hg']
  obtain ⟨s, hs, rfl⟩ := Option.map_eq_some_iff.mp hw
  rw [hs]
  have hfed : { task with fed := task.fed ++ [awaited] }.threadId = B := ht
  exact ⟨_, rfl, h.perform_congr hfed id s⟩

theorem Agree.callback_congr (h : w.Agree B u) {id : String} {task : Task}
    (hg : w.tasks.get? id = some task) (ht : task.threadId = B)
    (hw : w.callback id = some w') : ∃ u', u.callback id = some u' ∧ w'.Agree B u' := by
  have hg' : u.tasks.get? id = some task := (h.tasks id task ht).mp hg
  simp only [callback, hg] at hw
  simp only [callback, hg']
  split at hw
  · next hc =>
    obtain rfl := Option.some.inj hw
    subst ht
    refine ⟨_, if_pos hc, ?_⟩
    exact { h with tasks := h.tasks.set id _
                   active := get?_popIf_congr id (some id) h.active }
  · cases hw

theorem Agree.stream_congr (h : w.Agree B u) {act : StreamAct Published}
    (hw : w.step rt (.stream B act) = some w') :
    ∃ u', u.step rt (.stream B act) = some u' ∧ w'.Agree B u' := by
  simp only [step, ← h.hub] at hw ⊢
  split at hw
  · cases hw
  · next hp =>
    obtain ⟨hub, hhub, rfl⟩ := Option.map_eq_some_iff.mp hw
    rw [if_neg hp, hhub]
    refine ⟨_, rfl, ?_⟩
    exact { h with hubs := by rw [Dict.get?_set_self, Dict.get?_set_self] }

/-- A step that concerns the thread does the same on both. -/
theorem Agree.step_congr {act : Act} (h : w.Agree B u) (hI : w.SlotInv)
    (hact : w.concerns B act = true) (hw : w.step rt act = some w') :
    ∃ u', u.step rt act = some u' ∧ w'.Agree B u' := by
  have htask : ∀ {id}, ((w.tasks.get? id).any fun task => task.threadId = B) = true →
      ∃ task, w.tasks.get? id = some task ∧ task.threadId = B := by
    intro id hany
    cases hg : w.tasks.get? id with
    | none =>
        rw [hg] at hany
        cases hany
    | some task =>
        rw [hg] at hany
        exact ⟨task, rfl, of_decide_eq_true hany⟩
  have hfresh : ∀ {r}, ¬r ∈ w.drawn → ¬r ∈ u.drawn := fun hr hr' => hr (h.drawn _ hr')
  cases act with
  | register assistantId =>
      obtain rfl := Option.some.inj hw
      refine ⟨_, rfl, { h with factories := ?_ }⟩
      unfold register
      rw [h.factories]
  | start t v input config metadata r =>
      obtain rfl : t = B := of_decide_eq_true hact
      simp only [step] at hw ⊢
      split at hw
      · cases hw
      · next hr =>
        obtain rfl := Option.some.inj hw
        rw [if_neg (hfresh hr)]
        exact ⟨_, rfl, (h.start_congr hI v _ config metadata r).1⟩
  | respond t i response asst r =>
      obtain rfl : t = B := of_decide_eq_true hact
      simp only [step] at hw ⊢
      split at hw
      · cases hw
      · next hr =>
        obtain rfl := Option.some.inj hw
        rw [if_neg (hfresh hr)]
        exact ⟨_, rfl, (h.respond_congr hI i response asst r).1⟩
  | resolved r outcome =>
      obtain ⟨⟨w₁, res⟩, hres, rfl⟩ := Option.map_eq_some_iff.mp hw
      cases hs : w.starting.get? r with
      | none =>
          simp only [resolved, hs] at hres
          cases hres
      | some s =>
          have ht : s.threadId = B := by
            simpa [concerns, hs] using hact
          obtain ⟨u', hu, h'⟩ := h.resolved_congr hs ht outcome hres
          refine ⟨u', ?_, h'⟩
          show (u.resolved r outcome).map Prod.fst = _
          rw [hu]
          rfl
  | cancel t r =>
      obtain rfl : t = B := of_decide_eq_true hact
      obtain rfl := Option.some.inj hw
      exact ⟨_, rfl, h.cancel_congr hI r⟩
  | begin id =>
      obtain ⟨task, hg, ht⟩ := htask hact
      exact h.begin_congr hg ht hw
  | resume id awaited =>
      obtain ⟨task, hg, ht⟩ := htask hact
      exact h.resumeTask_congr hg ht hw
  | callback id =>
      obtain ⟨task, hg, ht⟩ := htask hact
      exact h.callback_congr hg ht hw
  | stream t act =>
      obtain rfl : t = B := of_decide_eq_true hact
      exact h.stream_congr hw

end World

end AgentProtocol

import AgentProtocol.Router.Rows
import AgentProtocol.Runner.Isolation

/-!
# The service as one thread sees it

`App.Projection B a b` says that the service `b` is to thread `B` what `a` is, and has no
other requests. An action of `a` that concerns `B` does the same to `b` (`Projection.keep`),
and one that does not concern `B` leaves `b` what `a` is to `B` (`Projection.skip`).
-/

namespace AgentProtocol

/-! ## The handlers on the thread -/

namespace World

variable {rt : Runtime} {B r : String} {w w' u : World} {store store' : MemoryThreadStore}

theorem Agree.dispatchStart_congr (rt : Runtime) (h : w.Agree B u) (hI : w.SlotInv)
    (record : ThreadRecord) (id params : Json) (r : String) :
    (dispatchStart rt w B record id params r).1.Agree B
        (dispatchStart rt u B record id params r).1 ∧
      (dispatchStart rt w B record id params r).2 =
        (dispatchStart rt u B record id params r).2 := by
  unfold dispatchStart
  cases startArgs record params with
  | error exc => exact ⟨h, rfl⟩
  | ok args =>
      cases args with
      | none => exact ⟨h, rfl⟩
      | some args =>
          dsimp only
          have hstart := h.start_congr hI args.assistantId.toValue (.input args.input)
            (some args.config) args.metadata r
          generalize w.start B args.assistantId.toValue (.input args.input) (some args.config)
            args.metadata r = p at hstart ⊢
          generalize u.start B args.assistantId.toValue (.input args.input) (some args.config)
            args.metadata r = q at hstart ⊢
          obtain ⟨w₁, res⟩ := p
          obtain ⟨u₁, res'⟩ := q
          obtain ⟨hagree, hres⟩ := hstart
          dsimp only at hagree hres
          subst hres
          cases res with
          | none => exact ⟨hagree, rfl⟩
          | some exc => exact ⟨hagree, rfl⟩

theorem Agree.dispatchRespond_congr (rt : Runtime) (h : w.Agree B u) (hI : w.SlotInv)
    (hrow : store.get B = store'.get B) (id : Json) (interruptId : String) (response : Json)
    (ids : List String) (r : String) :
    (dispatchRespond rt w store B id interruptId response ids r).1.Agree B
        (dispatchRespond rt u store' B id interruptId response ids r).1 ∧
      (dispatchRespond rt w store B id interruptId response ids r).2 =
        (dispatchRespond rt u store' B id interruptId response ids r).2 := by
  have hasst : store.assistant B = store'.assistant B := by
    unfold MemoryThreadStore.assistant
    rw [hrow]
  unfold dispatchRespond
  rw [hasst]
  split
  · have hrespond := h.respond_congr hI interruptId response (store'.assistant B) r
    generalize w.respond B interruptId response (store'.assistant B) r = p at hrespond ⊢
    generalize u.respond B interruptId response (store'.assistant B) r = q at hrespond ⊢
    obtain ⟨w₁, res⟩ := p
    obtain ⟨u₁, res'⟩ := q
    obtain ⟨hagree, hres⟩ := hrespond
    dsimp only at hagree hres
    subst hres
    cases res with
    | none => exact ⟨hagree, rfl⟩
    | some exc => exact ⟨hagree, rfl⟩
  · exact ⟨h, rfl⟩

theorem Agree.dispatchCancel_congr (h : w.Agree B u) (hI : w.SlotInv) (run : Json) :
    (dispatchCancel w B run).Agree B (dispatchCancel u B run) := by
  cases run with
  | null => exact h.cancel_congr hI none
  | str runId => exact h.cancel_congr hI (some runId)
  | _ => exact h

theorem Agree.stateGraph_congr (h : w.Agree B u) (hrow : store.get B = store'.get B) (id : Json)
    (command : StateCommand) :
    stateGraph w store B id command = stateGraph u store' B id command := by
  unfold stateGraph MemoryThreadStore.assistant
  rw [hrow, h.factories]

theorem Agree.stateShown_congr (rt : Runtime) (h : w.Agree B u) (hI : w.SlotInv)
    (hrow : store.get B = store'.get B) (id : Json) (command : StateCommand) (snapshot : Snapshot)
    (ids : List String) (r : String) :
    (stateShown rt w store B id command snapshot ids r).1.Agree B
        (stateShown rt u store' B id command snapshot ids r).1 ∧
      (stateShown rt w store B id command snapshot ids r).2 =
        (stateShown rt u store' B id command snapshot ids r).2 := by
  unfold stateShown
  cases readThreadState rt snapshot (threadConfig B) with
  | error exc => exact ⟨h, rfl⟩
  | ok state =>
      cases command with
      | get => exact ⟨h, rfl⟩
      | respond interruptId response =>
          exact h.dispatchRespond_congr rt hI hrow id interruptId response ids r

end World

/-- Two turns that are the same to the thread. -/
structure Turn.Agree (B : String) (x y : Turn) : Prop where
  world : x.world.Agree B y.world
  handler : x.handler = y.handler
  interrupt : x.interrupt = y.interrupt

theorem World.Agree.dispatchCommand_congr (rt : Runtime) {B : String} {w u : World}
    {store store' : MemoryThreadStore} (h : w.Agree B u) (hI : w.SlotInv)
    (hrow : store.get B = store'.get B) (record : ThreadRecord) (body : Option Json)
    (r : String) :
    (dispatchCommand rt w store B record body r).Agree B
      (dispatchCommand rt u store' B record body r) := by
  unfold dispatchCommand
  cases body with
  | none => exact ⟨h, rfl, rfl⟩
  | some body =>
      cases body with
      | obj es =>
          dsimp only
          generalize ((Dict.ofList es).get? "method").getD Json.null = method
          generalize (((Dict.ofList es).get? "params").getD Json.null).or (.obj []) = params
          generalize ((Dict.ofList es).get? "id").getD Json.null = id
          split
          · obtain ⟨hagree, hhandler⟩ := h.dispatchStart_congr rt hI record id params r
            exact ⟨hagree, hhandler, rfl⟩
          · split
            · split
              · exact ⟨h, rfl, rfl⟩
              · rw [h.stateGraph_congr hrow]
                exact ⟨h, rfl, rfl⟩
            · exact ⟨h, rfl, rfl⟩
            · exact ⟨h, rfl, rfl⟩
          · split
            · exact ⟨h, rfl, rfl⟩
            · exact ⟨h.dispatchCancel_congr hI _, rfl, rfl⟩
          · rw [h.stateGraph_congr hrow]
            exact ⟨h, rfl, rfl⟩
          · exact ⟨h, rfl, rfl⟩
      | _ => exact ⟨h, rfl, rfl⟩

/-! ## The service -/

namespace App

/-- The request is one on the thread. -/
def isOn (a : App) (B : String) (id : Nat) : Bool :=
  (a.requests.get? id).any fun req => req.threadId = B

/-- The action is about thread `B`, or about every thread. A checkpoint is about the thread
whose saver it is written to, whichever run writes it. -/
def concerns (B : String) (a : App) : AppAct → Bool
  | .create t _ _ => t = B
  | .request _ t => t = B
  | .body id _ _ => a.isOn B id
  | .graph id _ => a.isOn B id
  | .read id => a.isOn B id
  | .state id _ _ => a.isOn B id
  | .started id _ _ => a.isOn B id
  | .cancelRun t _ => t = B
  | .checkpoint t _ => t = B
  | .world act => a.world.concerns B act

/-- Two services that are the same to thread `B`. -/
structure Agree (B : String) (a b : App) : Prop where
  world : a.world.Agree B b.world
  row : a.store.get B = b.store.get B
  saver : a.saver.get? B = b.saver.get? B
  requests : Dict.AgreeOn (fun req => req.threadId = B) a.requests b.requests

/-- The service `b` is to thread `B` what `a` is, and has no other requests. -/
structure Projection (B : String) (a b : App) : Prop extends Agree B a b where
  owned : ∀ id req, b.requests.get? id = some req → req.threadId = B

variable {rt : Runtime} {n : Nat} {B : String} {a a' b : App} {id : Nat} {act : AppAct}

theorem Agree.refl (B : String) (a : App) : a.Agree B a where
  world := .refl B a.world
  row := rfl
  saver := rfl
  requests := .refl _ _

theorem Agree.trans {c : App} (h : a.Agree B b) (h' : b.Agree B c) : a.Agree B c where
  world := h.world.trans h'.world
  row := h.row.trans h'.row
  saver := h.saver.trans h'.saver
  requests := h.requests.trans h'.requests

theorem of_isOn (h : a.isOn B id = true) :
    ∃ req, a.requests.get? id = some req ∧ req.threadId = B := by
  unfold isOn at h
  cases hg : a.requests.get? id with
  | none =>
      rw [hg] at h
      cases h
  | some req =>
      rw [hg] at h
      exact ⟨req, rfl, of_decide_eq_true h⟩

/-- No request of the thread is at `id` in either, where there is none in the first. -/
theorem Projection.get?_none (h : a.Projection B b) (hnone : a.requests.get? id = none) :
    b.requests.get? id = none := by
  cases hg : b.requests.get? id with
  | none => rfl
  | some req =>
      rw [(h.requests id req (h.owned id req hg)).mpr hg] at hnone
      cases hnone

/-- The request moves on in both. -/
theorem Projection.put (h : a.Projection B b) {w u : World} (hw : w.Agree B u) (id : Nat)
    {req : Request} (ht : req.threadId = B) : (a.put id req w).Projection B (b.put id req u) where
  world := hw
  row := h.row
  saver := h.saver
  requests := h.requests.set id req
  owned := by
    intro id' req' hg
    simp only [App.put, Dict.get?_set] at hg
    split at hg
    · rwa [← Option.some.inj hg]
    · exact h.owned id' req' hg

theorem Projection.bind (h : a.Projection B b) (v : Json) (now : String) :
    (a.bind B v now).Projection B (b.bind B v now) := by
  unfold App.bind
  cases v with
  | str s =>
      refine { h with row := ?_ }
      have hrow : a.store.threads.get? B = b.store.threads.get? B := h.row
      unfold MemoryThreadStore.setAssistant
      rw [← hrow]
      cases hg : a.store.threads.get? B with
      | none => exact h.row
      | some record =>
          show (a.store.threads.set B _).get? B = (b.store.threads.set B _).get? B
          rw [Dict.get?_set_self, Dict.get?_set_self]
  | _ => exact h

/-! ### What concerns the thread -/

/-- The handler of a request of the thread does the same in both. -/
theorem Projection.body_congr (h : a.Projection B b) (hI : a.world.SlotInv)
    {body : Option Json} {r : String} (hon : a.isOn B id = true)
    (hstep : a.step rt (.body id body r) = some a') :
    ∃ b', b.step rt (.body id body r) = some b' ∧ a'.Projection B b' := by
  obtain ⟨⟨t, i, handler⟩, hg, ht⟩ := of_isOn hon
  have hg' := (h.requests id _ ht).mp hg
  cases handler with
  | body record =>
      obtain rfl : t = B := ht
      simp only [step, hg] at hstep
      simp only [step, hg']
      split at hstep
      · cases hstep
      · next hr =>
        obtain rfl := Option.some.inj hstep
        rw [if_neg fun hr' => hr (h.world.drawn r hr')]
        obtain ⟨hagree, hhandler, hinterrupt⟩ :=
          h.world.dispatchCommand_congr rt hI h.row record body r
        rw [hhandler, hinterrupt]
        exact ⟨_, rfl, h.put hagree id rfl⟩
  | _ =>
      simp only [step, hg] at hstep
      cases hstep

theorem Projection.graph_congr (h : a.Projection B b) {outcome : Resolution}
    (hon : a.isOn B id = true) (hstep : a.step rt (.graph id outcome) = some a') :
    ∃ b', b.step rt (.graph id outcome) = some b' ∧ a'.Projection B b' := by
  obtain ⟨⟨t, i, handler⟩, hg, ht⟩ := of_isOn hon
  have hg' := (h.requests id _ ht).mp hg
  cases handler with
  | stateGraph cmdId command =>
      simp only [step, hg] at hstep
      simp only [step, hg']
      obtain rfl := Option.some.inj hstep
      exact ⟨_, rfl, h.put h.world id ht⟩
  | _ =>
      simp only [step, hg] at hstep
      cases hstep

theorem Projection.read_congr (h : a.Projection B b) (hon : a.isOn B id = true)
    (hstep : a.step rt (.read id) = some a') :
    ∃ b', b.step rt (.read id) = some b' ∧ a'.Projection B b' := by
  obtain ⟨⟨t, i, handler⟩, hg, ht⟩ := of_isOn hon
  have hg' := (h.requests id _ ht).mp hg
  cases handler with
  | stateRead cmdId command read =>
      obtain rfl : t = B := ht
      simp only [step, hg] at hstep
      simp only [step, hg']
      obtain rfl := Option.some.inj hstep
      rw [h.saver]
      exact ⟨_, rfl, h.put h.world id rfl⟩
  | _ =>
      simp only [step, hg] at hstep
      cases hstep

theorem Projection.state_congr (h : a.Projection B b) (hI : a.world.SlotInv)
    {outcome : Except PyExc Snapshot} {r : String} (hon : a.isOn B id = true)
    (hstep : a.step rt (.state id outcome r) = some a') :
    ∃ b', b.step rt (.state id outcome r) = some b' ∧ a'.Projection B b' := by
  obtain ⟨⟨t, i, handler⟩, hg, ht⟩ := of_isOn hon
  have hg' := (h.requests id _ ht).mp hg
  cases handler with
  | stateRead cmdId command read =>
      obtain rfl : t = B := ht
      simp only [step, hg] at hstep
      simp only [step, hg']
      cases outcome with
      | error exc =>
          obtain rfl := Option.some.inj hstep
          exact ⟨_, rfl, h.put h.world id rfl⟩
      | ok snapshot =>
          cases read with
          | none => cases hstep
          | some ids =>
              dsimp only at hstep ⊢
              split at hstep
              · cases hstep
              · next hr =>
                obtain rfl := Option.some.inj hstep
                rw [if_neg fun hr' => hr (hr'.imp_left (h.world.drawn r))]
                obtain ⟨hagree, hhandler⟩ :=
                  h.world.stateShown_congr rt hI h.row cmdId command snapshot ids r
                rw [hhandler]
                exact ⟨_, rfl, h.put hagree id rfl⟩
  | _ =>
      simp only [step, hg] at hstep
      cases hstep

/-- The end of the resolution that a handler waits for, in both. -/
theorem Projection.resolved_congr (h : a.Projection B b) (hF : a.FrameInv) {req : Request}
    {r : String} {outcome : Resolution} {res : Option RunExc} {w : World}
    (hg : a.requests.get? id = some req) (ht : req.threadId = B)
    (hr : req.handler.runId? = some r) (hw : a.world.resolved r outcome = some (w, res)) :
    ∃ u, b.world.resolved r outcome = some (u, res) ∧ w.Agree B u := by
  obtain ⟨s, hs, hst, -⟩ := hF.waits id req r hg hr
  exact h.world.resolved_congr hs (hst.trans ht) outcome hw

theorem Projection.started_congr (h : a.Projection B b) (hF : a.FrameInv)
    {outcome : Resolution} {now : String} (hon : a.isOn B id = true)
    (hstep : a.step rt (.started id outcome now) = some a') :
    ∃ b', b.step rt (.started id outcome now) = some b' ∧ a'.Projection B b' := by
  obtain ⟨⟨t, i, handler⟩, hg, ht⟩ := of_isOn hon
  have hg' := (h.requests id _ ht).mp hg
  cases handler with
  | runStart cmdId r assistantId =>
      obtain rfl : t = B := ht
      simp only [step, hg] at hstep
      simp only [step, hg']
      cases hw : a.world.resolved r outcome with
      | none =>
          rw [hw] at hstep
          cases hstep
      | some p =>
          obtain ⟨w, res⟩ := p
          obtain ⟨u, hu, hagree⟩ := h.resolved_congr hF hg rfl rfl hw
          rw [hw] at hstep
          rw [hu]
          cases res with
          | some exc =>
              obtain rfl := Option.some.inj hstep
              exact ⟨_, rfl, h.put hagree id rfl⟩
          | none =>
              obtain rfl := Option.some.inj hstep
              exact ⟨_, rfl, (h.put hagree id rfl).bind assistantId now⟩
  | runResume cmdId r interruptId =>
      obtain rfl : t = B := ht
      simp only [step, hg] at hstep
      simp only [step, hg']
      cases hw : a.world.resolved r outcome with
      | none =>
          rw [hw] at hstep
          cases hstep
      | some p =>
          obtain ⟨w, res⟩ := p
          obtain ⟨u, hu, hagree⟩ := h.resolved_congr hF hg rfl rfl hw
          rw [hw] at hstep
          rw [hu]
          cases res with
          | some exc =>
              obtain rfl := Option.some.inj hstep
              exact ⟨_, rfl, h.put hagree id rfl⟩
          | none =>
              obtain rfl := Option.some.inj hstep
              exact ⟨_, rfl, { h.put hagree id rfl with }⟩
  | _ =>
      simp only [step, hg] at hstep
      cases hstep

/-- A step that concerns the thread does the same in both. -/
theorem Projection.keep (h : a.Projection B b) (hI : a.world.SlotInv) (hF : a.FrameInv)
    (hact : a.concerns B act = true) (hstep : a.step rt act = some a') :
    ∃ b', b.step rt act = some b' ∧ a'.Projection B b' := by
  cases act with
  | create t now metadata =>
      obtain rfl : t = B := of_decide_eq_true hact
      have hrow : a.store.threads.contains t = b.store.threads.contains t :=
        congrArg Option.isSome h.row
      simp only [step, hrow] at hstep ⊢
      split at hstep
      · cases hstep
      · next hnew =>
        obtain rfl := Option.some.inj hstep
        rw [if_neg hnew]
        refine ⟨_, rfl, { h with row := ?_ }⟩
        show (a.store.threads.set t _).get? t = (b.store.threads.set t _).get? t
        rw [Dict.get?_set_self, Dict.get?_set_self]
  | request id t =>
      obtain rfl : t = B := of_decide_eq_true hact
      simp only [step, ← h.row] at hstep ⊢
      split at hstep
      · cases hstep
      · next hnew =>
        have hnone : b.requests.get? id = none :=
          h.get?_none (by simpa [Dict.contains] using hnew)
        rw [if_neg (by simp [Dict.contains, hnone])]
        split at hstep
        · obtain rfl := Option.some.inj hstep
          exact ⟨_, rfl, h.put h.world id rfl⟩
        · obtain rfl := Option.some.inj hstep
          exact ⟨_, rfl, h.put h.world id rfl⟩
  | body id body r => exact h.body_congr hI hact hstep
  | graph id outcome => exact h.graph_congr hact hstep
  | read id => exact h.read_congr hact hstep
  | state id outcome r => exact h.state_congr hI hact hstep
  | started id outcome now => exact h.started_congr hF hact hstep
  | cancelRun t r =>
      obtain rfl : t = B := of_decide_eq_true hact
      obtain rfl := Option.some.inj hstep
      refine ⟨_, rfl, ?_⟩
      unfold cancelRun
      rw [← h.row]
      split
      · exact h
      · exact { h with world := h.world.cancel_congr hI (some r) }
  | checkpoint t interrupts =>
      obtain rfl : t = B := of_decide_eq_true hact
      obtain rfl := Option.some.inj hstep
      refine ⟨_, rfl, { h with saver := ?_ }⟩
      rw [Dict.get?_set_self, Dict.get?_set_self]
  | world act =>
      simp only [step] at hstep ⊢
      split at hstep
      · next hint =>
        obtain ⟨w, hw, rfl⟩ := Option.map_eq_some_iff.mp hstep
        obtain ⟨u, hu, hagree⟩ := h.world.step_congr hI hact hw
        rw [if_pos hint, hu]
        exact ⟨_, rfl, { h with world := hagree }⟩
      · cases hstep

/-! ### What does not concern the thread -/

/-- A request on another thread moves on. -/
theorem put_frame {req : Request} {w : World} (hw : w.Agree B a.world) (ht : req.threadId ≠ B)
    (hold : ∀ req₀, a.requests.get? id = some req₀ → req₀.threadId ≠ B) :
    (a.put id req w).Agree B a :=
  { Agree.refl B a with
    world := hw
    requests := Dict.agreeOn_set_of_not ht hold }

theorem bind_frame {t : String} (ht : t ≠ B) (v : Json) (now : String) :
    (a.bind t v now).Agree B a := by
  unfold bind
  cases v with
  | str s =>
      refine { Agree.refl B a with row := ?_ }
      unfold MemoryThreadStore.setAssistant
      cases a.store.threads.get? t with
      | none => rfl
      | some record => exact Dict.get?_set_ne _ _ ht
  | _ => exact .refl B a

theorem resolved_frame (rt : Runtime) {w w' : World} (hI : w.SlotInv) {r : String} {s : Starting}
    {outcome : Resolution} {res : Option RunExc} (hs : w.starting.get? r = some s)
    (ht : s.threadId ≠ B) (hw : w.resolved r outcome = some (w', res)) : w'.Agree B w := by
  have hstep : w.step rt (.resolved r outcome) = some w' := by
    show (w.resolved r outcome).map Prod.fst = _
    rw [hw]
    rfl
  apply World.step_frame hI hstep
  simpa [World.concerns, hs] using ht

/-- What a handler of another thread does to the process. -/
theorem requestStep_frame (hI : a.world.SlotInv) (hF : a.FrameInv) {req req' : Request}
    {w' : World} (hg : a.requests.get? id = some req) (ht : req.threadId ≠ B)
    (h : RequestStep rt a.world a.store id act req w' req') : w'.Agree B a.world := by
  cases h with
  | quiet => exact .refl B a.world
  | @cancel _ t _ _ _ run =>
      rcases dispatchCancel_cases rt a.world t run with hsame | ⟨i, hstep⟩
      · rw [hsame]
        exact .refl B a.world
      · exact World.step_frame hI hstep (decide_eq_false ht)
  | refuse => exact World.turnAway_frame ht _ _
  | start _ _ hfresh => exact World.hold_frame hI hfresh ht
  | resume _ _ hfresh => exact World.hold_frame hI hfresh ht
  | fail hr hw _ =>
      obtain ⟨s, hs, hst, -⟩ := hF.waits id _ _ hg hr
      exact resolved_frame rt hI hs (by rwa [hst]) hw

/-- The request of an action that does not concern the thread. -/
theorem ne_of_request {req : Request} (hstep : a.step rt act = some a')
    (hact : a.concerns B act = false) (hid : act.requestId? = some id)
    (hg : a.requests.get? id = some req) : req.threadId ≠ B := by
  have hon : a.isOn B id = false := by
    cases act with
    | request id' t =>
        obtain rfl := Option.some.inj hid
        simp [step, Dict.contains, hg] at hstep
    | body id' body r => cases hid; exact hact
    | graph id' outcome => cases hid; exact hact
    | read id' => cases hid; exact hact
    | state id' outcome r => cases hid; exact hact
    | started id' outcome now => cases hid; exact hact
    | _ => cases hid
  simpa [isOn, hg] using hon

/-- A step that does not concern the thread leaves it as it was. -/
theorem step_frame (hI : a.world.SlotInv) (hF : a.FrameInv) (hact : a.concerns B act = false)
    (hstep : a.step rt act = some a') : a'.Agree B a := by
  have hnone : ∀ {id}, a.requests.get? id = none →
      ∀ req, a.requests.get? id = some req → req.threadId ≠ B := by
    intro id hg req hg'
    rw [hg] at hg'
    cases hg'
  have hsome : ∀ {id req}, a.requests.get? id = some req → req.threadId ≠ B →
      ∀ req, a.requests.get? id = some req → req.threadId ≠ B := by
    intro id req hg ht req' hg'
    rwa [← Option.some.inj (hg.symm.trans hg')]
  cases serviceStep_of_step hstep with
  | idle => exact .refl B a
  | @create t =>
      exact { Agree.refl B a with row := Dict.get?_set_ne _ _ (of_decide_eq_false hact) }
  | notFound hg _ => exact put_frame (.refl B _) (of_decide_eq_false hact) (hnone hg)
  | accept hg _ => exact put_frame (.refl B _) (of_decide_eq_false hact) (hnone hg)
  | handler hid hg hreq =>
      have ht := ne_of_request hstep hact hid hg
      refine put_frame (requestStep_frame hI hF hg ht hreq) ?_ (hsome hg ht)
      rwa [hreq.under_way.2.1]
  | start hg hw =>
      have ht := ne_of_request hstep hact rfl hg
      obtain ⟨s, hs, hst, -⟩ := hF.waits _ _ _ hg rfl
      have hworld := resolved_frame rt hI hs (by rwa [hst]) hw
      exact (bind_frame ht _ _).trans (put_frame hworld ht (hsome hg ht))
  | resume hg hw =>
      have ht := ne_of_request hstep hact rfl hg
      obtain ⟨s, hs, hst, -⟩ := hF.waits _ _ _ hg rfl
      have hworld := resolved_frame rt hI hs (by rwa [hst]) hw
      exact ⟨hworld, rfl, rfl, Dict.agreeOn_set_of_not ht (hsome hg ht)⟩
  | @cancelRun t r =>
      have hcancel : a.world.step rt (.cancel t (some r)) = some _ := rfl
      exact { Agree.refl B a with world := World.step_frame hI hcancel hact }
  | checkpoint =>
      exact { Agree.refl B a with saver := Dict.get?_set_ne _ _ (of_decide_eq_false hact) }
  | internal _ hw => exact { Agree.refl B a with world := World.step_frame hI hw hact }

/-- A step that does not concern the thread is not seen by it. -/
theorem Projection.skip (h : a.Projection B b) (hI : a.world.SlotInv) (hF : a.FrameInv)
    (hact : a.concerns B act = false) (hstep : a.step rt act = some a') : a'.Projection B b :=
  { (step_frame hI hF hact hstep).trans h.toAgree with owned := h.owned }

/-- The whole schedule, and the part of it that concerns the thread. -/
theorem Projection.run {acts : List AppAct} (ha : (appSys rt n).Reachable a)
    (h : a.Projection B b) (hrun : (appSys rt n).run a acts = some a') :
    ∃ b', (appSys rt n).run b ((appSys rt n).project (concerns B) a acts) = some b' ∧
      a'.Projection B b' := by
  have hinv : ∀ {a}, (appSys rt n).Reachable a → a.world.SlotInv ∧ a.FrameInv :=
    fun hr => ⟨World.slotInv_of_reachable (world_reachable hr), frameInv_of_reachable hr⟩
  let R : App → App → Prop := fun a b => (appSys rt n).Reachable a ∧ a.Projection B b
  have hkeep : ∀ a b act a', R a b → a.concerns B act = true → a.step rt act = some a' →
      ∃ b', b.step rt act = some b' ∧ R a' b' := by
    rintro a b act a' ⟨hr, h⟩ hact hstep
    obtain ⟨hI, hF⟩ := hinv hr
    obtain ⟨b', hb, h'⟩ := h.keep hI hF hact hstep
    exact ⟨b', hb, hr.tail trivial hstep, h'⟩
  have hskip : ∀ a b act a', R a b → a.concerns B act = false → a.step rt act = some a' →
      R a' b := by
    rintro a b act a' ⟨hr, h⟩ hact hstep
    obtain ⟨hI, hF⟩ := hinv hr
    exact ⟨hr.tail trivial hstep, h.skip hI hF hact hstep⟩
  obtain ⟨b', hb, -, h'⟩ := TSys.run_project hkeep hskip ⟨ha, h⟩ hrun
  exact ⟨b', hb, h'⟩

end App

end AgentProtocol

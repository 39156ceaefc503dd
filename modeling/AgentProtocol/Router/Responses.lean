import AgentProtocol.Router.Answers

/-!
# How a response is answered (`input.respond`)

Under `App.answersAt` a handler of `input.respond` goes from await to await until it
has a run, which is then in `answers`, or an error envelope (`App.proper_of_reachable`):
the manager refuses it for a busy thread or for an interrupt that is not in the pending
map, and for nothing else (`World.respond_registered`). The id it answers with can be
rendered.
-/

namespace AgentProtocol

namespace World

variable {w : World} {assistantId : String}

/-- A start of a registered assistant is refused on a busy thread only. -/
theorem start_registered (ha : assistantId ∈ w.factories) (t : String) (input : GraphInput)
    (config : Option (Dict String Json)) (metadata : Json) (runId : String) :
    (w.start t (.str assistantId) input config metadata runId).2 = none ∨
      ∃ r, (w.start t (.str assistantId) input config metadata runId).2 =
        some (.runActive t r) := by
  rcases w.start_cases t (.str assistantId) input config metadata runId with
    ⟨b, -, -, heq⟩ | ⟨-, heq⟩
  · rw [heq]
    exact .inr ⟨b.runId, rfl⟩
  · left
    have hfind : findFactory w.factories (.str assistantId) = .ok assistantId := if_pos ha
    simp only [heq, reserve, hfind]

/-- So is a response, or its interrupt is not in the pending map. -/
theorem respond_registered (ha : assistantId ∈ w.factories) (hne : assistantId ≠ "")
    (t i : String) (response : Json) (runId : String) :
    (w.respond t i response (some assistantId) runId).2 = none ∨
      (∃ r, (w.respond t i response (some assistantId) runId).2 = some (.runActive t r)) ∨
      (w.respond t i response (some assistantId) runId).2 = some (.unknownInterrupt t i) := by
  have hor : strOr (some assistantId) none = some assistantId := if_neg hne
  have hstart := start_registered ha t (.resume response) none .null runId
  unfold respond
  split
  · next pending _ =>
    have hres : resumeAssistant pending (some assistantId) = .str assistantId := by
      simp only [resumeAssistant, hor]
    rw [hres]
    split
    · exact hstart.imp_right .inl
    · exact .inr (.inr rfl)
  · rw [hor]
    exact hstart.imp_right .inl

end World

namespace App

/-- Where a request of thread `t` that answers interrupt `i` can be. -/
inductive Proper (limit : Nat) (a : App) (id : Nat) (t i : String) : Handler → Prop
  | graph {cmdId response : Json} : renders limit cmdId.toValue = true →
      Proper limit a id t i (.stateGraph cmdId (.respond i response))
  | read {cmdId response : Json} {read : Option (List String)} :
      renders limit cmdId.toValue = true →
      Proper limit a id t i (.stateRead cmdId (.respond i response) read)
  | resume {cmdId : Json} {r : String} : renders limit cmdId.toValue = true →
      Proper limit a id t i (.runResume cmdId r i)
  | refused {cmdId : Json} {code message : String} : renders limit cmdId.toValue = true →
      Proper limit a id t i (.answered (.error cmdId code message))
  | resumed {cmdId : Json} {r : String} : renders limit cmdId.toValue = true →
      a.answers.get? r = some { request := id, threadId := t, interruptId := i } →
      Proper limit a id t i (.answered (.success cmdId (.run r)))

variable {rt : Runtime} {limit n : Nat} {a a' : App} {id : Nat} {t i runId : String}
  {cmdId response : Json}

theorem Proper.mono {handler : Handler} (h : a.Proper limit id t i handler)
    (hans : ∀ r x, a.answers.get? r = some x → a'.answers.get? r = some x) :
    a'.Proper limit id t i handler := by
  cases h with
  | graph hid => exact .graph hid
  | read hid => exact .read hid
  | resume hid => exact .resume hid
  | refused hid => exact .refused hid
  | resumed hid hx => exact .resumed hid (hans _ _ hx)

theorem bound_iff : a.bound t = true ↔
    ∃ s, a.store.assistant t = some s ∧ s ≠ "" ∧ s ∈ a.world.factories := by
  unfold bound
  cases a.store.assistant t with
  | none => simp
  | some s => simp

/-- The graph of a bound thread can be resolved. -/
theorem proper_stateGraph (hid : renders limit cmdId.toValue = true)
    (h : a.store.assistant t = none ∨ a.bound t = true) :
    a.Proper limit id t i (stateGraph a.world a.store t cmdId (.respond i response)) := by
  unfold stateGraph
  rcases h with hnone | hbound
  · rw [hnone]
    exact .refused hid
  · obtain ⟨s, hs, -, hmem⟩ := bound_iff.mp hbound
    have hfind : findFactory a.world.factories (.str s) = .ok s := if_pos hmem
    rw [hs]
    simp only [hfind]
    exact .graph hid

/-- The stretch after the snapshot, if it can be read. -/
theorem proper_stateShown {snapshot : Snapshot} {ids : List String}
    (hid : renders limit cmdId.toValue = true)
    (hread : snapshot.isReadable = true) (h : i ∈ ids → a.bound t = true) :
    a.Proper limit id t i
      (stateShown rt a.world a.store t cmdId (.respond i response) snapshot ids runId).2 := by
  unfold stateShown
  rw [readThreadState_of_readable rt hread t]
  dsimp only
  unfold dispatchRespond
  by_cases hin : i ∈ ids
  · simp only [if_pos hin]
    obtain ⟨s, hs, hne, hmem⟩ := bound_iff.mp (h hin)
    have hres := World.respond_registered hmem hne t i response runId
    rw [hs]
    cases hr : a.world.respond t i response (some s) runId with
    | mk w' res =>
        rw [hr] at hres
        rcases hres with rfl | ⟨r, rfl⟩ | rfl
        · exact .resume hid
        · exact .refused hid
        · exact .refused hid
  · simp only [if_neg hin]
    exact .refused hid

/-- A request that has noted an interrupt is an `input.respond` in `_state_graph`. -/
theorem dispatchCommand_interrupt {w : World} {store : MemoryThreadStore} {record : ThreadRecord}
    {body : Option Json}
    (h : (dispatchCommand rt w store t record body runId).interrupt = some i) :
    isRespond body = true ∧ ∃ response,
      (dispatchCommand rt w store t record body runId).handler =
        stateGraph w store t (commandId body) (.respond i response) := by
  unfold dispatchCommand at h ⊢
  split at h
  · cases h
  · next es =>
    dsimp only at h ⊢
    split at h
    · cases h
    · next hmethod =>
      have hrespond : isRespond (some (.obj es)) = true := by
        unfold isRespond
        cases hget : (Dict.ofList es).get? "method" with
        | none =>
            rw [hget] at hmethod
            cases hmethod
        | some v =>
            rw [hget] at hmethod
            obtain rfl : v = .str "input.respond" := hmethod
            simp only [hget, beq_self_eq_true]
      split at h
      · split at h
        · cases h
        · next hne =>
          rw [if_neg hne]
          obtain rfl := Option.some.inj h
          exact ⟨hrespond, _, rfl⟩
      · cases h
      · cases h
    · split at h
      · cases h
      · cases h
    · cases h
    · cases h
  · cases h

/-- Every request that has noted an interrupt is on its way to a run or to an error
envelope, or has come to it. -/
def ProperRequests (limit : Nat) (a : App) : Prop :=
  ∀ id req i, a.requests.get? id = some req → req.interrupt = some i →
    a.Proper limit id req.threadId i req.handler

theorem ProperRequests.of_same (hP : a.ProperRequests limit) (hreq : a'.requests = a.requests)
    (hans : a'.answers = a.answers) : a'.ProperRequests limit := by
  intro id req i hg hi
  rw [hreq] at hg
  exact (hP id req i hg hi).mono fun r x hx => hans ▸ hx

/-- One request is touched, and no answer is forgotten. -/
theorem ProperRequests.of_set (hP : a.ProperRequests limit) {req : Request}
    (hreq : a'.requests = a.requests.set id req)
    (hans : ∀ r x, a.answers.get? r = some x → a'.answers.get? r = some x)
    (hnew : ∀ i, req.interrupt = some i → a'.Proper limit id req.threadId i req.handler) :
    a'.ProperRequests limit := by
  intro id' req' i hg hi
  rw [hreq, Dict.get?_set] at hg
  split at hg
  · next hid =>
    subst hid
    obtain rfl := Option.some.inj hg
    exact hnew i hi
  · exact (hP id' req' i hg hi).mono hans

/-- A handler of `input.respond` waits for a start that only a graph can end well. -/
theorem started_respond {req : Request} {outcome : Resolution} {w : World} {exc : RunExc}
    (hF : a.FrameInv) (hok : ∃ graph, outcome = .graph graph)
    (hg : a.requests.get? id = some req) (hh : req.handler = .runResume cmdId runId i)
    (h : a.world.resolved runId outcome = some (w, some exc)) : False := by
  obtain ⟨graph, rfl⟩ := hok
  obtain ⟨s, hs, -, hres, hcfg⟩ := hF.waits id req runId hg (by rw [hh]; rfl)
  rw [hh] at hres
  obtain ⟨hconfig, hmetadata⟩ := hcfg hres
  have hrun : ∃ config, runConfig s.threadId s.config s.metadata = .ok config := by
    rw [hconfig, hmetadata]
    exact ⟨_, rfl⟩
  obtain ⟨config, hrun⟩ := hrun
  simp only [World.resolved, hs, hrun] at h
  cases h

/-- `aget_state` returns to a handler of `input.respond`. -/
theorem ProperRequests.state {outcome : Except PyExc Snapshot} (hP : a.ProperRequests limit)
    (hok : a.answersAt limit (.state id outcome runId) = true)
    (h : a.step rt (.state id outcome runId) = some a') : a'.ProperRequests limit := by
  simp only [App.step] at h
  split at h
  · next t interrupt cmdId command read hg =>
    split at h
    · obtain rfl := Option.some.inj h
      refine hP.of_set rfl (fun _ _ hx => hx) fun i hi => ?_
      cases hP id _ i hg hi with
      | read =>
          simp only [answersAt, hg] at hok
          cases hok
    · cases h
    · split at h
      · cases h
      · obtain rfl := Option.some.inj h
        refine hP.of_set rfl (fun _ _ hx => hx) fun i hi => ?_
        cases hP id _ i hg hi with
        | read hid =>
            have hread := hok
            simp only [answersAt, hg, Bool.and_eq_true] at hread
            exact (proper_stateShown hid hread.1 fun hin => (canTell_of_answersAt hok hg hin).1).mono
              (a := a) fun _ _ hx => hx
  · cases h

/-- The resolution ends that a handler waits for. -/
theorem ProperRequests.started {outcome : Resolution} {now : String} (hP : a.ProperRequests limit)
    (hF : a.FrameInv) (hI : a.world.SlotInv)
    (hok : a.answersAt limit (.started id outcome now) = true)
    (h : a.step rt (.started id outcome now) = some a') : a'.ProperRequests limit := by
  simp only [App.step] at h
  split at h
  · next t interrupt cmdId runId assistantId hg =>
    -- a handler of `run.start` has noted no interrupt
    have hnone : ∀ i, interrupt ≠ some i := by
      intro i hi
      cases hP id _ i hg hi
    split at h
    · cases h
    · obtain rfl := Option.some.inj h
      exact hP.of_set rfl (fun _ _ hx => hx) fun i hi => absurd hi (hnone i)
    · obtain rfl := Option.some.inj h
      unfold App.bind
      split
      · exact hP.of_set rfl (fun _ _ hx => hx) fun i hi => absurd hi (hnone i)
      · exact hP.of_set rfl (fun _ _ hx => hx) fun i hi => absurd hi (hnone i)
  · next t interrupt cmdId runId j hg =>
    have hgraph : ∃ graph, outcome = .graph graph := by
      simp only [answersAt, hg] at hok
      cases outcome with
      | graph graph => exact ⟨graph, rfl⟩
      | _ => cases hok
    split at h
    · cases h
    · next hw => exact (started_respond hF hgraph hg rfl hw).elim
    · next w' hw =>
      obtain rfl := Option.some.inj h
      refine hP.of_set rfl (fun r x hx => ?_) fun i hi => ?_
      · -- the run is a new one
        rw [Dict.get?_set_ne]
        · exact hx
        rintro rfl
        obtain ⟨s, -, -, hs, -⟩ := World.resolved_launched hw
        obtain ⟨⟨task, htask, -, -⟩, -⟩ := hF.answered _ x hx
        rw [(hI.starting_fresh hs).2] at htask
        cases htask
      · cases hP id _ i hg hi with
        | resume hid => exact .resumed hid (Dict.get?_set_self _ _ _)
  · cases h

theorem ProperRequests.step {act : AppAct} (hP : a.ProperRequests limit) (hF : a.FrameInv)
    (hI : a.world.SlotInv) (hok : a.answersAt limit act = true) (h : a.step rt act = some a') :
    a'.ProperRequests limit := by
  cases act with
  | create t now metadata =>
      simp only [App.step] at h
      split at h
      · cases h
      · obtain rfl := Option.some.inj h
        exact hP.of_same rfl rfl
  | checkpoint t interrupts =>
      obtain rfl := Option.some.inj h
      exact hP.of_same rfl rfl
  | cancelRun t runId =>
      obtain rfl := Option.some.inj h
      unfold App.cancelRun
      split <;> exact hP.of_same rfl rfl
  | world act =>
      simp only [App.step] at h
      split at h
      · obtain ⟨w', -, rfl⟩ := Option.map_eq_some_iff.mp h
        exact hP.of_same rfl rfl
      · cases h
  | request id t =>
      simp only [App.step] at h
      split at h
      · cases h
      · split at h
        · obtain rfl := Option.some.inj h
          exact hP.of_set rfl (fun _ _ hx => hx) (fun i hi => by cases hi)
        · obtain rfl := Option.some.inj h
          exact hP.of_set rfl (fun _ _ hx => hx) (fun i hi => by cases hi)
  | body id body runId =>
      simp only [App.step] at h
      split at h
      · next t interrupt record hg =>
        split at h
        · cases h
        · obtain rfl := Option.some.inj h
          refine hP.of_set rfl (fun _ _ hx => hx) fun i hi => ?_
          obtain ⟨hrespond, response, heq⟩ := dispatchCommand_interrupt hi
          simp only [answersAt, hg, hrespond, Bool.not_true, Bool.false_or, Bool.and_eq_true,
            Bool.or_eq_true, Option.isNone_iff_eq_none] at hok
          dsimp only
          rw [heq]
          exact (proper_stateGraph hok.1 hok.2).mono (a := a) fun _ _ hx => hx
      · cases h
  | graph id outcome =>
      simp only [App.step] at h
      split at h
      · next t interrupt cmdId command hg =>
        obtain rfl := Option.some.inj h
        refine hP.of_set rfl (fun _ _ hx => hx) fun i hi => ?_
        cases hP id _ i hg hi with
        | graph hid =>
            simp only [answersAt, hg] at hok
            cases outcome with
            | graph graph =>
                dsimp only [graphResolved]
                rw [if_pos hok]
                exact .read hid
            | _ => cases hok
      · cases h
  | read id =>
      simp only [App.step] at h
      split at h
      · next t interrupt cmdId command read hg =>
        obtain rfl := Option.some.inj h
        refine hP.of_set rfl (fun _ _ hx => hx) fun i hi => ?_
        cases hP id _ i hg hi with
        | read hid => exact .read hid
      · cases h
  | state id outcome runId => exact hP.state hok h
  | started id outcome now => exact hP.started hF hI hok h

theorem proper_of_reachable
    (h : (appSys rt n).ReachableVia (fun a act => a.answersAt limit act = true) a) :
    a.ProperRequests limit := by
  refine h.induct ?_ ?_
  · rintro a ⟨-, hreq, -⟩ id req i hg
    rw [hreq] at hg
    cases hg
  · intro a act a' hreach ih hok hstep
    exact ih.step (frameInv_of_reachable hreach)
      (World.slotInv_of_reachable (world_reachable hreach)) hok hstep

end App

end AgentProtocol

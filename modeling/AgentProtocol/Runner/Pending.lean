import AgentProtocol.Runner.Log
import AgentProtocol.Runner.Messages

/-!
# The pending map of a thread

A run registers the interrupts it stops at in the step that announces them
(`resume_asks`), and the next run of the thread takes them away. So a thread has a
pending map exactly when its last run has asked for input, and the map is that run's
(`World.PendingInv`).
-/

namespace AgentProtocol

/-- The run has published an `input.requested` event for this interrupt. -/
def Task.Announces (task : Task) (interruptId : String) : Prop :=
  ∃ payload, EventData.inputRequested interruptId payload ∈ task.events

/-- The interrupts these events announce. -/
def requestsOf (es : List EventData) : List (String × Value) :=
  es.filterMap fun e =>
    match e with
    | .inputRequested interruptId payload => some (interruptId, payload)
    | _ => none

/-- The interrupts a run with this ending stops at. -/
def Ending.interrupts (rt : Runtime) : Ending → List (String × Value)
  | .decided values =>
    match interruptsFromSnapshot rt values with
    | .error _ => []
    | .ok interrupts => interrupts
  | _ => []

/-- The interrupts of a graph whose awaits ended so. -/
def interruptsAfter (rt : Runtime) (graph : Graph) (fed : List Awaited) : List (String × Value) :=
  ((ending graph none fed).map (Ending.interrupts rt)).getD []

/-- The interrupts this run has stopped at. -/
def Task.interrupts (rt : Runtime) (task : Task) : List (String × Value) :=
  interruptsAfter rt task.graph task.fed

/-- The pending map this run has registered. -/
def Task.pending (rt : Runtime) (task : Task) : Option (Dict String Value) :=
  if (task.interrupts rt).isEmpty then none
  else some (World.pendingOf task.assistantId (task.interrupts rt))

/-- The stretch announces these interrupts, and registers them if there are any. -/
structure TaskStep.Asks (s : TaskStep) (interrupts : List (String × Value)) : Prop where
  pending : s.pending = if interrupts.isEmpty then none else some interrupts
  requests : requestsOf s.events = interrupts

theorem requestsOf_append (xs ys : List EventData) :
    requestsOf (xs ++ ys) = requestsOf xs ++ requestsOf ys := List.filterMap_append

theorem requestsOf_frameEvents (frames : List Frame) : requestsOf (frameEvents frames) = [] := by
  refine List.filterMap_eq_nil_iff.mpr fun e he => ?_
  obtain ⟨frame, -, rfl⟩ := List.mem_map.mp he
  rfl

theorem requestsOf_requests (interrupts : List (String × Value)) :
    requestsOf (interrupts.map fun p => .inputRequested p.1 p.2) = interrupts := by
  rw [requestsOf, List.filterMap_map]
  exact List.filterMap_some

theorem announces_of_mem {task : Task} {p : String × Value} (h : p ∈ requestsOf task.events) :
    task.Announces p.1 := by
  obtain ⟨e, he, heq⟩ := List.mem_filterMap.mp h
  cases e with
  | inputRequested interruptId payload =>
      obtain rfl := Option.some.inj heq
      exact ⟨payload, he⟩
  | _ => cases heq

section Steps

variable {rt : Runtime} {assistantId : String}

theorem handle_asks (tr : MessagesTranslator) {terminal : EventData}
    (h : requestsOf [terminal] = []) : (handle rt tr terminal).Asks [] := by
  refine ⟨rfl, ?_⟩
  unfold handle
  dsimp only
  rw [requestsOf_append, requestsOf_frameEvents]
  split
  · exact h
  · rfl

theorem orFail_asks {r : Emission MessagesTranslator} {next : MessagesTranslator → TaskStep}
    (h : ∀ tr, (next tr).Asks []) : (orFail rt assistantId r next).Asks [] := by
  unfold orFail TaskStep.after
  have hs : ∀ {s : TaskStep}, s.Asks [] →
      ({ s with events := frameEvents r.frames ++ s.events } : TaskStep).Asks [] := by
    intro s hs
    refine ⟨hs.pending, ?_⟩
    rw [requestsOf_append, requestsOf_frameEvents, hs.requests]
    rfl
  split
  · exact hs (handle_asks _ rfl)
  · exact hs (h _)

theorem onItem_asks (rt : Runtime) (assistantId : String) (tr : MessagesTranslator)
    (last : Option (Dict String Value)) (item : StreamItem) :
    (onItem rt assistantId tr last item).Asks [] := by
  cases item with
  | messages chunk =>
      unfold onItem
      refine orFail_asks fun tr => ?_
      split
      · exact ⟨rfl, rfl⟩
      · exact orFail_asks fun _ => ⟨rfl, rfl⟩
  | malformed exc => exact handle_asks tr rfl
  | values chunk => exact ⟨rfl, rfl⟩
  | other => exact ⟨rfl, rfl⟩

theorem settle_asks (tr : MessagesTranslator) (values : Dict String Value) :
    (settle rt assistantId tr values).Asks ((Ending.decided values).interrupts rt) := by
  unfold settle Ending.interrupts
  dsimp only
  cases interruptsFromSnapshot rt values with
  | error exc => exact handle_asks tr rfl
  | ok interrupts =>
      cases interrupts with
      | nil => exact orFail_asks fun _ => ⟨rfl, rfl⟩
      | cons p interrupts => exact ⟨rfl, requestsOf_requests (p :: interrupts)⟩

/-- A step announces and registers the interrupts the run stops at there. -/
theorem resume_asks {task : Task} {awaited : Awaited} {s : TaskStep} (h : task.Spoken rt)
    (hs : resume rt task.assistantId task.graph task.phase awaited = some s) :
    s.Asks (interruptsAfter rt task.graph (task.fed ++ [awaited])) := by
  unfold Task.Spoken at h
  unfold interruptsAfter
  cases hphase : task.phase with
  | created =>
      rw [hphase] at hs
      cases awaited <;> cases hs
  | done =>
      rw [hphase] at hs
      cases awaited <;> cases hs
  | streaming tr last =>
      simp only [hphase] at h hs
      obtain ⟨-, -, -, hend⟩ := h
      rw [hend]
      cases awaited with
      | item item =>
          obtain rfl := Option.some.inj hs
          have hasks := onItem_asks rt task.assistantId tr last item
          cases item <;> exact hasks
      | snapshot values => cases hs
      | raised exc =>
          obtain rfl := Option.some.inj hs
          exact handle_asks tr rfl
      | cancelled =>
          obtain rfl := Option.some.inj hs
          exact handle_asks tr rfl
      | stop =>
          obtain rfl := Option.some.inj hs
          cases last with
          | some values => exact settle_asks tr values
          | none =>
              unfold onStop
              dsimp only
              by_cases hg : task.graph.hasGetState = true
              · have hnone : ending task.graph none [.stop] = none := by simp [ending, hg]
                rw [if_pos hg, hnone]
                exact ⟨rfl, rfl⟩
              · have hsome : ending task.graph none [.stop] = some (.decided ∅) := by
                  simp [ending, hg]
                rw [if_neg hg, hsome]
                exact settle_asks tr ∅
  | snapshot tr =>
      simp only [hphase] at h hs
      obtain ⟨-, -, -, hg, hend⟩ := h
      rw [hend]
      cases awaited with
      | item item => cases hs
      | stop => cases hs
      | snapshot values =>
          obtain rfl := Option.some.inj hs
          have hsome : ending task.graph none [.stop, .snapshot values] = some (.decided values) := by
            simp [ending, hg]
          rw [hsome]
          exact settle_asks tr values
      | raised exc =>
          obtain rfl := Option.some.inj hs
          have hsome : ending task.graph none [.stop, .raised exc] = some (.decided ∅) := by
            simp [ending, hg]
          rw [hsome]
          exact settle_asks tr ∅
      | cancelled =>
          obtain rfl := Option.some.inj hs
          have hsome : ending task.graph none [.stop, .cancelled] = some .cancelled := by
            simp [ending, hg]
          rw [hsome]
          exact handle_asks tr rfl

/-- A run that is not done has not asked for input. -/
theorem Task.Spoken.interrupts_of_not_done {task : Task} (h : task.Spoken rt)
    (hnd : task.phase.isDone = false) : task.interrupts rt = [] := by
  unfold Task.Spoken at h
  unfold Task.interrupts interruptsAfter
  cases hphase : task.phase with
  | created =>
      simp only [hphase] at h
      rw [h.2]
      rfl
  | streaming tr last =>
      simp only [hphase] at h
      obtain ⟨-, -, -, hend⟩ := h
      have hnone := hend []
      rw [List.append_nil] at hnone
      rw [hnone]
      rfl
  | snapshot tr =>
      simp only [hphase] at h
      obtain ⟨-, -, -, hg, hend⟩ := h
      have hnone := hend []
      rw [List.append_nil, show ending task.graph none [.stop] = none by simp [ending, hg]] at hnone
      rw [hnone]
      rfl
  | done =>
      rw [hphase] at hnd
      cases hnd

end Steps

/-- The keys of a pending map. -/
theorem contains_pendingOf {assistantId : String} {interrupts : List (String × Value)}
    {id : String} (h : (World.pendingOf assistantId interrupts).contains id = true) :
    id = "assistant_id" ∨ ∃ p ∈ interrupts, p.1 = id := by
  unfold World.pendingOf Dict.contains at h
  rw [Dict.get?_update] at h
  cases hget : Entries.get? id interrupts.reverse with
  | some v =>
      right
      have hmem : id ∈ interrupts.reverse.map Prod.fst := by
        by_contra hno
        rw [(Entries.get?_eq_none_iff _ _).mpr hno] at hget
        cases hget
      rw [List.map_reverse, List.mem_reverse] at hmem
      obtain ⟨p, hp, hid⟩ := List.mem_map.mp hmem
      exact ⟨p, hp, hid⟩
  | none =>
      left
      rw [hget, Option.none_or] at h
      by_contra hne
      have hbase : (Dict.ofList [("assistant_id", Value.str assistantId)]).get? id = none := by
        show ((∅ : Dict String Value).set "assistant_id" (.str assistantId)).get? id = none
        rw [Dict.get?_set_ne _ _ (Ne.symm hne), Dict.get?_empty]
      rw [hbase] at h
      cases h

namespace World

/-- The last run of thread `t` has announced the interrupts of this map. -/
def AnnouncedLast (w : World) (t : String) (pending : Dict String Value) : Prop :=
  ∃ older r task, w.runsOf t = older ++ [(r, task)] ∧
    ∀ id, pending.contains id = true → id = "assistant_id" ∨ task.Announces id

/-- A pending map is that of the last run of its thread. -/
def Registered (w : World) : Prop :=
  ∀ t pending, w.pendingInputs.get? t = some pending → w.AnnouncedLast t pending

/-- The pending map of each thread is what its last run has registered, and each run has
announced what it has stopped at. -/
structure PendingInv (rt : Runtime) (w : World) : Prop where
  announced : ∀ r task, w.tasks.get? r = some task → requestsOf task.events = task.interrupts rt
  pending : ∀ t, w.pendingInputs.get? t =
    (w.runsOf t).getLast?.bind fun e => e.2.pending rt

variable {rt : Runtime} {n : Nat} {w w' : World}

theorem PendingInv.init (n : Nat) : (World.new n).PendingInv rt where
  announced _ _ hg := by cases hg
  pending _ := rfl

/-- A task is replaced by one that has asked for as much. -/
theorem PendingInv.of_set (hP : w.PendingInv rt) {r : String} {task task' : Task}
    (htasks : w'.tasks = w.tasks.set r task') (hpending : w'.pendingInputs = w.pendingInputs)
    (hg : w.tasks.get? r = some task) (ht : task'.threadId = task.threadId)
    (hreq : requestsOf task'.events = requestsOf task.events)
    (hint : task'.interrupts rt = task.interrupts rt)
    (hassistant : task'.assistantId = task.assistantId) : w'.PendingInv rt := by
  constructor
  · intro r' task₁ hg₁
    rw [htasks, Dict.get?_set] at hg₁
    split at hg₁
    · rw [← Option.some.inj hg₁, hreq, hint]
      exact hP.announced r task hg
    · exact hP.announced r' task₁ hg₁
  · intro t
    rw [hpending, hP.pending t, runsOf_set htasks hg ht t, List.getLast?_map]
    cases hlast : (w.runsOf t).getLast? with
    | none => rfl
    | some e =>
        obtain ⟨r', task₁⟩ := e
        show task₁.pending rt = (if r' = r then (r, task') else (r', task₁)).2.pending rt
        by_cases hr : r' = r
        · have hmem := mem_runsOf.mp (List.mem_of_getLast? hlast)
          rw [hr, hg, Option.some.injEq] at hmem
          rw [if_pos hr, ← hmem.1, Task.pending, Task.pending, hint, hassistant]
        · rw [if_neg hr]

/-- The last run of a thread performs a stretch. -/
theorem PendingInv.perform (hP : w.PendingInv rt) (hL : w.LogInv) {id : String}
    {task task' : Task} {s : TaskStep} (hg : w.tasks.get? id = some task)
    (hnd : task.phase.isDone = false) (hnone : task.interrupts rt = [])
    (ht : task'.threadId = task.threadId) (hev : task'.events = task.events)
    (hasks : s.Asks (task'.interrupts rt)) : (w.perform rt id task' s).PendingInv rt := by
  have hmine : ∀ task₁ : Task, task₁.interrupts rt = task'.interrupts rt →
      task₁.assistantId = task'.assistantId → task₁.pending rt =
        s.pending.map fun interrupts => pendingOf task'.assistantId interrupts := by
    intro task₁ hint hassistant
    rw [Task.pending, hint, hassistant, hasks.pending]
    split <;> rfl
  constructor
  · intro r task₁ hg₁
    simp only [World.perform, Dict.get?_set] at hg₁
    split at hg₁
    · rw [← Option.some.inj hg₁]
      show requestsOf (task'.events ++ s.events) = task'.interrupts rt
      rw [requestsOf_append, hev, hP.announced id task hg, hnone, hasks.requests]
      rfl
    · exact hP.announced r task₁ hg₁
  · intro t
    have hruns := runsOf_set (rfl : (w.perform rt id task' s).tasks = _) hg ht t
    rw [hruns, List.getLast?_map]
    by_cases htt : task.threadId = t
    · -- no other run of the thread is unfinished
      obtain ⟨older, hlast⟩ := hL.last t id task (mem_runsOf.mpr ⟨hg, htt⟩) hnd
      have hbefore := hP.pending t
      rw [hlast, List.getLast?_concat] at hbefore ⊢
      rw [Option.map_some, if_pos rfl]
      refine Eq.trans ?_ (hmine _ rfl rfl).symm
      cases hpend : s.pending with
      | none =>
          simp only [World.perform, hpend]
          rw [hbefore]
          show Task.pending rt task = _
          rw [Task.pending, hnone]
          rfl
      | some interrupts =>
          simp only [World.perform, hpend]
          rw [ht, htt, Dict.get?_set_self]
          rfl
    · have hsame : (w.perform rt id task' s).pendingInputs.get? t = w.pendingInputs.get? t := by
        cases hpend : s.pending with
        | none => simp only [World.perform, hpend]
        | some interrupts =>
            simp only [World.perform, hpend]
            rw [Dict.get?_set_ne]
            rwa [ht]
      rw [hsame, hP.pending t]
      cases hlast : (w.runsOf t).getLast? with
      | none => rfl
      | some e =>
          have hmem := mem_runsOf.mp (List.mem_of_getLast? hlast)
          have hne : e.1 ≠ id := by
            intro heq
            rw [heq, hg, Option.some.injEq] at hmem
            exact htt (hmem.1 ▸ hmem.2)
          rw [Option.map_some, if_neg hne]

theorem PendingInv.step {a : Act} (hP : w.PendingInv rt) (hL : w.LogInv) (hI : w.SlotInv)
    (hspoken : ∀ r task, w.tasks.get? r = some task → task.Spoken rt)
    (hstep : WorldStep rt w a w') : w'.PendingInv rt := by
  cases hstep with
  | @launch runId graph s config hs _ =>
      have hnew := (hI.starting_fresh hs).2
      constructor
      · intro r task hg
        simp only [World.launch, Dict.get?_set] at hg
        split at hg
        · rw [← Option.some.inj hg]
          rfl
        · exact hP.announced r task hg
      · intro t
        rw [runsOf_new (show (w.launch runId s graph config).tasks = _ from rfl) hnew t]
        by_cases ht : s.threadId = t
        · rw [if_pos ht, List.getLast?_concat]
          simp only [World.launch, ht, Dict.get?_erase_self]
          rfl
        · rw [if_neg ht, List.append_nil]
          simp only [World.launch, Dict.get?_erase_ne _ ht]
          exact hP.pending t
  | cancel _ _ hg _ => exact hP.of_set rfl rfl hg rfl rfl rfl rfl
  | skip hg _ _ => exact hP.of_set rfl rfl hg rfl rfl rfl rfl
  | callback hg _ => exact hP.of_set rfl rfl hg rfl rfl rfl rfl
  | begin hg hphase _ =>
      have hnd : Phase.isDone _ = false := congrArg Phase.isDone hphase
      have hnone := (hspoken _ _ hg).interrupts_of_not_done hnd
      exact hP.perform hL hg hnd hnone rfl rfl (hnone ▸ ⟨rfl, rfl⟩)
  | resume hg hs =>
      have hnd := resume_not_done hs
      exact hP.perform hL hg hnd ((hspoken _ _ hg).interrupts_of_not_done hnd) rfl rfl
        (resume_asks (hspoken _ _ hg) hs)
  | _ => exact ⟨hP.announced, hP.pending⟩

theorem pendingInv_of_reachable {ok : World → Act → Prop}
    (h : (runSys rt n).ReachableVia ok w) : w.PendingInv rt := by
  refine h.induct ?_ ?_
  · rintro w rfl
    exact PendingInv.init n
  · intro w a w' hreach ih _ hstep
    exact ih.step (logInv_of_reachable hreach) (slotInv_of_reachable hreach)
      (fun _ _ hg => spoken_of_reachable hreach hg) (worldStep_of_step hstep)

/-- Every id of a pending map but the key of the assistant has been announced. -/
theorem registered_of_reachable {ok : World → Act → Prop}
    (h : (runSys rt n).ReachableVia ok w) : w.Registered := by
  have hP := pendingInv_of_reachable h
  intro t pending hp
  rw [hP.pending t, Option.bind_eq_some_iff] at hp
  obtain ⟨⟨r, task⟩, hlast, hpending⟩ := hp
  obtain ⟨older, hruns⟩ := List.getLast?_eq_some_iff.mp hlast
  have hg := (mem_runsOf.mp (List.mem_of_getLast? hlast)).1
  refine ⟨older, r, task, hruns, fun id hid => ?_⟩
  unfold Task.pending at hpending
  split at hpending
  · cases hpending
  · obtain rfl := Option.some.inj hpending
    refine (contains_pendingOf hid).imp_right ?_
    rintro ⟨p, hp, rfl⟩
    rw [← hP.announced r task hg] at hp
    exact announces_of_mem hp

end World

end AgentProtocol

import AgentProtocol.Runner.Pending

/-!
# The pending interrupts of a thread (`RunManager`)

A thread has a pending map exactly when the last run created on it has asked for
input, and the map holds that run's assistant and the interrupts it has announced.
Nothing but the end of a run and the creation of the next one touches it.
-/

namespace AgentProtocol

/-- The entries of a pending map, where no id repeats another key. -/
theorem entries_pendingOf {assistantId : String} {interrupts : List (String × Value)}
    (h : ("assistant_id" :: interrupts.map Prod.fst).Nodup) :
    (World.pendingOf assistantId interrupts).entries =
      ("assistant_id", .str assistantId) :: interrupts := by
  unfold World.pendingOf
  exact Dict.entries_update_of_new (Dict.ofList [("assistant_id", Value.str assistantId)]) h

theorem Ending.asks_eq (rt : Runtime) (e : Ending) : e.asks rt = !(e.interrupts rt).isEmpty := by
  unfold Ending.asks Ending.interrupts
  cases e with
  | decided values =>
      dsimp only
      cases interruptsFromSnapshot rt values <;> rfl
  | _ => rfl

/-- The pending map of thread `t` is that of its last run. -/
structure World.PendingOfLast (rt : Runtime) (w : World) (t : String) : Prop where
  noRun : w.runsOf t = [] → w.pendingInputs.get? t = none
  asked : ∀ older r task, w.runsOf t = older ++ [(r, task)] →
    ((w.pendingInputs.get? t).isSome = true ↔
      (ending task.graph none task.fed).any (Ending.asks rt) = true)
  entries : ∀ older r task pending, w.runsOf t = older ++ [(r, task)] →
    w.pendingInputs.get? t = some pending →
    ("assistant_id" :: (requestsOf (w.eventsOf t r)).map Prod.fst).Nodup →
    pending.entries = ("assistant_id", .str task.assistantId) :: requestsOf (w.eventsOf t r)

/-- The calls that are refused, at once or by their resolution, and the cancels leave the
pending maps as they are. -/
structure World.RefusalsKeepPending (w : World) : Prop where
  start : ∀ t assistantId input config metadata runId,
    (w.start t assistantId input config metadata runId).1.pendingInputs = w.pendingInputs
  respond : ∀ t interruptId response assistantId runId,
    (w.respond t interruptId response assistantId runId).1.pendingInputs = w.pendingInputs
  resolved : ∀ runId outcome w' exc, w.resolved runId outcome = some (w', some exc) →
    w'.pendingInputs = w.pendingInputs
  cancel : ∀ t runId, (w.cancel t runId).1.pendingInputs = w.pendingInputs

namespace World

theorem start_pendingInputs (w : World) (t : String) (assistantId : Value) (input : GraphInput)
    (config : Option (Dict String Json)) (metadata : Json) (runId : String) :
    (w.start t assistantId input config metadata runId).1.pendingInputs = w.pendingInputs := by
  rcases w.start_cases t assistantId input config metadata runId with ⟨_, _, _, heq⟩ | ⟨_, heq⟩
  · rw [heq]
  · rw [heq, reserve]
    dsimp only
    split <;> rfl

theorem refusalsKeepPending (w : World) : w.RefusalsKeepPending where
  start := w.start_pendingInputs
  respond t interruptId response assistantId runId := by
    unfold World.respond
    split
    · split
      · exact w.start_pendingInputs _ _ _ _ _ _
      · rfl
    · split
      · exact w.start_pendingInputs _ _ _ _ _ _
      · rfl
  resolved runId outcome w' exc h := by
    unfold World.resolved at h
    split at h
    · cases h
    · cases outcome with
      | raised e =>
          obtain ⟨rfl, -⟩ := Prod.mk.inj (Option.some.inj h)
          rfl
      | cancelled =>
          obtain ⟨rfl, -⟩ := Prod.mk.inj (Option.some.inj h)
          rfl
      | graph graph =>
          dsimp only at h
          split at h
          · obtain ⟨rfl, -⟩ := Prod.mk.inj (Option.some.inj h)
            rfl
          · obtain ⟨-, hnone⟩ := Prod.mk.inj (Option.some.inj h)
            cases hnone
  cancel t runId := by
    unfold World.cancel
    split
    · rfl
    · split
      · rfl
      · split
        · split
          · split <;> rfl
          · rfl
        · rfl

end World

/-- In every state a thread has a pending map exactly when the last run created on it has
asked for input; the map holds that run's assistant and the interrupts it announced, and
refused calls and cancels leave it. -/
theorem pending_of_last_run (rt : Runtime) (n : Nat) (w : World) (h : (runSys rt n).Reachable w) :
    (∀ t, w.PendingOfLast rt t) ∧ w.RefusalsKeepPending := by
  refine ⟨fun t => ?_, w.refusalsKeepPending⟩
  have hP : w.PendingInv rt := World.pendingInv_of_reachable h
  have hL : w.LogInv := World.logInv_of_reachable h
  have hlast : ∀ {older r task}, w.runsOf t = older ++ [(r, task)] →
      w.pendingInputs.get? t = task.pending rt := by
    intro older r task hruns
    rw [hP.pending t, hruns, List.getLast?_concat]
    rfl
  constructor
  · intro hnil
    rw [hP.pending t, hnil]
    rfl
  · intro older r task hruns
    rw [hlast hruns, Task.pending, Task.interrupts, interruptsAfter]
    cases ending task.graph none task.fed with
    | none => exact Iff.rfl
    | some e =>
        rw [Option.any_some, e.asks_eq, Option.map_some, Option.getD_some]
        cases (e.interrupts rt).isEmpty <;> exact Iff.rfl
  · intro older r task pending hruns hpending hnodup
    have hmem : (r, task) ∈ w.runsOf t := by
      rw [hruns]
      exact List.mem_append_right _ (List.mem_singleton_self _)
    obtain ⟨hg, rfl⟩ := World.mem_runsOf.mp hmem
    rw [hL.eventsOf_eq hg, hP.announced r task hg] at hnodup ⊢
    rw [hlast hruns, Task.pending] at hpending
    split at hpending
    · cases hpending
    · rw [← Option.some.inj hpending]
      exact entries_pendingOf hnodup

/-- A run that has asked its question. -/
def asking : List StreamItem :=
  [.values (.ofList [("__interrupt__",
    .list [.dict [(.str "id", .str "i"), (.str "value", .str "go?")]])])]

theorem pending_of_last_run_asking :
    ∃ pending, (streamedEnd asking).pendingInputs.get? "t" = some pending ∧
      pending.entries =
        ("assistant_id", .str "agent") :: requestsOf ((streamedEnd asking).eventsOf "t" "1") := by
  have hrun : (runSys .inert 500).run (.new 500) (streamed asking) = some (streamedEnd asking) := rfl
  have hreach := TSys.reachable_of_run (M := runSys .inert 500) rfl hrun
  obtain ⟨pending, hp⟩ : ∃ pending, (streamedEnd asking).pendingInputs.get? "t" = some pending :=
    ⟨_, rfl⟩
  exact ⟨pending, hp, ((pending_of_last_run .inert 500 _ hreach).1 "t").entries [] "1" _ pending
    rfl hp (by decide)⟩

end AgentProtocol

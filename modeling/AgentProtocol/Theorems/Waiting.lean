import AgentProtocol.Runner.Loop
import AgentProtocol.Theorems.Quiescence

/-!
# What a waiter is told (`RunManager.wait`)

When `wait` returns, the run it has waited for is over and out of the slot of its thread. A
waiter that does not return was cancelled itself, and none is forgotten: the loop empties its
queue, and each waiter left then waits for a run that has not ended.
-/

namespace AgentProtocol

namespace EventLoop

variable {rt : Runtime} {n : Nat} {l l' : EventLoop} {r t : String} {id : Nat} {waiter : Waiter}

/-! ## The queue is worked off -/

/-- How often the loop turns for a handle, and for the one it may put on the queue. -/
def weight : Handle → Nat
  | .settle _ => 2
  | _ => 1

/-- A waiter at its shield has one more step to put on the queue. -/
def phaseWeight : WaitPhase → Nat
  | .shield _ _ => 1
  | _ => 0

def load (l : EventLoop) : Nat :=
  (l.ready.map weight).sum + l.waiters.weigh fun waiter => phaseWeight waiter.phase

theorem load_put {old : Waiter} (hg : l.waiters.get? id = some old) (waiter : Waiter)
    (handles : List Handle) :
    (l.put id waiter handles).load + phaseWeight old.phase =
      l.load + (handles.map weight).sum + phaseWeight waiter.phase := by
  have hset := Dict.weigh_set_of_mem (fun waiter : Waiter => phaseWeight waiter.phase) waiter hg
  simp only [load, put, List.map_append, List.sum_append] at hset ⊢
  omega

theorem load_settle (l : EventLoop) (id : Nat) : (l.settle id).load ≤ l.load + 1 := by
  unfold settle
  split
  · next t r c hg =>
    have hput := load_put hg ⟨t, .shield r true, c⟩ [.wake id]
    simp only [phaseWeight, weight, List.map_cons, List.map_nil, List.sum_cons,
      List.sum_nil] at hput
    omega
  · omega

theorem load_wake (l : EventLoop) (id : Nat) : (l.wake id).load ≤ l.load := by
  unfold wake
  split
  · next t r settled c hg =>
    split
    · have hput := load_put hg ⟨t, .raised, c⟩ []
      simp only [phaseWeight, List.map_nil, List.sum_nil] at hput
      omega
    · have hput := load_put hg ⟨t, .sleep r, c⟩ [.wake id]
      simp only [phaseWeight, weight, List.map_cons, List.map_nil, List.sum_cons,
        List.sum_nil] at hput
      omega
  · next t r c hg =>
    have hover : phaseWeight (if c then .raised else .returned (some r)) = 0 := by
      cases c <;> rfl
    have hput := load_put hg ⟨t, if c then .raised else .returned (some r), c⟩ []
    simp only [hover, List.map_nil, List.sum_nil] at hput
    omega
  · omega

theorem load_tick (h : l.step rt .tick = some l') : l'.load + 1 ≤ l.load := by
  simp only [step] at h
  split at h
  · cases h
  · next handle ready hready =>
    have hpop : ({ l with ready } : EventLoop).load + weight handle = l.load := by
      simp only [load, hready, List.map_cons, List.sum_cons]
      omega
    cases handle with
    | clear r =>
        obtain ⟨w, -, rfl⟩ := Option.map_eq_some_iff.mp h
        exact hpop.le
    | settle id =>
        obtain rfl := Option.some.inj h
        have hle := load_settle { l with ready } id
        simp only [weight] at hpop
        omega
    | wake id =>
        obtain rfl := Option.some.inj h
        have hle := load_wake { l with ready } id
        simp only [weight] at hpop
        omega

/-- The done-callback on the queue is one of a task that has ended. -/
theorem LoopInv.tick_enabled (hI : l.LoopInv) (rt : Runtime) (hne : l.ready ≠ []) :
    ∃ l', l.step rt .tick = some l' := by
  simp only [EventLoop.step]
  split
  · next hnil => exact absurd hnil hne
  · next handle ready hready =>
    cases handle with
    | clear r =>
        have hcount := hI.clears r
        rw [hready, List.count_cons_self] at hcount
        have hun : l.world.lingers r = true := by
          by_contra hnot
          rw [if_neg hnot] at hcount
          omega
        unfold World.lingers at hun
        split at hun
        · next task hg =>
          rw [Bool.and_eq_true, Bool.not_eq_true'] at hun
          simp [execute, World.callback, hg, hun.1, hun.2]
        · cases hun
    | settle id => exact ⟨_, rfl⟩
    | wake id => exact ⟨_, rfl⟩

/-- A waiter stays, on its thread. -/
theorem kept_of_put {old : Waiter} (hg : l.waiters.get? id = some old)
    (hthread : waiter.threadId = old.threadId) (handles : List Handle) {id' : Nat}
    {waiter' : Waiter} (hg' : l.waiters.get? id' = some waiter') :
    ∃ waiter'', (l.put id waiter handles).waiters.get? id' = some waiter'' ∧
      waiter''.threadId = waiter'.threadId := by
  by_cases hid : id = id'
  · subst hid
    obtain rfl := Option.some.inj (hg.symm.trans hg')
    exact ⟨waiter, Dict.get?_set_self _ _ _, hthread⟩
  · exact ⟨waiter', (Dict.get?_set_ne _ _ hid).trans hg', rfl⟩

theorem kept_of_tick (h : l.step rt .tick = some l') (hg : l.waiters.get? id = some waiter) :
    ∃ waiter', l'.waiters.get? id = some waiter' ∧ waiter'.threadId = waiter.threadId := by
  simp only [step] at h
  split at h
  · cases h
  · next handle ready hready =>
    cases handle with
    | clear r =>
        obtain ⟨w, -, rfl⟩ := Option.map_eq_some_iff.mp h
        exact ⟨waiter, hg, rfl⟩
    | settle id₀ =>
        obtain rfl := Option.some.inj h
        unfold settle
        split
        · next hg₀ => exact kept_of_put hg₀ (by rfl) _ hg
        · exact ⟨waiter, hg, rfl⟩
    | wake id₀ =>
        obtain rfl := Option.some.inj h
        unfold wake
        split
        · next hg₀ => split <;> exact kept_of_put hg₀ (by rfl) _ hg
        · next hg₀ => exact kept_of_put hg₀ (by rfl) _ hg
        · exact ⟨waiter, hg, rfl⟩

/-- The loop alone empties its queue. -/
theorem exists_drained (hl : (loopSys rt n).Reachable l) :
    ∃ k l', k ≤ l.load ∧ (loopSys rt n).run l (List.replicate k .tick) = some l' ∧
      l'.ready = [] ∧ ∀ id waiter, l.waiters.get? id = some waiter →
        ∃ waiter', l'.waiters.get? id = some waiter' ∧ waiter'.threadId = waiter.threadId := by
  induction hm : l.load using Nat.strong_induction_on generalizing l with
  | h m ih =>
      by_cases hready : l.ready = []
      · exact ⟨0, l, Nat.zero_le _, rfl, hready, fun id waiter hg => ⟨waiter, hg, rfl⟩⟩
      · obtain ⟨l₁, hstep⟩ := (loopInv_of_reachable hl).tick_enabled rt hready
        have hload := load_tick hstep
        obtain ⟨k, l', hk, hrun, hnil, hkept⟩ :=
          ih l₁.load (by omega) (hl.tail (a := .tick) trivial hstep) rfl
        refine ⟨k + 1, l', by omega, ?_, hnil, fun id waiter hg => ?_⟩
        · rw [List.replicate_succ, TSys.run_cons _ hstep]
          exact hrun
        · obtain ⟨waiter₁, hg₁, ht₁⟩ := kept_of_tick hstep hg
          obtain ⟨waiter', hg', ht'⟩ := hkept id waiter₁ hg₁
          exact ⟨waiter', hg', ht'.trans ht₁⟩

/-! ## What a waiter is told -/

/-- What a waiter that is through may rely on. -/
structure Told (l : EventLoop) (waiter : Waiter) : Prop where
  /-- the run it has waited for is over, and its slot is free for the next one -/
  settled : ∀ r, waiter.phase = .returned (some r) →
    (∃ task, l.world.tasks.get? r = some task ∧ task.threadId = waiter.threadId ∧
      task.phase.isDone = true) ∧ ∀ t a, l.world.active.get? t = some a → a.runId ≠ r
  returned : ∀ run, waiter.phase = .returned run → waiter.cancelling = false
  raised : waiter.phase = .raised → waiter.cancelling = true

/-- What is swept is in no slot. -/
theorem not_slot_of_swept (hS : l.world.SlotInv) (hU : l.world.Unswept)
    (h : l.world.Swept r t) {t' : String} {a : ActiveRun}
    (ha : l.world.active.get? t' = some a) : a.runId ≠ r := by
  rintro rfl
  obtain ⟨task, hg, -, -, hcleared⟩ := h
  have hslot := hS.slot t' a ha
  cases htask : a.task with
  | none =>
      rw [hslot.reserved htask] at hg
      cases hg
  | some id =>
      obtain ⟨rfl, -⟩ := hslot.real id htask
      rw [hU t' a a.runId task ha htask hg] at hcleared
      cases hcleared

theorem told_of_reachable (hl : (loopSys rt n).Reachable l)
    (hg : l.waiters.get? id = some waiter) : l.Told waiter := by
  have hw := (loopInv_of_reachable hl).waits id waiter hg
  have hS := World.slotInv_of_reachable (world_reachable hl)
  have hU := World.unswept_of_reachable (world_reachable hl)
  unfold Waits at hw
  constructor
  · intro r hphase
    simp only [hphase] at hw
    have hfree : ∀ t a, l.world.active.get? t = some a → a.runId ≠ r :=
      fun t a ha => not_slot_of_swept hS hU hw.2 ha
    obtain ⟨-, task, htask, ht, hdone, -⟩ := hw
    exact ⟨⟨task, htask, ht, hdone⟩, hfree⟩
  · intro run hphase
    cases run with
    | none =>
        simp only [hphase] at hw
        exact hw
    | some r =>
        simp only [hphase] at hw
        exact hw.1
  · intro hphase
    simp only [hphase] at hw
    exact hw

/-- With nothing on the queue, a waiter is through, or its run has not ended. -/
theorem LoopInv.idle (hI : l.LoopInv) (hnil : l.ready = [])
    (hg : l.waiters.get? id = some waiter) :
    (∃ run, waiter.phase = .returned run) ∨ waiter.phase = .raised ∨
      waiter.cancelling = false ∧ ∃ r task, waiter.phase = .shield r false ∧
        l.world.tasks.get? r = some task ∧ task.threadId = waiter.threadId ∧
        task.phase.isDone = false := by
  have hout : ∀ x : Handle, x ∉ l.ready := by simp [hnil]
  have hw := hI.waits id waiter hg
  unfold Waits at hw
  cases hphase : waiter.phase with
  | shield r settled =>
      cases settled with
      | false =>
          simp only [hphase] at hw
          obtain ⟨hc, -, ⟨⟨task, htask, ht, hnd⟩, -⟩ | hf⟩ := hw
          · exact .inr (.inr ⟨hc, r, task, rfl, htask, ht, hnd⟩)
          · exact absurd hf.1 (hout _)
      | true =>
          simp only [hphase] at hw
          exact absurd hw.1 (hout _)
  | sleep r =>
      simp only [hphase] at hw
      exact absurd hw.1 (hout _)
  | returned run => exact .inl ⟨run, rfl⟩
  | raised => exact .inr (.inl rfl)

end EventLoop

/-- `wait` returns when the run it has found is over and out of the slot of its thread, and raises
only where the waiter was cancelled itself. The loop empties its queue, and then each waiter has
come out of `wait`, or it was not cancelled and its run is still to end. -/
theorem wait_settles (rt : Runtime) (n : Nat) (l : EventLoop)
    (hl : (loopSys rt n).Reachable l) :
    (∀ id waiter, l.waiters.get? id = some waiter → l.Told waiter) ∧
      ∃ k l', k ≤ l.load ∧ (loopSys rt n).run l (List.replicate k .tick) = some l' ∧
        ∀ id waiter, l.waiters.get? id = some waiter →
          ∃ waiter', l'.waiters.get? id = some waiter' ∧ waiter'.threadId = waiter.threadId ∧
            l'.Told waiter' ∧
            ((∃ run, waiter'.phase = .returned run) ∨ waiter'.phase = .raised ∨
              waiter'.cancelling = false ∧ ∃ r task, waiter'.phase = .shield r false ∧
                l'.world.tasks.get? r = some task ∧ task.threadId = waiter.threadId ∧
                task.phase.isDone = false) := by
  refine ⟨fun id waiter hg => EventLoop.told_of_reachable hl hg, ?_⟩
  obtain ⟨k, l', hk, hrun, hnil, hkept⟩ := EventLoop.exists_drained hl
  have hl' := hl.trans (TSys.reaches_of_run hrun)
  refine ⟨k, l', hk, hrun, fun id waiter hg => ?_⟩
  obtain ⟨waiter', hg', ht⟩ := hkept id waiter hg
  refine ⟨waiter', hg', ht, EventLoop.told_of_reachable hl' hg', ?_⟩
  rw [← ht]
  exact (EventLoop.loopInv_of_reachable hl').idle hnil hg'

/-- A run is waited for twice, one of the waiters is cancelled, the run ends, and it is waited for
once more. -/
def waitedOn : EventLoop :=
  ((loopSys .inert 500).run ⟨.new 500, [], ∅⟩
    [.world (.register "agent"), .world (.start "t" (.str "agent") .null none .null "1"),
      .world (.resolved "1" (.graph ⟨true⟩)), .world (.begin "1"), .wait 0 "t", .wait 1 "t",
      .cancelWaiter 1, .world (.resume "1" .stop), .world (.resume "1" (.snapshot ∅)),
      .wait 2 "t"]).getD ⟨.new 500, [], ∅⟩

theorem wait_settles_cancelled :
    waitedOn.ready = [.wake 1, .clear "1", .settle 0, .wake 2] ∧
      ∃ k l', k ≤ 7 ∧ (loopSys .inert 500).run waitedOn (List.replicate k .tick) = some l' ∧
        ∃ waiter, l'.waiters.get? 1 = some waiter ∧ l'.Told waiter := by
  have hrun : (loopSys .inert 500).run ⟨.new 500, [], ∅⟩
      [.world (.register "agent"), .world (.start "t" (.str "agent") .null none .null "1"),
        .world (.resolved "1" (.graph ⟨true⟩)), .world (.begin "1"), .wait 0 "t", .wait 1 "t",
        .cancelWaiter 1, .world (.resume "1" .stop), .world (.resume "1" (.snapshot ∅)),
        .wait 2 "t"] = some waitedOn := rfl
  have hready : waitedOn.ready = [.wake 1, .clear "1", .settle 0, .wake 2] := by decide
  have hload : waitedOn.load = 7 := by decide
  have hone : waitedOn.waiters.get? 1 = some ⟨"t", .shield "1" true, true⟩ := rfl
  obtain ⟨-, k, l', hk, hticks, hall⟩ :=
    wait_settles .inert 500 waitedOn (TSys.reachable_of_run ⟨rfl, rfl, rfl⟩ hrun)
  obtain ⟨waiter, hg, -, htold, -⟩ := hall 1 _ hone
  exact ⟨hready, k, l', hload ▸ hk, hticks, waiter, hg, htold⟩

end AgentProtocol

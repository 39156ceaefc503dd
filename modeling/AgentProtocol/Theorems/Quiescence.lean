import AgentProtocol.Lib.Potential
import AgentProtocol.Runner.Messages
import AgentProtocol.Runner.Slots

/-!
# The process comes to rest (`runner.py`)

Clients start runs, and graphs stream items for as long as they like. Everything else the
process does for a run is bounded in advance: a run takes at most five steps beside its
items, whatever order coroutines, tasks and done-callbacks are scheduled in. So a process
that nobody starts runs in comes to rest, and there every thread is free again, but for the
threads whose `start` was abandoned between its reservation and its task.
-/

namespace AgentProtocol

/-- A call that may put a run into the process. -/
def Act.calls : Act → Bool
  | .start .. | .respond .. => true
  | _ => false

/-- A step on the way of a run to its end: all but the items of its stream. -/
def Act.advances : Act → Bool
  | .resolved .. | .begin _ | .callback _ => true
  | .resume _ awaited =>
    match awaited with
    | .item _ => false
    | _ => true
  | _ => false

theorem Act.calls_of_advances {a : Act} (h : a.advances = true) : a.calls = false := by
  cases a with
  | start | respond => cases h
  | _ => rfl

/-- How many steps beside its items a task in this phase may still take; the done-callback is
the last. -/
def Phase.rank (cleared : Bool) : Phase → Nat
  | .created => 4
  | .streaming .. => 3
  | .snapshot _ => 2
  | .done => if cleared then 0 else 1

def Task.rank (task : Task) : Nat := task.phase.rank task.cleared

section Phases

variable {rt : Runtime} {assistantId : String}

theorem Phase.rank_done (cleared : Bool) : Phase.done.rank cleared ≤ 1 := by
  simp only [Phase.rank]
  split <;> omega

theorem rank_settle (cleared : Bool) (tr : MessagesTranslator) (values : Dict String Value) :
    (settle rt assistantId tr values).phase.rank cleared ≤ 1 := by
  rw [settle_phase]
  exact Phase.rank_done cleared

/-- An item leaves the task in its loop, or ends it. -/
theorem rank_onItem (cleared : Bool) (tr : MessagesTranslator)
    (lastValues : Option (Dict String Value)) (item : StreamItem) :
    (onItem rt assistantId tr lastValues item).phase.rank cleared ≤ 3 := by
  have hdone := Phase.rank_done cleared
  have hfail : ∀ tr exc, (onException rt assistantId tr exc).phase.rank cleared ≤ 3 := by
    intro tr exc
    show Phase.done.rank cleared ≤ 3
    omega
  have hor : ∀ (r : Emission MessagesTranslator) (next : MessagesTranslator → TaskStep),
      (∀ tr, (next tr).phase.rank cleared ≤ 3) →
      (orFail rt assistantId r next).phase.rank cleared ≤ 3 := by
    intro r next hnext
    unfold orFail TaskStep.after
    cases r.raised with
    | some exc => exact hfail r.state exc
    | none => exact hnext r.state
  cases item with
  | messages chunk =>
      apply hor
      intro tr
      split
      · exact Nat.le_refl _
      · exact hor _ _ fun _ => Nat.le_refl _
  | malformed exc => exact hfail _ _
  | _ => exact Nat.le_refl _

/-- No await takes a task back, and all but an item bring it on. -/
theorem rank_resume {graph : Graph} {phase : Phase} {id : String} {awaited : Awaited}
    {s : TaskStep} (cleared : Bool) (h : resume rt assistantId graph phase awaited = some s) :
    s.phase.rank cleared + (if (Act.resume id awaited).advances then 1 else 0) ≤
      phase.rank cleared := by
  have hdone := Phase.rank_done cleared
  have hsettle : ∀ tr values, (settle rt assistantId tr values).phase.rank cleared ≤ 1 :=
    rank_settle cleared
  cases phase with
  | created => cases awaited <;> cases h
  | done => cases awaited <;> cases h
  | streaming tr last =>
      cases awaited with
      | item item =>
          obtain rfl := Option.some.inj h
          exact rank_onItem cleared tr last item
      | stop =>
          obtain rfl := Option.some.inj h
          show (onStop ..).phase.rank cleared + 1 ≤ 3
          unfold onStop
          split
          · have hle := hsettle tr
            exact Nat.le_trans (Nat.add_le_add_right (hle _) 1) (by omega)
          · split
            · exact Nat.le_refl _
            · have hle := hsettle tr ∅
              omega
      | snapshot values => cases h
      | raised exc | cancelled =>
          obtain rfl := Option.some.inj h
          show Phase.done.rank cleared + 1 ≤ 3
          omega
  | snapshot tr =>
      cases awaited with
      | item item => cases h
      | stop => cases h
      | snapshot values =>
          obtain rfl := Option.some.inj h
          exact Nat.add_le_add_right (hsettle tr values) 1
      | raised exc =>
          obtain rfl := Option.some.inj h
          exact Nat.add_le_add_right (hsettle tr ∅) 1
      | cancelled =>
          obtain rfl := Option.some.inj h
          exact Nat.add_le_add_right hdone 1

end Phases

namespace World

def load (w : World) : Nat := w.starting.weigh (fun _ => 5) + w.tasks.weigh Task.rank

variable {rt : Runtime} {n : Nat} {w w' : World} {t id : String} {task : Task}

/-! ## What one step does to the load -/

theorem eq_done {phase : Phase} (h : phase.isDone = true) : phase = .done := by
  cases phase with
  | done => rfl
  | _ => cases h

/-- A task that comes nearer to its end by `c` steps. -/
theorem load_set (hg : w.tasks.get? id = some task) {task' : Task} {c : Nat}
    (hstarting : w'.starting = w.starting) (htasks : w'.tasks = w.tasks.set id task')
    (hrank : task'.rank + c ≤ task.rank) : w'.load + c ≤ w.load := by
  have hset := Dict.weigh_set_of_mem Task.rank task' hg
  unfold load
  rw [hstarting, htasks]
  omega

theorem load_start (hI : w.SlotInv) {v : Value} {input : GraphInput}
    {config : Option (Dict String Json)} {metadata : Json} {runId : String}
    (hfresh : runId ∉ w.drawn) :
    (w.start t v input config metadata runId).1.load ≤ w.load + 5 := by
  have hstep := w.startStep t v input config metadata runId
  generalize w.start t v input config metadata runId = out at hstep
  cases hstep with
  | busy => exact Nat.le_add_right _ _
  | unknown => exact Nat.le_add_right _ _
  | held =>
      have hnone : w.starting.get? runId = none := by
        cases hs : w.starting.get? runId with
        | none => rfl
        | some s => exact absurd (hI.starting_fresh hs).1 hfresh
      simp only [load, hold, Dict.weigh_set_of_new _ _ hnone]
      omega

theorem load_respond (hI : w.SlotInv) {i : String} {response : Json} {asst : Option String}
    {runId : String} (hfresh : runId ∉ w.drawn) :
    (w.respond t i response asst runId).1.load ≤ w.load + 5 := by
  rcases w.respond_cases t i response asst runId with heq | ⟨v, -, heq⟩
  · rw [heq]
    exact Nat.le_add_right _ _
  · rw [heq]
    exact load_start hI hfresh

theorem load_cancel (runId : Option String) : (w.cancel t runId).1.load ≤ w.load := by
  unfold cancel
  split
  · exact Nat.le_refl _
  · split
    · exact Nat.le_refl _
    · split
      · split
        · next task hg =>
          split
          · exact Nat.le_refl _
          · exact load_set (c := 0) hg rfl rfl (Nat.le_refl task.rank)
        · exact Nat.le_refl _
      · exact Nat.le_refl _

/-- The end of graph resolution: the call is over, or a task is created. -/
theorem load_resolved (hI : w.SlotInv) {r : String} {outcome : Resolution}
    {out : World × Option RunExc} (h : w.resolved r outcome = some out) :
    out.1.load + 1 ≤ w.load := by
  unfold resolved at h
  split at h
  · cases h
  · next s hs =>
    have herase := Dict.weigh_erase (fun _ => 5) hs
    cases outcome with
    | raised exc =>
        obtain rfl := Option.some.inj h
        simp only [load]
        omega
    | cancelled =>
        obtain rfl := Option.some.inj h
        simp only [load]
        omega
    | graph graph =>
        simp only at h
        split at h
        · obtain rfl := Option.some.inj h
          simp only [load]
          omega
        · obtain rfl := Option.some.inj h
          simp only [load, launch, Dict.weigh_set_of_new _ _ (hI.starting_fresh hs).2, Task.rank,
            Phase.rank]
          omega

theorem load_begin (h : w.begin rt id = some w') : w'.load + 1 ≤ w.load := by
  unfold begin at h
  split at h
  · cases h
  · next task hg =>
    split at h
    · next hphase =>
      have hrank : task.rank = 4 := by rw [Task.rank, hphase, Phase.rank]
      split at h
      · obtain rfl := Option.some.inj h
        have hdone := Phase.rank_done task.cleared
        refine load_set hg rfl rfl ?_
        show Phase.done.rank task.cleared + 1 ≤ task.rank
        omega
      · obtain rfl := Option.some.inj h
        refine load_set hg rfl rfl ?_
        rw [hrank]
        exact Nat.le_refl _
    · cases h

theorem load_callback (h : w.callback id = some w') : w'.load + 1 ≤ w.load := by
  unfold callback at h
  split at h
  · cases h
  · next task hg =>
    split at h
    · next hdone =>
      obtain rfl := Option.some.inj h
      refine load_set hg rfl rfl ?_
      simp [Task.rank, eq_done hdone.1, Phase.rank, hdone.2]
    · cases h

theorem load_resume {awaited : Awaited} (h : w.resumeTask rt id awaited = some w') :
    w'.load + (if (Act.resume id awaited).advances then 1 else 0) ≤ w.load := by
  unfold resumeTask at h
  split at h
  · cases h
  · next task hg =>
    obtain ⟨s, hs, rfl⟩ := Option.map_eq_some_iff.mp h
    exact load_set hg rfl rfl (rank_resume task.cleared hs)

/-- What a step costs is paid by what it takes off the load, or by the call it is. -/
theorem load_step (hI : w.SlotInv) {a : Act} (h : w.step rt a = some w') :
    w'.load + (if a.advances then 1 else 0) ≤ w.load + (if a.calls then 5 else 0) := by
  cases a with
  | register assistantId =>
      obtain rfl := Option.some.inj h
      exact Nat.le_refl _
  | start t v input config metadata runId =>
      simp only [step] at h
      split at h
      · cases h
      · next hfresh =>
        obtain rfl := Option.some.inj h
        exact load_start hI hfresh
  | respond t i response asst runId =>
      simp only [step] at h
      split at h
      · cases h
      · next hfresh =>
        obtain rfl := Option.some.inj h
        exact load_respond hI hfresh
  | resolved r outcome =>
      obtain ⟨out, hout, rfl⟩ := Option.map_eq_some_iff.mp h
      exact load_resolved hI hout
  | cancel t runId =>
      obtain rfl := Option.some.inj h
      exact load_cancel runId
  | begin id => exact load_begin h
  | resume id awaited => exact load_resume h
  | callback id => exact load_callback h
  | stream t act =>
      simp only [step] at h
      split at h
      · cases h
      · obtain ⟨hub, -, rfl⟩ := Option.map_eq_some_iff.mp h
        exact Nat.le_refl _

/-! ## At rest -/

/-- A task whose done-callback has run is in no slot. -/
def Unswept (w : World) : Prop :=
  ∀ t a id task, w.active.get? t = some a → a.task = some id → w.tasks.get? id = some task →
    task.cleared = false

theorem Unswept.step (hI : w.SlotInv) (hU : w.Unswept) {a : Act} (h : WorldStep rt w a w') :
    w'.Unswept := by
  -- a slot that is taken from another one, and a task that is replaced
  have hset : ∀ {id : String} {task task' : Task}, w.tasks.get? id = some task →
      w'.active = w.active → w'.tasks = w.tasks.set id task' → task'.cleared = task.cleared →
      w'.Unswept := by
    intro id task task' hg hactive htasks hcleared t a id' task₁ ha hid hg'
    rw [hactive] at ha
    rw [htasks, Dict.get?_set] at hg'
    split at hg'
    · next heq =>
      obtain rfl := Option.some.inj hg'
      rw [hcleared]
      exact hU t a id task ha (heq ▸ hid) hg
    · exact hU t a id' task₁ ha hid hg'
  cases h with
  | rejected => exact hU
  | register => exact hU
  | stream => exact hU
  | refuse hfree hfresh hstarts hthread hrun htask =>
      intro t a id task ha hid hg
      have ha' := get?_of_get?_popIf ha
      rw [Dict.get?_set] at ha'
      split at ha'
      · obtain rfl := Option.some.inj ha'
        rw [htask] at hid
        cases hid
      · exact hU t a id task ha' hid hg
  | reserve =>
      intro t a id task ha hid hg
      simp only [Dict.get?_set] at ha
      split at ha
      · obtain rfl := Option.some.inj ha
        cases hid
      · exact hU t a id task ha hid hg
  | release => exact fun t a id task ha hid hg => hU t a id task (get?_of_get?_popIf ha) hid hg
  | abandon => exact hU
  | @launch runId graph s config hs =>
      intro t a id task ha hid hg
      simp only [launch, Dict.get?_set] at ha hg
      split at hg
      · obtain rfl := Option.some.inj hg
        rfl
      · next hne =>
        split at ha
        · obtain rfl := Option.some.inj ha
          exact absurd (Option.some.inj hid) hne
        · exact hU t a id task ha hid hg
  | cancel _ _ hg _ => exact hset hg rfl rfl rfl
  | skip hg _ _ => exact hset hg rfl rfl rfl
  | begin hg _ _ => exact hset hg rfl rfl rfl
  | resume hg _ => exact hset hg rfl rfl rfl
  | @callback id task hg hdone =>
      intro t a id' task' ha hid hg'
      simp only [Dict.get?_set] at hg'
      split at hg'
      · next heq =>
        -- the entry of this run was popped
        subst heq
        have ha' := get?_of_get?_popIf ha
        obtain ⟨hrun, task₀, hg₀, ht⟩ := (hI.slot t a ha').real id hid
        obtain rfl := Option.some.inj (hg.symm.trans hg₀)
        subst ht
        have hpop := get?_popIf_self ha'
        rw [← hrun, hid] at hpop
        simp only at ha
        rw [hpop] at ha
        cases ha
      · exact hU t a id' task' (get?_of_get?_popIf ha) hid hg'

theorem unswept_of_reachable (hw : (runSys rt n).Reachable w) : w.Unswept := by
  refine hw.induct ?_ ?_
  · rintro w rfl t a id task ha
    cases ha
  · intro w a w' hw hU _ hstep
    exact hU.step (slotInv_of_reachable hw) (worldStep_of_step hstep)

/-- Where nothing can bring a run on, each slot is free, or is that of an abandoned `start`. -/
theorem slotOf_at_rest (hI : w.SlotInv) (hU : w.Unswept)
    (hrest : ∀ a, a.advances = true → w.step rt a = none) (t : String) :
    w.slotOf t = .free ∨ ∃ r, w.slotOf t = .stranded r := by
  cases hslot : w.slotOf t with
  | free => exact .inl rfl
  | stranded r => exact .inr ⟨r, rfl⟩
  | reserved r =>
      obtain ⟨s, hs, -⟩ := hI.starting_of_reserved hslot
      have hnone := hrest (.resolved r .cancelled) rfl
      simp [step, resolved, hs] at hnone
  | held r =>
      obtain ⟨task, hg, -, hnd⟩ := hI.task_of_held hslot
      cases hphase : task.phase with
      | created =>
          have hnone := hrest (.begin r) rfl
          simp only [step, begin, hg, hphase] at hnone
          split at hnone <;> cases hnone
      | streaming tr last =>
          have hnone := hrest (.resume r .stop) rfl
          simp [step, resumeTask, hg, hphase, resume] at hnone
      | snapshot tr =>
          have hnone := hrest (.resume r .cancelled) rfl
          simp [step, resumeTask, hg, hphase, resume] at hnone
      | done =>
          rw [hphase] at hnd
          cases hnd
  | lingering r =>
      obtain ⟨a, task, ha, htask, hg, hdone⟩ := hI.task_of_lingering hslot
      have hcleared := hU t a r task ha htask hg
      have hnone := hrest (.callback r) rfl
      simp [step, callback, hg, hdone, hcleared] at hnone

end World

/-- The steps of the runs are paid for by the calls that start them. -/
def runPotential (rt : Runtime) (n : Nat) : (runSys rt n).Potential where
  load := World.load
  credit a := if a.calls then 5 else 0
  cost a := if a.advances then 1 else 0
  pays hw hstep := World.load_step (World.slotInv_of_reachable hw) hstep

/-- Beside the items of their streams, all runs together take at most the steps the load of
the process stands for, and five more for each call of `start` or `respond`. So the process
can be brought to rest, and wherever it is at rest no run is in a slot. -/
theorem comes_to_rest (rt : Runtime) (n : Nat) (w : World) (hw : (runSys rt n).Reachable w) :
    (∀ as v, (runSys rt n).run w as = some v →
      v.load + as.countP Act.advances ≤ w.load + 5 * as.countP Act.calls ∧
        ((∀ a, a.advances = true → v.step rt a = none) →
          ∀ t, v.slotOf t = .free ∨ ∃ r, v.slotOf t = .stranded r)) ∧
      ∃ as v, (runSys rt n).run w as = some v ∧ (∀ a ∈ as, a.advances = true) ∧
        ∀ a, a.advances = true → v.step rt a = none := by
  let P := runPotential rt n
  have hworks : ∀ a : Act, P.Works a ↔ a.advances = true := by
    intro a
    show (if a.calls then 5 else 0) < (if a.advances then 1 else 0) ↔ _
    cases hadv : a.advances with
    | true => simp [Act.calls_of_advances hadv]
    | false => simp
  refine ⟨fun as v hrun => ⟨?_, fun hrest => ?_⟩, ?_⟩
  · have hle := P.run_le hw hrun
    have hcost : (as.map P.cost).sum = as.countP Act.advances :=
      (sum_map_ite Act.advances 1 as).trans (Nat.one_mul _)
    have hcredit : (as.map P.credit).sum = 5 * as.countP Act.calls := sum_map_ite Act.calls 5 as
    rw [hcost, hcredit] at hle
    exact hle
  · have hv := hw.trans (TSys.reaches_of_run hrun)
    exact World.slotOf_at_rest (World.slotInv_of_reachable hv) (World.unswept_of_reachable hv) hrest
  · obtain ⟨as, v, hrun, hall, hsettled⟩ := P.exists_settled hw
    exact ⟨as, v, hrun, fun a ha => (hworks a).mp (hall a ha),
      fun a ha => hsettled a ((hworks a).mpr ha)⟩

/-- A process with one run in its stream, and one `start` in graph resolution. -/
def twoBegun : World :=
  ((runSys .inert 500).run (.new 500)
    [.register "agent", .start "t" (.str "agent") .null none .null "1",
      .resolved "1" (.graph ⟨true⟩), .begin "1",
      .start "u" (.str "agent") .null none .null "2"]).getD (.new 500)

theorem comes_to_rest_two :
    twoBegun.load = 8 ∧ ∃ as v, (runSys .inert 500).run twoBegun as = some v ∧ as.length ≤ 8 ∧
      ∀ t, v.slotOf t = .free ∨ ∃ r, v.slotOf t = .stranded r := by
  have hrun : (runSys .inert 500).run (.new 500)
      [.register "agent", .start "t" (.str "agent") .null none .null "1",
        .resolved "1" (.graph ⟨true⟩), .begin "1",
        .start "u" (.str "agent") .null none .null "2"] = some twoBegun := rfl
  have hload : twoBegun.load = 8 := by decide
  obtain ⟨hbound, as, v, hv, hall, hrest⟩ :=
    comes_to_rest .inert 500 twoBegun (TSys.reachable_of_run rfl hrun)
  obtain ⟨hle, hslots⟩ := hbound as v hv
  have hcount : as.countP Act.advances = as.length := List.countP_eq_length.mpr hall
  have hcalls : as.countP Act.calls = 0 := by
    rw [List.countP_eq_zero]
    intro a ha
    simp [Act.calls_of_advances (hall a ha)]
  exact ⟨hload, as, v, hv, by omega, hslots hrest⟩

end AgentProtocol

import AgentProtocol.Runner.Wait
import AgentProtocol.Runner.Slot

/-!
# Where a task ends

The end of a task, as its done-callback sees it: `World.ended` names the run whose task has
ended in a step, and that is the one run that begins to linger there (`lingers_of_step`). A
task that has ended has ended for good, and once it is swept, it stays so (`Swept.step`).
-/

namespace AgentProtocol

namespace World

/-- The task has ended and its done-callback has not run. -/
def lingers (w : World) (r : String) : Bool :=
  match w.tasks.get? r with
  | some task => task.phase.isDone && !task.cleared
  | none => false

/-- The run is over, and its done-callback has run. -/
def Swept (w : World) (r t : String) : Prop :=
  ∃ task, w.tasks.get? r = some task ∧ task.threadId = t ∧ task.phase.isDone = true ∧
    task.cleared = true

/-- No done-callback has run before its task has ended. -/
def ClearedDone (w : World) : Prop :=
  ∀ r task, w.tasks.get? r = some task → task.cleared = true → task.phase.isDone = true

variable {rt : Runtime} {n : Nat} {w w' : World} {a : Act} {r : String}

/-- What becomes of a task in a step that is no done-callback. -/
structure Goes (w' : World) (a : Act) (r : String) (task task' : Task) : Prop where
  thread : task'.threadId = task.threadId
  cleared : task'.cleared = task.cleared
  /-- a task that has ended has ended for good -/
  done : task.phase.isDone = true → task'.phase.isDone = true ∧ w'.ended a ≠ some r
  /-- and it has ended in the step that ends it -/
  ended : task.phase.isDone = false → (task'.phase.isDone = true ↔ w'.ended a = some r)

/-- A task that is as far as it was, in a step that ends another one, or none. -/
theorem Goes.of_phase {task task' : Task} (hend : w'.ended a ≠ some r)
    (hthread : task'.threadId = task.threadId) (hcleared : task'.cleared = task.cleared)
    (hphase : task'.phase = task.phase) : w'.Goes a r task task' where
  thread := hthread
  cleared := hcleared
  done hd := ⟨by rw [hphase, hd], hend⟩
  ended hnd := by
    rw [hphase, hnd]
    exact iff_of_false Bool.false_ne_true hend

/-- A step of one task. -/
theorem goes_of_set {id : String} {task₀ new task : Task}
    (hend : ∀ task, w'.tasks.get? id = some task →
      w'.ended a = if task.phase.isDone then some id else none)
    (htasks : w'.tasks = w.tasks.set id new) (hg₀ : w.tasks.get? id = some task₀)
    (hnd : task₀.phase.isDone = false) (hthread : new.threadId = task₀.threadId)
    (hcleared : new.cleared = task₀.cleared) (hg : w.tasks.get? r = some task) :
    ∃ task', w'.tasks.get? r = some task' ∧ w'.Goes a r task task' := by
  have hnew : w'.tasks.get? id = some new := by rw [htasks, Dict.get?_set_self]
  have hended := hend new hnew
  by_cases hr : id = r
  · subst hr
    obtain rfl := Option.some.inj (hg₀.symm.trans hg)
    refine ⟨new, hnew, hthread, hcleared, fun hd => ?_, fun _ => ?_⟩
    · rw [hnd] at hd
      cases hd
    · rw [hended]
      cases new.phase.isDone <;> simp
  · refine ⟨task, by rw [htasks, Dict.get?_set_ne _ _ hr, hg], .of_phase ?_ rfl rfl rfl⟩
    rw [hended]
    split
    · exact fun heq => hr (Option.some.inj heq)
    · exact fun heq => by cases heq

/-- A step that is none of one task. -/
theorem goes_of_other (hI : w.SlotInv) (h : WorldStep rt w a w') (hend : w'.ended a = none)
    (hbegin : ∀ id, a ≠ .begin id) (hresume : ∀ id awaited, a ≠ .resume id awaited)
    (hcallback : ∀ id, a ≠ .callback id) {task : Task} (hg : w.tasks.get? r = some task) :
    ∃ task', w'.tasks.get? r = some task' ∧ w'.Goes a r task task' := by
  have hnot : w'.ended a ≠ some r := by
    rw [hend]
    exact fun heq => by cases heq
  cases h with
  | @launch runId graph s config hs _ =>
      have hne : runId ≠ r := by
        rintro rfl
        rw [(hI.starting_fresh hs).2] at hg
        cases hg
      exact ⟨task, (Dict.get?_set_ne _ _ hne).trans hg, .of_phase hnot rfl rfl rfl⟩
  | @cancel t runId id entry task₀ _ _ hg₀ _ =>
      by_cases hr : id = r
      · subst hr
        obtain rfl := Option.some.inj (hg₀.symm.trans hg)
        exact ⟨_, Dict.get?_set_self _ _ _, .of_phase hnot rfl rfl rfl⟩
      · exact ⟨task, (Dict.get?_set_ne _ _ hr).trans hg, .of_phase hnot rfl rfl rfl⟩
  | skip => exact absurd rfl (hbegin _)
  | begin => exact absurd rfl (hbegin _)
  | resume => exact absurd rfl (hresume _ _)
  | callback => exact absurd rfl (hcallback _)
  | _ => exact ⟨task, hg, .of_phase hnot rfl rfl rfl⟩

theorem goes_of_step (hI : w.SlotInv) (h : w.step rt a = some w') (ha : ∀ id, a ≠ .callback id)
    {task : Task} (hg : w.tasks.get? r = some task) :
    ∃ task', w'.tasks.get? r = some task' ∧ w'.Goes a r task task' := by
  cases a with
  | callback id => exact absurd rfl (ha id)
  | begin id =>
      have hended : ∀ task, w'.tasks.get? id = some task →
          w'.ended (.begin id) = if task.phase.isDone then some id else none := by
        intro task hg
        simp only [ended, hg]
      simp only [step, begin] at h
      split at h
      · cases h
      · next task₀ hg₀ =>
        split at h
        · next hphase =>
          have hnd : task₀.phase.isDone = false := by rw [hphase]; rfl
          split at h
          · obtain rfl := Option.some.inj h
            exact goes_of_set hended rfl hg₀ hnd rfl rfl hg
          · obtain rfl := Option.some.inj h
            exact goes_of_set hended rfl hg₀ hnd rfl rfl hg
        · cases h
  | resume id awaited =>
      have hended : ∀ task, w'.tasks.get? id = some task →
          w'.ended (.resume id awaited) = if task.phase.isDone then some id else none := by
        intro task hg
        simp only [ended, hg]
      obtain ⟨task₀, s, hg₀, hs, rfl⟩ := resume_inv h
      exact goes_of_set hended rfl hg₀ (resume_not_done hs) rfl rfl hg
  | _ =>
      exact goes_of_other hI (worldStep_of_step h) rfl (fun _ h => by cases h)
        (fun _ _ h => by cases h) (fun _ h => by cases h) hg

/-- A task that comes up has not ended. -/
theorem fresh_of_step (h : WorldStep rt w a w') {task' : Task} (hnone : w.tasks.get? r = none)
    (hg : w'.tasks.get? r = some task') :
    task'.phase.isDone = false ∧ task'.cleared = false := by
  have hset : ∀ {id : String} {task new : Task}, w.tasks.get? id = some task →
      (w.tasks.set id new).get? r = some task' → False := by
    intro id task new hg₀ hg
    rw [Dict.get?_set] at hg
    split at hg
    · next hr =>
      rw [hr, hnone] at hg₀
      cases hg₀
    · rw [hnone] at hg
      cases hg
  cases h with
  | @launch runId graph s config _ _ =>
      simp only [launch, Dict.get?_set] at hg
      split at hg
      · rw [← Option.some.inj hg]
        exact ⟨rfl, rfl⟩
      · rw [hnone] at hg
        cases hg
  | cancel _ _ hg₀ _ => exact (hset hg₀ hg).elim
  | skip hg₀ _ _ => exact (hset hg₀ hg).elim
  | begin hg₀ _ _ => exact (hset hg₀ hg).elim
  | resume hg₀ _ => exact (hset hg₀ hg).elim
  | callback hg₀ _ => exact (hset hg₀ hg).elim
  | _ =>
      rw [hnone] at hg
      cases hg

/-- A task has ended for its done-callback to run. -/
theorem callback_inv {id : String} (h : w.callback id = some w') :
    ∃ task, w.tasks.get? id = some task ∧ task.phase.isDone = true ∧ task.cleared = false ∧
      w'.tasks = w.tasks.set id { task with cleared := true } := by
  unfold callback at h
  split at h
  · cases h
  · next task hg =>
    split at h
    · next hdone =>
      obtain rfl := Option.some.inj h
      exact ⟨task, hg, hdone.1, hdone.2, rfl⟩
    · cases h

theorem ended_inv (h : w.ended a = some r) :
    ∃ task, w.tasks.get? r = some task ∧ task.phase.isDone = true := by
  have hid : ∀ id : String, (match w.tasks.get? id with
      | some task => if task.phase.isDone then some id else none
      | none => none) = some r →
      ∃ task, w.tasks.get? r = some task ∧ task.phase.isDone = true := by
    intro id h
    split at h
    · next task hg =>
      split at h
      · next hdone =>
        obtain rfl := Option.some.inj h
        exact ⟨task, hg, hdone⟩
      · cases h
    · cases h
  cases a with
  | begin id => exact hid id h
  | resume id awaited => exact hid id h
  | _ => cases h

/-- A task lingers from the step that ends it. -/
theorem lingers_of_step (hI : w.SlotInv) (hC : w.ClearedDone) (h : w.step rt a = some w')
    (ha : ∀ id, a ≠ .callback id) (r : String) :
    w'.lingers r = (w.lingers r || decide (w'.ended a = some r)) ∧
      (w'.ended a = some r → w.lingers r = false) := by
  cases hg : w.tasks.get? r with
  | some task =>
      obtain ⟨task', hg', hgoes⟩ := goes_of_step hI h ha hg
      simp only [lingers, hg, hg', hgoes.cleared]
      cases hdone : task.phase.isDone with
      | true =>
          obtain ⟨hdone', hend⟩ := hgoes.done hdone
          simp [hdone', hend]
      | false =>
          have hcleared : task.cleared = false := by
            rw [← Bool.not_eq_true]
            intro hc
            rw [hC r task hg hc] at hdone
            cases hdone
          have hiff := hgoes.ended hdone
          cases hdone' : task'.phase.isDone <;> simp_all
  | none =>
      have hnot : w'.lingers r = false ∧ w'.ended a ≠ some r := by
        cases hg' : w'.tasks.get? r with
        | none =>
            refine ⟨by simp only [lingers, hg'], fun hend => ?_⟩
            obtain ⟨task, hgt, -⟩ := ended_inv hend
            rw [hg'] at hgt
            cases hgt
        | some task' =>
            obtain ⟨hnd, -⟩ := fresh_of_step (worldStep_of_step h) hg hg'
            refine ⟨by simp only [lingers, hg', hnd, Bool.false_and], fun hend => ?_⟩
            obtain ⟨task, hgt, hdone⟩ := ended_inv hend
            obtain rfl := Option.some.inj (hg'.symm.trans hgt)
            rw [hnd] at hdone
            cases hdone
      simp [lingers, hg, hnot.2]
      exact hnot.1

theorem ClearedDone.step (hI : w.SlotInv) (hC : w.ClearedDone) (h : w.step rt a = some w') :
    w'.ClearedDone := by
  intro r task' hg' hc
  cases a with
  | callback id =>
      obtain ⟨task, hg, hdone, -, htasks⟩ := callback_inv h
      rw [htasks, Dict.get?_set] at hg'
      split at hg'
      · rw [← Option.some.inj hg']
        exact hdone
      · exact hC r task' hg' hc
  | _ =>
      cases hg : w.tasks.get? r with
      | none =>
          rw [(fresh_of_step (worldStep_of_step h) hg hg').2] at hc
          cases hc
      | some task =>
          obtain ⟨task'', hg'', hgoes⟩ := goes_of_step hI h (fun _ h => by cases h) hg
          obtain rfl := Option.some.inj (hg'.symm.trans hg'')
          exact (hgoes.done (hC r task hg (hgoes.cleared.symm.trans hc))).1

/-- What is swept stays so. -/
theorem Swept.step {t : String} (hI : w.SlotInv) (hS : w.Swept r t) (h : w.step rt a = some w') :
    w'.Swept r t := by
  obtain ⟨task, hg, ht, hdone, hcleared⟩ := hS
  cases a with
  | callback id =>
      obtain ⟨task₀, hg₀, hdone₀, -, htasks⟩ := callback_inv h
      by_cases hr : id = r
      · subst hr
        obtain rfl := Option.some.inj (hg₀.symm.trans hg)
        exact ⟨{ task₀ with cleared := true }, by rw [htasks, Dict.get?_set_self], ht, hdone, rfl⟩
      · exact ⟨task, by rw [htasks, Dict.get?_set_ne _ _ hr, hg], ht, hdone, hcleared⟩
  | _ =>
      obtain ⟨task', hg', hgoes⟩ := goes_of_step hI h (fun _ h => by cases h) hg
      exact ⟨task', hg', hgoes.thread.trans ht, (hgoes.done hdone).1, hgoes.cleared.trans hcleared⟩

end World

end AgentProtocol

import AgentProtocol.Lib.Slots
import AgentProtocol.Runner.Log

/-!
# The threads of the process as slots

`World.slots` forgets everything of the process but what stands in the slot of each thread.
Every step of the process is then a step of `slotSys`, or two (a refused `start` reserves
and releases), or none (`slots_simulated`).
-/

namespace AgentProtocol

namespace World

/-- What an entry of `_active` stands for: a suspended `start`, one that was cancelled, a
task, or one that is done. -/
def slotState (w : World) (a : ActiveRun) : Slot String :=
  match a.task with
  | none => if w.starting.contains a.runId then .reserved a.runId else .stranded a.runId
  | some id => if w.busy a then .held id else .lingering id

def slotOf (w : World) (t : String) : Slot String :=
  match w.active.get? t with
  | none => .free
  | some a => w.slotState a

def slots (w : World) : Slots String String := { slot := w.slotOf, used := w.drawn }

variable {rt : Runtime} {n : Nat} {w w' : World} {t r : String} {a : ActiveRun}

theorem slotOf_of_active (h : w.active.get? t = some a) : w.slotOf t = w.slotState a := by
  rw [slotOf, h]

theorem slotOf_of_free (h : w.active.get? t = none) : w.slotOf t = .free := by
  rw [slotOf, h]

theorem open?_of_free (h : w.Free t) : (w.slotOf t).open? = true := by
  unfold slotOf
  split
  · rfl
  · next a ha =>
    have hbusy := h a ha
    unfold slotState
    cases htask : a.task with
    | none =>
        unfold busy at hbusy
        rw [htask] at hbusy
        cases hbusy
    | some id => simp [hbusy, Slot.open?]

/-- A suspended `start` has reserved the slot of its thread. -/
theorem SlotInv.slotOf_starting (hI : w.SlotInv) {s : Starting} (hs : w.starting.get? r = some s) :
    w.slotOf s.threadId = .reserved r := by
  obtain ⟨a, ha, rfl, htask⟩ := hI.starting r s hs
  have hcontains : w.starting.contains a.runId = true := by rw [Dict.contains, hs]; rfl
  rw [slotOf_of_active ha, slotState, htask]
  simp [hcontains]

/-- An unfinished task holds the slot of its thread. -/
theorem SlotInv.slotOf_running (hI : w.SlotInv) {task : Task} (hg : w.tasks.get? r = some task)
    (hnd : task.phase.isDone = false) : w.slotOf task.threadId = .held r := by
  obtain ⟨a, ha, -, htask⟩ := hI.running r task hg hnd
  have hbusy : w.busy a = true := by
    unfold busy
    rw [htask]
    simp [hg, hnd]
  rw [slotOf_of_active ha, slotState, htask]
  simp [hbusy]

/-- Whoever holds a slot has an unfinished task there. -/
theorem SlotInv.task_of_held (hI : w.SlotInv) (h : w.slotOf t = .held r) :
    ∃ task, w.tasks.get? r = some task ∧ task.threadId = t ∧ task.phase.isDone = false := by
  unfold slotOf at h
  split at h
  · cases h
  · next a ha =>
    unfold slotState at h
    split at h
    · split at h <;> cases h
    · next id hid =>
      split at h
      · next hbusy =>
        obtain ⟨-, task, hg, ht⟩ := (hI.slot t a ha).real id hid
        obtain rfl : id = r := by simpa using h
        unfold busy at hbusy
        rw [hid] at hbusy
        simp only [hg, Bool.not_eq_true'] at hbusy
        exact ⟨task, hg, ht, hbusy⟩
      · cases h

/-- A slot lingers for the done-callback of its task. -/
theorem SlotInv.task_of_lingering (hI : w.SlotInv)
    (h : w.slotOf t = .lingering r) :
    ∃ a task, w.active.get? t = some a ∧ a.task = some r ∧ w.tasks.get? r = some task ∧
      task.phase.isDone = true := by
  unfold slotOf at h
  split at h
  · cases h
  · next a ha =>
    unfold slotState at h
    split at h
    · split at h <;> cases h
    · next id hid =>
      split at h
      · cases h
      · next hbusy =>
        obtain ⟨-, task, hg, -⟩ := (hI.slot t a ha).real id hid
        obtain rfl : id = r := by simpa using h
        simp [busy, hid, hg] at hbusy
        exact ⟨a, task, ha, hid, hg, hbusy⟩

/-- Whoever has reserved a slot is a suspended `start` of its thread. -/
theorem SlotInv.starting_of_reserved (hI : w.SlotInv) (h : w.slotOf t = .reserved r) :
    ∃ s, w.starting.get? r = some s ∧ s.threadId = t := by
  unfold slotOf at h
  split at h
  · cases h
  · next a ha =>
    unfold slotState at h
    split at h
    · split at h
      · next hcontains =>
        obtain rfl : a.runId = r := by simpa using h
        obtain ⟨s, hs⟩ := Option.isSome_iff_exists.mp hcontains
        obtain ⟨a', ha', hr, -⟩ := hI.starting a.runId s hs
        exact ⟨s, hs, (hI.unique _ _ _ _ ha' ha hr)⟩
      · cases h
    · split at h <;> cases h

/-- An entry that stays, of a run whose state stays, stands for the same. -/
theorem slotOf_congr (hactive : w'.active.get? t = w.active.get? t)
    (hstarting : ∀ a, w.active.get? t = some a → a.task = none →
      w'.starting.contains a.runId = w.starting.contains a.runId)
    (hbusy : ∀ a, w.active.get? t = some a → a.task ≠ none → w'.busy a = w.busy a) :
    w'.slotOf t = w.slotOf t := by
  unfold slotOf
  rw [hactive]
  cases ha : w.active.get? t with
  | none => rfl
  | some a =>
      show w'.slotState a = w.slotState a
      unfold slotState
      cases htask : a.task with
      | none => simp only [hstarting a ha htask]
      | some id => simp only [hbusy a ha (by rw [htask]; exact Option.some_ne_none id)]

/-- One slot of the process changes. -/
theorem slots_eq_put {x : Slot String} (hself : w'.slotOf t = x)
    (hother : ∀ t', t' ≠ t → w'.slotOf t' = w.slotOf t') :
    w'.slots = { w.slots.put t x with used := w'.drawn } := by
  simp only [slots, Slots.put, Slots.mk.injEq, and_true]
  funext t'
  by_cases ht : t' = t
  · rw [ht, hself, Function.update_self]
  · rw [hother t' ht, Function.update_of_ne ht]

theorem slots_eq (hdrawn : w'.drawn = w.drawn) (h : ∀ t, w'.slotOf t = w.slotOf t) :
    w'.slots = w.slots := by
  unfold slots
  rw [hdrawn]
  simp only [Slots.mk.injEq, and_true]
  exact funext h

/-- A task that is replaced leaves the slots of the other runs alone. -/
theorem busy_set {id : String} {task' : Task} (htasks : w'.tasks = w.tasks.set id task')
    (hne : a.task ≠ some id) : w'.busy a = w.busy a := by
  unfold busy
  cases htask : a.task with
  | none => rfl
  | some id' =>
      have hid : id ≠ id' := fun heq => hne (heq ▸ htask)
      simp only [htasks, Dict.get?_set_ne _ _ hid]

/-- So does one that is as far from done as it was. -/
theorem busy_set_same {id : String} {task task' : Task} (hg : w.tasks.get? id = some task)
    (htasks : w'.tasks = w.tasks.set id task')
    (hdone : task'.phase.isDone = task.phase.isDone) : w'.busy a = w.busy a := by
  by_cases htask : a.task = some id
  · unfold busy
    simp only [htask, htasks, Dict.get?_set_self, hg, hdone]
  · exact busy_set htasks htask

/-- The name on a slot is that of its entry. -/
theorem SlotInv.task_eq (hI : w.SlotInv) (ha : w.active.get? t = some a) {id : String}
    (h : a.task = some id) : id = a.runId := ((hI.slot t a ha).real id h).1

theorem contains_erase_ne {starting : Dict String Starting} (h : r ≠ a.runId) :
    (starting.erase r).contains a.runId = starting.contains a.runId := by
  rw [Dict.contains, Dict.get?_erase_ne _ h, Dict.contains]

theorem popIf_eq_self {active : Dict String ActiveRun} {k : Option String}
    (h : ∀ a, active.get? t = some a → ¬(a.runId = r ∧ a.task = k)) :
    popIf active t r k = active := by
  unfold popIf
  split
  · next a ha => rw [if_neg (h a ha)]
  · rfl

/-! ## One step -/

/-- The entries of the other threads are of other runs. -/
theorem SlotInv.other_run (hI : w.SlotInv) {t' : String} {a' : ActiveRun}
    (ha : w.active.get? t = some a) (ht : t' ≠ t) (ha' : w.active.get? t' = some a') :
    a.runId ≠ a'.runId := fun heq => ht (hI.unique t t' a a' ha ha' heq).symm

/-- Ending a suspended `start` changes only what its own slot stands for. -/
theorem SlotInv.slotOf_ended (hI : w.SlotInv) {s : Starting} (hs : w.starting.get? r = some s)
    (hstarting : w'.starting = w.starting.erase r) {t' : String} (ht : t' ≠ s.threadId)
    (hactive : w'.active.get? t' = w.active.get? t')
    (hbusy : ∀ a, w.active.get? t' = some a → w'.busy a = w.busy a) :
    w'.slotOf t' = w.slotOf t' := by
  obtain ⟨a, ha, rfl, -⟩ := hI.starting r s hs
  refine slotOf_congr hactive (fun a' ha' _ => ?_) (fun a' ha' _ => hbusy a' ha')
  rw [hstarting]
  exact contains_erase_ne (hI.other_run ha ht ha')

/-- A run id that was not drawn is on no slot. -/
theorem SlotInv.ne_of_fresh (hI : w.SlotInv) (hfresh : r ∉ w.drawn)
    (ha : w.active.get? t = some a) : r ≠ a.runId :=
  fun heq => hfresh (heq ▸ (hI.slot t a ha).drawn)

/-- One step on the slot of a thread. -/
theorem reaches_of_put {act : SlotAct String String} {x : Slot String}
    (hstep : w.slots.step act = some (w.slots.put t x)) (hdrawn : w'.drawn = w.drawn)
    (hself : w'.slotOf t = x) (hother : ∀ t', t' ≠ t → w'.slotOf t' = w.slotOf t') :
    (slotSys String String).Reaches w.slots w'.slots := by
  rw [slots_eq_put hself hother, hdrawn]
  exact .single trivial hstep

/-- A step of a task that is as far from done as it was. -/
theorem reaches_of_task {id : String} {task task' : Task} (hg : w.tasks.get? id = some task)
    (htasks : w'.tasks = w.tasks.set id task') (hdone : task'.phase.isDone = task.phase.isDone)
    (hactive : w'.active = w.active) (hstarting : w'.starting = w.starting)
    (hdrawn : w'.drawn = w.drawn) : (slotSys String String).Reaches w.slots w'.slots := by
  have hsame : ∀ t, w'.slotOf t = w.slotOf t := fun t =>
    slotOf_congr (by rw [hactive]) (fun _ _ _ => by rw [hstarting]) fun _ _ _ =>
      busy_set_same hg htasks hdone
  rw [slots_eq hdrawn hsame]
  exact .refl

/-- The end of a task. -/
theorem SlotInv.reaches_of_done (hI : w.SlotInv) {id : String} {task task' : Task}
    (hg : w.tasks.get? id = some task) (hnd : task.phase.isDone = false)
    (htasks : w'.tasks = w.tasks.set id task') (hdone : task'.phase.isDone = true)
    (hactive : w'.active = w.active) (hstarting : w'.starting = w.starting)
    (hdrawn : w'.drawn = w.drawn) : (slotSys String String).Reaches w.slots w'.slots := by
  have hslot := hI.slotOf_running hg hnd
  obtain ⟨a, ha, -, htask⟩ := hI.running id task hg hnd
  have hstep : w.slots.step (.finish task.threadId) =
      some (w.slots.put task.threadId (.lingering id)) := by
    simp [Slots.step, slots, hslot]
  refine reaches_of_put hstep hdrawn ?_ ?_
  · rw [slotOf_of_active (hactive ▸ ha), slotState, htask]
    have hbusy : w'.busy a = false := by
      unfold busy
      simp [htask, htasks, hdone]
    simp [hbusy]
  · intro t' ht
    refine slotOf_congr (by rw [hactive]) (fun _ _ _ => by rw [hstarting]) fun a' ha' _ => ?_
    apply busy_set htasks
    intro hid
    have hrun := hI.other_run ha ht ha'
    rw [← hI.task_eq ha htask, ← hI.task_eq ha' hid] at hrun
    exact hrun rfl

/-- A free slot takes a fresh run id. -/
theorem slots_enter (hfree : w.Free t) (hfresh : r ∉ w.drawn) :
    (slotSys String String).step w.slots (.reserve t r) = some (w.slots.enter t r) :=
  if_pos ⟨open?_of_free hfree, hfresh⟩

/-- A start that finds no factory takes the slot and gives it back. -/
theorem slots_refuse (hfree : w.Free t) (hfresh : r ∉ w.drawn) {reserved : ActiveRun}
    (hrun : reserved.runId = r) (htask : reserved.task = none) :
    (slotSys String String).Reaches w.slots (World.slots { w with
      active := popIf (w.active.set t reserved) t r none
      drawn := r :: w.drawn }) := by
  have hleave : (slotSys String String).step (w.slots.enter t r) (.release t) =
      some ((w.slots.enter t r).put t .free) := by
    simp [slotSys, Slots.step]
  have hput : (w.slots.enter t r).put t .free =
      { w.slots.put t .free with used := r :: w.drawn } := by
    simp [Slots.put, Slots.enter, slots]
  have hself : (World.slotOf { w with
      active := popIf (w.active.set t reserved) t r none
      drawn := r :: w.drawn } t) = .free := by
    apply slotOf_of_free
    rw [← hrun, ← htask]
    exact get?_popIf_self (Dict.get?_set_self _ _ _)
  rw [slots_eq_put hself fun t' ht => slotOf_congr
    ((get?_popIf_ne _ _ _ ht.symm).trans (Dict.get?_set_ne _ _ ht.symm))
    (fun _ _ _ => rfl) fun _ _ _ => rfl]
  rw [hput] at hleave
  exact .tail (.single trivial (slots_enter hfree hfresh)) trivial hleave

theorem SlotInv.slots_reserve (hI : w.SlotInv) (hfree : w.Free t) (hfresh : r ∉ w.drawn)
    (s : Starting) :
    (slotSys String String).Reaches w.slots (World.slots { w with
      active := w.active.set t
        { runId := r, threadId := t, assistantId := .str s.assistantId, task := none }
      drawn := r :: w.drawn
      starting := w.starting.set r s }) := by
  have hself : (World.slotOf { w with
      active := w.active.set t
        { runId := r, threadId := t, assistantId := .str s.assistantId, task := none }
      drawn := r :: w.drawn
      starting := w.starting.set r s } t) = .reserved r := by
    rw [slotOf_of_active (Dict.get?_set_self _ _ _), slotState]
    simp [Dict.contains]
  rw [slots_eq_put hself fun t' ht => slotOf_congr (Dict.get?_set_ne _ _ ht.symm)
    (fun a' ha' _ => by
      rw [Dict.contains, Dict.get?_set_ne _ _ (hI.ne_of_fresh hfresh ha'), Dict.contains])
    fun _ _ _ => rfl]
  exact .single trivial (slots_enter hfree hfresh)

theorem SlotInv.slots_release (hI : w.SlotInv) {s : Starting}
    (hs : w.starting.get? r = some s) :
    (slotSys String String).Reaches w.slots (World.slots { w with
      starting := w.starting.erase r
      active := popIf w.active s.threadId r none }) := by
  have hslot := hI.slotOf_starting hs
  obtain ⟨a, ha, hr, htask⟩ := hI.starting r s hs
  have hstep : w.slots.step (.release s.threadId) = some (w.slots.put s.threadId .free) := by
    simp [Slots.step, slots, hslot]
  refine reaches_of_put hstep rfl ?_ ?_
  · apply slotOf_of_free
    rw [← hr, ← htask]
    exact get?_popIf_self ha
  · intro t' ht
    exact hI.slotOf_ended hs rfl ht (get?_popIf_ne _ _ _ ht.symm) fun _ _ => rfl

/-- The entry of a start that was cancelled, or whose merge raised, stays. -/
theorem SlotInv.slots_abandon (hI : w.SlotInv) {s : Starting}
    (hs : w.starting.get? r = some s) :
    (slotSys String String).Reaches w.slots
      (World.slots { w with starting := w.starting.erase r }) := by
  have hslot := hI.slotOf_starting hs
  obtain ⟨a, ha, hr, htask⟩ := hI.starting r s hs
  have hstep : w.slots.step (.strand s.threadId) =
      some (w.slots.put s.threadId (.stranded r)) := by
    simp [Slots.step, slots, hslot]
  refine reaches_of_put hstep rfl ?_ ?_
  · rw [slotOf_of_active (w := { w with starting := w.starting.erase r }) ha, slotState, htask]
    simp [hr, Dict.contains]
  · intro t' ht
    exact hI.slotOf_ended hs rfl ht rfl fun _ _ => rfl

theorem SlotInv.slots_launch (hI : w.SlotInv) {s : Starting} (hs : w.starting.get? r = some s)
    (graph : Graph) (config : Dict String Json) :
    (slotSys String String).Reaches w.slots (w.launch r s graph config).slots := by
  have hslot := hI.slotOf_starting hs
  obtain ⟨-, hfresh⟩ := hI.starting_fresh hs
  have hstep : w.slots.step (.hold s.threadId) = some (w.slots.put s.threadId (.held r)) := by
    simp [Slots.step, slots, hslot]
  refine reaches_of_put hstep rfl ?_ ?_
  · rw [slotOf_of_active (Dict.get?_set_self _ _ _), slotState]
    simp [busy, World.launch, Phase.isDone]
  · intro t' ht
    refine hI.slotOf_ended hs rfl ht (Dict.get?_set_ne _ _ ht.symm) fun a' ha' => ?_
    apply busy_set rfl
    intro hid
    -- the task of another slot was there before
    obtain ⟨-, task, hg, -⟩ := (hI.slot t' a' ha').real r hid
    rw [hfresh] at hg
    cases hg

theorem slots_callback {id : String} {task : Task} (hg : w.tasks.get? id = some task)
    (hdone : task.phase.isDone = true) :
    (slotSys String String).Reaches w.slots (World.slots { w with
      tasks := w.tasks.set id { task with cleared := true }
      active := popIf w.active task.threadId id (some id) }) := by
  by_cases hmine : ∃ a, w.active.get? task.threadId = some a ∧ a.runId = id ∧ a.task = some id
  · -- the entry is still that of the run
    obtain ⟨a, ha, hr, htask⟩ := hmine
    have hbusy : w.busy a = false := by
      unfold busy
      simp [htask, hg, hdone]
    have hslot : w.slotOf task.threadId = .lingering id := by
      rw [slotOf_of_active ha, slotState, htask]
      simp [hbusy]
    have hstep : w.slots.step (.clear task.threadId) = some (w.slots.put task.threadId .free) := by
      simp [Slots.step, slots, hslot]
    refine reaches_of_put hstep rfl ?_ ?_
    · apply slotOf_of_free
      have hpop := get?_popIf_self ha
      rwa [hr, htask] at hpop
    · exact fun t' ht => slotOf_congr (get?_popIf_ne _ _ _ ht.symm) (fun _ _ _ => rfl)
        fun a' _ _ => busy_set_same hg rfl rfl
  · have hpop : popIf w.active task.threadId id (some id) = w.active :=
      popIf_eq_self fun a ha hx => hmine ⟨a, ha, hx⟩
    exact reaches_of_task hg rfl rfl hpop rfl rfl

/-- A step of the process is a run of its slots. -/
theorem slots_step (hI : w.SlotInv) {act : Act} (h : WorldStep rt w act w') :
    (slotSys String String).Reaches w.slots w'.slots := by
  cases h with
  | rejected | register | stream => exact .refl
  | refuse hfree hfresh _ _ hrun htask => exact slots_refuse hfree hfresh hrun htask
  | @reserve _ _ _ s hfree hfresh => exact hI.slots_reserve hfree hfresh s
  | release hs => exact hI.slots_release hs
  | abandon hs => exact hI.slots_abandon hs
  | launch hs => exact hI.slots_launch hs _ _
  | cancel _ _ hg _ => exact reaches_of_task hg rfl rfl rfl rfl rfl
  | skip hg hphase _ => exact hI.reaches_of_done hg (by rw [hphase]; rfl) rfl rfl rfl rfl rfl
  | begin hg hphase _ => exact reaches_of_task hg rfl (by rw [hphase]; rfl) rfl rfl rfl
  | @resume id task awaited s hg hs =>
      have hnd := resume_not_done hs
      cases hdone : s.phase.isDone with
      | true => exact hI.reaches_of_done hg hnd rfl hdone rfl rfl rfl
      | false => exact reaches_of_task hg rfl (hdone.trans hnd.symm) rfl rfl rfl
  | callback hg hdone => exact slots_callback hg hdone

end World

/-- The process refines the slots: forgetting the rest of it, each of its runs is a run of
slots that one job at a time holds. -/
theorem slots_simulated (rt : Runtime) (n : Nat) :
    (runSys rt n).Simulates (slotSys String String) (fun _ _ => True) (fun _ _ => True)
      World.slots where
  init := by
    rintro w rfl
    rfl
  step _ _ _ hw _ hstep :=
    World.slots_step (World.slotInv_of_reachable hw) (World.worldStep_of_step hstep)

end AgentProtocol

import AgentProtocol.Runner.Inversion

/-!
# The slot of a thread

`World.SlotInv` ties the three places a run can be found in (the slot, the
suspended `start` coroutines, the tasks) to each other: whoever is starting or
running on a thread is in its slot, and whatever is in a slot was drawn and, once
it has a task, is the run of that task. It holds in every reachable state
(`slotInv_of_reachable`), in whatever order a `start`, its failure, the end of a
task and its done-callback come.
-/

namespace AgentProtocol

/-- An entry of `_active` under thread `t`. -/
structure World.SlotOf (w : World) (t : String) (a : ActiveRun) : Prop where
  thread : a.threadId = t
  drawn : a.runId ∈ w.drawn
  reserved : a.task = none → w.tasks.get? a.runId = none
  real : ∀ id, a.task = some id → id = a.runId ∧
    ∃ task, w.tasks.get? id = some task ∧ task.threadId = t

structure World.SlotInv (w : World) : Prop where
  slot : ∀ t a, w.active.get? t = some a → w.SlotOf t a
  unique : ∀ t t' a a', w.active.get? t = some a → w.active.get? t' = some a' →
    a.runId = a'.runId → t = t'
  starting : ∀ r s, w.starting.get? r = some s →
    ∃ a, w.active.get? s.threadId = some a ∧ a.runId = r ∧ a.task = none
  running : ∀ r task, w.tasks.get? r = some task → task.phase.isDone = false →
    ∃ a, w.active.get? task.threadId = some a ∧ a.runId = r ∧ a.task = some r
  drawn : ∀ r task, w.tasks.get? r = some task → r ∈ w.drawn

namespace World

variable {rt : Runtime} {n : Nat} {w w' : World}

theorem SlotInv.init (n : Nat) : (World.new n).SlotInv where
  slot _ _ h := by cases h
  unique _ _ _ _ h := by cases h
  starting _ _ h := by cases h
  running _ _ h := by cases h
  drawn _ _ h := by cases h

/-- A starting run has no task yet. -/
theorem SlotInv.starting_fresh (hI : w.SlotInv) {r : String} {s : Starting}
    (h : w.starting.get? r = some s) : r ∈ w.drawn ∧ w.tasks.get? r = none := by
  obtain ⟨a, ha, rfl, htask⟩ := hI.starting r s h
  exact ⟨(hI.slot _ a ha).drawn, (hI.slot _ a ha).reserved htask⟩

/-- Nobody is starting or running on a free thread. -/
theorem SlotInv.not_starting_of_free (hI : w.SlotInv) {t r : String} (hf : w.Free t)
    {s : Starting} (h : w.starting.get? r = some s) : s.threadId ≠ t := by
  rintro rfl
  obtain ⟨a, ha, -, htask⟩ := hI.starting r s h
  have hbusy := hf a ha
  unfold busy at hbusy
  rw [htask] at hbusy
  cases hbusy

theorem SlotInv.not_running_of_free (hI : w.SlotInv) {t r : String} (hf : w.Free t) {task : Task}
    (h : w.tasks.get? r = some task) (hnd : task.phase.isDone = false) : task.threadId ≠ t := by
  rintro rfl
  obtain ⟨a, ha, -, htask⟩ := hI.running r task h hnd
  have hbusy := hf a ha
  unfold busy at hbusy
  rw [htask] at hbusy
  simp only [h, hnd, Bool.not_false, Bool.true_eq_false] at hbusy

/-- An update that leaves slots and starting calls alone, and of a task changes
neither its thread nor that it is done, keeps the invariant. -/
theorem SlotInv.of_same (hI : w.SlotInv) (hactive : w'.active = w.active)
    (hstarting : w'.starting = w.starting) (hdrawn : w'.drawn = w.drawn)
    (htasks : ∀ r, (w.tasks.get? r = none ∧ w'.tasks.get? r = none) ∨
      ∃ task task', w.tasks.get? r = some task ∧ w'.tasks.get? r = some task' ∧
        task'.threadId = task.threadId ∧ (task.phase.isDone = true → task'.phase.isDone = true)) :
    w'.SlotInv := by
  have hback : ∀ {r task'}, w'.tasks.get? r = some task' → ∃ task, w.tasks.get? r = some task ∧
      task'.threadId = task.threadId ∧ (task'.phase.isDone = false → task.phase.isDone = false) := by
    intro r task' h
    rcases htasks r with ⟨-, hnone⟩ | ⟨task, task₁, hg, hg', ht, hd⟩
    · rw [hnone] at h
      cases h
    · obtain rfl := Option.some.inj (hg'.symm.trans h)
      refine ⟨task, hg, ht, ?_⟩
      intro hnd
      cases htd : task.phase.isDone with
      | false => rfl
      | true =>
          rw [hd htd] at hnd
          cases hnd
  constructor
  · intro t a ha
    rw [hactive] at ha
    have hs := hI.slot t a ha
    refine ⟨hs.thread, hdrawn ▸ hs.drawn, ?_, ?_⟩
    · intro htask
      rcases htasks a.runId with ⟨-, hnone⟩ | ⟨task, task', hg, -⟩
      · exact hnone
      · rw [hs.reserved htask] at hg
        cases hg
    · intro id hid
      obtain ⟨hrun, task, hg, ht⟩ := hs.real id hid
      rcases htasks id with ⟨hnone, -⟩ | ⟨task₁, task', hg₁, hg', ht', -⟩
      · rw [hnone] at hg
        cases hg
      · obtain rfl := Option.some.inj (hg₁.symm.trans hg)
        exact ⟨hrun, task', hg', ht'.trans ht⟩
  · rw [hactive]
    exact hI.unique
  · intro r s hs
    rw [hstarting] at hs
    rw [hactive]
    exact hI.starting r s hs
  · intro r task' h hnd
    obtain ⟨task, hg, ht, hd⟩ := hback h
    rw [hactive, ht]
    exact hI.running r task hg (hd hnd)
  · intro r task' h
    obtain ⟨task, hg, -, -⟩ := hback h
    rw [hdrawn]
    exact hI.drawn r task hg

theorem tasks_same (r : String) : (w.tasks.get? r = none ∧ w.tasks.get? r = none) ∨
    ∃ t₁ t₂, w.tasks.get? r = some t₁ ∧ w.tasks.get? r = some t₂ ∧
      t₂.threadId = t₁.threadId ∧ (t₁.phase.isDone = true → t₂.phase.isDone = true) := by
  cases w.tasks.get? r with
  | none => exact .inl ⟨rfl, rfl⟩
  | some t₁ => exact .inr ⟨t₁, t₁, rfl, rfl, rfl, id⟩

/-- In particular one that replaces one task. -/
theorem SlotInv.of_set (hI : w.SlotInv) {r : String} {task task' : Task}
    (htasks : w'.tasks = w.tasks.set r task') (hg : w.tasks.get? r = some task)
    (ht : task'.threadId = task.threadId)
    (hd : task.phase.isDone = true → task'.phase.isDone = true) (hactive : w'.active = w.active)
    (hstarting : w'.starting = w.starting) (hdrawn : w'.drawn = w.drawn) : w'.SlotInv := by
  apply hI.of_same hactive hstarting hdrawn
  intro r'
  rw [htasks]
  by_cases hr : r = r'
  · subst hr
    exact .inr ⟨task, task', hg, Dict.get?_set_self _ _ _, ht, hd⟩
  · rw [Dict.get?_set_ne _ _ hr]
    exact tasks_same r'

/-- The slots of a world with other active entries and more drawn ids. -/
theorem SlotOf.mono {t : String} {a : ActiveRun} (h : w.SlotOf t a) (htasks : w'.tasks = w.tasks)
    (hdrawn : ∀ r ∈ w.drawn, r ∈ w'.drawn) : w'.SlotOf t a := by
  refine ⟨h.thread, hdrawn _ h.drawn, ?_, ?_⟩
  · rw [htasks]
    exact h.reserved
  · rw [htasks]
    exact h.real

theorem resume_not_done {graph : Graph} {assistantId : String} {phase : Phase} {awaited : Awaited}
    {s : TaskStep} (h : resume rt assistantId graph phase awaited = some s) :
    phase.isDone = false := by
  cases phase with
  | done => cases awaited <;> cases h
  | _ => rfl

/-- A fresh run takes the slot of a free thread. -/
theorem SlotInv.occupy (hI : w.SlotInv) {t : String} {reserved : ActiveRun} (hfree : w.Free t)
    (hfresh : reserved.runId ∉ w.drawn) (hthread : reserved.threadId = t)
    (htask : reserved.task = none) :
    SlotInv { w with
      active := w.active.set t reserved
      drawn := reserved.runId :: w.drawn } := by
  have hnone : w.tasks.get? reserved.runId = none := by
    cases hg : w.tasks.get? reserved.runId with
    | none => rfl
    | some task => exact absurd (hI.drawn _ task hg) hfresh
  constructor
  · intro t' b hb
    simp only [Dict.get?_set] at hb
    split at hb
    · next ht =>
      obtain rfl := Option.some.inj hb
      exact ⟨hthread.trans ht, List.mem_cons_self, fun _ => hnone,
        fun id hid => by rw [htask] at hid; cases hid⟩
    · exact (hI.slot t' b hb).mono rfl fun r hr => List.mem_cons_of_mem _ hr
  · intro t₁ t₂ b₁ b₂ h₁ h₂ hid
    simp only [Dict.get?_set] at h₁ h₂
    split at h₁ <;> split at h₂
    · next ht₁ ht₂ => exact ht₁.symm.trans ht₂
    · -- the other entry was drawn before
      obtain rfl := Option.some.inj h₁
      exact absurd (hid ▸ (hI.slot t₂ b₂ h₂).drawn) hfresh
    · obtain rfl := Option.some.inj h₂
      exact absurd (hid ▸ (hI.slot t₁ b₁ h₁).drawn) hfresh
    · exact hI.unique t₁ t₂ b₁ b₂ h₁ h₂ hid
  · intro r s hs
    simp only [Dict.get?_set]
    rw [if_neg (Ne.symm (hI.not_starting_of_free hfree hs))]
    exact hI.starting r s hs
  · intro r task hg hnd
    simp only [Dict.get?_set]
    rw [if_neg (Ne.symm (hI.not_running_of_free hfree hg hnd))]
    exact hI.running r task hg hnd
  · intro r task hg
    exact List.mem_cons_of_mem _ (hI.drawn r task hg)

/-- Popping an entry that no starting call and no unfinished task owns. -/
theorem SlotInv.pop (hI : w.SlotInv) {t runId : String} {k : Option String}
    (hstarting : ∀ r s, w.starting.get? r = some s → s.threadId = t → ¬(r = runId ∧ k = none))
    (hrunning : ∀ r task, w.tasks.get? r = some task → task.phase.isDone = false →
      ¬(r = runId ∧ some r = k)) :
    SlotInv { w with active := popIf w.active t runId k } := by
  constructor
  · intro t' c hc
    exact (hI.slot t' c (get?_of_get?_popIf hc)).mono rfl fun r hr => hr
  · intro t₁ t₂ b₁ b₂ h₁ h₂ hid
    exact hI.unique t₁ t₂ b₁ b₂ (get?_of_get?_popIf h₁) (get?_of_get?_popIf h₂) hid
  · intro r s hs
    obtain ⟨c, hc, hcrun, hctask⟩ := hI.starting r s hs
    refine ⟨c, ?_, hcrun, hctask⟩
    by_cases ht : t = s.threadId
    · subst ht
      exact get?_popIf_of_other hc fun hx =>
        hstarting r s hs rfl ⟨hcrun.symm.trans hx.1, hx.2.symm.trans hctask⟩
    · simp only [get?_popIf_ne _ _ _ ht]
      exact hc
  · intro r task hg hnd
    obtain ⟨c, hc, hcrun, hctask⟩ := hI.running r task hg hnd
    refine ⟨c, ?_, hcrun, hctask⟩
    by_cases ht : t = task.threadId
    · subst ht
      exact get?_popIf_of_other hc fun hx =>
        hrunning r task hg hnd ⟨hcrun.symm.trans hx.1, hctask.symm.trans hx.2⟩
    · simp only [get?_popIf_ne _ _ _ ht]
      exact hc
  · exact hI.drawn

/-- A starting call ends without touching the slot. -/
theorem SlotInv.forget (hI : w.SlotInv) (runId : String) :
    SlotInv { w with starting := w.starting.erase runId } := by
  refine ⟨fun t a ha => (hI.slot t a ha).mono rfl fun _ hr => hr, hI.unique, ?_, hI.running,
    hI.drawn⟩
  intro r s hs
  have hne : runId ≠ r := by
    rintro rfl
    simp only [Dict.get?_erase_self] at hs
    cases hs
  simp only [Dict.get?_erase_ne _ hne] at hs
  exact hI.starting r s hs

/-- The task of a starting run is created and replaces its reservation. -/
theorem SlotInv.launch (hI : w.SlotInv) {runId : String} {s : Starting} {graph : Graph}
    {config : Dict String Json} (hs : w.starting.get? runId = some s) :
    SlotInv (w.launch runId s graph config) := by
  obtain ⟨b, hb, rfl, htask⟩ := hI.starting runId s hs
  obtain ⟨hdrawn, hnone⟩ := hI.starting_fresh hs
  constructor
  · intro t' c hc
    simp only [World.launch, Dict.get?_set] at hc
    split at hc
    · next ht =>
      obtain rfl := Option.some.inj hc
      refine ⟨ht, hdrawn, fun hx => (by cases hx), ?_⟩
      intro id hid
      obtain rfl := Option.some.inj hid
      exact ⟨rfl, _, Dict.get?_set_self _ _ _, ht⟩
    · next ht =>
      have hc' := hI.slot t' c hc
      refine ⟨hc'.thread, hc'.drawn, ?_, ?_⟩
      · intro hres
        have hne : b.runId ≠ c.runId := fun heq => ht (hI.unique _ _ _ _ hb hc heq)
        simp only [World.launch, Dict.get?_set_ne _ _ hne]
        exact hc'.reserved hres
      · intro id hid
        obtain ⟨hidr, task, hg, htt⟩ := hc'.real id hid
        have hne : b.runId ≠ id := by
          rintro rfl
          rw [hnone] at hg
          cases hg
        simp only [World.launch, Dict.get?_set_ne _ _ hne]
        exact ⟨hidr, task, hg, htt⟩
  · -- the new entry has the run id of the one it replaces
    have hsame : ∀ {t' c}, (w.launch b.runId s graph config).active.get? t' = some c →
        ∃ c', w.active.get? t' = some c' ∧ c'.runId = c.runId := by
      intro t' c hc
      simp only [World.launch, Dict.get?_set] at hc
      split at hc
      · next ht =>
        obtain rfl := Option.some.inj hc
        exact ⟨b, ht ▸ hb, rfl⟩
      · exact ⟨c, hc, rfl⟩
    intro t₁ t₂ b₁ b₂ h₁ h₂ hid
    obtain ⟨c₁, hc₁, hid₁⟩ := hsame h₁
    obtain ⟨c₂, hc₂, hid₂⟩ := hsame h₂
    exact hI.unique t₁ t₂ c₁ c₂ hc₁ hc₂ (hid₁.trans (hid.trans hid₂.symm))
  · intro r s' hs'
    have hne : b.runId ≠ r := by
      rintro rfl
      simp only [World.launch, Dict.get?_erase_self] at hs'
      cases hs'
    simp only [World.launch, Dict.get?_erase_ne _ hne] at hs'
    obtain ⟨c, hc, rfl, hctask⟩ := hI.starting r s' hs'
    have ht : s.threadId ≠ s'.threadId := by
      intro ht
      rw [← ht, hb] at hc
      exact hne (congrArg ActiveRun.runId (Option.some.inj hc))
    refine ⟨c, ?_, rfl, hctask⟩
    simp only [World.launch, Dict.get?_set_ne _ _ ht]
    exact hc
  · intro r task hg hnd
    simp only [World.launch, Dict.get?_set] at hg ⊢
    split at hg
    · next hr =>
      obtain rfl := Option.some.inj hg
      rw [if_pos rfl]
      exact ⟨_, rfl, hr, by rw [hr]⟩
    · obtain ⟨c, hc, hcrun, hctask⟩ := hI.running r task hg hnd
      have ht : s.threadId ≠ task.threadId := by
        intro ht
        rw [← ht, hb] at hc
        obtain rfl := Option.some.inj hc
        rw [htask] at hctask
        cases hctask
      rw [if_neg ht]
      exact ⟨c, hc, hcrun, hctask⟩
  · intro r task hg
    simp only [World.launch, Dict.get?_set] at hg
    split at hg
    · next hr => exact hr ▸ hdrawn
    · exact hI.drawn r task hg

/-- One step keeps the slot invariant. -/
theorem SlotInv.step {a : Act} (hI : w.SlotInv) (h : WorldStep rt w a w') : w'.SlotInv := by
  cases h with
  | rejected => exact hI
  | register => exact hI.of_same rfl rfl rfl fun r => tasks_same r
  | stream => exact hI.of_same rfl rfl rfl fun r => tasks_same r
  | @refuse a t runId reserved hfree hfresh _ hthread hrun htask =>
      subst hrun
      refine (hI.occupy hfree hfresh hthread htask).pop ?_ ?_
      · intro r s hs ht
        exact absurd ht (hI.not_starting_of_free hfree hs)
      · rintro r task - - ⟨-, hk⟩
        cases hk
  | @reserve a t runId s hfree hfresh _ hthread _ _ =>
      have hocc : SlotInv { w with
          active := w.active.set t
            { runId, threadId := t, assistantId := .str s.assistantId, task := none }
          drawn := runId :: w.drawn } := hI.occupy hfree hfresh rfl rfl
      refine ⟨fun t a ha => (hocc.slot t a ha).mono rfl fun _ hr => hr, hocc.unique, ?_,
        hocc.running, hocc.drawn⟩
      intro r s' hs'
      simp only [Dict.get?_set] at hs'
      split at hs'
      · next hr =>
        obtain rfl := Option.some.inj hs'
        rw [hthread]
        exact ⟨_, Dict.get?_set_self _ _ _, hr, rfl⟩
      · exact hocc.starting r s' hs'
  | @release runId _ _ s hs =>
      refine (hI.forget runId).pop ?_ ?_
      · rintro r s' hs' - ⟨rfl, -⟩
        simp only [Dict.get?_erase_self] at hs'
        cases hs'
      · rintro r task - - ⟨-, hk⟩
        cases hk
  | abandon => exact hI.forget _
  | launch hs => exact hI.launch hs
  | cancel _ _ hg _ => exact hI.of_set rfl hg rfl id rfl rfl rfl
  | skip hg _ _ => exact hI.of_set rfl hg rfl (fun _ => rfl) rfl rfl rfl
  | begin hg hphase _ =>
      refine hI.of_set rfl hg rfl ?_ rfl rfl rfl
      intro hd
      rw [hphase] at hd
      cases hd
  | resume hg hs =>
      refine hI.of_set rfl hg rfl ?_ rfl rfl rfl
      intro hd
      rw [resume_not_done hs] at hd
      cases hd
  | @callback id task hg hdone =>
      have hset : SlotInv { w with tasks := w.tasks.set id { task with cleared := true } } :=
        hI.of_set rfl hg rfl (fun hd => hd) rfl rfl rfl
      refine hset.pop ?_ ?_
      · rintro r s - - ⟨-, hk⟩
        cases hk
      · rintro r task' hg' hnd ⟨rfl, -⟩
        simp only [Dict.get?_set_self] at hg'
        rw [← Option.some.inj hg'] at hnd
        rw [hdone] at hnd
        cases hnd

theorem slotInv_of_reachable {ok : World → Act → Prop}
    (h : (runSys rt n).ReachableVia ok w) : w.SlotInv := by
  refine h.induct ?_ ?_
  · rintro w rfl
    exact SlotInv.init n
  · intro w a w' _ hI _ hstep
    exact hI.step (worldStep_of_step hstep)

/-! ## What a suspended start sees -/

section Starting

variable {r : String} {s : Starting}

theorem drawn_mono {a : Act} (h : WorldStep rt w a w') (hr : r ∈ w.drawn) : r ∈ w'.drawn := by
  cases h with
  | refuse => exact List.mem_cons_of_mem _ hr
  | reserve => exact List.mem_cons_of_mem _ hr
  | _ => exact hr

/-- Ending one start suspends no other. -/
theorem starting_of_erase {r r' : String} {s : Starting}
    (h : (w.starting.erase r).get? r' = some s) : w.starting.get? r' = some s := by
  by_cases hr : r = r'
  · rw [hr, Dict.get?_erase_self] at h
    cases h
  · rwa [Dict.get?_erase_ne _ hr] at h

/-- A suspended start was suspended before, unless this step drew its id. -/
theorem starting_before {a : Act} (h : WorldStep rt w a w') (hr : r ∈ w.drawn)
    (hs : w'.starting.get? r = some s) : w.starting.get? r = some s := by
  cases h with
  | reserve _ hfresh =>
      simp only [Dict.get?_set] at hs
      split at hs
      · next heq => exact absurd (heq ▸ hr) hfresh
      · exact hs
  | release => exact starting_of_erase hs
  | abandon => exact starting_of_erase hs
  | launch => exact starting_of_erase hs
  | _ => exact hs

/-- While a start is suspended, no step touches the pending interrupts or the last
assistant of its thread. -/
theorem frame_of_starting (hI : w.SlotInv) {a : Act} (h : WorldStep rt w a w')
    (hs : w.starting.get? r = some s) (hs' : w'.starting.get? r = some s) :
    w'.pendingInputs.get? s.threadId = w.pendingInputs.get? s.threadId ∧
      w'.lastAssistant.get? s.threadId = w.lastAssistant.get? s.threadId := by
  obtain ⟨b, hb, hbr, hbtask⟩ := hI.starting r s hs
  -- a task that performs a step is unfinished, so it is not on this thread
  have hperform : ∀ {id : String} {task task' : Task} (st : TaskStep),
      w.tasks.get? id = some task → task.phase.isDone = false → task'.threadId = task.threadId →
      (w.perform rt id task' st).pendingInputs.get? s.threadId =
        w.pendingInputs.get? s.threadId := by
    intro id task task' st hg hnd ht
    have hne : task'.threadId ≠ s.threadId := by
      intro heq
      obtain ⟨c, hc, -, hctask⟩ := hI.running id task hg hnd
      rw [← ht, heq, hb] at hc
      rw [← Option.some.inj hc, hbtask] at hctask
      cases hctask
    unfold perform
    dsimp only
    split
    · rfl
    · rw [Dict.get?_set_ne _ _ hne]
  cases h with
  | @launch runId graph s₁ config hs₁ _ =>
      have hne : s₁.threadId ≠ s.threadId := by
        intro heq
        obtain ⟨c, hc, hcr, -⟩ := hI.starting runId s₁ hs₁
        rw [heq, hb] at hc
        obtain rfl : r = runId := by rw [← hbr, ← hcr, Option.some.inj hc]
        simp only [World.launch, Dict.get?_erase_self] at hs'
        cases hs'
      exact ⟨Dict.get?_erase_ne _ hne, Dict.get?_set_ne _ _ hne⟩
  | begin hg hphase _ => exact ⟨hperform _ hg (by rw [hphase]; rfl) rfl, rfl⟩
  | resume hg hst => exact ⟨hperform _ hg (resume_not_done hst) rfl, rfl⟩
  | _ => exact ⟨rfl, rfl⟩

/-- A suspended start, from its suspension on. -/
theorem frame_of_reaches {ok : World → Act → Prop} (hw : (runSys rt n).Reachable w)
    (hr : r ∈ w.drawn) (h : (runSys rt n).ReachesVia ok w w')
    (hs' : w'.starting.get? r = some s) :
    w.starting.get? r = some s ∧
    w'.pendingInputs.get? s.threadId = w.pendingInputs.get? s.threadId ∧
      w'.lastAssistant.get? s.threadId = w.lastAssistant.get? s.threadId := by
  have hrun : r ∈ w'.drawn ∧ (w'.starting.get? r = some s → w.starting.get? r = some s ∧
      w'.pendingInputs.get? s.threadId = w.pendingInputs.get? s.threadId ∧
      w'.lastAssistant.get? s.threadId = w.lastAssistant.get? s.threadId) := by
    clear hs'
    induction h with
    | refl => exact ⟨hr, fun h => ⟨h, rfl, rfl⟩⟩
    | @tail u v a hwu _ hstep ih =>
        have hu : (runSys rt n).Reachable u := hw.trans (hwu.mono fun _ _ _ => trivial)
        have hws := worldStep_of_step hstep
        refine ⟨drawn_mono hws ih.1, ?_⟩
        intro hv
        have hsu := starting_before hws ih.1 hv
        obtain ⟨hs, hp, hl⟩ := ih.2 hsu
        obtain ⟨hp', hl'⟩ := frame_of_starting (slotInv_of_reachable hu) hws hsu hv
        exact ⟨hs, hp'.trans hp, hl'.trans hl⟩
  exact hrun.2 hs'

end Starting

end World

end AgentProtocol

import AgentProtocol.Hub.Inversion
import AgentProtocol.Runner.Slot

/-!
# What the hub of a thread holds

The runs of a thread, in the order they were created, are `World.runsOf`. In every
reachable state the hub of the thread has published exactly their events, run after
run (`LogInv.log`), because a run that is not the last one is done
(`LogInv.last`): the slot admits no second one before.

Each hub of the process is a reachable state of `streamSys`
(`World.hub_reachable`), so what is proved of one hub under every interleaving holds
of the hub of every thread.
-/

namespace AgentProtocol

/-- The events of a task, with the run they are published for. -/
def Task.block (r : String) (task : Task) : List Published :=
  task.events.map fun e => { runId := r, data := e }

/-- The runs of a thread, in the order of their creation. -/
def World.runsOf (w : World) (t : String) : List (String × Task) :=
  w.tasks.entries.filter fun e => e.2.threadId = t

/-- Their events, run after run. -/
def World.blocks (w : World) (t : String) : List Published :=
  (w.runsOf t).flatMap fun e => e.2.block e.1

/-- What the hub of a thread has published for a run. -/
def World.eventsOf (w : World) (t r : String) : List EventData :=
  (((w.hub t).published.map Envelope.data).filter fun d => d.runId == r).map Published.data

structure World.LogInv (w : World) : Prop where
  log : ∀ t, (w.hub t).published.map Envelope.data = w.blocks t
  methods : ∀ t, ∀ e ∈ (w.hub t).published, e.method = e.data.data.method
  last : ∀ t r task, (r, task) ∈ w.runsOf t → task.phase.isDone = false →
    ∃ older, w.runsOf t = older ++ [(r, task)]

namespace World

variable {rt : Runtime} {n : Nat} {w w' : World}

theorem mem_runsOf {t r : String} {task : Task} :
    (r, task) ∈ w.runsOf t ↔ w.tasks.get? r = some task ∧ task.threadId = t := by
  unfold runsOf
  rw [List.mem_filter, Dict.mem_entries_iff, decide_eq_true_iff]

theorem runsOf_keys_nodup (w : World) (t : String) : ((w.runsOf t).map Prod.fst).Nodup :=
  w.tasks.nodupKeys.sublist (List.filter_sublist.map Prod.fst)

/-- Replacing a task by one of the same thread. -/
theorem runsOf_set {r : String} {task task' : Task} (htasks : w'.tasks = w.tasks.set r task')
    (hg : w.tasks.get? r = some task) (ht : task'.threadId = task.threadId) (t : String) :
    w'.runsOf t = (w.runsOf t).map fun e => if e.1 = r then (r, task') else e := by
  unfold runsOf
  rw [htasks, Dict.entries_set_of_mem _ _ hg, List.filter_map]
  congr 1
  refine List.filter_congr fun e he => ?_
  show decide ((if e.1 = r then (r, task') else e).2.threadId = t) = _
  by_cases her : e.1 = r
  · rw [if_pos her]
    have : w.tasks.get? e.1 = some e.2 := (Dict.mem_entries_iff _ _ _).mp he
    rw [her, hg, Option.some.injEq] at this
    rw [← this, ht]
  · rw [if_neg her]

/-- Adding a task. -/
theorem runsOf_new {r : String} {task : Task} (htasks : w'.tasks = w.tasks.set r task)
    (hg : w.tasks.get? r = none) (t : String) :
    w'.runsOf t = w.runsOf t ++ if task.threadId = t then [(r, task)] else [] := by
  unfold runsOf
  rw [htasks, Dict.entries_set_of_new _ _ hg, List.filter_append]
  congr 1
  by_cases ht : task.threadId = t
  · simp only [List.filter_cons, List.filter_nil, ht, decide_true, if_true]
  · simp only [List.filter_cons, List.filter_nil, ht, decide_false, if_false,
      Bool.false_eq_true]

/-- The events of a task that is the last run of its thread, or publishes nothing,
are appended to the blocks of the thread. -/
theorem blocks_set {r : String} {task task' : Task} {es : List EventData}
    (htasks : w'.tasks = w.tasks.set r task') (hg : w.tasks.get? r = some task)
    (ht : task'.threadId = task.threadId) (hev : task'.events = task.events ++ es)
    (hlast : es = [] ∨ ∃ older, w.runsOf task.threadId = older ++ [(r, task)]) (t : String) :
    w'.blocks t = w.blocks t ++
      if task.threadId = t then es.map fun e => { runId := r, data := e } else [] := by
  have hmap := runsOf_set htasks hg ht t
  have hother : ∀ e ∈ w.runsOf t, e.1 ≠ r → (if e.1 = r then (r, task') else e) = e :=
    fun e _ hne => if_neg hne
  unfold blocks
  rw [hmap, List.flatMap_map]
  have hmine : ∀ e ∈ w.runsOf t, e.1 = r → e.2 = task ∧ task.threadId = t := by
    rintro ⟨r', task₁⟩ he rfl
    obtain ⟨hg₁, ht₁⟩ := mem_runsOf.mp he
    obtain rfl := Option.some.inj (hg.symm.trans hg₁)
    exact ⟨rfl, ht₁⟩
  by_cases htt : task.threadId = t
  · rw [if_pos htt]
    rcases hlast with rfl | ⟨older, hlast⟩
    · -- nothing published: the same blocks
      rw [List.map_nil, List.append_nil]
      refine List.flatMap_congr fun e he => ?_
      by_cases her : e.1 = r
      · obtain ⟨h₂, -⟩ := hmine e he her
        rw [if_pos her, ← her, h₂]
        show task'.block _ = task.block _
        rw [Task.block, Task.block, hev, List.append_nil]
      · rw [if_neg her]
    · subst htt
      have hnd := runsOf_keys_nodup w task.threadId
      rw [hlast] at hnd ⊢
      rw [List.flatMap_append, List.flatMap_append, List.flatMap_singleton, List.flatMap_singleton,
        List.append_assoc]
      congr 1
      · refine List.flatMap_congr fun e he => ?_
        have hne : e.1 ≠ r := by
          intro heq
          rw [List.map_append, List.nodup_append] at hnd
          exact hnd.2.2 e.1 (List.mem_map_of_mem he) r (by simp) heq
        rw [if_neg hne]
      · show (if r = r then (r, task') else (r, task)).2.block _ = _
        rw [if_pos rfl]
        show task'.block r = task.block r ++ _
        rw [Task.block, Task.block, hev, List.map_append]
  · rw [if_neg htt, List.append_nil]
    refine List.flatMap_congr fun e he => ?_
    by_cases her : e.1 = r
    · exact absurd (hmine e he her).2 htt
    · rw [if_neg her]

/-! ## Publishing -/

/-- What `publishAll` adds to the history of a hub. -/
theorem publishAll_published (rt : Runtime) (t r : String) (h : StreamHub Published)
    (es : List EventData) :
    ∃ new, (publishAll rt t r h es).published = h.published ++ new ∧
      new.map Envelope.data = es.map (fun e => { runId := r, data := e }) ∧
      ∀ e ∈ new, e.method = e.data.data.method := by
  induction es generalizing h with
  | nil => exact ⟨[], (List.append_nil _).symm, rfl, fun e he => by cases he⟩
  | cons e es ih =>
      obtain ⟨new, hnew, hdata, hmeth⟩ := ih
        (h.publish e.method { runId := r, data := e } none none none
          (rt.nowMs t (h.hub.seq + 1)))
      refine ⟨h.hub.stamp e.method { runId := r, data := e } none none none
        (rt.nowMs t (h.hub.seq + 1)) :: new, ?_, ?_, ?_⟩
      · show (publishAll rt t r _ es).published = _
        rw [hnew]
        show h.published ++ [_] ++ new = _
        rw [List.append_assoc]
        rfl
      · rw [List.map_cons, hdata]
        rfl
      · intro x hx
        rcases List.mem_cons.mp hx with rfl | hx
        · rfl
        · exact hmeth x hx

/-- Publishing a run's events is a run of the hub. -/
theorem publishAll_reaches (rt : Runtime) (t r : String) (h : StreamHub Published)
    (es : List EventData) : (streamSys Published n).Reaches h (publishAll rt t r h es) := by
  induction es generalizing h with
  | nil => exact .refl
  | cons e es ih =>
      refine TSys.ReachesVia.trans ?_ (ih _)
      exact .single (a := StreamAct.publish e.method { runId := r, data := e } none none none
        (rt.nowMs t (h.hub.seq + 1))) trivial rfl

theorem hub_perform (w : World) (id : String) (task : Task) (s : TaskStep) (t : String) :
    (w.perform rt id task s).hub t =
      if task.threadId = t then publishAll rt task.threadId id (w.hub task.threadId) s.events
      else w.hub t := by
  unfold perform hub
  simp only [Dict.get?_set]
  split
  · rw [Option.getD_some]
  · rfl

theorem hub_set (w : World) (t : String) (h : StreamHub Published) (t' : String) :
    ({ w with hubs := w.hubs.set t h } : World).hub t' = if t = t' then h else w.hub t' := by
  unfold hub
  simp only [Dict.get?_set]
  split
  · rw [Option.getD_some]
  · rfl

/-! ## The invariant -/

theorem LogInv.init (n : Nat) : (World.new n).LogInv where
  log _ := rfl
  methods _ _ he := by cases he
  last _ _ _ he := by cases he

/-- A step that replaces one task and appends its new events to its hub. -/
theorem LogInv.of_set (hL : w.LogInv) {r : String} {task task' : Task} {es : List EventData}
    (htasks : w'.tasks = w.tasks.set r task') (hg : w.tasks.get? r = some task)
    (ht : task'.threadId = task.threadId) (hev : task'.events = task.events ++ es)
    (hd : task.phase.isDone = true → task'.phase.isDone = true ∧ es = [])
    (hhub : ∀ t, ∃ new, (w'.hub t).published = (w.hub t).published ++ new ∧
      new.map Envelope.data =
        (if task.threadId = t then es.map fun e => { runId := r, data := e } else []) ∧
      ∀ e ∈ new, e.method = e.data.data.method) : w'.LogInv := by
  have hlast : es = [] ∨ ∃ older, w.runsOf task.threadId = older ++ [(r, task)] := by
    cases hnd : task.phase.isDone with
    | true => exact .inl (hd hnd).2
    | false => exact .inr (hL.last _ r task (mem_runsOf.mpr ⟨hg, rfl⟩) hnd)
  constructor
  · intro t
    obtain ⟨new, hnew, hdata, -⟩ := hhub t
    rw [hnew, List.map_append, hL.log t, hdata, blocks_set htasks hg ht hev hlast t]
  · intro t e he
    obtain ⟨new, hnew, -, hmeth⟩ := hhub t
    rw [hnew] at he
    rcases List.mem_append.mp he with he | he
    · exact hL.methods t e he
    · exact hmeth e he
  · intro t r' task₁ hmem hnd
    have hmap := runsOf_set htasks hg ht t
    rw [hmap] at hmem
    obtain ⟨⟨r₀, task₀⟩, hmem₀, heq⟩ := List.mem_map.mp hmem
    -- the run it comes from was not done either
    have hnd₀ : task₀.phase.isDone = false := by
      obtain ⟨hg₀, -⟩ := mem_runsOf.mp hmem₀
      by_cases hr : r₀ = r
      · rw [if_pos hr] at heq
        obtain rfl : task' = task₁ := (Prod.mk.injEq _ _ _ _ ▸ heq).2
        rw [hr, hg, Option.some.injEq] at hg₀
        subst hg₀
        cases hdone : task.phase.isDone with
        | false => rfl
        | true =>
            rw [(hd hdone).1] at hnd
            cases hnd
      · rw [if_neg hr] at heq
        obtain ⟨-, rfl⟩ := Prod.mk.inj heq
        exact hnd
    obtain ⟨older, holder⟩ := hL.last t r₀ task₀ hmem₀ hnd₀
    refine ⟨older.map fun e => if e.1 = r then (r, task') else e, ?_⟩
    rw [hmap, holder, List.map_append, ← heq]
    rfl

/-- The same for a step that publishes nothing. -/
theorem LogInv.of_silent (hL : w.LogInv) {r : String} {task task' : Task}
    (htasks : w'.tasks = w.tasks.set r task') (hg : w.tasks.get? r = some task)
    (ht : task'.threadId = task.threadId) (hev : task'.events = task.events)
    (hd : task.phase.isDone = true → task'.phase.isDone = true) (hhubs : ∀ t, w'.hub t = w.hub t) :
    w'.LogInv := by
  refine hL.of_set htasks hg ht (by rw [hev, List.append_nil]) (fun h => ⟨hd h, rfl⟩) ?_
  intro t
  refine ⟨[], by rw [hhubs, List.append_nil], ?_, fun e he => by cases he⟩
  rw [List.map_nil, List.map_nil, ite_self]

/-- A task performs a stretch. -/
theorem LogInv.perform (hL : w.LogInv) {id : String} {task task' : Task} {s : TaskStep}
    (hg : w.tasks.get? id = some task) (hnd : task.phase.isDone = false)
    (ht : task'.threadId = task.threadId) (hev : task'.events = task.events) :
    (w.perform rt id task' s).LogInv := by
  refine hL.of_set rfl hg ht (by rw [← hev]) (fun h => by rw [hnd] at h; cases h) ?_
  intro t
  rw [hub_perform, ht]
  by_cases htt : task.threadId = t
  · simp only [if_pos htt]
    subst htt
    exact publishAll_published rt _ _ _ _
  · simp only [if_neg htt]
    exact ⟨[], (List.append_nil _).symm, rfl, fun e he => by cases he⟩

theorem LogInv.step {a : Act} (hL : w.LogInv) (hI : w.SlotInv) (h : WorldStep rt w a w') :
    w'.LogInv := by
  cases h with
  | rejected => exact hL
  | register => exact ⟨hL.log, hL.methods, hL.last⟩
  | refuse => exact ⟨hL.log, hL.methods, hL.last⟩
  | reserve => exact ⟨hL.log, hL.methods, hL.last⟩
  | release => exact ⟨hL.log, hL.methods, hL.last⟩
  | abandon => exact ⟨hL.log, hL.methods, hL.last⟩
  | @stream t act h hp hstep =>
      have hpub : ∀ t', (({ w with hubs := w.hubs.set t h } : World).hub t').published =
          (w.hub t').published := by
        intro t'
        rw [hub_set]
        split
        · next ht =>
          subst ht
          exact StreamHub.step_published hstep hp
        · rfl
      refine ⟨fun t' => ?_, fun t' e he => ?_, hL.last⟩
      · rw [hpub]
        exact hL.log t'
      · rw [hpub] at he
        exact hL.methods t' e he
  | @launch runId graph s config hs _ =>
      have hnew : w.tasks.get? runId = none := (hI.starting_fresh hs).2
      have hruns := runsOf_new (show (w.launch runId s graph config).tasks = _ from rfl) hnew
      constructor
      · intro t
        rw [blocks, hruns t, List.flatMap_append]
        show (w.hub t).published.map Envelope.data = w.blocks t ++ _
        rw [hL.log t]
        split
        · exact (List.append_nil _).symm
        · exact (List.append_nil _).symm
      · exact hL.methods
      · intro t r task hmem hnd
        rw [hruns t] at hmem ⊢
        by_cases ht : s.threadId = t
        · rw [if_pos ht] at hmem ⊢
          rcases List.mem_append.mp hmem with hmem | hmem
          · -- the slot of the thread is reserved, so none of its runs is unfinished
            obtain ⟨hg, htt⟩ := mem_runsOf.mp hmem
            obtain ⟨a, ha, -, htask⟩ := hI.starting runId s hs
            obtain ⟨b, hb, -, htask'⟩ := hI.running r task hg hnd
            rw [htt, ← ht, ha, Option.some.injEq] at hb
            rw [← hb, htask] at htask'
            cases htask'
          · exact ⟨w.runsOf t, by rw [List.mem_singleton.mp hmem]⟩
        · rw [if_neg ht, List.append_nil] at hmem ⊢
          exact hL.last t r task hmem hnd
  | cancel _ _ hg hnd => exact hL.of_silent rfl hg rfl rfl id fun _ => rfl
  | skip hg _ _ => exact hL.of_silent rfl hg rfl rfl (fun _ => rfl) fun _ => rfl
  | callback hg _ => exact hL.of_silent rfl hg rfl rfl (fun hd => hd) fun _ => rfl
  | begin hg hphase _ => exact hL.perform hg (by rw [hphase]; rfl) rfl rfl
  | resume hg hs => exact hL.perform hg (resume_not_done hs) rfl rfl

theorem logInv_of_reachable {ok : World → Act → Prop} (h : (runSys rt n).ReachableVia ok w) :
    w.LogInv := by
  refine h.induct ?_ ?_
  · rintro w rfl
    exact LogInv.init n
  · intro w a w' hreach hL _ hstep
    exact hL.step (slotInv_of_reachable hreach) (worldStep_of_step hstep)

/-- The hub has of a run what its task published. -/
theorem LogInv.eventsOf_eq (hL : w.LogInv) {r : String} {task : Task}
    (hg : w.tasks.get? r = some task) : w.eventsOf task.threadId r = task.events := by
  have hmem : (r, task) ∈ w.runsOf task.threadId := mem_runsOf.mpr ⟨hg, rfl⟩
  obtain ⟨older, newer, hruns⟩ := List.append_of_mem hmem
  have hnd := runsOf_keys_nodup w task.threadId
  rw [hruns, List.map_append, List.map_cons, List.nodup_append, List.nodup_cons] at hnd
  -- the runs before and after it have other ids
  have hother : ∀ runs : List (String × Task), (∀ e ∈ runs, e.1 ≠ r) →
      (runs.flatMap fun e => e.2.block e.1).filter (fun d => d.runId == r) = [] := by
    intro runs hruns
    rw [List.filter_eq_nil_iff]
    intro d hd
    obtain ⟨e, he, hd⟩ := List.mem_flatMap.mp hd
    obtain ⟨x, -, rfl⟩ := List.mem_map.mp hd
    simpa using hruns e he
  have hmine : (task.block r).filter (fun d => d.runId == r) = task.block r := by
    rw [List.filter_eq_self]
    intro d hd
    obtain ⟨x, -, rfl⟩ := List.mem_map.mp hd
    exact beq_self_eq_true r
  have hblock : (task.block r).map Published.data = task.events := by
    rw [Task.block, List.map_map]
    exact List.map_id _
  rw [eventsOf, hL.log, blocks, hruns, List.flatMap_append, List.flatMap_cons, List.filter_append,
    List.filter_append, hmine, hother older, hother newer, List.nil_append, List.append_nil, hblock]
  · intro e he heq
    have hkey := List.mem_map_of_mem (f := Prod.fst) he
    rw [heq] at hkey
    exact hnd.2.1.1 hkey
  · intro e he heq
    exact hnd.2.2 e.1 (List.mem_map_of_mem he) r List.mem_cons_self heq

/-- What is published of a run is of a task on the thread. -/
theorem LogInv.task_of_mem (hL : w.LogInv) {t : String} {e : Envelope Published}
    (he : e ∈ (w.hub t).published) :
    ∃ task, w.tasks.get? e.data.runId = some task ∧ task.threadId = t ∧
      e.data.data ∈ task.events := by
  have hmem : e.data ∈ w.blocks t := by
    rw [← hL.log t]
    exact List.mem_map_of_mem he
  obtain ⟨⟨r, task⟩, hrun, hblock⟩ := List.mem_flatMap.mp hmem
  obtain ⟨d, hd, heq⟩ := List.mem_map.mp hblock
  obtain ⟨hg, ht⟩ := mem_runsOf.mp hrun
  rw [← heq]
  exact ⟨task, hg, ht, hd⟩

/-! ## The hubs of the process -/

/-- The hub of every thread is a reachable state of one hub under every
interleaving. -/
theorem hub_reachable (h : (runSys rt n).Reachable w) (t : String) :
    (streamSys Published n).Reachable (w.hub t) := by
  have hboth : w.replaySize = n ∧ ∀ t, (streamSys Published n).Reachable (w.hub t) := by
    refine h.induct (P := fun w => w.replaySize = n ∧
      ∀ t, (streamSys Published n).Reachable (w.hub t)) ?_ ?_
    · rintro w rfl
      exact ⟨rfl, fun t => .of_init rfl⟩
    · rintro w a w' - ⟨hn, hhub⟩ - hstep
      have hperform : ∀ id task s t', (streamSys Published n).Reachable
          ((w.perform rt id task s).hub t') := by
        intro id task s t'
        rw [hub_perform]
        split
        · exact (hhub _).trans (publishAll_reaches rt _ _ _ _)
        · exact hhub t'
      cases worldStep_of_step hstep with
      | stream hp hst =>
          refine ⟨hn, fun t' => ?_⟩
          rw [hub_set]
          split
          · exact (hhub _).tail trivial hst
          · exact hhub t'
      | begin => exact ⟨hn, hperform _ _ _⟩
      | resume => exact ⟨hn, hperform _ _ _⟩
      | _ => exact ⟨hn, hhub⟩
  exact hboth.2 t

end World

end AgentProtocol

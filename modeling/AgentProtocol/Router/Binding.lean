import AgentProtocol.Router.Answers
import AgentProtocol.Router.Origins

/-!
# The assistant a thread is bound to

The manager and the store are written in one stretch, and a resume starts what the store
says, which no other run changes while its graph is resolved. So from the first run of
the process on a thread, the store and the manager have the assistant of the last run
(`App.BoundInv`).
-/

namespace AgentProtocol

theorem strOr_none {a : Option String} {s : String} (h : strOr a none = some s) :
    a = some s ∧ s ≠ "" := by
  cases a with
  | none => cases h
  | some s' =>
      simp only [strOr] at h
      split at h
      · cases h
      · next hne =>
        obtain rfl := Option.some.inj h
        exact ⟨rfl, hne⟩

/-! ## The last run of a thread -/

namespace World

variable {rt : Runtime} {w w' : World} {t r : String}

/-- No step but the end of a resolution touches the last assistant. -/
theorem lastAssistant_of_step {act : Act} (h : w.step rt act = some w')
    (hact : act.isResolved = false) : w'.lastAssistant = w.lastAssistant := by
  cases worldStep_of_step h with
  | launch => cases hact
  | _ => rfl

/-- The last run stays the last, where no run is created. -/
theorem lastRun_of_step {act : Act} {older' : List (String × Task)} {task' : Task}
    (h : w.step rt act = some w') (hact : act.isResolved = false)
    (hruns : w'.runsOf t = older' ++ [(r, task')]) :
    ∃ older task, w.runsOf t = older ++ [(r, task)] ∧ task.SameRun task' := by
  obtain ⟨f, hmap, hf⟩ := grows_of_step h hact t
  have hlast : (w.runsOf t).getLast?.map f = some (r, task') := by
    rw [← List.getLast?_map, ← hmap, hruns, List.getLast?_concat]
  obtain ⟨⟨r₀, task⟩, he, hfe⟩ := Option.map_eq_some_iff.mp hlast
  have hmem := List.mem_of_getLast? he
  obtain rfl : r₀ = r := by
    have hid := (hf _ hmem).1
    rw [hfe] at hid
    exact hid.symm
  obtain ⟨older, holder⟩ := List.getLast?_eq_some_iff.mp he
  refine ⟨older, task, holder, ?_⟩
  have hmem' : (r₀, task') ∈ w'.runsOf t := by
    rw [hruns]
    exact List.mem_append_right _ (List.mem_singleton_self _)
  have hg' := (mem_runsOf.mp hmem').1
  obtain ⟨task₀, hg, hsame⟩ := same_run_of_step h hact hg'
  obtain rfl := Option.some.inj (hg.symm.trans (mem_runsOf.mp hmem).1)
  exact hsame

theorem lastRun_of_tasks {older' : List (String × Task)} {task' : Task}
    (htasks : w'.tasks = w.tasks) (hruns : w'.runsOf t = older' ++ [(r, task')]) :
    ∃ older task, w.runsOf t = older ++ [(r, task)] ∧ task.SameRun task' := by
  rw [runsOf, htasks] at hruns
  exact ⟨older', task', hruns, .refl _⟩

end World

/-! ## The binding -/

namespace App

variable {rt : Runtime} {n : Nat} {a a' : App} {t : String}

/-- The store and the manager have this assistant for the thread. -/
structure Bound (a : App) (t assistantId : String) : Prop where
  nonempty : assistantId ≠ ""
  stored : a.store.assistant t = some assistantId
  last : a.world.lastAssistant.get? t = some assistantId

structure BoundInv (a : App) : Prop where
  /-- what a `run.start` will bind is what it has asked the manager to run -/
  named : ∀ id req cmdId r v s, a.requests.get? id = some req →
    req.handler = .runStart cmdId r v → a.world.starting.get? r = some s → v = .str s.assistantId
  nonempty : ∀ r s, a.world.starting.get? r = some s → s.assistantId ≠ ""
  resumes : ∀ r s, a.world.starting.get? r = some s → s.input.isResume = true →
    a.store.assistant s.threadId = some s.assistantId
  runs : ∀ t older r task, a.world.runsOf t = older ++ [(r, task)] → a.Bound t task.assistantId

/-- The binding of a thread and its last run are left alone. -/
structure Unbound (a a' : App) (t : String) : Prop where
  stored : a'.store.assistant t = a.store.assistant t
  last : a'.world.lastAssistant.get? t = a.world.lastAssistant.get? t
  run : ∀ older' r task', a'.world.runsOf t = older' ++ [(r, task')] →
    ∃ older task, a.world.runsOf t = older ++ [(r, task)] ∧ task.SameRun task'

/-- What the store has after the run of a request is created. -/
inductive Stores (a a' : App) (t r : String) : Handler → Prop
  | start {cmdId v : Json} :
      (∀ s, v = .str s → (a.store.metadata t).isSome = true → a'.store.assistant t = some s) →
      Stores a a' t r (.runStart cmdId r v)
  | resume {cmdId : Json} {i : String} : a'.store.assistant t = a.store.assistant t →
      Stores a a' t r (.runResume cmdId r i)

/-- The run of a request is created on its thread. -/
structure Binds (a a' : App) (id : Nat) (req : Request) (r : String) (s : Starting) (task : Task) :
    Prop where
  request : a.requests.get? id = some req
  starting : a.world.starting.get? r = some s
  thread : s.threadId = req.threadId
  kind : s.input.isResume = req.handler.resumes?.isSome
  creates : s.Creates task
  held : ∃ b, a'.world.active.get? req.threadId = some b ∧ b.task ≠ none
  runs : a'.world.runsOf req.threadId = a.world.runsOf req.threadId ++ [(r, task)]
  last : a'.world.lastAssistant.get? req.threadId = some s.assistantId
  stored : a.Stores a' req.threadId r req.handler

theorem bind_assistant_ne {t' : String} (v : Json) (now : String) (h : t ≠ t') :
    (a.bind t v now).store.assistant t' = a.store.assistant t' := by
  unfold bind
  split
  · show (a.store.setAssistant t _ now).assistant t' = _
    unfold MemoryThreadStore.setAssistant
    split
    · unfold MemoryThreadStore.assistant MemoryThreadStore.get
      rw [Dict.get?_set_ne _ _ h]
    · rfl
  · rfl

theorem bind_assistant_self (now s : String) (h : (a.store.metadata t).isSome = true) :
    (a.bind t (.str s) now).store.assistant t = some s := by
  obtain ⟨m, hm⟩ := Option.isSome_iff_exists.mp h
  show (a.store.setAssistant t s now).assistant t = _
  rw [MemoryThreadStore.assistant_setAssistant hm, if_pos rfl]

theorem Unbound.of_tasks (hstored : a'.store.assistant t = a.store.assistant t)
    (hlast : a'.world.lastAssistant = a.world.lastAssistant)
    (htasks : a'.world.tasks = a.world.tasks) : a.Unbound a' t :=
  ⟨hstored, by rw [hlast], fun _ _ _ hruns => World.lastRun_of_tasks htasks hruns⟩

theorem Unbound.of_step {act : Act} (hstore : a'.store = a.store)
    (hw : a.world.step rt act = some a'.world) (hact : act.isResolved = false) : a.Unbound a' t :=
  ⟨by rw [hstore], by rw [World.lastAssistant_of_step hw hact],
    fun _ _ _ hruns => World.lastRun_of_step hw hact hruns⟩

/-- A request gets its run. -/
theorem unbound_or_binds_of_launch (hF : a.FrameInv) (hI : a.world.SlotInv) {id : Nat}
    {req : Request} {r : String} {outcome : Resolution} (hg : a.requests.get? id = some req)
    (hrun : req.handler.runId? = some r)
    (hw : a.world.resolved r outcome = some (a'.world, none))
    (hother : req.threadId ≠ t → a'.store.assistant t = a.store.assistant t)
    (hstored : a.Stores a' req.threadId r req.handler) :
    a.Unbound a' t ∨ req.threadId = t ∧ ∃ s task, a.Binds a' id req r s task := by
  obtain ⟨s, graph, config, hs, -, hcfg, heq⟩ := World.resolved_launched hw
  obtain ⟨s', hs', hthread, hkind, -⟩ := hF.waits id req r hg hrun
  obtain rfl := Option.some.inj (hs.symm.trans hs')
  have hruns := fun t => World.runsOf_new
    (show (a.world.launch r s graph config).tasks = _ from rfl) (hI.starting_fresh hs).2 t
  rw [← heq] at hruns
  by_cases ht : req.threadId = t
  · have hcreates : s.Creates
        { threadId := s.threadId, assistantId := s.assistantId, graph, input := s.input, config,
          phase := .created, cancelRequested := false, cleared := false, events := [], fed := [] } :=
      ⟨rfl, rfl, rfl, hcfg⟩
    refine .inr ⟨ht, s, _, hg, hs, hthread, hkind, hcreates, ?_, ?_, ?_, hstored⟩
    · refine ⟨_, by rw [heq, World.launch, hthread]; exact Dict.get?_set_self _ _ _, ?_⟩
      exact Option.some_ne_none r
    · rw [hruns, if_pos hthread]
    · rw [heq, World.launch, hthread]
      exact Dict.get?_set_self _ _ _
  · refine .inl ⟨hother ht, ?_, ?_⟩
    · rw [heq, World.launch, hthread]
      exact Dict.get?_set_ne _ _ ht
    · intro older' r' task' hlast
      rw [hruns, hthread, if_neg ht, List.append_nil] at hlast
      exact ⟨older', task', hlast, .refl _⟩

theorem lastAssistant_of_failed {w' : World} {r : String} {outcome : Resolution} {exc : RunExc}
    (h : a.world.resolved r outcome = some (w', some exc)) :
    w'.lastAssistant = a.world.lastAssistant := by
  have hstep : a.world.step .inert (.resolved r outcome) = some w' := World.step_of_resolved h
  cases World.worldStep_of_step hstep with
  | launch hs hcfg =>
      simp only [World.resolved, hs, hcfg] at h
      cases h
  | _ => rfl

/-- A step leaves the binding of a thread alone, or creates a run on it. -/
theorem unbound_or_binds {act : AppAct} (hF : a.FrameInv) (hI : a.world.SlotInv)
    (h : ServiceStep rt a act a') (t : String) :
    a.Unbound a' t ∨ ∃ id req r s task, req.threadId = t ∧ a.Binds a' id req r s task := by
  cases h with
  | create hnone => exact .inl (.of_tasks (MemoryThreadStore.assistant_create hnone _ _) rfl rfl)
  | handler _ _ hreq =>
      left
      cases hreq with
      | @cancel _ t₀ _ _ _ run =>
          rcases dispatchCancel_cases rt a.world t₀ run with hsame | ⟨i, hstep⟩
          · exact .of_tasks rfl (by rw [put, hsame]) (by rw [put, hsame])
          · exact .of_step rfl hstep rfl
      | fail _ hw _ =>
          obtain ⟨s, -, -, htasks, -⟩ := World.resolved_failed hw
          exact .of_tasks rfl (lastAssistant_of_failed hw) htasks
      | _ => exact .of_tasks rfl rfl rfl
  | @start id t₀ i cmdId v r outcome now w' hg hw =>
      have hbound : a.world.resolved r outcome = some (((a.put id
          ⟨t₀, i, .answered (.success cmdId (.run r))⟩ w').bind t₀ v now).world, none) := by
        rw [bind_world]
        exact hw
      refine Or.imp_right ?_ (unbound_or_binds_of_launch hF hI hg rfl hbound ?_ (.start ?_))
      · rintro ⟨ht, s, task, hb⟩
        exact ⟨_, _, _, s, task, ht, hb⟩
      · exact bind_assistant_ne _ _
      · rintro s rfl hrow
        exact bind_assistant_self now s hrow
  | @resume id t₀ i cmdId r interruptId outcome now w' hg hw =>
      refine Or.imp_right ?_ (unbound_or_binds_of_launch hF hI hg rfl hw (fun _ => rfl) (.resume rfl))
      rintro ⟨ht, s, task, hb⟩
      exact ⟨_, _, _, s, task, ht, hb⟩
  | @cancelRun t₀ r =>
      have hcancel : a.world.step rt (.cancel t₀ (some r)) = some _ := rfl
      exact .inl (.of_step rfl hcancel rfl)
  | @internal act w' hact hw =>
      exact .inl (.of_step rfl hw (Act.isResolved_of_internal hact))
  | _ => exact .inl (.of_tasks rfl rfl rfl)

/-! ## The invariant -/

/-- An interrupt resumes the assistant that is stored: where the pending map would name
one, the run that has registered it has bound it. -/
theorem BoundInv.resumed (hB : a.BoundInv) (hP : a.world.PendingInv rt) {i : String} {v : Value}
    (h : a.world.ResumesAs t i (a.store.assistant t) v) :
    ∃ s, v = .str s ∧ a.store.assistant t = some s ∧ s ≠ "" := by
  rcases h with ⟨pending, hp, -, rfl⟩ | ⟨-, s, hs, rfl⟩
  · unfold World.resumeAssistant
    cases hor : strOr (a.store.assistant t) none with
    | some s => exact ⟨s, rfl, strOr_none hor⟩
    | none =>
        rw [hP.pending t, Option.bind_eq_some_iff] at hp
        obtain ⟨⟨r, task⟩, hlast, -⟩ := hp
        obtain ⟨older, hruns⟩ := List.getLast?_eq_some_iff.mp hlast
        have hb := hB.runs t older r task hruns
        rw [hb.stored, strOr, if_neg hb.nonempty] at hor
        cases hor
  · exact ⟨s, rfl, strOr_none hs⟩

theorem BoundInv.asked (hB : a.BoundInv) (hP : a.world.PendingInv rt) {s : Starting}
    (h : a.Asks s) : s.assistantId ≠ "" ∧
      (s.input.isResume = true → a.store.assistant s.threadId = some s.assistantId) := by
  cases h with
  | start _ hargs hstr =>
      obtain ⟨htruthy, -⟩ := startArgs_inv hargs
      rw [hstr] at htruthy
      exact ⟨by simpa [Json.truthy] using htruthy, fun hin => by cases hin⟩
  | resume hv =>
      obtain ⟨s, hs, hstored, hne⟩ := hB.resumed hP hv
      cases hs
      exact ⟨hne, fun _ => hstored⟩

theorem BoundInv.step {act : AppAct} (hB : a.BoundInv) (hF : a.FrameInv) (hR : a.RowInv)
    (hI : a.world.SlotInv) (hI' : a'.world.SlotInv) (hP : a.world.PendingInv rt)
    (h : ServiceStep rt a act a') : a'.BoundInv := by
  constructor
  · intro id req cmdId r v s hg hh hs
    rcases h.waiting_origin hg (by rw [hh]; rfl) with hold | ⟨s', hs', hv⟩
    · -- its start was under way before
      obtain ⟨s₀, hs₀, -⟩ := hF.waits id req r hold (by rw [hh]; rfl)
      exact hB.named id req cmdId r v s hold hh (h.starting_before (hI.starting_fresh hs₀).1 hs)
    · obtain rfl := Option.some.inj (hs'.symm.trans hs)
      exact hv cmdId v hh
  · intro r s hs
    rcases h.starting_origin hs with hold | hasks
    · exact hB.nonempty r s hold
    · exact (hB.asked hP hasks).1
  · intro r s hs hin
    have hstored : a.store.assistant s.threadId = some s.assistantId := by
      rcases h.starting_origin hs with hold | hasks
      · exact hB.resumes r s hold hin
      · exact (hB.asked hP hasks).2 hin
    rcases unbound_or_binds hF hI h s.threadId with hkept | ⟨id, req, r', s', task, ht, hb⟩
    · rw [hkept.stored, hstored]
    · -- the slot of the thread is the reservation of this start
      obtain ⟨b, hb', htask⟩ := hb.held
      obtain ⟨c, hc, -, hctask⟩ := hI'.starting r s hs
      rw [ht, hc, Option.some.injEq] at hb'
      exact absurd (hb' ▸ hctask) htask
  · intro t older' r task' hruns
    rcases unbound_or_binds hF hI h t with hkept | ⟨id, req, r', s, task, rfl, hb⟩
    · obtain ⟨older, task, hruns₀, hsame⟩ := hkept.run older' r task' hruns
      have hbound := hB.runs t older r task hruns₀
      rw [hsame.assistantId]
      exact ⟨hbound.nonempty, hkept.stored.trans hbound.stored, hkept.last.trans hbound.last⟩
    · rw [hb.runs] at hruns
      obtain ⟨-, hlast⟩ := List.append_inj' hruns rfl
      obtain ⟨rfl, rfl⟩ : r' = r ∧ task = task' := by simpa using hlast
      rw [hb.creates.assistantId]
      refine ⟨hB.nonempty _ _ hb.starting, ?_, hb.last⟩
      cases hh : req.handler with
      | runStart cmdId r₀ v =>
          have hstored := hb.stored
          rw [hh] at hstored
          cases hstored with
          | start hstores =>
              have hv := hB.named id req cmdId r' v s hb.request hh hb.starting
              obtain ⟨m, hm, -⟩ := hR id req hb.request (by rw [hh]; rfl)
              exact hstores _ hv (by rw [hm]; rfl)
      | runResume cmdId r₀ i =>
          have hstored := hb.stored
          rw [hh] at hstored
          cases hstored with
          | resume hsame =>
              rw [hsame, ← hb.thread]
              exact hB.resumes r' s hb.starting (by rw [hb.kind, hh]; rfl)
      | _ =>
          have hstored := hb.stored
          rw [hh] at hstored
          cases hstored

theorem boundInv_of_reachable {ok : App → AppAct → Prop} (h : (appSys rt n).ReachableVia ok a) :
    a.BoundInv := by
  refine h.induct ?_ ?_
  · rintro a ⟨hw, hreq, -⟩
    refine ⟨?_, ?_, ?_, ?_⟩
    · intro id req cmdId r v s hg
      rw [hreq] at hg
      cases hg
    · intro r s hs
      rw [hw] at hs
      cases hs
    · intro r s hs
      rw [hw] at hs
      cases hs
    · intro t older r task hruns
      rw [hw] at hruns
      cases older <;> cases hruns
  · intro a act a' hreach ih hok hstep
    have hworld := world_reachable hreach
    have hworld' := world_reachable (hreach.tail hok hstep)
    exact ih.step (frameInv_of_reachable hreach) (rowInv_of_reachable hreach)
      (World.slotInv_of_reachable hworld) (World.slotInv_of_reachable hworld')
      (World.pendingInv_of_reachable hworld) (serviceStep_of_step hstep)

end App

end AgentProtocol

import AgentProtocol.Router.Frames
import AgentProtocol.Router.Rendering
import AgentProtocol.Runner.Pending

/-!
# The handlers of `input.respond`

The check of a response is split: the handler looks for the interrupt in the
snapshot, then the manager looks for it in the pending map and takes a missing map
for a restart. `App.answersAt` is the condition under which the two agree: where
the map is missing, the thread is free and the handler has found the interrupt, the
process has not resumed the thread yet, or no other request carries the interrupt.

Under it, a handler that waits for its run answers an interrupt that is unanswered
(`App.unansweredWaits_of_reachable`): in the pending map are interrupts that the last
run has announced, and no run is created on a thread where a handler waits for
another.
-/

namespace AgentProtocol

/-! ## Answers and announcements -/

/-- Every run that was created to answer the interrupt, or one after it, has announced
it again. -/
def Unanswered (answers : Dict String Answer) (runs : List (String × Task)) (i : String) : Prop :=
  ∀ (j : Nat) r task x, runs[j]? = some (r, task) → answers.get? r = some x → x.interruptId = i →
    ∃ (m : Nat) (e : String × Task), j ≤ m ∧ runs[m]? = some e ∧ e.2.Announces i

/-- A run that answers an interrupt is created while it is unanswered: between two runs
for one interrupt, a run has announced it again. -/
def AnsweredOnce (answers : Dict String Answer) (runs : List (String × Task)) : Prop :=
  ∀ (k : Nat) r task x, runs[k]? = some (r, task) → answers.get? r = some x →
    Unanswered answers (runs.take k) x.interruptId

/-- The same runs, which have published as much. -/
def Grows (runs runs' : List (String × Task)) : Prop :=
  ∃ f, runs' = runs.map f ∧
    ∀ e ∈ runs, (f e).1 = e.1 ∧ ∀ x ∈ e.2.events, x ∈ (f e).2.events

theorem Grows.refl (runs : List (String × Task)) : Grows runs runs :=
  ⟨id, (List.map_id runs).symm, fun _ _ => ⟨rfl, fun _ hx => hx⟩⟩

section Runs

variable {answers answers' : Dict String Answer} {runs runs' : List (String × Task)} {i r : String}
  {task : Task}

theorem Unanswered.congr (h : Unanswered answers runs i)
    (hold : ∀ e ∈ runs, answers'.get? e.1 = answers.get? e.1) : Unanswered answers' runs i := by
  intro j r task x hj hx
  rw [hold _ (List.mem_of_getElem? hj)] at hx
  exact h j r task x hj hx

theorem Unanswered.grow (h : Unanswered answers runs i) (hgrow : Grows runs runs') :
    Unanswered answers runs' i := by
  obtain ⟨f, rfl, hf⟩ := hgrow
  intro j r task x hj hx hid
  rw [List.getElem?_map, Option.map_eq_some_iff] at hj
  obtain ⟨e, he, hfe⟩ := hj
  have hr : e.1 = r := by rw [← (hf e (List.mem_of_getElem? he)).1, hfe]
  obtain ⟨m, e', hjm, hm, payload, hmem⟩ := h j e.1 e.2 x he (hr ▸ hx) hid
  refine ⟨m, f e', hjm, by rw [List.getElem?_map, hm]; rfl, payload, ?_⟩
  exact (hf e' (List.mem_of_getElem? hm)).2 _ hmem

/-- The last run has announced the interrupt. -/
theorem Unanswered.of_announced {older : List (String × Task)} (h : task.Announces i) :
    Unanswered answers (older ++ [(r, task)]) i := by
  intro j r' task' x hj _ _
  have hlen := (List.getElem?_eq_some_iff.mp hj).1
  rw [List.length_append, List.length_singleton] at hlen
  exact ⟨older.length, (r, task), by omega, List.getElem?_concat_length, h⟩

theorem AnsweredOnce.congr (h : AnsweredOnce answers runs)
    (hold : ∀ e ∈ runs, answers'.get? e.1 = answers.get? e.1) : AnsweredOnce answers' runs := by
  intro k r task x hk hx
  rw [hold _ (List.mem_of_getElem? hk)] at hx
  exact (h k r task x hk hx).congr fun e he => hold e (List.mem_of_mem_take he)

theorem AnsweredOnce.grow (h : AnsweredOnce answers runs) (hgrow : Grows runs runs') :
    AnsweredOnce answers runs' := by
  obtain ⟨f, rfl, hf⟩ := hgrow
  intro k r task x hk hx
  rw [List.getElem?_map, Option.map_eq_some_iff] at hk
  obtain ⟨e, he, hfe⟩ := hk
  have hr : e.1 = r := by rw [← (hf e (List.mem_of_getElem? he)).1, hfe]
  refine (h k e.1 e.2 x he (hr ▸ hx)).grow ⟨f, List.map_take.symm, fun e' he' => ?_⟩
  exact hf e' (List.mem_of_mem_take he')

/-- A new run answers nothing, or an unanswered interrupt. -/
theorem AnsweredOnce.concat (h : AnsweredOnce answers runs)
    (hold : ∀ e ∈ runs, answers'.get? e.1 = answers.get? e.1)
    (hnew : ∀ x, answers'.get? r = some x → Unanswered answers runs x.interruptId) :
    AnsweredOnce answers' (runs ++ [(r, task)]) := by
  intro k r₁ task₁ x hk hx
  have hlen := (List.getElem?_eq_some_iff.mp hk).1
  rw [List.length_append, List.length_singleton] at hlen
  rw [List.take_append_of_le_length (by omega)]
  by_cases hlt : k < runs.length
  · rw [List.getElem?_append_left hlt] at hk
    exact (h.congr hold) k r₁ task₁ x hk hx
  · obtain rfl : k = runs.length := by omega
    rw [List.getElem?_concat_length, Option.some.injEq, Prod.mk.injEq] at hk
    obtain ⟨rfl, rfl⟩ := hk
    rw [List.take_length]
    exact (hnew x hx).congr hold

end Runs

namespace World

variable {rt : Runtime} {w w' : World}

theorem grows_of_set {t r : String} {task task' : Task} (htasks : w'.tasks = w.tasks.set r task')
    (hg : w.tasks.get? r = some task) (ht : task'.threadId = task.threadId)
    (hev : ∀ x ∈ task.events, x ∈ task'.events) : Grows (w.runsOf t) (w'.runsOf t) := by
  refine ⟨_, runsOf_set htasks hg ht t, ?_⟩
  rintro ⟨r₁, task₁⟩ he
  dsimp only
  by_cases hr : r₁ = r
  · subst hr
    obtain rfl := Option.some.inj (hg.symm.trans (mem_runsOf.mp he).1)
    rw [if_pos rfl]
    exact ⟨rfl, hev⟩
  · rw [if_neg hr]
    exact ⟨rfl, fun _ hx => hx⟩

theorem grows_of_step {act : Act} (h : w.step rt act = some w') (hact : act.isResolved = false)
    (t : String) : Grows (w.runsOf t) (w'.runsOf t) := by
  cases worldStep_of_step h with
  | launch => cases hact
  | cancel _ _ hg _ => exact grows_of_set rfl hg rfl fun _ hx => hx
  | skip hg _ _ => exact grows_of_set rfl hg rfl fun _ hx => hx
  | begin hg _ _ => exact grows_of_set rfl hg rfl fun _ hx => List.mem_append_left _ hx
  | resume hg _ => exact grows_of_set rfl hg rfl fun _ hx => List.mem_append_left _ hx
  | callback hg _ => exact grows_of_set rfl hg rfl fun _ hx => hx
  | _ => exact .refl _

end World

/-! ## The condition -/

namespace App

/-- The command is an `input.respond`. -/
def isRespond : Option Json → Bool
  | some (.obj es) =>
    match (Dict.ofList es).get? "method" with
    | some (.str method) => method == "input.respond"
    | _ => false
  | _ => false

/-- No run of this process has resumed the thread. -/
def unresumed (a : App) (threadId : String) : Bool :=
  (a.world.runsOf threadId).all fun e => !e.2.input.isResume

/-- No other request on the thread carries the interrupt. -/
def asksAlone (a : App) (id : Nat) (threadId interruptId : String) : Bool :=
  a.requests.entries.all fun e =>
    e.1 == id || e.2.threadId != threadId || e.2.interrupt != some interruptId

/-- `manager.respond` can tell whether the interrupt has been answered: by the pending
map (where `assistant_id` is no interrupt), or by the run in the slot; and where there is
neither, as after a restart of the process, nothing before can have answered it. -/
def canTell (a : App) (id : Nat) (threadId interruptId : String) : Bool :=
  (interruptId != "assistant_id" && (a.world.pendingInputs.get? threadId).isSome) ||
    (match a.world.active.get? threadId with
      | some existing => a.world.busy existing
      | none => false) ||
    (a.unresumed threadId || a.asksAlone id threadId interruptId)

/-- The assistant the thread is bound to is registered. -/
def bound (a : App) (threadId : String) : Bool :=
  match a.store.assistant threadId with
  | some assistantId => assistantId != "" && a.world.factories.contains assistantId
  | none => false

/-- No `input.respond` fails for a reason outside the manager: its id can be rendered, its
thread is bound, if at all, to an assistant that is registered, the snapshot can be read, and
nothing it awaits raises. And where one reaches the manager, it can tell whether its
interrupt has been answered. -/
def answersAt (limit : Nat) (a : App) : AppAct → Bool
  | .body id body _ =>
    match a.requests.get? id with
    | some req =>
      !isRespond body || (renders limit (commandId body).toValue &&
        ((a.store.assistant req.threadId).isNone || a.bound req.threadId))
    | none => true
  | .graph id outcome =>
    match a.requests.get? id, outcome with
    | some ⟨_, _, .stateGraph _ (.respond ..)⟩, .graph graph => graph.hasGetState
    | some ⟨_, _, .stateGraph _ (.respond ..)⟩, _ => false
    | _, _ => true
  | .state id outcome _ =>
    match a.requests.get? id, outcome with
    | some ⟨threadId, _, .stateRead _ (.respond interruptId _) read⟩, .ok snapshot =>
      snapshot.isReadable && (!(read.getD []).contains interruptId ||
        (a.bound threadId && a.canTell id threadId interruptId))
    | some ⟨_, _, .stateRead _ (.respond ..) _⟩, .error _ => false
    | _, _ => true
  | .started id outcome _ =>
    match a.requests.get? id, outcome with
    | some ⟨_, _, .runResume ..⟩, .graph _ => true
    | some ⟨_, _, .runResume ..⟩, _ => false
    | _, _ => true
  | _ => true

/-! ## The handlers that wait for a resume run -/

variable {rt : Runtime} {limit n : Nat} {a a' : App} {t i : String}

/-- What the condition says of a handler that has found its interrupt. -/
theorem canTell_of_answersAt {id : Nat} {interrupt : Option String} {cmdId response : Json}
    {ids : List String} {snapshot : Snapshot} {runId : String}
    (h : a.answersAt limit (.state id (.ok snapshot) runId) = true)
    (hg : a.requests.get? id =
      some ⟨t, interrupt, .stateRead cmdId (.respond i response) (some ids)⟩) (hin : i ∈ ids) :
    a.bound t = true ∧ a.canTell id t i = true := by
  simp only [answersAt, hg, Option.getD_some, List.contains_iff_mem.mpr hin, Bool.not_true,
    Bool.false_or, Bool.and_eq_true] at h
  exact h.2

/-- Before the first resume run of the process nothing has been answered. -/
theorem unanswered_of_unresumed (hF : a.FrameInv) (h : a.unresumed t = true) :
    Unanswered a.answers (a.world.runsOf t) i := by
  intro j r task x hj hx _
  have hmem := List.mem_of_getElem? hj
  obtain ⟨⟨task', hg, -, hres⟩, -⟩ := hF.answered r x hx
  obtain rfl := Option.some.inj (hg.symm.trans (World.mem_runsOf.mp hmem).1)
  have hnot := List.all_eq_true.mp h _ hmem
  rw [hres] at hnot
  cases hnot

/-- Nor has anything for an interrupt that one request alone has asked for, which has not come
to an answer. -/
theorem unanswered_of_asksAlone (hF : a.FrameInv) {id : Nat} {req : Request}
    (hg : a.requests.get? id = some req) (hopen : req.handler.isAnswered = false)
    (h : a.asksAlone id t i = true) : Unanswered a.answers (a.world.runsOf t) i := by
  intro j r task x hj hx hid
  obtain ⟨⟨task', hg', ht, -⟩, req', cmdId, hget, hthread, hint, hans⟩ := hF.answered r x hx
  obtain ⟨hmem, ht'⟩ := World.mem_runsOf.mp (List.mem_of_getElem? hj)
  obtain rfl := Option.some.inj (hg'.symm.trans hmem)
  -- another request has been told of the run
  have hne : x.request ≠ id := by
    rintro rfl
    obtain rfl := Option.some.inj (hg.symm.trans hget)
    rw [hans] at hopen
    cases hopen
  have hother := List.all_eq_true.mp h _ ((a.requests.mem_entries_iff _ _).mpr hget)
  simp only [hthread, ← ht, ht', hint, hid, bne_self_eq_false, Bool.or_false, beq_iff_eq] at hother
  exact absurd hother hne

/-- The manager resumes on a free thread, for an interrupt of its pending map if it has
one: it can tell, so the interrupt is not one that has been answered. -/
theorem unanswered_of_canTell (hF : a.FrameInv) {id : Nat} {req : Request}
    (hg : a.requests.get? id = some req) (hopen : req.handler.isAnswered = false)
    (h : a.canTell id t i = true) (hfree : a.world.Free t)
    (hR : a.world.Registered) (hpending : a.world.pendingInputs.get? t = none ∨
      ∃ pending, a.world.pendingInputs.get? t = some pending ∧ pending.contains i = true) :
    Unanswered a.answers (a.world.runsOf t) i := by
  simp only [canTell, Bool.or_eq_true, Bool.and_eq_true, bne_iff_ne] at h
  rcases h with (⟨hne, hsome⟩ | hbusy) | hunresumed | halone
  · rcases hpending with hp | ⟨pending, hp, hc⟩
    · rw [hp] at hsome
      cases hsome
    · -- the last run of the thread has announced it
      obtain ⟨older, r, task, hruns, hann⟩ := hR t pending hp
      rw [hruns]
      exact .of_announced ((hann i hc).resolve_left hne)
  · split at hbusy
    · next existing hget =>
      rw [hfree existing hget] at hbusy
      cases hbusy
    · cases hbusy
  · exact unanswered_of_unresumed hF hunresumed
  · exact unanswered_of_asksAlone hF hg hopen halone

theorem runId?_of_resumes? {handler : Handler} (h : handler.resumes? = some i) :
    ∃ r, handler.runId? = some r := by
  cases handler with
  | runResume cmdId r i => exact ⟨r, rfl⟩
  | _ => cases h

/-- Two requests that wait on one thread are the same. -/
theorem FrameInv.waiting_unique (hF : a.FrameInv) (hI : a.world.SlotInv) {id id' : Nat}
    {req req' : Request} {r r' : String} (hg : a.requests.get? id = some req)
    (hg' : a.requests.get? id' = some req') (hr : req.handler.runId? = some r)
    (hr' : req'.handler.runId? = some r') (ht : req.threadId = req'.threadId) : id = id' := by
  obtain ⟨s, hs, hst, -⟩ := hF.waits id req r hg hr
  obtain ⟨s', hs', hst', -⟩ := hF.waits id' req' r' hg' hr'
  -- both runs are in the slot of the thread
  obtain ⟨b, hb, rfl, -⟩ := hI.starting r s hs
  obtain ⟨b', hb', rfl, -⟩ := hI.starting r' s' hs'
  rw [hst', ← ht, ← hst, hb] at hb'
  obtain rfl := Option.some.inj hb'
  exact hF.unique id id' req req' b.runId hg hg' hr hr'

/-- The run of a request is created on its thread. -/
structure Launches (a a' : App) (t : String) (id : Nat) (req : Request) (r : String) : Prop where
  before : a.requests.get? id = some req
  waits : req.handler.runId? = some r
  thread : req.threadId = t
  after : ∀ req', a'.requests.get? id = some req' → req'.handler.resumes? = none
  runs : ∃ task, a'.world.runsOf t = a.world.runsOf t ++ [(r, task)]
  answer : ∀ x, a'.answers.get? r = some x → req.handler.resumes? = some x.interruptId

/-- A step lets the runs of a thread grow, or one of its requests gets a run; the runs
that were there answer what they did. -/
theorem runs_of_step {act : AppAct} (hF : a.FrameInv) (hI : a.world.SlotInv)
    (h : AppStep rt a act a') (t : String) :
    (∀ e ∈ a.world.runsOf t, a'.answers.get? e.1 = a.answers.get? e.1) ∧
    (Grows (a.world.runsOf t) (a'.world.runsOf t) ∨ ∃ id req r, a.Launches a' t id req r) := by
  cases h with
  | outside hw _ hans =>
      rw [hw, hans]
      exact ⟨fun _ _ => rfl, .inl (.refl _)⟩
  | process hw hact _ _ hans =>
      rw [hans]
      exact ⟨fun _ _ => rfl, .inl (World.grows_of_step hw hact t)⟩
  | move _ _ _ hw _ hans =>
      rw [hans]
      refine ⟨fun _ _ => rfl, .inl ?_⟩
      rcases hw with hw | ⟨act', hw, hact, -⟩
      · rw [hw]
        exact .refl _
      · exact World.grows_of_step hw hact t
  | reserve _ _ _ _ _ hw hact _ _ _ _ _ _ _ hans =>
      rw [hans]
      exact ⟨fun _ _ => rfl, .inl (World.grows_of_step hw hact t)⟩
  | fail _ _ hw _ hans =>
      obtain ⟨s, -, -, htasks, -⟩ := World.resolved_failed hw
      rw [hans, World.runsOf, World.runsOf, htasks]
      exact ⟨fun _ _ => rfl, .inl (.refl _)⟩
  | @launch id req runId _ cmdId hg hrun hw hreq hans =>
      obtain ⟨s, graph, config, hs, -, -, heq⟩ := World.resolved_launched hw
      obtain ⟨s', hs', hthread, -⟩ := hF.waits id req runId hg hrun
      obtain rfl := Option.some.inj (hs.symm.trans hs')
      have hnone := (hI.starting_fresh hs).2
      have hruns := World.runsOf_new
        (show (a.world.launch runId s graph config).tasks = _ from rfl) hnone t
      rw [← heq] at hruns
      constructor
      · rintro ⟨r, task⟩ he
        have hne : runId ≠ r := by
          rintro rfl
          rw [(World.mem_runsOf.mp he).1] at hnone
          cases hnone
        rw [hans]
        split
        · rfl
        · exact Dict.get?_set_ne _ _ hne
      · by_cases ht : s.threadId = t
        · rw [if_pos ht] at hruns
          refine .inr ⟨id, req, runId, hg, hrun, hthread.symm.trans ht, ?_, ⟨_, hruns⟩, ?_⟩
          · intro req' hg'
            rw [hreq, Dict.get?_set_self] at hg'
            rw [← Option.some.inj hg']
            rfl
          · intro x hx
            rw [hans] at hx
            split at hx
            · -- no run without a task has an answer
              obtain ⟨⟨task, htask, -, -⟩, -⟩ := hF.answered runId x hx
              rw [hnone] at htask
              cases htask
            · next i hi =>
              rw [Dict.get?_set_self] at hx
              rw [hi, ← Option.some.inj hx]
        · rw [if_neg ht, List.append_nil] at hruns
          rw [hruns]
          exact .inl (.refl _)

/-- A handler that waits for a resume run waited before, or has found its interrupt on
a free thread. -/
theorem resumes_before {act : AppAct} {id : Nat} {req : Request} (h : AppStep rt a act a')
    (hg : a'.requests.get? id = some req) (hi : req.handler.resumes? = some i) :
    a.requests.get? id = some req ∨
      ∃ req₀, a.requests.get? id = some req₀ ∧ a.Resumes act id req₀ req := by
  obtain ⟨r, hr⟩ := runId?_of_resumes? hi
  cases h with
  | outside _ hreq _ => exact .inl (hreq ▸ hg)
  | process _ _ _ hreq _ => exact .inl (hreq ▸ hg)
  | move _ hrun _ _ hreq _ =>
      rw [hreq, Dict.get?_set] at hg
      split at hg
      · rw [← Option.some.inj hg, hrun] at hr
        cases hr
      · exact .inl hg
  | reserve hg₀ _ _ _ _ _ _ _ _ _ _ hresumes _ hreq _ =>
      rw [hreq, Dict.get?_set] at hg
      split at hg
      · next hid =>
        subst hid
        obtain rfl := Option.some.inj hg
        exact .inr ⟨_, hg₀, hresumes⟩
      · exact .inl hg
  | fail _ _ _ hreq _ =>
      rw [hreq, Dict.get?_set] at hg
      split at hg
      · rw [← Option.some.inj hg] at hi
        cases hi
      · exact .inl hg
  | launch _ _ _ hreq _ =>
      rw [hreq, Dict.get?_set] at hg
      split at hg
      · rw [← Option.some.inj hg] at hi
        cases hi
      · exact .inl hg

/-- Every handler that waits for a resume run answers an unanswered interrupt. -/
def UnansweredWaits (a : App) : Prop :=
  ∀ id req i, a.requests.get? id = some req → req.handler.resumes? = some i →
    Unanswered a.answers (a.world.runsOf req.threadId) i

theorem UnansweredWaits.step {act : AppAct} (hU : a.UnansweredWaits) (hF : a.FrameInv)
    (hI : a.world.SlotInv) (hR : a.world.Registered) (hok : a.answersAt limit act = true)
    (h : AppStep rt a act a') : a'.UnansweredWaits := by
  intro id req i hg hi
  obtain ⟨hold, hruns⟩ := runs_of_step hF hI h req.threadId
  have hbefore := resumes_before h hg hi
  rcases hruns with hgrow | ⟨id₁, req₁, r₁, hlaunch⟩
  · refine Unanswered.grow (Unanswered.congr ?_ hold) hgrow
    rcases hbefore with hg₀ | ⟨req₀, hg₀, hresumes⟩
    · exact hU id req i hg₀ hi
    · obtain ⟨⟨snapshot, runId, cmdId, response, ids, rfl, hhandler, hin⟩, ht, hfree,
        hpending⟩ := hresumes i hi
      obtain ⟨t₀, interrupt, handler⟩ := req₀
      dsimp only at hhandler ht
      subst hhandler ht
      exact unanswered_of_canTell hF hg₀ rfl (canTell_of_answersAt hok hg₀ hin).2 hfree hR hpending
  · -- a request that gets its run waited for it, so no other is on this thread
    obtain ⟨r, hr⟩ := runId?_of_resumes? hi
    rcases hbefore with hg₀ | ⟨req₀, hg₀, hresumes⟩
    · obtain rfl := hF.waiting_unique hI hlaunch.before hg₀ hlaunch.waits hr hlaunch.thread
      rw [hlaunch.after req hg] at hi
      cases hi
    · obtain ⟨-, -, hfree, -⟩ := hresumes i hi
      obtain ⟨s, hs, ht, -⟩ := hF.waits id₁ req₁ r₁ hlaunch.before hlaunch.waits
      exact absurd (ht.trans hlaunch.thread) (hI.not_starting_of_free hfree hs)

theorem unansweredWaits_of_reachable
    (h : (appSys rt n).ReachableVia (fun a act => a.answersAt limit act = true) a) :
    a.UnansweredWaits := by
  refine h.induct ?_ ?_
  · rintro a ⟨-, hreq, -⟩ id req i hg
    rw [hreq] at hg
    cases hg
  · intro a act a' hreach ih hok hstep
    have hworld := world_reachable hreach
    exact ih.step (frameInv_of_reachable hreach) (World.slotInv_of_reachable hworld)
      (World.registered_of_reachable hworld) hok (appStep_of_step hstep)

end App

end AgentProtocol

import AgentProtocol.Runner.Log

/-!
# The process, seen from one hub

A step of the process is a run of actions on the hub of each thread (`hubActs`,
`run_hubActs`): the publishes of a stretch of a task, one after the other, or a step of a
response. So a condition on the steps of one hub is one on the steps of the process
(`OnHub`, `onHub_simulates`), and what holds of a hub under that condition holds of the hubs
of the process. What the runs publish there is under the method of its event, in the root
namespace, and with the id the hub makes (`envelope_of_reachable`).
-/

namespace AgentProtocol

/-- The publishes of these events, from seq `seq` on. -/
def publishActs (rt : Runtime) (t r : String) : Nat → List EventData → List (StreamAct Published)
  | _, [] => []
  | seq, e :: es =>
    .publish e.method { runId := r, data := e } none none none (rt.nowMs t (seq + 1)) ::
      publishActs rt t r (seq + 1) es

/-- A publish is one of a run: under the method of its event, with everything else left to the
hub. -/
def StreamAct.OfRun : StreamAct Published → Prop
  | .publish method d ns ts eid _ => method = d.data.method ∧ ns = none ∧ ts = none ∧ eid = none
  | _ => True

namespace World

/-- What an action does on the hub of thread `t`. -/
def hubActs (rt : Runtime) (w : World) (t : String) : Act → List (StreamAct Published)
  | .stream t' act => if t' = t then [act] else []
  | .begin id =>
    match w.tasks.get? id with
    | some task =>
      if task.threadId = t ∧ task.cancelRequested = false then
        publishActs rt t id (w.hub t).hub.seq (onStart task.assistantId).events
      else []
    | none => []
  | .resume id awaited =>
    match w.tasks.get? id with
    | some task =>
      if task.threadId = t then
        match resume rt task.assistantId task.graph task.phase awaited with
        | some s => publishActs rt t id (w.hub t).hub.seq s.events
        | none => []
      else []
    | none => []
  | _ => []

/-- Every action of this step on the hub of `t` satisfies `ok`. -/
def OnHub (rt : Runtime) (n : Nat) (t : String)
    (ok : StreamHub Published → StreamAct Published → Prop) (w : World) (a : Act) : Prop :=
  (streamSys Published n).RunsVia ok (w.hub t) (w.hubActs rt t a)

instance (rt : Runtime) (n : Nat) (t : String)
    (ok : StreamHub Published → StreamAct Published → Prop) [∀ h a, Decidable (ok h a)] (w : World)
    (a : Act) : Decidable (w.OnHub rt n t ok a) :=
  inferInstanceAs (Decidable (TSys.RunsVia _ _ _ _))

variable {rt : Runtime} {n : Nat} {w w' : World} {a : Act} {t : String}

theorem run_publishActs (r : String) (h : StreamHub Published) (es : List EventData) :
    (streamSys Published n).run h (publishActs rt t r h.hub.seq es) =
      some (publishAll rt t r h es) := by
  induction es generalizing h with
  | nil => rfl
  | cons e es ih =>
      exact ih (h.publish e.method { runId := r, data := e } none none none
        (rt.nowMs t (h.hub.seq + 1)))

/-- A task performs a stretch on the hub of its thread. -/
theorem run_perform (w : World) (id : String) (task : Task) (s : TaskStep) (t : String) :
    (streamSys Published n).run (w.hub t)
        (if task.threadId = t then publishActs rt t id (w.hub t).hub.seq s.events else []) =
      some ((w.perform rt id task s).hub t) := by
  rw [hub_perform]
  split
  · next ht =>
    rw [ht]
    exact run_publishActs id (w.hub t) s.events
  · rfl

/-- The step of the process is that run on the hub. -/
theorem run_hubActs (h : w.step rt a = some w') (t : String) :
    (streamSys Published n).run (w.hub t) (w.hubActs rt t a) = some (w'.hub t) := by
  cases a with
  | register | start | respond | resolved | cancel | callback =>
      -- these leave the hubs alone
      cases worldStep_of_step h <;> rfl
  | begin id =>
      simp only [step, begin] at h
      simp only [hubActs]
      split at h
      · cases h
      · next task hg =>
        rw [hg]
        split at h
        · split at h
          · next hcancel =>
            obtain rfl := Option.some.inj h
            simp only [hcancel, Bool.true_eq_false, and_false, if_false]
            rfl
          · next hcancel =>
            obtain rfl := Option.some.inj h
            simp only [Bool.eq_false_iff.mpr hcancel, and_true]
            exact run_perform w id task (onStart task.assistantId) t
        · cases h
  | resume id awaited =>
      obtain ⟨task, s, hg, hs, rfl⟩ := resume_inv h
      simp only [hubActs, hg, hs]
      exact run_perform w id { task with fed := task.fed ++ [awaited] } s t
  | stream t' act =>
      simp only [step] at h
      split at h
      · cases h
      · obtain ⟨hub', hstep, rfl⟩ := Option.map_eq_some_iff.mp h
        simp only [hubActs]
        rw [hub_set]
        split
        · next ht =>
          subst ht
          exact TSys.run_cons [] hstep
        · rfl

theorem hub_reaches (h : (runSys rt n).Reaches w w') (t : String) :
    (streamSys Published n).Reaches (w.hub t) (w'.hub t) := by
  induction h with
  | refl => exact .refl
  | tail _ _ hstep ih => exact ih.trans (TSys.reaches_of_run (run_hubActs hstep t))

/-- What meets the condition on the hub of `t` is a run of that hub. -/
theorem onHub_simulates (rt : Runtime) (n : Nat) (t : String)
    (ok : StreamHub Published → StreamAct Published → Prop) :
    (runSys rt n).Simulates (streamSys Published n) (OnHub rt n t ok) ok (World.hub · t) where
  init := by
    rintro w rfl
    rfl
  step _ _ _ _ hok hstep := TSys.reachesVia_of_run ok hok (run_hubActs hstep t)

/-! ## What the runs publish -/

theorem runsVia_publishActs (r : String) (h : StreamHub Published) (seq : Nat)
    (es : List EventData) :
    (streamSys Published n).RunsVia (fun _ a => a.OfRun) h (publishActs rt t r seq es) := by
  induction es generalizing h seq with
  | nil => trivial
  | cons e es ih => exact ⟨⟨rfl, rfl, rfl, rfl⟩, ih _ _⟩

/-- Nothing but the runs publishes on a hub of the process. -/
theorem onHub_ofRun (h : w.step rt a = some w') (t : String) :
    w.OnHub rt n t (fun _ a => a.OfRun) a := by
  unfold OnHub
  cases a with
  | begin id =>
      simp only [hubActs]
      split
      · split
        · exact runsVia_publishActs _ _ _ _
        · trivial
      · trivial
  | resume id awaited =>
      simp only [hubActs]
      split
      · split
        · split
          · exact runsVia_publishActs _ _ _ _
          · trivial
        · trivial
      · trivial
  | stream t' act =>
      simp only [hubActs]
      split
      · have hother : act.OfRun := by
          cases act with
          | publish => cases h
          | _ => trivial
        refine ⟨hother, ?_⟩
        split <;> trivial
      · trivial
  | _ => trivial

/-- The envelopes on the hubs of the process. -/
theorem envelope_of_reachable (hw : (runSys rt n).Reachable w) (t : String) :
    ∀ e ∈ (w.hub t).published, e.method = e.data.data.method ∧ e.ns = [] ∧
      e.eventId = s!"{e.timestamp}-{e.seq}" := by
  have hvia : (runSys rt n).ReachableVia (OnHub rt n t fun _ a => a.OfRun) w := by
    refine hw.induct (P := (runSys rt n).ReachableVia _) ?_ ?_
    · intro w h₀
      exact .of_init h₀
    · intro w a w' _ ih _ hstep
      exact ih.tail (onHub_ofRun hstep t) hstep
  refine ((onHub_simulates rt n t _).reachable hvia).induct (P := fun s => ∀ e ∈ s.published,
    e.method = e.data.data.method ∧ e.ns = [] ∧ e.eventId = s!"{e.timestamp}-{e.seq}") ?_ ?_
  · rintro s rfl e he
    cases he
  · intro s a s' _ ih hok hstep e he
    rcases StreamHub.step_log hstep with ⟨m, d, ns, ts, eid, now, rfl, rfl⟩ |
      ⟨_, _, _, -, rfl⟩ | ⟨-, hlog⟩
    · rcases List.mem_append.mp he with he | he
      · exact ih e he
      · obtain ⟨rfl, rfl, rfl, rfl⟩ := hok
        rw [List.mem_singleton.mp he]
        exact ⟨rfl, rfl, rfl⟩
    · exact ih e he
    · exact ih e (hlog.2.2.2.1 ▸ he)

end World

end AgentProtocol

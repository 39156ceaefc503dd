import Mathlib.Data.Fintype.EquivFin
import AgentProtocol.Router.Envelopes

/-!
# Every command gets an envelope (`dispatch_command`)

With factories, graphs and savers that do not raise, a command on a known thread is
answered with an envelope that has its id exactly when `App.answerable` holds of its body
and of the state that finds it, and `Snapshot.answers` of the snapshot it reads, if it reads
one (`command_answered_iff`); and it can always be answered.
-/

namespace AgentProtocol

/-- What request `id` calls outside the package does not raise. -/
def AppAct.Serves (id : Nat) : AppAct → Prop
  | .graph id' outcome => id' = id → ∃ graph : Graph, outcome = .graph graph ∧ graph.hasGetState = true
  | .state id' outcome _ => id' = id → ∃ snapshot, outcome = .ok snapshot
  | .started id' outcome _ => id' = id → ∃ graph, outcome = .graph graph
  | _ => True

/-- A snapshot that the action hands to request `id` can be answered with. -/
def AppAct.answers (rt : Runtime) (limit : Nat) (id : Nat) (asks : Bool) : AppAct → Bool
  | .state id' (.ok snapshot) _ => id' != id || snapshot.answers rt limit asks
  | _ => true

namespace World

variable {rt : Runtime} {limit : Nat} {w w' : World} {store : MemoryThreadStore}
  {t i runId : String} {cmdId : Json} {asks verdict : Bool}

/-- `input.respond` answers every error of the manager. -/
theorem onCourse_respond (response : Json) (ids : List String)
    (hresumes : ∀ v, w.ResumesAs t i (store.assistant t) v → ∃ s, v = .str s) :
    (dispatchRespond rt w store t cmdId i response ids runId).1.OnCourse limit cmdId asks true
      (dispatchRespond rt w store t cmdId i response ids runId).2 := by
  unfold dispatchRespond
  by_cases hin : i ∈ ids
  · simp only [if_pos hin]
    rcases w.respond_cases t i response (store.assistant t) runId with heq | ⟨v, hv, heq⟩
    · rw [heq]
      exact .envelope rfl rfl
    · obtain ⟨s, rfl⟩ := hresumes v hv
      rw [heq]
      have hstart := w.startStep t (.str s) (.resume response) none .null runId
      generalize w.start t (.str s) (.resume response) none .null runId = r at hstart
      cases hstart with
      | busy => exact .envelope rfl rfl
      | unknown _ hf =>
          obtain ⟨-, ⟨-, known, rfl⟩ | ⟨hh, -⟩⟩ := findFactory_toValue (x := .str s) hf
          · exact .envelope rfl rfl
          · cases hh
      | held => exact .resume rfl
  · simp only [if_neg hin]
    exact .envelope rfl rfl

/-- The snapshot decides, of a handler that has come to it. -/
theorem onCourse_shown {command : StateCommand} (hasks : command.isGet = asks)
    (snapshot : Snapshot) (ids : List String)
    (hresumes : ∀ i v, w.ResumesAs t i (store.assistant t) v → ∃ s, v = .str s) :
    (stateShown rt w store t cmdId command snapshot ids runId).1.OnCourse limit cmdId asks
      (snapshot.answers rt limit asks)
      (stateShown rt w store t cmdId command snapshot ids runId).2 := by
  unfold stateShown Snapshot.answers
  rcases readThreadState_cases rt snapshot t with ⟨hread, heq⟩ | ⟨hread, exc, heq⟩
  · rw [heq, hread]
    subst hasks
    cases command with
    | get =>
        refine .answered ((and_iff_right rfl).trans ?_)
        rw [← renders_shown rt snapshot t]
        exact Iff.rfl
    | respond i response => exact onCourse_respond response ids (hresumes i)
  · rw [heq, hread]
    exact .raised _

/-- A start whose graph is resolved fails where the merge does. -/
theorem resolved_graph {r : String} {s : Starting} {graph : Graph} {res : Option RunExc}
    (hs : w.starting.get? r = some s) (h : w.resolved r (.graph graph) = some (w', res)) :
    (mergeable s.config s.metadata = true ∧ res = none) ∨
      (mergeable s.config s.metadata = false ∧ ∃ exc, res = some (.other exc)) := by
  have hiff := runConfig_ok_iff s.threadId s.config s.metadata
  simp only [resolved, hs] at h
  cases hcfg : runConfig s.threadId s.config s.metadata with
  | ok config =>
      rw [hcfg] at h
      cases h
      exact .inl ⟨hiff.mp ⟨config, hcfg⟩, rfl⟩
  | error exc =>
      rw [hcfg] at h
      cases h
      refine .inr ⟨?_, exc, rfl⟩
      rw [← Bool.not_eq_true, ← hiff]
      rintro ⟨config, hok⟩
      rw [hcfg] at hok
      cases hok

end World

namespace App

variable {rt : Runtime} {limit n : Nat} {a a' b : App} {id : Nat} {t : String} {cmdId : Json}
  {asks verdict : Bool}

/-- The handler of request `id`, on thread `t`, is on its course. -/
def CourseOf (limit : Nat) (a : App) (id : Nat) (t : String) (cmdId : Json)
    (asks verdict : Bool) : Prop :=
  ∃ req, a.requests.get? id = some req ∧ req.threadId = t ∧
    a.world.OnCourse limit cmdId asks verdict req.handler

/-- A step of another request. -/
theorem CourseOf.other {act : AppAct} (h : a.CourseOf limit id t cmdId asks verdict)
    (hF' : a'.FrameInv) (hI : a.world.SlotInv) (hstep : ServiceStep rt a act a')
    (hne : act.requestId? ≠ some id) : a'.CourseOf limit id t cmdId asks verdict := by
  obtain ⟨req, hg, ht, hon⟩ := h
  have hg' : a'.requests.get? id = some req := (hstep.request_kept hne).trans hg
  refine ⟨req, hg', ht, ?_⟩
  generalize hh : req.handler = handler at hon
  cases hon with
  | graph hk hv => exact .graph hk hv
  | read hk hv => exact .read hk hv
  | @start r v s hs hmerge =>
      -- the start it waits for is still under way
      obtain ⟨s', hs', -⟩ := hF'.waits id req r hg' (by rw [hh]; rfl)
      have hbefore := hstep.starting_before (hI.starting_fresh hs).1 hs'
      obtain rfl := Option.some.inj (hs.symm.trans hbefore)
      exact .start hs' hmerge
  | resume hv => exact .resume hv
  | answered hv => exact .answered hv

theorem courseOf_put {req : Request} {w : World} (ht : req.threadId = t)
    (h : w.OnCourse limit cmdId asks verdict req.handler) :
    (a.put id req w).CourseOf limit id t cmdId asks verdict :=
  ⟨req, Dict.get?_set_self _ _ _, ht, h⟩

/-- `aget_state` returns. -/
theorem CourseOf.state {snapshot : Snapshot} {runId : String}
    (h : a.CourseOf limit id t cmdId asks verdict) (hB : a.BoundInv) (hP : a.world.PendingInv rt)
    (hstep : a.step rt (.state id (.ok snapshot) runId) = some a') :
    a'.CourseOf limit id t cmdId asks (verdict && snapshot.answers rt limit asks) := by
  obtain ⟨req, hg, ht, hon⟩ := h
  simp only [step] at hstep
  split at hstep
  · next t' i cmdId' command read hg' =>
    obtain rfl := Option.some.inj (hg'.symm.trans hg)
    obtain rfl : t' = t := ht
    cases hon with
    | read hk hv =>
        subst hv
        rw [Bool.true_and]
        split at hstep
        · next heq => cases heq
        · cases hstep
        · next heq =>
          cases heq
          split at hstep
          · cases hstep
          · obtain rfl := Option.some.inj hstep
            refine courseOf_put rfl (World.onCourse_shown hk _ _ ?_)
            intro i v hv
            obtain ⟨s, hs, -⟩ := hB.resumed hP hv
            exact ⟨s, hs⟩
  · cases hstep

/-- The graph of the run is there: the start fails where the merge does. -/
theorem CourseOf.started {graph : Graph} {now : String}
    (h : a.CourseOf limit id t cmdId asks verdict) (hF : a.FrameInv)
    (hstep : a.step rt (.started id (.graph graph) now) = some a') :
    a'.CourseOf limit id t cmdId asks verdict := by
  obtain ⟨req, hg, ht, hon⟩ := h
  simp only [step] at hstep
  split at hstep
  · next t' i cmdId' runId v hg' =>
    obtain rfl := Option.some.inj (hg'.symm.trans hg)
    obtain rfl : t' = t := ht
    cases hon with
    | start hs hmerge =>
        split at hstep
        · cases hstep
        · next w' exc hw =>
          obtain rfl := Option.some.inj hstep
          obtain ⟨-, hnone⟩ | ⟨hfalse, e, hexc⟩ := World.resolved_graph hs hw
          · cases hnone
          · cases hexc
            rw [← hmerge, hfalse]
            exact courseOf_put rfl (.raised _)
        · next w' hw =>
          obtain rfl := Option.some.inj hstep
          obtain ⟨htrue, -⟩ | ⟨-, e, hexc⟩ := World.resolved_graph hs hw
          · rw [← hmerge, htrue]
            refine ⟨⟨t', i, .answered (.success cmdId (.run runId))⟩, ?_, rfl, .envelope rfl rfl⟩
            rw [bind_requests]
            exact Dict.get?_set_self _ _ _
          · cases hexc
  · next t' i cmdId' runId interruptId hg' =>
    obtain rfl := Option.some.inj (hg'.symm.trans hg)
    obtain rfl : t' = t := ht
    cases hon with
    | resume hv =>
        subst hv
        -- a resume has nothing to merge
        obtain ⟨s, hs, -, hkind, hcfg⟩ := hF.waits _ _ runId hg rfl
        obtain ⟨hconfig, hmetadata⟩ := hcfg hkind
        split at hstep
        · cases hstep
        · next w' exc hw =>
          obtain ⟨-, hnone⟩ | ⟨hfalse, -⟩ := World.resolved_graph hs hw
          · cases hnone
          · rw [hconfig, hmetadata] at hfalse
            cases hfalse
        · obtain rfl := Option.some.inj hstep
          exact ⟨⟨t', i, .answered (.success cmdId (.run runId))⟩, Dict.get?_set_self _ _ _, rfl,
            .envelope rfl rfl⟩
  · cases hstep

/-- A step of the request itself. -/
theorem CourseOf.own {act : AppAct} (h : a.CourseOf limit id t cmdId asks verdict)
    (hF : a.FrameInv) (hB : a.BoundInv) (hP : a.world.PendingInv rt) (hserves : act.Serves id)
    (hown : act.requestId? = some id) (hstep : a.step rt act = some a') :
    a'.CourseOf limit id t cmdId asks (verdict && act.answers rt limit id asks) := by
  have hcourse := h
  obtain ⟨req, hg, ht, hon⟩ := h
  cases act with
  | create => cases hown
  | cancelRun => cases hown
  | checkpoint => cases hown
  | world => cases hown
  | request id' t' =>
      obtain rfl := Option.some.inj hown
      simp only [step, Dict.contains, hg, Option.isSome_some, if_true] at hstep
      cases hstep
  | body id' body runId =>
      obtain rfl := Option.some.inj hown
      simp only [step] at hstep
      split at hstep
      · next t' i record hg' =>
        obtain rfl := Option.some.inj (hg'.symm.trans hg)
        cases hon
      · cases hstep
  | graph id' outcome =>
      obtain rfl := Option.some.inj hown
      have hans : AppAct.answers rt limit id' asks (.graph id' outcome) = true := rfl
      rw [hans, Bool.and_true]
      simp only [step] at hstep
      split at hstep
      · next t' i cmdId' command hg' =>
        obtain rfl := Option.some.inj (hg'.symm.trans hg)
        obtain rfl := Option.some.inj hstep
        obtain ⟨graph, rfl, hstate⟩ := hserves rfl
        cases hon with
        | graph hk hv =>
            refine courseOf_put (by exact ht) ?_
            simp only [graphResolved, hstate, if_true]
            exact .read hk hv
      · cases hstep
  | read id' =>
      obtain rfl := Option.some.inj hown
      have hans : AppAct.answers rt limit id' asks (.read id') = true := rfl
      rw [hans, Bool.and_true]
      simp only [step] at hstep
      split at hstep
      · next t' i cmdId' command read hg' =>
        obtain rfl := Option.some.inj (hg'.symm.trans hg)
        obtain rfl := Option.some.inj hstep
        cases hon with
        | read hk hv => exact courseOf_put (by exact ht) (.read hk hv)
      · cases hstep
  | state id' outcome runId =>
      obtain rfl := Option.some.inj hown
      obtain ⟨snapshot, rfl⟩ := hserves rfl
      rw [AppAct.answers, bne_self_eq_false, Bool.false_or]
      exact hcourse.state hB hP hstep
  | started id' outcome now =>
      obtain rfl := Option.some.inj hown
      have hans : AppAct.answers rt limit id' asks (.started id' outcome now) = true := rfl
      rw [hans, Bool.and_true]
      obtain ⟨graph, rfl⟩ := hserves rfl
      exact hcourse.started hF hstep

/-- An action of another request hands this one no snapshot. -/
theorem answers_of_other {act : AppAct} (hne : act.requestId? ≠ some id) :
    act.answers rt limit id asks = true := by
  cases act with
  | state id' outcome runId =>
      have hother : id' ≠ id := fun heq => hne (congrArg some heq)
      cases outcome with
      | error exc => rfl
      | ok snapshot => rw [AppAct.answers, bne_iff_ne.mpr hother, Bool.true_or]
  | _ => rfl

/-- One step: a snapshot that cannot be answered with turns the verdict. -/
theorem CourseOf.step {act : AppAct} (h : a.CourseOf limit id t cmdId asks verdict)
    (ha : (appSys rt n).Reachable a) (hserves : act.Serves id)
    (hstep : a.step rt act = some a') :
    a'.CourseOf limit id t cmdId asks (verdict && act.answers rt limit id asks) := by
  have hworld := world_reachable ha
  by_cases hown : act.requestId? = some id
  · exact h.own (frameInv_of_reachable ha) (boundInv_of_reachable ha)
      (World.pendingInv_of_reachable hworld) hserves hown hstep
  · rw [answers_of_other hown, Bool.and_true]
    exact h.other (frameInv_of_reachable (ha.tail trivial hstep))
      (World.slotInv_of_reachable hworld) (serviceStep_of_step hstep) hown

theorem CourseOf.run {acts : List AppAct} (h : a.CourseOf limit id t cmdId asks verdict)
    (ha : (appSys rt n).Reachable a) (hserves : ∀ act ∈ acts, act.Serves id)
    (hrun : (appSys rt n).run a acts = some b) :
    b.CourseOf limit id t cmdId asks (verdict && acts.all (·.answers rt limit id asks)) := by
  induction acts generalizing a verdict with
  | nil =>
      obtain rfl := Option.some.inj hrun
      rwa [List.all_nil, Bool.and_true]
  | cons act acts ih =>
      obtain ⟨a₁, hstep, hrun⟩ := Option.bind_eq_some_iff.mp hrun
      have h₁ := h.step ha (hserves act List.mem_cons_self) hstep
      rw [List.all_cons, ← Bool.and_assoc]
      exact ih h₁ (ha.tail trivial hstep)
        (fun act' hmem => hserves act' (List.mem_cons_of_mem _ hmem)) hrun

/-- The request has been handed no snapshot that cannot be answered with. -/
theorem all_answers_iff {acts : List AppAct} :
    acts.all (·.answers rt limit id asks) = true ↔
      ∀ snapshot runId, AppAct.state id (.ok snapshot) runId ∈ acts →
        snapshot.answers rt limit asks = true := by
  rw [List.all_eq_true]
  constructor
  · intro h snapshot runId hmem
    have hact := h _ hmem
    rwa [AppAct.answers, bne_self_eq_false, Bool.false_or] at hact
  · intro h act hmem
    by_cases hown : act.requestId? = some id
    · cases act with
      | state id' outcome runId =>
          obtain rfl := Option.some.inj hown
          cases outcome with
          | error exc => rfl
          | ok snapshot =>
              rw [AppAct.answers, bne_self_eq_false, Bool.false_or]
              exact h snapshot runId hmem
      | _ => rfl
    · exact answers_of_other hown

/-! ## The handler comes to an answer -/

end App

/-- How many awaits a handler has before it, at most. -/
def Handler.awaits : Handler → Nat
  | .body _ => 5
  | .stateGraph .. => 4
  | .stateRead _ _ none => 3
  | .stateRead _ _ (some _) => 2
  | .runStart .. => 1
  | .runResume .. => 1
  | .answered _ => 0

theorem stateShown_awaits (rt : Runtime) (w : World) (store : MemoryThreadStore)
    (t : String) (cmdId : Json) (command : StateCommand) (snapshot : Snapshot) (ids : List String)
    (runId : String) :
    (stateShown rt w store t cmdId command snapshot ids runId).2.awaits < 2 := by
  unfold stateShown
  split
  · exact Nat.two_pos
  · split
    · exact Nat.two_pos
    · unfold dispatchRespond
      split
      · split
        · exact Nat.one_lt_two
        · exact Nat.two_pos
      · exact Nat.two_pos

namespace App

variable {rt : Runtime} {n : Nat} {a a' b : App} {id : Nat}

/-- A step of the request, to the next await. -/
structure Advances (rt : Runtime) (a : App) (id : Nat) (req : Request) (act : AppAct) (a' : App) :
    Prop where
  step : a.step rt act = some a'
  own : act.requestId? = some id
  serves : act.Serves id
  nearer : ∃ req', a'.requests.get? id = some req' ∧ req'.handler.awaits < req.handler.awaits

theorem Advances.of_put {req req' : Request} {act : AppAct} {w : World}
    (step : a.step rt act = some (a.put id req' w)) (own : act.requestId? = some id)
    (serves : act.Serves id) (nearer : req'.handler.awaits < req.handler.awaits) :
    Advances rt a id req act (a.put id req' w) :=
  ⟨step, own, serves, _, Dict.get?_set_self _ _ _, nearer⟩

/-- The resolution that a handler waits for can end. -/
theorem resolves (hF : a.FrameInv) {req : Request} {r : String} (hg : a.requests.get? id = some req)
    (hrun : req.handler.runId? = some r) :
    ∃ w' res, a.world.resolved r (.graph ⟨true⟩) = some (w', res) := by
  obtain ⟨s, hs, -⟩ := hF.waits id req r hg hrun
  unfold World.resolved
  rw [hs]
  dsimp only
  split <;> exact ⟨_, _, rfl⟩

/-- A request under way can take a step. -/
theorem advances (rt : Runtime) (hF : a.FrameInv) {req : Request} (hg : a.requests.get? id = some req)
    (hnot : req.handler.isAnswered = false) : ∃ act a', Advances rt a id req act a' := by
  obtain ⟨t, i, handler⟩ := req
  obtain ⟨runId, hfresh⟩ := Infinite.exists_notMem_finset a.world.drawn.toFinset
  rw [List.mem_toFinset] at hfresh
  cases handler with
  | body record =>
      have hstep : a.step rt (.body id none runId) = some (a.put id
          ⟨t, none, .answered (.error .null "invalid_argument" "invalid JSON body")⟩ a.world) := by
        simp only [step, hg, if_neg hfresh]
        rfl
      exact ⟨_, _, .of_put hstep rfl trivial (Nat.succ_pos 4)⟩
  | stateGraph cmdId command =>
      have hstep : a.step rt (.graph id (.graph ⟨true⟩)) =
          some (a.put id ⟨t, i, .stateRead cmdId command none⟩ a.world) := by
        simp only [step, hg, graphResolved, if_true]
      exact ⟨_, _, .of_put hstep rfl (fun _ => ⟨⟨true⟩, rfl, rfl⟩) (Nat.lt_succ_self 3)⟩
  | stateRead cmdId command read =>
      cases read with
      | none =>
          have hstep : a.step rt (.read id) = some (a.put id
              ⟨t, i, .stateRead cmdId command (some ((a.saver.get? t).getD []))⟩ a.world) := by
            simp only [step, hg]
          exact ⟨_, _, .of_put hstep rfl trivial (Nat.lt_succ_self 2)⟩
      | some ids =>
          have hstep : a.step rt (.state id (.ok (waitingSnapshot ids)) runId) = some (a.put id
              ⟨t, i, (stateShown rt a.world a.store t cmdId command (waitingSnapshot ids) ids runId).2⟩
              (stateShown rt a.world a.store t cmdId command (waitingSnapshot ids) ids runId).1) := by
            simp only [step, hg, waitingSnapshot_interruptIds, hfresh, ne_eq, not_true, or_self,
              if_false]
          exact ⟨_, _, .of_put hstep rfl (fun _ => ⟨_, rfl⟩) (stateShown_awaits ..)⟩
  | runStart cmdId r v =>
      obtain ⟨w', res, hw⟩ := resolves hF hg rfl
      cases res with
      | some exc =>
          have hstep : a.step rt (.started id (.graph ⟨true⟩) "") = some (a.put id
              ⟨t, i, .answered (exc.startEnvelope rt cmdId)⟩ w') := by
            simp only [step, hg, hw]
          exact ⟨_, _, .of_put hstep rfl (fun _ => ⟨_, rfl⟩) Nat.one_pos⟩
      | none =>
          have hstep : a.step rt (.started id (.graph ⟨true⟩) "") = some ((a.put id
              ⟨t, i, .answered (.success cmdId (.run r))⟩ w').bind t v "") := by
            simp only [step, hg, hw]
          refine ⟨_, _, hstep, rfl, fun _ => ⟨_, rfl⟩,
            ⟨t, i, .answered (.success cmdId (.run r))⟩, ?_, Nat.one_pos⟩
          rw [bind_requests]
          exact Dict.get?_set_self _ _ _
  | runResume cmdId r interruptId =>
      obtain ⟨w', res, hw⟩ := resolves hF hg rfl
      cases res with
      | some exc =>
          have hstep : a.step rt (.started id (.graph ⟨true⟩) "") = some (a.put id
              ⟨t, i, .answered (exc.envelope rt cmdId)⟩ w') := by
            simp only [step, hg, hw]
          exact ⟨_, _, .of_put hstep rfl (fun _ => ⟨_, rfl⟩) Nat.one_pos⟩
      | none =>
          have hstep : a.step rt (.started id (.graph ⟨true⟩) "") = some
              { a.put id ⟨t, i, .answered (.success cmdId (.run r))⟩ w' with
                answers := a.answers.set r { request := id, threadId := t, interruptId } } := by
            simp only [step, hg, hw]
          exact ⟨_, _, hstep, rfl, fun _ => ⟨_, rfl⟩,
            ⟨t, i, .answered (.success cmdId (.run r))⟩, Dict.get?_set_self _ _ _, Nat.one_pos⟩
  | answered response => cases hnot

/-- From every state, by its own steps, a request comes to an answer. -/
theorem comes_to_answer {req : Request} (ha : (appSys rt n).Reachable a)
    (hg : a.requests.get? id = some req) :
    ∃ b, (appSys rt n).ReachesVia (fun _ act => act.requestId? = some id ∧ act.Serves id) a b ∧
      ∃ req', b.requests.get? id = some req' ∧ req'.handler.isAnswered = true := by
  induction hk : req.handler.awaits using Nat.strong_induction_on generalizing a req with
  | _ k ih =>
      cases hans : req.handler.isAnswered with
      | true => exact ⟨a, .refl, req, hg, hans⟩
      | false =>
          obtain ⟨act, a', hadv⟩ := advances rt (frameInv_of_reachable ha) hg hans
          obtain ⟨req', hg', hlt⟩ := hadv.nearer
          obtain ⟨b, hb, hanswer⟩ := ih _ (hk ▸ hlt) (ha.tail trivial hadv.step) hg' rfl
          exact ⟨b, (TSys.ReachesVia.single ⟨hadv.own, hadv.serves⟩ hadv.step).trans hb, hanswer⟩

end App

/-- A command whose body has come, on a thread with a row: however it goes on, what is sent is
an envelope with the id of the command if and only if the command is answerable and no
snapshot that the saver hands to it is one that it cannot answer with; and its handler can
always be brought to an answer. -/
theorem command_answered_iff (rt : Runtime) (limit n : Nat) (a a' b : App) (id : Nat)
    (req : Request) (body : Option Json) (runId : String) (acts : List AppAct)
    (ha : (appSys rt n).Reachable a) (hg : a.requests.get? id = some req)
    (hstep : (appSys rt n).step a (.body id body runId) = some a')
    (hrun : (appSys rt n).run a' acts = some b) (hserves : ∀ act ∈ acts, act.Serves id) :
    (∀ t i response, b.requests.get? id = some ⟨t, i, .answered response⟩ →
      ((response.sent limit).IsEnvelope (commandId body) ↔
        a.answerable rt limit req.threadId body = true ∧
        ∀ snapshot r, .state id (.ok snapshot) r ∈ acts →
          snapshot.answers rt limit (asksState body) = true)) ∧
    ∃ c, (appSys rt n).ReachesVia (fun _ act => act.requestId? = some id ∧ act.Serves id) b c ∧
      ∃ req', c.requests.get? id = some req' ∧ req'.handler.isAnswered = true := by
  have ha' : (appSys rt n).Reachable a' := ha.tail trivial hstep
  have hcourse : a'.CourseOf limit id req.threadId (commandId body) (asksState body)
      (handled rt a.world a.store req.threadId body) := by
    have h : a.step rt (.body id body runId) = some a' := hstep
    simp only [App.step] at h
    split at h
    · next t i record hg' =>
      obtain rfl := Option.some.inj (hg'.symm.trans hg)
      split at h
      · cases h
      · obtain rfl := Option.some.inj h
        exact ⟨_, Dict.get?_set_self _ _ _, rfl, World.onCourse_body record body⟩
    · cases h
  obtain ⟨req', hgb, -, hon⟩ := hcourse.run ha' hserves hrun
  refine ⟨?_, App.comes_to_answer (ha'.trans (TSys.reaches_of_run hrun)) hgb⟩
  intro t i response hgb'
  obtain rfl := Option.some.inj (hgb.symm.trans hgb')
  rw [Response.sent_isEnvelope_iff, ← App.all_answers_iff, App.answerable, Bool.and_eq_true]
  cases hon with
  | answered hiff =>
      rw [Bool.and_eq_true] at hiff
      constructor
      · rintro ⟨henv, hid, hshows⟩
        obtain ⟨hbody, hread⟩ := hiff.mp ⟨henv, hshows⟩
        exact ⟨⟨hbody, hid⟩, hread⟩
      · rintro ⟨⟨hbody, hid⟩, hread⟩
        obtain ⟨henv, hshows⟩ := hiff.mpr ⟨hbody, hread⟩
        exact ⟨henv, hid, hshows⟩

/-- A thread that an earlier process has bound to an assistant that is gone. -/
def orphanedService : App :=
  { world := .new 500
    store := ⟨.ofList [("t", { threadId := "t", metadata := ∅, assistantId := some "gone",
                               createdAt := "then", updatedAt := "then" })]⟩
    saver := ∅, requests := ∅, answers := ∅ }

def orphanedBody (method : String) : Json := .obj [("id", .int 1), ("method", .str method),
  ("params", .obj [("interrupt_id", .str "i"), ("response", .bool true)])]

def orphanedFound : App :=
  ((appSys .inert 500).run orphanedService [.request 1 "t"]).getD orphanedService

def orphanedEnd (method : String) : App :=
  (orphanedFound.step .inert (.body 1 (some (orphanedBody method)) "r1")).getD orphanedService

theorem orphanedFound_reachable : (appSys .inert 500).Reachable orphanedFound := by
  have hrun : (appSys .inert 500).run orphanedService [.request 1 "t"] = some orphanedFound := rfl
  exact TSys.reachable_of_run ⟨rfl, rfl, rfl⟩ hrun

/-- An `input.respond` there ends in an exception. -/
theorem respond_on_orphaned_thread :
    ¬∀ a a' body runId response t i, (appSys .inert 500).Reachable a →
      (appSys .inert 500).step a (.body 1 body runId) = some a' →
      a'.requests.get? 1 = some ⟨t, i, .answered response⟩ →
      (response.sent 4300).IsEnvelope (commandId body) := by
  intro hall
  exact hall orphanedFound (orphanedEnd "input.respond") (some (orphanedBody "input.respond")) "r1"
    _ "t" _ orphanedFound_reachable rfl rfl

/-- A `state.get` gets an error envelope. -/
theorem command_answered_orphaned :
    (Response.error (.int 1) "unknown_command"
      "assistant for thread t is not registered").sent 4300 |>.IsEnvelope (.int 1) := by
  have hiff := (command_answered_iff .inert 4300 500 orphanedFound (orphanedEnd "state.get")
    (orphanedEnd "state.get") 1 _ (some (orphanedBody "state.get")) "r1" []
    orphanedFound_reachable rfl rfl rfl (fun _ hmem => absurd hmem List.not_mem_nil)).1
    "t" none _ rfl
  exact hiff.mpr ⟨by decide, fun _ _ hmem => absurd hmem List.not_mem_nil⟩

end AgentProtocol

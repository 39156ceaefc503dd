import AgentProtocol.Router.Origins

/-!
# What an error envelope says (`dispatch_command`)

A command that is answered with an error envelope has done nothing on its way there. Its
handler may have reserved the slot of the thread, which was free, and then it has released
it: an error envelope after a reservation comes from a resolution that raised one of the
typed errors, and for these the manager pops the slot.
-/

namespace AgentProtocol

/-! ## The runs that never come to be -/

/-- The run id has been drawn, and no run of it is there or will be. -/
structure World.Gone (w : World) (r : String) : Prop where
  drawn : r ∈ w.drawn
  starting : w.starting.get? r = none
  task : w.tasks.get? r = none
  slot : ∀ t e, w.active.get? t = some e → e.runId ≠ r

namespace World

variable {rt : Runtime} {w w' : World} {r : String}

theorem tasks_set_none {id : String} {task task' : Task} (hr : w.tasks.get? r = none)
    (hg : w.tasks.get? id = some task) : (w.tasks.set id task').get? r = none := by
  rw [Dict.get?_set_ne]
  · exact hr
  · rintro rfl
    rw [hr] at hg
    cases hg

theorem starting_erase_none (hr : w.starting.get? r = none) (id : String) :
    (w.starting.erase id).get? r = none := by
  cases hg : (w.starting.erase id).get? r with
  | none => rfl
  | some s =>
      rw [starting_of_erase hg] at hr
      cases hr

theorem Gone.step {act : Act} (hG : w.Gone r) (h : WorldStep rt w act w') : w'.Gone r := by
  -- an entry of another run comes to the slot of a thread
  have hset : ∀ {t₀ : String} {e₀ : ActiveRun}, e₀.runId ≠ r → ∀ t e,
      (w.active.set t₀ e₀).get? t = some e → e.runId ≠ r := by
    intro t₀ e₀ hne t e he
    rw [Dict.get?_set] at he
    split at he
    · rwa [← Option.some.inj he]
    · exact hG.slot t e he
  have hfresh : ∀ {r₀}, r₀ ∉ w.drawn → r₀ ≠ r := by
    rintro r₀ hnew rfl
    exact hnew hG.drawn
  cases h with
  | rejected => exact hG
  | register => exact ⟨hG.drawn, hG.starting, hG.task, hG.slot⟩
  | stream => exact ⟨hG.drawn, hG.starting, hG.task, hG.slot⟩
  | refuse _ hnew _ _ hrun _ =>
      refine ⟨List.mem_cons_of_mem _ hG.drawn, hG.starting, hG.task, fun t e he => ?_⟩
      exact hset (hrun ▸ hfresh hnew) t e (get?_of_get?_popIf he)
  | reserve _ hnew =>
      refine ⟨List.mem_cons_of_mem _ hG.drawn, ?_, hG.task, hset (hfresh hnew)⟩
      show (w.starting.set _ _).get? r = none
      rw [Dict.get?_set_ne _ _ (hfresh hnew)]
      exact hG.starting
  | release =>
      exact ⟨hG.drawn, starting_erase_none hG.starting _, hG.task,
        fun t e he => hG.slot t e (get?_of_get?_popIf he)⟩
  | abandon => exact ⟨hG.drawn, starting_erase_none hG.starting _, hG.task, hG.slot⟩
  | @launch runId graph s config hs _ =>
      have hne : runId ≠ r := by
        rintro rfl
        rw [hG.starting] at hs
        cases hs
      refine ⟨hG.drawn, starting_erase_none hG.starting _, ?_, hset hne⟩
      show (w.tasks.set runId _).get? r = none
      rw [Dict.get?_set_ne _ _ hne]
      exact hG.task
  | cancel _ _ hg _ => exact ⟨hG.drawn, hG.starting, tasks_set_none hG.task hg, hG.slot⟩
  | skip hg _ _ => exact ⟨hG.drawn, hG.starting, tasks_set_none hG.task hg, hG.slot⟩
  | begin hg _ _ => exact ⟨hG.drawn, hG.starting, tasks_set_none hG.task hg, hG.slot⟩
  | resume hg _ => exact ⟨hG.drawn, hG.starting, tasks_set_none hG.task hg, hG.slot⟩
  | callback hg _ =>
      exact ⟨hG.drawn, hG.starting, tasks_set_none hG.task hg,
        fun t e he => hG.slot t e (get?_of_get?_popIf he)⟩

end World

/-! ## The errors of a start -/

theorem RunExc.typed_of_error {rt : Runtime} {exc : RunExc} {id cmdId : Json}
    {code message : String} (h : Response.error cmdId code message = exc.startEnvelope rt id ∨
      Response.error cmdId code message = exc.envelope rt id) : exc.isTyped = true := by
  cases exc with
  | other exc => rcases h with h | h <;> cases h
  | cancelled => rcases h with h | h <;> cases h
  | _ => rfl

/-- A start that fails with a typed error is one whose resolution raised it. -/
theorem World.resolved_typed {w w' : World} {r : String} {outcome : Resolution} {exc : RunExc}
    (h : w.resolved r outcome = some (w', some exc)) (htyped : exc.isTyped = true) :
    ∃ s, w.starting.get? r = some s ∧
      w' = { w with starting := w.starting.erase r
                    active := popIf w.active s.threadId r none } := by
  unfold World.resolved at h
  split at h
  · cases h
  · next s hs =>
    cases outcome with
    | raised e _ =>
        cases h
        exact ⟨s, hs, rfl⟩
    | cancelled =>
        cases h
        cases htyped
    | graph graph =>
        dsimp only at h
        split at h
        · cases h
          cases htyped
        · cases h

/-! ## What a handler does before it answers an error -/

namespace App

variable {rt : Runtime} {n : Nat} {a a' b : App} {id : Nat} {r : String}

/-- The request waits for the run `r`. -/
def AwaitsRun (a : App) (id : Nat) (r : String) : Prop :=
  ∃ req, a.requests.get? id = some req ∧ req.handler.runId? = some r

/-- The request is answered with an error envelope. -/
def AnsweredError (a : App) (id : Nat) : Prop :=
  ∃ t i cmdId code message,
    a.requests.get? id = some ⟨t, i, .answered (.error cmdId code message)⟩

/-- Nothing but the handler of request `id` and the slot it reserves for its own run,
before or after the step, is different. -/
structure NothingDone (a a' : App) (id : Nat) : Prop where
  runs : a'.world.tasks = a.world.tasks
  pending : a'.world.pendingInputs = a.world.pendingInputs
  last : a'.world.lastAssistant = a.world.lastAssistant
  hubs : a'.world.hubs = a.world.hubs
  store : a'.store = a.store
  saver : a'.saver = a.saver
  answers : a'.answers = a.answers
  slots : ∀ t e, ¬a.AwaitsRun id e.runId → ¬a'.AwaitsRun id e.runId → a.world.busy e = true →
    (a'.world.active.get? t = some e ↔ a.world.active.get? t = some e)
  requests : ∀ id', id ≠ id' → a'.requests.get? id' = a.requests.get? id'

/-- A request that only touches the slots and what is reserved, and itself. -/
theorem NothingDone.of_slots {req : Request} {active : Dict String ActiveRun}
    {starting : Dict String Starting} {drawn : List String}
    (hslots : ∀ t e, ¬a.AwaitsRun id e.runId →
      ¬(a.put id req { a.world with active, starting, drawn }).AwaitsRun id e.runId →
        a.world.busy e = true → (active.get? t = some e ↔ a.world.active.get? t = some e)) :
    a.NothingDone (a.put id req { a.world with active, starting, drawn }) id where
  runs := rfl
  pending := rfl
  last := rfl
  hubs := rfl
  store := rfl
  saver := rfl
  answers := rfl
  slots := hslots
  requests _ hne := Dict.get?_set_ne _ _ hne

theorem NothingDone.put (req : Request) : a.NothingDone (a.put id req a.world) id := by
  apply NothingDone.of_slots
  intro t e _ _ _
  exact Iff.rfl

/-- The slot of a free thread is reserved for the run. -/
theorem NothingDone.hold {s : Starting} {req : Request} (hfree : a.world.Free s.threadId)
    (hrun : req.handler.runId? = some r) :
    a.NothingDone (a.put id req (a.world.hold r s)) id := by
  apply NothingDone.of_slots
  intro t e _ hmine hbusy
  rw [Dict.get?_set]
  split
  · next ht =>
    refine iff_of_false ?_ ?_
    · intro he
      refine hmine ⟨req, Dict.get?_set_self _ _ _, ?_⟩
      rw [hrun, ← Option.some.inj he]
    · intro he
      rw [hfree e (ht ▸ he)] at hbusy
      cases hbusy
  · exact Iff.rfl

/-- Reserved and released in one stretch. -/
theorem NothingDone.turnAway {t : String} {v : Value} {req : Request} (hfree : a.world.Free t) :
    a.NothingDone (a.put id req (a.world.turnAway t v r)) id := by
  let reserved : ActiveRun := { runId := r, threadId := t, assistantId := v, task := none }
  have hself : (a.world.active.set t reserved).get? t = some reserved := Dict.get?_set_self _ _ _
  apply NothingDone.of_slots
  intro t' e _ _ hbusy
  show (popIf (a.world.active.set t reserved) t r none).get? t' = some e ↔ _
  by_cases ht : t = t'
  · subst ht
    have hpop := get?_popIf_self hself
    refine iff_of_false ?_ ?_
    · intro he
      exact absurd (hpop.symm.trans he) (by intro h; cases h)
    · intro he
      rw [hfree e he] at hbusy
      cases hbusy
  · rw [get?_popIf_ne _ _ _ ht, Dict.get?_set_ne _ _ ht]

/-- The slot is released when the resolution has raised. -/
theorem NothingDone.release (hI : a.world.SlotInv) {s : Starting} {req req' : Request}
    (hg : a.requests.get? id = some req) (hrun : req.handler.runId? = some r)
    (hs : a.world.starting.get? r = some s) :
    a.NothingDone (a.put id req' { a.world with
      starting := a.world.starting.erase r
      active := popIf a.world.active s.threadId r none }) id := by
  obtain ⟨b, hb, hbr, hbtask⟩ := hI.starting r s hs
  apply NothingDone.of_slots
  intro t e hmine _ _
  by_cases ht : s.threadId = t
  · subst ht
    have hpop := get?_popIf_self hb
    rw [hbr, hbtask] at hpop
    refine iff_of_false ?_ ?_
    · intro he
      exact absurd (hpop.symm.trans he) (by intro h; cases h)
    · intro he
      refine hmine ⟨req, hg, ?_⟩
      rw [hrun, ← hbr, Option.some.inj (hb.symm.trans he)]
  · rw [get?_popIf_ne _ _ _ ht]

/-- The answer of a request is final. -/
theorem answered_of_reaches {ok : App → AppAct → Prop} {req : Request}
    (h : (appSys rt n).ReachesVia ok a b) (hg : a.requests.get? id = some req)
    (hans : req.handler.isAnswered = true) : b.requests.get? id = some req :=
  h.preserves (P := fun b => b.requests.get? id = some req) hg
    fun _ _ _ hg _ hstep => (serviceStep_of_step hstep).answered_kept hg hans

/-- A step of a request that is then on its way to an error, or has come to it. -/
theorem nothingDone_of_step {act : AppAct} (hI : a.world.SlotInv) (hown : act.requestId? = some id)
    (h : ServiceStep rt a act a')
    (herror : ∀ req, a'.requests.get? id = some req → req.handler.isAnswered = true →
      a'.AnsweredError id) : a.NothingDone a' id := by
  -- a success is no error
  have hsuccess : ∀ {req cmdId result}, a'.requests.get? id = some req →
      req.handler = .answered (.success cmdId result) → False := by
    intro req cmdId result hg hh
    obtain ⟨t, i, cmdId', code, message, hg'⟩ := herror req hg (by rw [hh]; rfl)
    rw [hg', Option.some.injEq] at hg
    rw [← hg] at hh
    cases hh
  cases h with
  | notFound =>
      obtain rfl := Option.some.inj hown
      exact .put _
  | accept =>
      obtain rfl := Option.some.inj hown
      exact .put _
  | @handler _ id₀ req req' w' hid hg hreq =>
      obtain rfl := Option.some.inj (hid.symm.trans hown)
      cases hreq with
      | quiet => exact .put _
      | cancel => exact (hsuccess (Dict.get?_set_self _ _ _) rfl).elim
      | refuse _ _ _ _ hfree _ => exact .turnAway hfree
      | start _ _ _ hfree _ => exact .hold hfree rfl
      | resume _ _ _ hfree _ => exact .hold hfree rfl
      | fail hrun hw hresponse =>
          obtain ⟨t, i, cmdId, code, message, hg'⟩ := herror _ (Dict.get?_set_self _ _ _) rfl
          rw [put, Dict.get?_set_self, Option.some.injEq, Request.mk.injEq] at hg'
          obtain ⟨-, -, hanswer⟩ := hg'
          rw [Handler.answered.injEq] at hanswer
          rw [hanswer] at hresponse
          obtain ⟨s, hs, rfl⟩ := World.resolved_typed hw (RunExc.typed_of_error hresponse)
          exact .release hI hg hrun hs
  | start hg _ =>
      obtain rfl := Option.some.inj hown
      rw [bind_requests] at hsuccess
      exact (hsuccess (Dict.get?_set_self _ _ _) rfl).elim
  | resume hg _ =>
      obtain rfl := Option.some.inj hown
      exact (hsuccess (Dict.get?_set_self _ _ _) rfl).elim
  | idle hnone =>
      rw [hnone] at hown
      cases hown
  | _ => cases hown

/-- A request that waits for a run comes to the run, or to an answer; where the answer is
an error, the run never comes to be. -/
def Settling (a : App) (id : Nat) (r : String) : Prop :=
  a.AwaitsRun id r ∨ a.world.Gone r ∨
    ∃ req, a.requests.get? id = some req ∧ req.handler.isAnswered = true ∧ ¬a.AnsweredError id

/-- A run whose resolution has raised. -/
theorem gone_of_release (hI : a.world.SlotInv) {s : Starting}
    (hs : a.world.starting.get? r = some s) :
    World.Gone { a.world with starting := a.world.starting.erase r
                              active := popIf a.world.active s.threadId r none } r := by
  obtain ⟨b, hb, hbr, hbtask⟩ := hI.starting r s hs
  obtain ⟨hdrawn, hnone⟩ := hI.starting_fresh hs
  refine ⟨hdrawn, Dict.get?_erase_self _ _, hnone, ?_⟩
  intro t e he her
  obtain rfl := hI.unique _ _ _ _ hb (get?_of_get?_popIf he) (hbr.trans her.symm)
  have hpop := get?_popIf_self hb
  rw [hbr, hbtask] at hpop
  exact absurd (hpop.symm.trans he) (by intro h; cases h)

/-- The request that waits comes to the end of its wait. -/
theorem settling_of_fail (hI : a.world.SlotInv) {req : Request} {outcome : Resolution}
    {exc : RunExc} {w' : World} {cmdId : Json} {response : Response}
    (hw : a.world.resolved r outcome = some (w', some exc))
    (hresponse : response = exc.startEnvelope rt cmdId ∨ response = exc.envelope rt cmdId) :
    (a.put id { req with handler := .answered response } w').Settling id r := by
  by_cases herror : (a.put id { req with handler := .answered response } w').AnsweredError id
  · obtain ⟨t, i, cmdId, code, message, hg⟩ := herror
    rw [put, Dict.get?_set_self, Option.some.injEq, Request.mk.injEq] at hg
    obtain ⟨-, -, hanswer⟩ := hg
    rw [Handler.answered.injEq] at hanswer
    rw [hanswer] at hresponse
    obtain ⟨s, hs, rfl⟩ := World.resolved_typed hw (RunExc.typed_of_error hresponse)
    exact .inr (.inl (gone_of_release hI hs))
  · exact .inr (.inr ⟨_, Dict.get?_set_self _ _ _, rfl, herror⟩)

theorem settling_of_success {req : Request} {cmdId : Json} {result : Result}
    (hg : a.requests.get? id = some req) (hh : req.handler = .answered (.success cmdId result)) :
    a.Settling id r := by
  refine .inr (.inr ⟨req, hg, by rw [hh]; rfl, ?_⟩)
  rintro ⟨t, i, cmdId', code, message, hg'⟩
  rw [hg', Option.some.injEq] at hg
  rw [← hg] at hh
  cases hh

theorem AwaitsRun.settling {act : AppAct} (hA : a.AwaitsRun id r) (hI : a.world.SlotInv)
    (h : ServiceStep rt a act a') : a'.Settling id r := by
  obtain ⟨req, hg, hrun⟩ := hA
  -- another request is touched
  have hother : ∀ {id₀ req₀}, id₀ ≠ id → a'.requests = a.requests.set id₀ req₀ →
      a'.Settling id r := by
    intro id₀ req₀ hne hreq
    refine .inl ⟨req, ?_, hrun⟩
    rw [hreq, Dict.get?_set_ne _ _ hne]
    exact hg
  have hnew : ∀ {id₀}, a.requests.get? id₀ = none → id₀ ≠ id := by
    rintro id₀ hnone rfl
    rw [hnone] at hg
    cases hg
  cases h with
  | notFound hnone _ => exact hother (hnew hnone) rfl
  | accept hnone _ => exact hother (hnew hnone) rfl
  | @handler _ id₀ req₀ req' w' _ hg₀ hreq =>
      by_cases hid : id₀ = id
      · subst hid
        obtain rfl := Option.some.inj (hg₀.symm.trans hg)
        have hwaits : req₀.handler.isOpen = true → False := by
          intro hopen
          rw [((isOpen_iff _).mp hopen).2] at hrun
          cases hrun
        cases hreq with
        | quiet hopen _ _ _ => exact (hwaits hopen).elim
        | cancel => cases hrun
        | refuse hopen _ _ _ _ _ => exact (hwaits hopen).elim
        | start => cases hrun
        | resume => cases hrun
        | fail hrun₀ hw hresponse =>
            obtain rfl := Option.some.inj (hrun₀.symm.trans hrun)
            exact settling_of_fail hI hw hresponse
      · exact hother hid rfl
  | @start id₀ t i cmdId v r₀ outcome now w' hg₀ hw =>
      by_cases hid : id₀ = id
      · subst hid
        have hput : ((a.put id₀ ⟨t, i, .answered (.success cmdId (.run r₀))⟩ w').bind t v
            now).requests.get? id₀ = some ⟨t, i, .answered (.success cmdId (.run r₀))⟩ := by
          rw [bind_requests]
          exact Dict.get?_set_self _ _ _
        exact settling_of_success hput rfl
      · exact hother hid (bind_requests _ _ _ _)
  | @resume id₀ t i cmdId r₀ interruptId outcome now w' hg₀ hw =>
      by_cases hid : id₀ = id
      · subst hid
        exact settling_of_success (Dict.get?_set_self _ _ _) rfl
      · exact hother hid rfl
  | _ => exact .inl ⟨req, hg, hrun⟩

theorem Settling.step {act : AppAct} (hS : a.Settling id r) (hI : a.world.SlotInv)
    (h : ServiceStep rt a act a') : a'.Settling id r := by
  rcases hS with hA | hG | ⟨req, hg, hans, hnot⟩
  · exact hA.settling hI h
  · refine .inr (.inl ?_)
    rcases (appStep_of_serviceStep h).world with hsame | ⟨act', hw⟩
    · exact hsame ▸ hG
    · exact hG.step (World.worldStep_of_step hw)
  · refine .inr (.inr ⟨req, h.answered_kept hg hans, hans, ?_⟩)
    rintro ⟨t, i, cmdId, code, message, hg'⟩
    rw [h.answered_kept hg hans] at hg'
    exact hnot ⟨t, i, cmdId, code, message, hg.trans hg'⟩

theorem settling_of_reaches {ok : App → AppAct → Prop} (ha : (appSys rt n).Reachable a)
    (h : (appSys rt n).ReachesVia ok a b) (hS : a.Settling id r) : b.Settling id r := by
  induction h with
  | refl => exact hS
  | tail hr _ hstep ih =>
      have hreach := ha.trans (hr.mono fun _ _ _ => trivial)
      exact ih.step (World.slotInv_of_reachable (world_reachable hreach)) (serviceStep_of_step hstep)

end App

/-- A request that is answered with an error envelope has done nothing: each of its steps
leaves the runs, the pending interrupts, the last assistants, the hubs, the store, and the
slots of all other runs that are starting or unfinished; and a run it has reserved a slot
for is in no slot and never comes to be. -/
theorem error_changes_nothing (rt : Runtime) (n : Nat) (a a' b : App) (act : AppAct) (id : Nat)
    (ha : (appSys rt n).Reachable a) (hown : act.requestId? = some id)
    (hstep : (appSys rt n).step a act = some a') (hb : (appSys rt n).Reaches a' b)
    (herror : b.AnsweredError id) :
    a.NothingDone a' id ∧
      ∀ r, a.AwaitsRun id r ∨ a'.AwaitsRun id r → b.world.Gone r := by
  have hI : a.world.SlotInv := World.slotInv_of_reachable (App.world_reachable ha)
  have hservice := App.serviceStep_of_step hstep
  have ha' : (appSys rt n).Reachable a' := ha.tail trivial hstep
  constructor
  · apply App.nothingDone_of_step hI hown hservice
    intro req hg hans
    obtain ⟨t, i, cmdId, code, message, hgb⟩ := herror
    have hkept := App.answered_of_reaches hb hg hans
    exact ⟨t, i, cmdId, code, message, by rw [hg, ← hkept, hgb]⟩
  · intro r hwaits
    have hS : a'.Settling id r := by
      rcases hwaits with hA | hA
      · exact hA.settling hI hservice
      · exact .inl hA
    obtain ⟨t, i, cmdId, code, message, hgb⟩ := herror
    rcases App.settling_of_reaches ha' hb hS with ⟨req, hg, hrun⟩ | hG | ⟨req, -, -, hnot⟩
    · rw [hgb] at hg
      rw [← Option.some.inj hg] at hrun
      cases hrun
    · exact hG
    · exact absurd ⟨t, i, cmdId, code, message, hgb⟩ hnot

/-- The factory of the agent looks for another one, which is not registered. -/
def nestedStart : List AppAct :=
  let start : Json := .obj [("id", .int 1), ("method", .str "run.start"),
    ("params", .obj [("assistant_id", .str "agent")])]
  [.world (.register "agent"), .create "t" "now" ∅, .request 1 "t", .body 1 (some start) "r1"]

def nestedFailure : AppAct :=
  .started 1 (.raised (.unknownAssistant (.str "helper") ["agent"]) nofun) "now"

def nestedHeld : App := ((appSys .inert 500).run service nestedStart).getD service

def nestedEnd : App := (nestedHeld.step .inert nestedFailure).getD service

theorem error_changes_nothing_nested :
    nestedHeld.NothingDone nestedEnd 1 ∧ nestedEnd.world.Gone "r1" := by
  have hrun : (appSys .inert 500).run service nestedStart = some nestedHeld := rfl
  have hreach := TSys.reachable_of_run (M := appSys .inert 500) ⟨rfl, rfl, rfl⟩ hrun
  have hstep : (appSys .inert 500).step nestedHeld nestedFailure = some nestedEnd := rfl
  have hnothing := error_changes_nothing .inert 500 nestedHeld nestedEnd nestedEnd nestedFailure 1
    hreach rfl hstep .refl ⟨_, _, _, _, _, rfl⟩
  exact ⟨hnothing.1, hnothing.2 "r1" (.inl ⟨_, rfl, rfl⟩)⟩

end AgentProtocol

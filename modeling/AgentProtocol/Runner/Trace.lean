import AgentProtocol.Runner.Inversion

/-!
# The trace of one run

`ending` reads off how a run's awaits ended what decides it: an exception out of the
stream, a cancellation, or the values of one snapshot. `closing` is the terminal
event that follows from it, with the requests for input. `Task.Shape` says that a
task has published `started`, `running`, then messages and values, and once it is
done the closing of its ending; a task that was cancelled before its first step has
published nothing.

The shape needs that no `finish` of the run meets a block `json.loads` fails on
(`Task.stepParses`): the handlers call `finish` again, so such a block takes their
terminal event with it.
-/

namespace AgentProtocol

/-- What decides a run whose body executed. -/
inductive Ending where
  /-- the stream raised, or yielded an item that does not unpack -/
  | failed (exc : PyExc)
  | cancelled
  /-- the stream ended; these are the values of the snapshot taken -/
  | decided (values : Dict String Value)

/-- The ending after these awaits, from the last values seen. -/
def ending (graph : Graph) : Option (Dict String Value) → List Awaited → Option Ending
  | _, [] => none
  | _, .item (.values values) :: fed => ending graph (some values) fed
  | _, .item (.malformed exc) :: _ => some (.failed exc)
  | last, .item _ :: fed => ending graph last fed
  | _, .raised exc :: _ => some (.failed exc)
  | _, .cancelled :: _ => some .cancelled
  | _, .snapshot _ :: _ => none
  | some values, .stop :: _ => some (.decided values)
  | none, .stop :: fed =>
    if graph.hasGetState then
      match fed with
      | .snapshot values :: _ => some (.decided values)
      | .raised _ :: _ => some (.decided ∅)
      | .cancelled :: _ => some .cancelled
      | _ => none
    else some (.decided ∅)

/-- Streaming or translation raised. -/
def Ending.raised (rt : Runtime) : Ending → Bool
  | .failed _ => true
  | .cancelled => false
  | .decided values =>
    match interruptsFromSnapshot rt values with
    | .error _ => true
    | .ok _ => false

/-- The run was cancelled, or the snapshot it decided on held interrupts. -/
def Ending.interrupted (rt : Runtime) : Ending → Bool
  | .failed _ => false
  | .cancelled => true
  | .decided values =>
    match interruptsFromSnapshot rt values with
    | .error _ => false
    | .ok interrupts => !interrupts.isEmpty

def startedEvent (assistantId : String) : EventData := .lifecycle "started" assistantId none
def runningEvent (assistantId : String) : EventData := .lifecycle "running" assistantId none
def completedEvent (assistantId : String) : EventData := .lifecycle "completed" assistantId none
def interruptedEvent (assistantId : String) : EventData :=
  .lifecycle "interrupted" assistantId none
def failedEvent (assistantId : String) (exc : PyExc) : EventData :=
  .lifecycle "failed" assistantId (some exc.describe)

/-- The terminal event of an ending, and the requests for input after it. -/
def closing (rt : Runtime) (assistantId : String) : Ending → List EventData
  | .failed exc => [failedEvent assistantId exc]
  | .cancelled => [interruptedEvent assistantId]
  | .decided values =>
    match interruptsFromSnapshot rt values with
    | .error exc => [failedEvent assistantId exc]
    | .ok [] => [completedEvent assistantId]
    | .ok interrupts =>
      interruptedEvent assistantId :: interrupts.map fun p => .inputRequested p.1 p.2

namespace EventData

def isBody : EventData → Bool
  | .message _ => true
  | .values _ => true
  | _ => false

def isStarted : EventData → Bool
  | .lifecycle event _ _ => event == "started"
  | _ => false

def isTerminal : EventData → Bool
  | .lifecycle event _ _ => event == "completed" || event == "failed" || event == "interrupted"
  | _ => false

def isRequest : EventData → Bool
  | .inputRequested .. => true
  | _ => false

theorem isStarted_of_isBody {e : EventData} (h : e.isBody = true) : e.isStarted = false := by
  cases e with
  | lifecycle => cases h
  | _ => rfl

theorem isTerminal_of_isBody {e : EventData} (h : e.isBody = true) : e.isTerminal = false := by
  cases e with
  | lifecycle => cases h
  | _ => rfl

theorem isStarted_of_isRequest {e : EventData} (h : e.isRequest = true) : e.isStarted = false := by
  cases e with
  | inputRequested => rfl
  | _ => cases h

theorem isTerminal_of_isRequest {e : EventData} (h : e.isRequest = true) :
    e.isTerminal = false := by
  cases e with
  | inputRequested => rfl
  | _ => cases h

end EventData

theorem frameEvents_body (frames : List Frame) :
    ∀ e ∈ frameEvents frames, e.isBody = true := by
  intro e he
  obtain ⟨frame, -, rfl⟩ := List.mem_map.mp he
  rfl

/-- Frames before a step whose events stand in a body. -/
theorem after_body (frames : List Frame) {s : TaskStep} (h : ∀ e ∈ s.events, e.isBody = true) :
    ∀ e ∈ (s.after (frameEvents frames)).events, e.isBody = true := by
  intro e he
  rcases List.mem_append.mp he with he | he
  · exact frameEvents_body frames e he
  · exact h e he

/-! ## What a step of a task must not meet -/

/-- The values a task decides on in this step, if it does. -/
def decidesOn (graph : Graph) : Phase → Awaited → Option (Dict String Value)
  | .streaming _ (some values), .stop => some values
  | .streaming _ none, .stop => if graph.hasGetState then none else some ∅
  | .snapshot _, .snapshot values => some values
  | .snapshot _, .raised _ => some ∅
  | _, _ => none

/-- Every message that `finish` is called on in this step parses. -/
def stepParses (rt : Runtime) (graph : Graph) (phase : Phase) (awaited : Awaited) : Bool :=
  match phase with
  | .created => true
  | .done => true
  | .streaming tr _ =>
    match awaited with
    | .item (.messages chunk) =>
      ((role chunk).isNone || tr.openMessages.contains (MessagesTranslator.messageId chunk) ||
        tr.parses rt none) &&
      (chunk.usageMetadata.entries.isEmpty || (tr.feed rt chunk).state.parses rt (some chunk))
    | .item (.malformed _) => tr.parses rt none
    | .raised _ => tr.parses rt none
    | .cancelled => tr.parses rt none
    | .stop =>
      match decidesOn graph phase awaited with
      | some values => (Ending.decided values).interrupted rt || tr.parses rt none
      | none => true
    | _ => true
  | .snapshot tr =>
    match decidesOn graph phase awaited with
    | some values => (Ending.decided values).interrupted rt || tr.parses rt none
    | none => tr.parses rt none

theorem stepParses_of_loadsTotal {rt : Runtime} (h : rt.LoadsTotal) (graph : Graph)
    (phase : Phase) (awaited : Awaited) : stepParses rt graph phase awaited = true := by
  have hp := MessagesTranslator.parses_of_loadsTotal h
  unfold stepParses
  split
  · rfl
  · rfl
  · split <;> simp only [hp, Bool.or_true, Bool.and_self]
    split <;> simp
  · split <;> simp [hp]

section Steps

variable {rt : Runtime} {assistantId : String} {tr : MessagesTranslator}

/-- A handler whose messages parse publishes their frames and its terminal event. -/
theorem handle_of_parses (terminal : EventData) (h : tr.parses rt none = true) :
    handle rt tr terminal =
      { phase := .done, events := frameEvents (tr.finish rt none).frames ++ [terminal],
        pending := none } := by
  unfold handle
  simp only [(tr.finish_raised_iff none).mpr h]

/-- A translator call that returns. -/
theorem orFail_of_returned {r : Emission MessagesTranslator} (h : r.raised = none)
    (next : MessagesTranslator → TaskStep) :
    orFail rt assistantId r next = (next r.state).after (frameEvents r.frames) := by
  unfold orFail
  rw [h]

theorem onException_of_parses (exc : PyExc) (h : tr.parses rt none = true) :
    onException rt assistantId tr exc =
      { phase := .done
        events := frameEvents (tr.finish rt none).frames ++ [failedEvent assistantId exc]
        pending := none } :=
  handle_of_parses _ h

theorem onCancelled_of_parses (h : tr.parses rt none = true) :
    onCancelled rt assistantId tr =
      { phase := .done
        events := frameEvents (tr.finish rt none).frames ++ [interruptedEvent assistantId]
        pending := none } :=
  handle_of_parses _ h

/-- Deciding ends the run. -/
theorem settle_phase (rt : Runtime) (assistantId : String) (tr : MessagesTranslator)
    (values : Dict String Value) : (settle rt assistantId tr values).phase = .done := by
  unfold settle
  split
  · rfl
  · unfold orFail TaskStep.after
    split <;> rfl
  · rfl

/-- A run that ends on this snapshot publishes frames and the closing. -/
theorem settle_of_parses {values : Dict String Value}
    (h : ((Ending.decided values).interrupted rt || tr.parses rt none) = true) :
    ∃ frames, (settle rt assistantId tr values).phase = .done ∧
      (settle rt assistantId tr values).events =
        frameEvents frames ++ closing rt assistantId (.decided values) := by
  cases hi : interruptsFromSnapshot rt values with
  | error exc =>
      have hp : tr.parses rt none = true := by
        simpa only [Ending.interrupted, hi, Bool.false_or] using h
      refine ⟨(tr.finish rt none).frames, ?_, ?_⟩
      · simp only [settle, hi, onException_of_parses exc hp]
      · simp only [settle, closing, hi, onException_of_parses exc hp]
  | ok interrupts =>
      cases interrupts with
      | nil =>
          have hp : tr.parses rt none = true := by
            simpa only [Ending.interrupted, hi, List.isEmpty_nil, Bool.not_true,
              Bool.false_or] using h
          have hr := (tr.finish_raised_iff none).mpr hp
          refine ⟨(tr.finish rt none).frames, ?_, ?_⟩
          · simp only [settle, hi, orFail_of_returned hr, TaskStep.after]
          · simp only [settle, closing, hi, orFail_of_returned hr, TaskStep.after, completedEvent]
      | cons p interrupts =>
          refine ⟨[], ?_, ?_⟩
          · simp only [settle, hi]
          · simp only [settle, closing, hi, interruptedEvent, frameEvents, List.map_nil,
              List.nil_append]

end Steps

/-! ## The shape of a task -/

/-- Published and heard so far, by the await the task is suspended at. -/
def Task.Shape (rt : Runtime) (task : Task) : Prop :=
  match task.phase with
  | .created => task.events = [] ∧ task.fed = []
  | .streaming _ last => ∃ body,
      task.events = startedEvent task.assistantId :: runningEvent task.assistantId :: body ∧
      (∀ e ∈ body, e.isBody = true) ∧
      ∀ rest, ending task.graph none (task.fed ++ rest) = ending task.graph last rest
  | .snapshot _ => ∃ body,
      task.events = startedEvent task.assistantId :: runningEvent task.assistantId :: body ∧
      (∀ e ∈ body, e.isBody = true) ∧ task.graph.hasGetState = true ∧
      ∀ rest, ending task.graph none (task.fed ++ rest) = ending task.graph none (.stop :: rest)
  | .done =>
    (task.events = [] ∧ task.fed = [] ∧ task.cancelRequested = true) ∨
    ∃ body e, ending task.graph none task.fed = some e ∧ (∀ e ∈ body, e.isBody = true) ∧
      task.events = startedEvent task.assistantId :: runningEvent task.assistantId ::
        (body ++ closing rt task.assistantId e)

/-- The task after its first step. -/
def Task.begun (task : Task) : Task :=
  { task with
    phase := (onStart task.assistantId).phase
    events := task.events ++ (onStart task.assistantId).events }

/-- The task after a stretch that began with this await. -/
def Task.advance (task : Task) (awaited : Awaited) (s : TaskStep) : Task :=
  { task with phase := s.phase, events := task.events ++ s.events, fed := task.fed ++ [awaited] }

section Advance

variable {rt : Runtime} {task : Task} {awaited : Awaited} {body : List EventData}

/-- The stretch ends the run. -/
theorem Task.Shape.close (frames : List Frame) {s : TaskStep} {e : Ending}
    (hev : task.events = startedEvent task.assistantId :: runningEvent task.assistantId :: body)
    (hbody : ∀ e ∈ body, e.isBody = true)
    (hend : ending task.graph none (task.fed ++ [awaited]) = some e) (hphase : s.phase = .done)
    (hs : s.events = frameEvents frames ++ closing rt task.assistantId e) :
    (task.advance awaited s).Shape rt := by
  unfold Task.Shape Task.advance
  simp only [hphase]
  refine .inr ⟨body ++ frameEvents frames, e, hend, ?_, ?_⟩
  · intro x hx
    rcases List.mem_append.mp hx with hx | hx
    · exact hbody x hx
    · exact frameEvents_body frames x hx
  · rw [hev, hs, List.cons_append, List.cons_append, List.append_assoc]

/-- The stretch ends at the next item of the stream. -/
theorem Task.Shape.continue {s : TaskStep} {tr : MessagesTranslator}
    {last : Option (Dict String Value)}
    (hev : task.events = startedEvent task.assistantId :: runningEvent task.assistantId :: body)
    (hbody : ∀ e ∈ body, e.isBody = true)
    (hend : ∀ rest, ending task.graph none (task.fed ++ awaited :: rest) =
      ending task.graph last rest)
    (hphase : s.phase = .streaming tr last) (hs : ∀ e ∈ s.events, e.isBody = true) :
    (task.advance awaited s).Shape rt := by
  unfold Task.Shape Task.advance
  simp only [hphase]
  refine ⟨body ++ s.events, ?_, ?_, ?_⟩
  · rw [hev, List.cons_append, List.cons_append]
  · intro x hx
    rcases List.mem_append.mp hx with hx | hx
    · exact hbody x hx
    · exact hs x hx
  · intro rest
    rw [List.append_assoc]
    exact hend rest

/-- One item of the stream. -/
theorem Task.Shape.item {tr : MessagesTranslator} {last : Option (Dict String Value)}
    {item : StreamItem}
    (hev : task.events = startedEvent task.assistantId :: runningEvent task.assistantId :: body)
    (hbody : ∀ e ∈ body, e.isBody = true)
    (hend : ∀ rest, ending task.graph none (task.fed ++ rest) = ending task.graph last rest)
    (hok : stepParses rt task.graph (.streaming tr last) (.item item) = true) :
    (task.advance (.item item) (onItem rt task.assistantId tr last item)).Shape rt := by
  cases item with
  | messages chunk =>
      simp only [stepParses, Bool.and_eq_true, Bool.or_eq_true] at hok
      have hfeed : (tr.feed rt chunk).raised = none := by
        rw [MessagesTranslator.feed_raised_iff]
        rcases hok.1 with (hrole | hopen) | hparse
        · exact .inl (Option.isNone_iff_eq_none.mp hrole)
        · exact .inr (.inl hopen)
        · exact .inr (.inr hparse)
      have hitem : ∀ rest, ending task.graph none (task.fed ++ .item (.messages chunk) :: rest) =
          ending task.graph last rest := fun rest => hend _
      simp only [onItem, orFail_of_returned hfeed]
      by_cases husage : chunk.usageMetadata.entries.isEmpty = true
      · rw [if_pos husage]
        exact .continue hev hbody hitem rfl (after_body _ fun e he => by cases he)
      · rw [if_neg husage]
        have hfin : ((tr.feed rt chunk).state.finish rt (some chunk)).raised = none := by
          rw [MessagesTranslator.finish_raised_iff]
          rcases hok.2 with h | h
          · exact absurd h husage
          · exact h
        rw [orFail_of_returned hfin]
        exact .continue hev hbody hitem rfl (after_body _ (after_body _ fun e he => by cases he))
  | values chunk =>
      refine .continue hev hbody (fun rest => hend _) rfl ?_
      intro e he
      rw [List.mem_singleton.mp he]
      rfl
  | other =>
      refine .continue hev hbody (fun rest => hend _) rfl ?_
      intro e he
      cases he
  | malformed exc =>
      refine .close (tr.finish rt none).frames hev hbody (hend _) (e := .failed exc) ?_ ?_
      · simp only [onItem, onException_of_parses exc hok]
      · simp only [onItem, onException_of_parses exc hok, closing]

/-- Any later step keeps the shape. -/
theorem Task.Shape.resume {s : TaskStep} (h : task.Shape rt)
    (hok : stepParses rt task.graph task.phase awaited = true)
    (hs : resume rt task.assistantId task.graph task.phase awaited = some s) :
    (task.advance awaited s).Shape rt := by
  unfold Task.Shape at h
  cases hphase : task.phase with
  | created =>
      rw [hphase] at hs
      cases awaited <;> cases hs
  | done =>
      rw [hphase] at hs
      cases awaited <;> cases hs
  | streaming tr last =>
      simp only [hphase] at h hok hs
      obtain ⟨body, hev, hbody, hend⟩ := h
      cases awaited with
      | item item =>
          obtain rfl := Option.some.inj hs
          exact .item hev hbody hend hok
      | snapshot values => cases hs
      | raised exc =>
          obtain rfl := Option.some.inj hs
          refine .close (tr.finish rt none).frames hev hbody (hend _) (e := .failed exc) ?_ ?_
          · rw [onException_of_parses exc hok]
          · rw [onException_of_parses exc hok, closing]
      | cancelled =>
          obtain rfl := Option.some.inj hs
          refine .close (tr.finish rt none).frames hev hbody (hend _) (e := .cancelled) ?_ ?_
          · rw [onCancelled_of_parses hok]
          · rw [onCancelled_of_parses hok, closing]
      | stop =>
          obtain rfl := Option.some.inj hs
          cases last with
          | some values =>
              obtain ⟨frames, hph, hevs⟩ := settle_of_parses hok
              exact .close frames hev hbody (hend _) hph hevs
          | none =>
              simp only [onStop]
              cases hg : task.graph.hasGetState with
              | false =>
                  have hok' : ((Ending.decided ∅).interrupted rt || tr.parses rt none) = true := by
                    simpa [stepParses, decidesOn, hg] using hok
                  obtain ⟨frames, hph, hevs⟩ :=
                    settle_of_parses hok'
                  refine .close frames hev hbody (e := .decided ∅) ?_ hph hevs
                  rw [hend]
                  simp [ending, hg]
              | true =>
                  unfold Task.Shape Task.advance
                  simp only [if_true]
                  refine ⟨body, ?_, hbody, hg, ?_⟩
                  · rw [hev, List.append_nil]
                  · intro rest
                    rw [List.append_assoc]
                    exact hend _
  | snapshot tr =>
      simp only [hphase] at h hok hs
      obtain ⟨body, hev, hbody, hg, hend⟩ := h
      cases awaited with
      | item item => cases hs
      | stop => cases hs
      | snapshot values =>
          obtain rfl := Option.some.inj hs
          obtain ⟨frames, hph, hevs⟩ := settle_of_parses hok
          refine .close frames hev hbody (e := .decided values) ?_ hph hevs
          rw [hend]
          simp [ending, hg]
      | raised exc =>
          obtain rfl := Option.some.inj hs
          have hok' : ((Ending.decided ∅).interrupted rt || tr.parses rt none) = true := hok
          obtain ⟨frames, hph, hevs⟩ := settle_of_parses hok'
          refine .close frames hev hbody (e := .decided ∅) ?_ hph hevs
          rw [hend]
          simp [ending, hg]
      | cancelled =>
          obtain rfl := Option.some.inj hs
          refine .close (tr.finish rt none).frames hev hbody (e := .cancelled) ?_ ?_ ?_
          · rw [hend]
            simp [ending, hg]
          · rw [onCancelled_of_parses hok]
          · rw [onCancelled_of_parses hok, closing]

end Advance

/-! ## The tasks of the process -/

namespace World

variable {rt : Runtime} {n : Nat} {w : World}

/-- What a task has when it is created, and keeps in each of the five steps that
can change it, every task has in every state reached. -/
theorem tasks_induct {ok : World → Act → Prop} {P : Task → Prop}
    (h : (runSys rt n).ReachableVia ok w)
    (hlaunch : ∀ w runId s graph config task, (World.launch w runId s graph config).tasks.get?
      runId = some task → P task)
    (hcancel : ∀ task, P task → P { task with cancelRequested := true })
    (hskip : ∀ w id task, ok w (.begin id) → w.tasks.get? id = some task → P task →
      task.phase = .created → task.cancelRequested = true → P { task with phase := .done })
    (hbegin : ∀ task, P task → task.phase = .created → P task.begun)
    (hresume : ∀ w id task awaited s, ok w (.resume id awaited) → w.tasks.get? id = some task →
      P task → resume rt task.assistantId task.graph task.phase awaited = some s →
      P (task.advance awaited s))
    (hcallback : ∀ task, P task → P { task with cleared := true }) :
    ∀ r task, w.tasks.get? r = some task → P task := by
  refine h.induct (P := fun w => ∀ r task, w.tasks.get? r = some task → P task) ?_ ?_
  · rintro w rfl r task hg
    cases hg
  · intro w a w' _ ih hok hstep r task hg
    -- one task of the table is replaced
    have hset : ∀ {id : String} {task' : Task}, P task' →
        (w.tasks.set id task').get? r = some task → P task := by
      intro id task' hP hget
      rw [Dict.get?_set] at hget
      split at hget
      · rwa [← Option.some.inj hget]
      · exact ih r task hget
    cases worldStep_of_step hstep with
    | @launch runId graph s config _ _ =>
        exact hset (hlaunch w runId s graph config _ (Dict.get?_set_self _ _ _)) hg
    | cancel _ _ hg₀ _ => exact hset (hcancel _ (ih _ _ hg₀)) hg
    | skip hg₀ hphase hc => exact hset (hskip w _ _ hok hg₀ (ih _ _ hg₀) hphase hc) hg
    | begin hg₀ hphase _ => exact hset (hbegin _ (ih _ _ hg₀) hphase) hg
    | resume hg₀ hs => exact hset (hresume w _ _ _ _ hok hg₀ (ih _ _ hg₀) hs) hg
    | callback hg₀ _ => exact hset (hcallback _ (ih _ _ hg₀)) hg
    | _ => exact ih r task hg

/-- No `finish` of this action meets a block `json.loads` fails on. -/
def parsesAt (rt : Runtime) (w : World) : Act → Bool
  | .resume id awaited =>
    match w.tasks.get? id with
    | some task => stepParses rt task.graph task.phase awaited
    | none => true
  | _ => true

theorem parsesAt_of_loadsTotal (h : rt.LoadsTotal) (w : World) (a : Act) :
    w.parsesAt rt a = true := by
  unfold parsesAt
  split
  · split
    · exact stepParses_of_loadsTotal h _ _ _
    · rfl
  · rfl

/-- Every task has its shape. -/
theorem shape_of_reachable {ok : World → Act → Prop} (h : (runSys rt n).ReachableVia ok w)
    (hok : ∀ w a, ok w a → w.parsesAt rt a = true) {r : String} {task : Task}
    (hg : w.tasks.get? r = some task) : task.Shape rt := by
  refine tasks_induct (P := Task.Shape rt) h ?_ ?_ ?_ ?_ ?_ ?_ r task hg
  · intro w runId s graph config task hg
    rw [World.launch, Dict.get?_set_self, Option.some.injEq] at hg
    rw [← hg]
    exact ⟨rfl, rfl⟩
  · intro task hshape
    unfold Task.Shape at hshape ⊢
    cases hphase : task.phase with
    | created => simpa only [hphase] using hshape
    | streaming tr last => simpa only [hphase] using hshape
    | snapshot tr => simpa only [hphase] using hshape
    | done =>
        simp only [hphase] at hshape ⊢
        exact hshape.imp (fun h => ⟨h.1, h.2.1, trivial⟩) id
  · intro w id task _ _ hshape hphase hc
    unfold Task.Shape at hshape ⊢
    simp only [hphase] at hshape ⊢
    exact .inl ⟨hshape.1, hshape.2, hc⟩
  · intro task hshape hphase
    unfold Task.Shape at hshape
    simp only [hphase] at hshape
    refine ⟨[], ?_, ?_, ?_⟩
    · show task.events ++ _ = _
      rw [hshape.1]
      rfl
    · intro e he
      cases he
    · intro rest
      show ending task.graph none (task.fed ++ rest) = _
      rw [hshape.2, List.nil_append]
      rfl
  · intro w id task awaited s hstep hg hshape hs
    refine hshape.resume ?_ hs
    have hparse := hok w _ hstep
    unfold parsesAt at hparse
    simpa only [hg] using hparse
  · intro task hshape
    exact hshape

end World

end AgentProtocol

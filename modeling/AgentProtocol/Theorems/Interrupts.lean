import AgentProtocol.Runner.Log
import AgentProtocol.Runner.Trace

/-!
# The interrupts of a run (`_execute`, `_register_pending`)

A run keeps one `values` chunk, the last, and decides on it when its stream ends.
`carried` collects the interrupts of all the chunks a stream yielded.
`interrupts_kept_iff` says when each of them is pending on the thread afterwards and
has been requested once: when the last chunk holds them all under different ids, and
nothing in the stream made the run fail before its end.
-/

namespace AgentProtocol

/-- The interrupts of one `values` chunk. -/
def chunkInterrupts (rt : Runtime) (chunk : Dict String Value) : List (String × Value) :=
  match interruptsFromSnapshot rt chunk with
  | .ok interrupts => interrupts
  | .error _ => []

/-- The interrupts of every `values` chunk of a stream. -/
def carried (rt : Runtime) : List StreamItem → List (String × Value)
  | [] => []
  | .values chunk :: items => chunkInterrupts rt chunk ++ carried rt items
  | _ :: items => carried rt items

/-- The last `values` chunk of a stream. -/
def lastValues (last : Option (Dict String Value)) : List StreamItem → Option (Dict String Value)
  | [] => last
  | .values chunk :: items => lastValues (some chunk) items
  | _ :: items => lastValues last items

/-- The translator after one item, if the item does not end the run. -/
def itemThrough (rt : Runtime) (tr : MessagesTranslator) : StreamItem → Option MessagesTranslator
  | .messages chunk =>
    if (tr.feed rt chunk).raised.isSome then none
    else if chunk.usageMetadata.entries.isEmpty then some (tr.feed rt chunk).state
    else
      let r := (tr.feed rt chunk).state.finish rt (some chunk)
      if r.raised.isSome then none else some r.state
  | .malformed _ => none
  | _ => some tr

/-- The translator after a whole stream, if no item of it ends the run. -/
def through (rt : Runtime) (tr : MessagesTranslator) : List StreamItem → Option MessagesTranslator
  | [] => some tr
  | item :: items => (itemThrough rt tr item).bind fun tr => through rt tr items

/-- No item fails the run, and the last `values` chunk has every interrupt of the
stream, under different ids. -/
def KeepsAll (rt : Runtime) (items : List StreamItem) : Prop :=
  carried rt items = [] ∨
    (through rt .new items).isSome = true ∧ ∃ chunk, lastValues none items = some chunk ∧
      ((chunkInterrupts rt chunk).map Prod.fst).Nodup ∧
      ∀ p ∈ carried rt items, p ∈ chunkInterrupts rt chunk

/-- The payloads requested under an interrupt id. -/
def requested (id : String) : List EventData → List Value
  | [] => []
  | .inputRequested i payload :: es => if i = id then payload :: requested id es else requested id es
  | _ :: es => requested id es

/-- The run ended interrupted; the interrupt is pending on its thread, and was
requested exactly once. -/
structure World.Kept (w : World) (r : String) (task : Task) (p : String × Value) : Prop where
  ended : (w.eventsOf task.threadId r).filter EventData.isTerminal =
    [interruptedEvent task.assistantId]
  pending : ∃ pending, w.pendingInputs.get? task.threadId = some pending ∧
    pending.get? p.1 = some p.2
  requested : requested p.1 (w.eventsOf task.threadId r) = [p.2]

/-! ## Streams -/

section Streams

variable {rt : Runtime}

theorem through_append (tr : MessagesTranslator) (xs ys : List StreamItem) :
    through rt tr (xs ++ ys) = (through rt tr xs).bind fun tr => through rt tr ys := by
  induction xs generalizing tr with
  | nil => rfl
  | cons item xs ih =>
      rw [List.cons_append, through, through, Option.bind_assoc]
      exact Option.bind_congr fun tr' _ => ih tr'

theorem lastValues_append (last : Option (Dict String Value)) (xs ys : List StreamItem) :
    lastValues last (xs ++ ys) = lastValues (lastValues last xs) ys := by
  induction xs generalizing last with
  | nil => rfl
  | cons item xs ih =>
      cases item with
      | values chunk => exact ih (some chunk)
      | _ => exact ih last

/-- Without a `values` chunk there is no interrupt; the interrupts of the last chunk
are among those of the stream. -/
theorem carried_of_lastValues (rt : Runtime) (last : Option (Dict String Value))
    (items : List StreamItem) :
    match lastValues last items with
    | none => last = none ∧ carried rt items = []
    | some chunk => last = some chunk ∨ ∀ p ∈ chunkInterrupts rt chunk, p ∈ carried rt items := by
  induction items generalizing last with
  | nil =>
      unfold lastValues
      cases last with
      | none => exact ⟨rfl, rfl⟩
      | some chunk => exact .inl rfl
  | cons item items ih =>
      cases item with
      | values chunk =>
          have h := ih (some chunk)
          simp only [lastValues, carried]
          cases hl : lastValues (some chunk) items with
          | none =>
              rw [hl] at h
              cases h.1
          | some chunk' =>
              rw [hl] at h
              refine .inr fun p hp => List.mem_append.mpr ?_
              rcases h with heq | h
              · rw [Option.some.inj heq]
                exact .inl hp
              · exact .inr (h p hp)
      | _ => exact ih last

theorem requested_append (id : String) (xs ys : List EventData) :
    requested id (xs ++ ys) = requested id xs ++ requested id ys := by
  induction xs with
  | nil => rfl
  | cons e xs ih =>
      cases e with
      | inputRequested i payload =>
          simp only [List.cons_append, requested, ih]
          split <;> rfl
      | _ => simpa only [List.cons_append, requested] using ih

theorem requested_body (id : String) {es : List EventData} (h : ∀ e ∈ es, e.isBody = true) :
    requested id es = [] := by
  induction es with
  | nil => rfl
  | cons e es ih =>
      rw [List.forall_mem_cons] at h
      cases e with
      | inputRequested i payload => cases h.1
      | _ => exact ih h.2

theorem requested_requests (id : String) (interrupts : List (String × Value)) :
    requested id (interrupts.map fun p => .inputRequested p.1 p.2) =
      Entries.getAll id interrupts := by
  induction interrupts with
  | nil => rfl
  | cons p interrupts ih =>
      rw [List.map_cons, requested, ih]
      by_cases hp : p.1 = id
      · rw [if_pos hp, ← hp, Entries.getAll_cons_self]
      · rw [if_neg hp, Entries.getAll_cons_ne hp]

end Streams

/-! ## The steps of a run -/

section Steps

variable {rt : Runtime} {assistantId : String} {tr : MessagesTranslator}

/-- Not the event an interrupted run ends with. -/
def Uninterrupted (assistantId : String) (es : List EventData) : Prop :=
  interruptedEvent assistantId ∉ es

theorem uninterrupted_of_body {es : List EventData} (h : ∀ e ∈ es, e.isBody = true) :
    Uninterrupted assistantId es :=
  fun he => Bool.false_ne_true (h _ he)

/-- What a run publishes before its end. -/
theorem uninterrupted_begun {body : List EventData} (h : ∀ e ∈ body, e.isBody = true) :
    Uninterrupted assistantId (startedEvent assistantId :: runningEvent assistantId :: body) := by
  intro he
  rcases List.mem_cons.mp he with he | he
  · rw [interruptedEvent, startedEvent, EventData.lifecycle.injEq] at he
    exact absurd he.1 (by decide)
  · rcases List.mem_cons.mp he with he | he
    · rw [interruptedEvent, runningEvent, EventData.lifecycle.injEq] at he
      exact absurd he.1 (by decide)
    · exact uninterrupted_of_body h he

theorem Uninterrupted.append {xs ys : List EventData} (hx : Uninterrupted assistantId xs)
    (hy : Uninterrupted assistantId ys) : Uninterrupted assistantId (xs ++ ys) :=
  fun he => (List.mem_append.mp he).elim hx hy

theorem onException_uninterrupted (exc : PyExc) :
    Uninterrupted assistantId (onException rt assistantId tr exc).events := by
  refine .append (uninterrupted_of_body (frameEvents_body _)) ?_
  intro he
  split at he
  · rw [List.mem_singleton, interruptedEvent, EventData.lifecycle.injEq] at he
    exact absurd he.1 (by decide)
  · cases he

/-- Frames before a stretch that ends the run without an interrupt. -/
theorem uninterrupted_after {frames : List Frame} {s : TaskStep}
    (h : s.phase = .done ∧ Uninterrupted assistantId s.events) :
    (s.after (frameEvents frames)).phase = .done ∧
      Uninterrupted assistantId (s.after (frameEvents frames)).events :=
  ⟨h.1, (uninterrupted_of_body (frameEvents_body frames)).append h.2⟩

/-- A translator call that raises ends the run, without an interrupt. -/
theorem orFail_of_raised {r : Emission MessagesTranslator} {exc : PyExc}
    (h : r.raised = some exc) (next : MessagesTranslator → TaskStep) :
    (orFail rt assistantId r next).phase = .done ∧
      Uninterrupted assistantId (orFail rt assistantId r next).events := by
  unfold orFail
  rw [h]
  exact uninterrupted_after ⟨rfl, onException_uninterrupted exc⟩

/-- One item either ends the run, without an interrupt, or leads to the next await
with the translator it passed through. -/
theorem onItem_spec (rt : Runtime) (assistantId : String) (tr : MessagesTranslator)
    (last : Option (Dict String Value)) (item : StreamItem) :
    let s := onItem rt assistantId tr last item
    match itemThrough rt tr item with
    | none => s.phase = .done ∧ Uninterrupted assistantId s.events
    | some tr' => s.phase = .streaming tr' (lastValues last [item]) ∧
        ∀ e ∈ s.events, e.isBody = true := by
  cases item with
  | values chunk =>
      refine ⟨rfl, fun e he => ?_⟩
      rw [List.mem_singleton.mp he]
      rfl
  | other => exact ⟨rfl, fun e he => by cases he⟩
  | malformed exc => exact ⟨rfl, onException_uninterrupted exc⟩
  | messages chunk =>
      simp only [onItem, itemThrough]
      cases hfeed : (tr.feed rt chunk).raised with
      | some exc =>
          simp only [Option.isSome_some, if_true]
          exact orFail_of_raised hfeed _
      | none =>
          rw [orFail_of_returned hfeed]
          simp only [Option.isSome_none, Bool.false_eq_true, if_false]
          by_cases husage : chunk.usageMetadata.entries.isEmpty = true
          · rw [if_pos husage, if_pos husage]
            exact ⟨rfl, after_body _ fun e he => by cases he⟩
          · rw [if_neg husage, if_neg husage]
            cases hfin : ((tr.feed rt chunk).state.finish rt (some chunk)).raised with
            | some exc =>
                simp only [Option.isSome_some, if_true]
                exact uninterrupted_after (orFail_of_raised hfin _)
            | none =>
                rw [orFail_of_returned hfin]
                simp only [Option.isSome_none, Bool.false_eq_true, if_false]
                exact ⟨rfl, after_body _ (after_body _ fun e he => by cases he)⟩

/-- A run that decides on a snapshot without interrupts does not end interrupted. -/
theorem settle_uninterrupted {values : Dict String Value} (h : chunkInterrupts rt values = []) :
    Uninterrupted assistantId (settle rt assistantId tr values).events := by
  unfold chunkInterrupts at h
  unfold settle
  cases hi : interruptsFromSnapshot rt values with
  | error exc => exact onException_uninterrupted exc
  | ok interrupts =>
      rw [hi] at h
      obtain rfl : interrupts = [] := h
      dsimp only
      cases hfin : (tr.finish rt none).raised with
      | some exc => exact (orFail_of_raised hfin _).2
      | none =>
          rw [orFail_of_returned hfin]
          refine .append (uninterrupted_of_body (frameEvents_body _)) ?_
          intro he
          rw [List.mem_singleton, interruptedEvent, EventData.lifecycle.injEq] at he
          exact absurd he.1 (by decide)

/-- One that decides on a snapshot with interrupts registers and requests them. -/
theorem settle_interrupts {values : Dict String Value} {interrupts : List (String × Value)}
    (h : chunkInterrupts rt values = interrupts) (hne : interrupts ≠ []) :
    settle rt assistantId tr values =
      { phase := .done
        events := interruptedEvent assistantId ::
          interrupts.map fun p => .inputRequested p.1 p.2
        pending := some interrupts } := by
  unfold chunkInterrupts at h
  unfold settle
  cases hi : interruptsFromSnapshot rt values with
  | error exc =>
      rw [hi] at h
      exact absurd h.symm hne
  | ok interrupts' =>
      rw [hi] at h
      obtain rfl : interrupts' = interrupts := h
      cases interrupts' with
      | nil => exact absurd rfl hne
      | cons p rest => rfl

end Steps

/-! ## What a run has heard -/

/-- What the run has made of its stream, by the await it is suspended at. -/
def Task.Heard (rt : Runtime) (task : Task) : Prop :=
  match task.phase with
  | .created => task.events = [] ∧ task.fed = []
  | .streaming tr last => ∃ (items : List StreamItem) (body : List EventData),
      task.fed = items.map .item ∧
      task.events = startedEvent task.assistantId :: runningEvent task.assistantId :: body ∧
      (∀ e ∈ body, e.isBody = true) ∧ through rt .new items = some tr ∧
      lastValues none items = last
  | .snapshot _ => ∃ items : List StreamItem, task.fed = items.map .item ++ [.stop]
  | .done => True

section Heard

variable {rt : Runtime} {task : Task} {awaited : Awaited} {s : TaskStep}

theorem Task.Heard.of_done (h : s.phase = .done) : (task.advance awaited s).Heard rt := by
  unfold Task.Heard Task.advance
  simp only [h]

/-- The next await after a stretch of the run. -/
theorem Task.Heard.resume (h : task.Heard rt)
    (hs : resume rt task.assistantId task.graph task.phase awaited = some s) :
    (task.advance awaited s).Heard rt := by
  unfold Task.Heard at h
  cases hphase : task.phase with
  | created =>
      rw [hphase] at hs
      cases awaited <;> cases hs
  | done =>
      rw [hphase] at hs
      cases awaited <;> cases hs
  | snapshot tr =>
      rw [hphase] at hs
      cases awaited with
      | item item => cases hs
      | stop => cases hs
      | snapshot values =>
          obtain rfl := Option.some.inj hs
          exact .of_done (settle_phase _ _ _ _)
      | raised exc =>
          obtain rfl := Option.some.inj hs
          exact .of_done (settle_phase _ _ _ _)
      | cancelled =>
          obtain rfl := Option.some.inj hs
          exact .of_done rfl
  | streaming tr last =>
      simp only [hphase] at h hs
      obtain ⟨items, body, hfed, hev, hbody, hthrough, hlast⟩ := h
      cases awaited with
      | snapshot values => cases hs
      | raised exc =>
          obtain rfl := Option.some.inj hs
          exact .of_done rfl
      | cancelled =>
          obtain rfl := Option.some.inj hs
          exact .of_done rfl
      | stop =>
          obtain rfl := Option.some.inj hs
          cases last with
          | some values => exact .of_done (settle_phase _ _ _ _)
          | none =>
              simp only [onStop]
              split
              · exact ⟨items, by show task.fed ++ _ = _; rw [hfed]⟩
              · exact .of_done (settle_phase _ _ _ _)
      | item item =>
          obtain rfl := Option.some.inj hs
          have hspec := onItem_spec rt task.assistantId tr last item
          dsimp only at hspec
          cases hitem : itemThrough rt tr item with
          | none =>
              rw [hitem] at hspec
              exact .of_done hspec.1
          | some tr' =>
              rw [hitem] at hspec
              unfold Task.Heard Task.advance
              simp only [hspec.1]
              refine ⟨items ++ [item], body ++ (onItem rt task.assistantId tr last item).events,
                ?_, ?_, ?_, ?_, ?_⟩
              · rw [hfed, List.map_append]
                rfl
              · rw [hev, List.cons_append, List.cons_append]
              · intro e he
                rcases List.mem_append.mp he with he | he
                · exact hbody e he
                · exact hspec.2 e he
              · rw [through_append, hthrough]
                simp only [Option.bind_some, through, hitem]
              · rw [lastValues_append, hlast]

end Heard

theorem World.heard_of_reachable {rt : Runtime} {n : Nat} {w : World}
    (h : (runSys rt n).Reachable w) {r : String} {task : Task}
    (hg : w.tasks.get? r = some task) : task.Heard rt := by
  refine World.tasks_induct (P := Task.Heard rt) h ?_ ?_ ?_ ?_ ?_ ?_ r task hg
  · intro w runId s graph config task hg
    rw [World.launch, Dict.get?_set_self, Option.some.injEq] at hg
    rw [← hg]
    exact ⟨rfl, rfl⟩
  · intro task hheard
    exact hheard
  · intro w id task _ _ _ _ _
    trivial
  · intro task hheard hphase
    unfold Task.Heard at hheard
    simp only [hphase] at hheard
    refine ⟨[], [], hheard.2, ?_, fun e he => (by cases he), rfl, rfl⟩
    show task.events ++ _ = _
    rw [hheard.1]
    rfl
  · intro w id task awaited s _ _ hheard hs
    exact hheard.resume hs
  · intro task hheard
    exact hheard

/-! ## The decision -/

/-- How a run's awaits can go on along a stream. -/
theorem fed_prefix {before items : List StreamItem} {awaited : Awaited} {rest : List Awaited}
    (h : before.map Awaited.item ++ awaited :: rest <+: items.map Awaited.item ++ [.stop]) :
    (∃ item after, awaited = .item item ∧ items = before ++ item :: after) ∨
      (awaited = .stop ∧ rest = [] ∧ items = before) := by
  induction before generalizing items with
  | nil =>
      cases items with
      | nil =>
          obtain ⟨hhead, htail⟩ := List.cons_prefix_cons.mp h
          exact .inr ⟨hhead, List.prefix_nil.mp htail, rfl⟩
      | cons item items =>
          obtain ⟨hhead, -⟩ := List.cons_prefix_cons.mp h
          exact .inl ⟨item, items, hhead, rfl⟩
  | cons item before ih =>
      cases items with
      | nil =>
          obtain ⟨hhead, -⟩ := List.cons_prefix_cons.mp h
          cases hhead
      | cons item' items =>
          obtain ⟨hhead, htail⟩ := List.cons_prefix_cons.mp h
          obtain rfl := Awaited.item.inj hhead
          rcases ih htail with ⟨it, after, haw, rfl⟩ | ⟨haw, hrest, rfl⟩
          · exact .inl ⟨it, after, haw, rfl⟩
          · exact .inr ⟨haw, hrest, rfl⟩

/-- A run that published no `interrupted` has kept nothing. -/
theorem World.not_kept_of_uninterrupted {w : World} {r : String} {task : Task}
    {p : String × Value} (hev : w.eventsOf task.threadId r = task.events)
    (h : Uninterrupted task.assistantId task.events) : ¬w.Kept r task p := by
  intro hkept
  have hmem : interruptedEvent task.assistantId ∈
      (w.eventsOf task.threadId r).filter EventData.isTerminal := by
    rw [hkept.ended]
    exact List.mem_singleton_self _
  rw [hev] at hmem
  exact h (List.mem_of_mem_filter hmem)

/-- A run that has lost its interrupts, or had none. -/
theorem World.kept_iff_of_uninterrupted {rt : Runtime} {w : World} {r : String} {task : Task}
    {items : List StreamItem} (hev : w.eventsOf task.threadId r = task.events)
    (h : Uninterrupted task.assistantId task.events)
    (hnot : carried rt items ≠ [] → ¬KeepsAll rt items) :
    (∀ p ∈ carried rt items, w.Kept r task p) ↔ KeepsAll rt items := by
  constructor
  · intro hall
    refine .inl (List.eq_nil_iff_forall_not_mem.mpr fun p hp => ?_)
    exact not_kept_of_uninterrupted hev h (hall p hp)
  · intro hkeeps p hp
    exact absurd hkeeps (hnot (List.ne_nil_of_mem hp))

/-- The run decided on a chunk with these interrupts. -/
theorem World.kept_iff_of_decided {rt : Runtime} {w : World} {r : String} {task : Task}
    {items : List StreamItem} {body : List EventData} {chunk : Dict String Value}
    {tr : MessagesTranslator} (hev : w.eventsOf task.threadId r =
      startedEvent task.assistantId :: runningEvent task.assistantId :: (body ++
        interruptedEvent task.assistantId ::
          (chunkInterrupts rt chunk).map fun p => .inputRequested p.1 p.2))
    (hbody : ∀ e ∈ body, e.isBody = true)
    (hpending : w.pendingInputs.get? task.threadId =
      some (pendingOf task.assistantId (chunkInterrupts rt chunk)))
    (hthrough : through rt .new items = some tr) (hlast : lastValues none items = some chunk) :
    (∀ p ∈ carried rt items, w.Kept r task p) ↔ KeepsAll rt items := by
  have hsub : ∀ p ∈ chunkInterrupts rt chunk, p ∈ carried rt items := by
    have h := carried_of_lastValues rt none items
    rw [hlast] at h
    rcases h with heq | h
    · cases heq
    · exact h
  have hreq : ∀ id, requested id (w.eventsOf task.threadId r) =
      Entries.getAll id (chunkInterrupts rt chunk) := by
    intro id
    rw [hev]
    show requested id (body ++ _) = _
    rw [requested_append, requested_body id hbody, List.nil_append]
    exact requested_requests id _
  have hended : (w.eventsOf task.threadId r).filter EventData.isTerminal =
      [interruptedEvent task.assistantId] := by
    have hnone : body.filter EventData.isTerminal = [] := by
      rw [List.filter_eq_nil_iff]
      intro e he
      rw [EventData.isTerminal_of_isBody (hbody e he)]
      exact Bool.false_ne_true
    have hreqs : ((chunkInterrupts rt chunk).map fun p =>
        EventData.inputRequested p.1 p.2).filter EventData.isTerminal = [] := by
      rw [List.filter_eq_nil_iff]
      intro e he
      obtain ⟨p, -, rfl⟩ := List.mem_map.mp he
      exact Bool.false_ne_true
    rw [hev]
    show (body ++ _).filter EventData.isTerminal = _
    rw [List.filter_append, hnone, List.nil_append,
      List.filter_cons_of_pos (p := EventData.isTerminal) rfl, hreqs]
  constructor
  · intro hall
    refine .inr ⟨by rw [hthrough]; rfl, chunk, hlast, ?_, ?_⟩
    · -- each key has been requested once
      rw [Entries.nodup_iff_getAll]
      intro p hp
      rw [← hreq]
      exact (hall p (hsub p hp)).requested
    · intro p hp
      have h := (hall p hp).requested
      rw [hreq, Entries.getAll] at h
      have hmem : p.2 ∈ ((chunkInterrupts rt chunk).filter fun q => q.1 = p.1).map Prod.snd := by
        rw [h]
        exact List.mem_singleton_self _
      obtain ⟨q, hq, hsnd⟩ := List.mem_map.mp hmem
      obtain ⟨hq, hfst⟩ := List.mem_filter.mp hq
      have heq : q = p := Prod.ext (of_decide_eq_true hfst) hsnd
      exact heq ▸ hq
  · rintro (hnil | ⟨-, chunk', hlast', hnd, hin⟩) p hp
    · rw [hnil] at hp
      cases hp
    · rw [hlast, Option.some.injEq] at hlast'
      subst hlast'
      refine ⟨hended, ⟨_, hpending, ?_⟩, ?_⟩
      · exact Dict.get?_update_of_mem _ hnd (hin p hp)
      · rw [hreq]
        exact (Entries.nodup_iff_getAll _).mp hnd p (hin p hp)

/-- An item has failed the run. -/
theorem World.kept_iff_of_item {rt : Runtime} {w : World} {r : String} {task : Task}
    {tr : MessagesTranslator} {last : Option (Dict String Value)} {item : StreamItem}
    {before after : List StreamItem}
    (hev : w.eventsOf task.threadId r =
      (task.advance (.item item) (onItem rt task.assistantId tr last item)).events)
    (hopen : Uninterrupted task.assistantId task.events)
    (hthrough : through rt .new before = some tr)
    (hdone : (onItem rt task.assistantId tr last item).phase = .done) :
    (∀ p ∈ carried rt (before ++ item :: after),
      w.Kept r (task.advance (.item item) (onItem rt task.assistantId tr last item)) p) ↔
        KeepsAll rt (before ++ item :: after) := by
  have hspec := onItem_spec rt task.assistantId tr last item
  dsimp only at hspec
  cases hitem : itemThrough rt tr item with
  | some tr' =>
      rw [hitem] at hspec
      rw [hspec.1] at hdone
      cases hdone
  | none =>
      rw [hitem] at hspec
      apply kept_iff_of_uninterrupted hev (hopen.append hspec.2)
      rintro hne (hnil | ⟨hsome, -⟩)
      · exact hne hnil
      · rw [through_append, hthrough, Option.bind_some, through, hitem] at hsome
        cases hsome

/-- The stream is over. -/
theorem World.kept_iff_of_stop {rt : Runtime} {w : World} {id : String} {task : Task}
    {tr : MessagesTranslator} {last : Option (Dict String Value)} {items : List StreamItem}
    {body : List EventData}
    (hev : (w.perform rt id { task with fed := task.fed ++ [.stop] }
      (onStop rt task.assistantId task.graph tr last)).eventsOf task.threadId id =
        (task.advance .stop (onStop rt task.assistantId task.graph tr last)).events)
    (hevents : task.events =
      startedEvent task.assistantId :: runningEvent task.assistantId :: body)
    (hbody : ∀ e ∈ body, e.isBody = true) (hthrough : through rt .new items = some tr)
    (hlast : lastValues none items = last) :
    (∀ p ∈ carried rt items, (w.perform rt id { task with fed := task.fed ++ [.stop] }
        (onStop rt task.assistantId task.graph tr last)).Kept id
          (task.advance .stop (onStop rt task.assistantId task.graph tr last)) p) ↔
      KeepsAll rt items := by
  have hcarried := carried_of_lastValues rt none items
  rw [hlast] at hcarried
  cases last with
  | none =>
      have hnone : carried rt items = [] := hcarried.2
      refine iff_of_true (fun p hp => ?_) (.inl hnone)
      rw [hnone] at hp
      cases hp
  | some chunk =>
      cases hint : chunkInterrupts rt chunk with
      | nil =>
          have hopen : Uninterrupted task.assistantId task.events := by
            rw [hevents]
            exact uninterrupted_begun hbody
          apply kept_iff_of_uninterrupted hev (hopen.append (settle_uninterrupted hint))
          rintro hne (hnil | ⟨-, chunk', hlast', -, hin⟩)
          · exact hne hnil
          · rw [hlast, Option.some.injEq] at hlast'
            subst hlast'
            obtain ⟨p, hp⟩ := List.exists_mem_of_ne_nil _ hne
            have hmem := hin p hp
            rw [hint] at hmem
            cases hmem
      | cons p rest =>
          have hne : chunkInterrupts rt chunk ≠ [] := by
            rw [hint]
            exact List.cons_ne_nil p rest
          have hsettle : onStop rt task.assistantId task.graph tr (some chunk) = _ :=
            settle_interrupts rfl hne
          refine kept_iff_of_decided (hev.trans ?_) hbody ?_ hthrough hlast
          · show task.events ++ (onStop _ _ _ _ _).events = _
            rw [hsettle, hevents]
            rfl
          · rw [perform, hsettle]
            exact Dict.get?_set_self _ _ _

/-- For every interleaving, and every run whose awaits ended as the stream `items`
and its normal end say, in the step that ends the run: each interrupt of each
`values` chunk of the stream is kept if and only if no item failed the run and the
last `values` chunk has them all, under different ids. A stream that ends after a
`values` chunk ends its run. -/
theorem interrupts_kept_iff (rt : Runtime) (n : Nat) :
    (∀ w id awaited w' task items, (runSys rt n).Reachable w →
      w.step rt (.resume id awaited) = some w' → w'.tasks.get? id = some task →
      task.phase = .done → task.fed <+: items.map .item ++ [.stop] →
      ((∀ p ∈ carried rt items, w'.Kept id task p) ↔ KeepsAll rt items)) ∧
    ∀ (w : World) id task tr chunk, w.tasks.get? id = some task →
      task.phase = .streaming tr (some chunk) →
      ∃ w' task', w.step rt (.resume id .stop) = some w' ∧ w'.tasks.get? id = some task' ∧
        task'.phase = .done := by
  constructor
  · intro w id awaited w' task' items hw hstep hg' hdone hfed
    have hw' : (runSys rt n).Reachable w' := hw.tail (a := .resume id awaited) trivial hstep
    have hev := (World.logInv_of_reachable hw').eventsOf_eq hg'
    obtain ⟨task, s, hg, hs, rfl⟩ := World.resume_inv hstep
    have hheard := World.heard_of_reachable hw hg
    have htask : task.advance awaited s = task' := by
      simp only [World.perform, Dict.get?_set_self, Option.some.injEq] at hg'
      exact hg'
    subst htask
    have hsdone : s.phase = .done := hdone
    unfold Task.Heard at hheard
    cases hphase : task.phase with
    | created =>
        rw [hphase] at hs
        cases awaited <;> cases hs
    | done =>
        rw [hphase] at hs
        cases awaited <;> cases hs
    | snapshot tr =>
        -- the stream is over, and nothing follows its end
        simp only [hphase] at hheard
        obtain ⟨before, hbefore⟩ := hheard
        have hrest : before.map Awaited.item ++ .stop :: [awaited] <+: items.map .item ++ [.stop] := by
          have h : task.fed ++ [awaited] <+: items.map .item ++ [.stop] := hfed
          rwa [hbefore, List.append_assoc] at h
        rcases fed_prefix hrest with ⟨item, after, hstop, -⟩ | ⟨-, hnil, -⟩
        · cases hstop
        · cases hnil
    | streaming tr last =>
        simp only [hphase] at hheard hs
        obtain ⟨before, body, hbefore, hevents, hbody, hthrough, hlast⟩ := hheard
        have hrest : before.map Awaited.item ++ [awaited] <+: items.map .item ++ [.stop] := by
          have h : task.fed ++ [awaited] <+: items.map .item ++ [.stop] := hfed
          rwa [hbefore] at h
        rcases fed_prefix hrest with ⟨item, after, rfl, rfl⟩ | ⟨rfl, -, rfl⟩
        · -- an item that failed the run
          obtain rfl := Option.some.inj hs
          have hopen : Uninterrupted task.assistantId task.events := by
            rw [hevents]
            exact uninterrupted_begun hbody
          exact World.kept_iff_of_item hev hopen hthrough hsdone
        · -- the end of the stream
          obtain rfl := Option.some.inj hs
          exact World.kept_iff_of_stop hev hevents hbody hthrough hlast
  · intro w id task tr chunk hg hphase
    refine ⟨w.perform rt id { task with fed := task.fed ++ [.stop] }
      (onStop rt task.assistantId task.graph tr (some chunk)), task.advance .stop
      (onStop rt task.assistantId task.graph tr (some chunk)), ?_, Dict.get?_set_self _ _ _,
      settle_phase _ _ _ _⟩
    simp only [World.step, World.resumeTask, hg, hphase, resume, Option.map_some]

/-- The values of a thread with these interrupts pending. -/
def pausedValues (ids : List String) : Dict String Value :=
  .ofList [("__interrupt__", .list (ids.map fun id =>
    .dict [(.str "id", .str id), (.str "value", .str "go?")]))]

/-- A run of an interrupted graph, up to the end of its stream. -/
def pausedRun (items : List StreamItem) : List Act :=
  [.register "agent", .start "t" (.str "agent") .null none .null "1",
   .resolved "1" (.graph ⟨true⟩), .begin "1"] ++ items.map fun item => .resume "1" (.item item)

def pausedBefore (items : List StreamItem) : World :=
  ((runSys .inert 500).run (.new 500) (pausedRun items)).getD (.new 500)

def pausedAfter (items : List StreamItem) : World :=
  ((pausedBefore items).step .inert (.resume "1" .stop)).getD (.new 500)

/-- One task stops at an interrupt, then a parallel one streams other values. -/
def overwrittenItems : List StreamItem :=
  [.values (pausedValues ["i"]), .values (.ofList [("x", .int 1)])]

/-- The run completes and the interrupt is not pending. -/
theorem overwritten_interrupt_lost :
    ¬∀ w id awaited w' task items, (runSys .inert 500).Reachable w →
      w.step .inert (.resume id awaited) = some w' → w'.tasks.get? id = some task →
      task.phase = .done → task.fed <+: items.map .item ++ [.stop] →
      ∀ p ∈ carried .inert items, w'.Kept id task p := by
  intro hall
  have hrun : (runSys .inert 500).run (.new 500) (pausedRun overwrittenItems) =
      some (pausedBefore overwrittenItems) := rfl
  have hreach := TSys.reachable_of_run (M := runSys .inert 500) rfl hrun
  obtain ⟨task, hg⟩ : ∃ task, (pausedAfter overwrittenItems).tasks.get? "1" = some task :=
    ⟨_, rfl⟩
  have hphase : ((pausedAfter overwrittenItems).tasks.get? "1").map Task.phase = some .done := rfl
  have hfed : ((pausedAfter overwrittenItems).tasks.get? "1").map Task.fed =
      some (overwrittenItems.map .item ++ [.stop]) := rfl
  have ht : ((pausedAfter overwrittenItems).tasks.get? "1").map Task.threadId = some "t" := rfl
  rw [hg, Option.map_some, Option.some.injEq] at hphase hfed ht
  have hkept := hall _ "1" .stop (pausedAfter overwrittenItems) task overwrittenItems hreach rfl hg
    hphase (hfed ▸ List.prefix_rfl) ("i", .str "go?") List.mem_cons_self
  obtain ⟨pending, hpending, -⟩ := hkept.pending
  rw [ht] at hpending
  have hnone : (pausedAfter overwrittenItems).pendingInputs.get? "t" = none := rfl
  rw [hnone] at hpending
  cases hpending

/-- The last chunk repeats the interrupt of the first one beside its own. -/
def repeatedItems : List StreamItem :=
  [.values (pausedValues ["i"]), .values (pausedValues ["i", "j"])]

theorem interrupts_kept_repeated :
    ∃ task, (pausedAfter repeatedItems).tasks.get? "1" = some task ∧
      ∀ p ∈ carried .inert repeatedItems, (pausedAfter repeatedItems).Kept "1" task p := by
  have hrun : (runSys .inert 500).run (.new 500) (pausedRun repeatedItems) =
      some (pausedBefore repeatedItems) := rfl
  have hreach := TSys.reachable_of_run (M := runSys .inert 500) rfl hrun
  obtain ⟨task, hg⟩ : ∃ task, (pausedAfter repeatedItems).tasks.get? "1" = some task := ⟨_, rfl⟩
  have hphase : ((pausedAfter repeatedItems).tasks.get? "1").map Task.phase = some .done := rfl
  have hfed : ((pausedAfter repeatedItems).tasks.get? "1").map Task.fed =
      some (repeatedItems.map .item ++ [.stop]) := rfl
  rw [hg, Option.map_some, Option.some.injEq] at hphase hfed
  refine ⟨task, hg, ?_⟩
  have hkeeps : KeepsAll .inert repeatedItems := by
    refine .inr ⟨rfl, pausedValues ["i", "j"], rfl, ?_, ?_⟩
    · show ["i", "j"].Nodup
      decide
    · intro p hp
      rcases List.mem_cons.mp hp with rfl | hp
      · exact List.mem_cons_self
      · exact hp
  exact ((interrupts_kept_iff .inert 500).1 _ "1" .stop _ task repeatedItems hreach rfl hg hphase
    (hfed ▸ List.prefix_rfl)).mpr hkeeps

end AgentProtocol

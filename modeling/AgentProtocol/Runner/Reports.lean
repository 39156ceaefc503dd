import AgentProtocol.Runner.Messages
import AgentProtocol.Translation.Script

/-!
# Whether a run reports its end

A run hands the chunks of its items to the translator (`callsOf`), and its handlers call
`finish` once more. A turn that does not parse when it is to end stays open, and so the
handler fails on it again: the run has reported its end exactly when no turn that ended in
its stream failed, and the one that was open at the end parses or was left alone
(`Task.Reported`).
-/

namespace AgentProtocol

/-- The translator calls the loop of a run makes for one item. -/
def StreamItem.calls : StreamItem → List Call
  | .messages chunk =>
    .feed chunk :: if chunk.usageMetadata.entries.isEmpty then [] else [.finish (some chunk)]
  | _ => []

def callsOf (items : List StreamItem) : List Call := items.flatMap StreamItem.calls

/-- The turn that has not ended parses. -/
def Script.openParses (rt : Runtime) (s : Script) : Bool := s.current.all (MessageTurn.parses rt)

/-- A translator where the script is. -/
def MessagesTranslator.Plays (rt : Runtime) (tr : MessagesTranslator) (s : Script) : Prop :=
  ∃ q : Sequencer, tr.Refines q ∧ q.Plays rt s

/-- How many terminal events are among these. -/
def terminals (es : List EventData) : Nat := es.countP EventData.isTerminal

section Calls

variable {rt : Runtime}

/-- A turn that could not be ended cannot be ended afterwards. -/
theorem Sequencer.play_stuck {q : Sequencer} {call : Call} (h : (q.play rt call).raised ≠ none) :
    ((q.play rt call).state.close rt ∅).raised ≠ none := by
  cases call with
  | finish chunk =>
      cases chunk with
      | none => exact (close_raised_frames h).2
      | some chunk =>
          unfold play finish at h ⊢
          dsimp only at h ⊢
          cases hid : strOr chunk.id none with
          | none =>
              rw [hid] at h
              exact absurd rfl h
          | some id =>
              rw [hid] at h
              dsimp only at h ⊢
              split at h
              · next hturn =>
                rw [if_pos hturn]
                exact (close_raised_frames h).2
              · exact absurd rfl h
  | feed chunk =>
      unfold play feed at h ⊢
      dsimp only at h ⊢
      cases hrole : role chunk with
      | none =>
          rw [hrole] at h
          exact absurd rfl h
      | some role =>
          rw [hrole] at h
          dsimp only at h ⊢
          split at h
          · split at h
            · split at h <;> exact absurd rfl h
            · exact absurd rfl h
          · next hmem =>
            rw [if_neg hmem]
            -- the turn before is the one that does not end
            unfold begin at h ⊢
            dsimp only at h ⊢
            cases hr : (q.close rt ∅).raised with
            | none =>
                rw [hr] at h
                exact absurd rfl h
            | some exc =>
                refine (close_raised_frames ?_).2
                rw [hr]
                exact Option.some_ne_none exc

/-- What is over stays as it is. -/
theorem Script.parses_of_steps (calls : List Call) (s : Script)
    (h : (calls.foldl Script.step s).parses rt = true) : s.parses rt = true := by
  induction calls generalizing s with
  | nil => exact h
  | cons call calls ih => exact Script.parses_of_step s call (ih (s.step call) h)

theorem Script.parses_close (s : Script) (usage : Dict String Json) :
    (s.close usage).parses rt = (s.parses rt && s.openParses rt) := by
  obtain ⟨ended, current⟩ := s
  cases current with
  | none => exact (Bool.and_true _).symm
  | some turn =>
      show (ended ++ [(turn, usage)]).all _ = (ended.all _ && turn.parses rt)
      rw [List.all_append, List.all_cons, List.all_nil, Bool.and_true]

namespace MessagesTranslator.Plays

variable {tr : MessagesTranslator} {s : Script}

theorem new : MessagesTranslator.new.Plays rt .new :=
  ⟨.new, MessagesTranslator.refines_new, Sequencer.plays_new⟩

/-- One call: it raises when a turn does not end, and then no `finish` ends it. -/
theorem run (h : tr.Plays rt s) (hp : s.parses rt = true) (call : Call) :
    ((call.run rt tr).raised = none ↔ (s.step call).parses rt = true) ∧
      ((call.run rt tr).raised = none → (call.run rt tr).state.Plays rt (s.step call)) ∧
      ((call.run rt tr).raised ≠ none →
        ((call.run rt tr).state.finish rt none).raised ≠ none) := by
  obtain ⟨q, href, hplay⟩ := h
  have hrun : (call.run rt tr).Refines (q.play rt call) := by
    cases call with
    | feed chunk => exact href.feed rt chunk
    | finish chunk => exact href.finish rt chunk
  have hstep := hplay.step call
  rw [hrun.raised]
  refine ⟨hstep.raised hp, fun hr => ⟨_, hrun.state, hstep.plays hr⟩, fun hr => ?_⟩
  rw [(hrun.state.finish rt none).raised]
  exact Sequencer.play_stuck hr

/-- `finish(None)`: it raises when the open turn does not parse. -/
theorem finish_none (h : tr.Plays rt s) (hp : s.parses rt = true) :
    (tr.finish rt none).raised = none ↔ s.openParses rt = true := by
  have hrun := (h.run hp (.finish none)).1
  have hclose : (s.step (.finish none)).parses rt = (s.parses rt && s.openParses rt) :=
    s.parses_close ∅
  rw [hclose, hp, Bool.true_and] at hrun
  exact hrun

end MessagesTranslator.Plays

end Calls

/-! ## The terminal events of a step -/

section Steps

variable {rt : Runtime} {assistantId : String} {tr : MessagesTranslator} {s : Script}

theorem terminals_append (xs ys : List EventData) :
    terminals (xs ++ ys) = terminals xs + terminals ys :=
  List.countP_append

theorem terminals_frameEvents (frames : List Frame) : terminals (frameEvents frames) = 0 := by
  apply List.countP_eq_zero.mpr
  intro e he
  obtain ⟨frame, -, rfl⟩ := List.mem_map.mp he
  exact Bool.false_ne_true

theorem terminals_after (frames : List Frame) (step : TaskStep) :
    terminals (step.after (frameEvents frames)).events = terminals step.events := by
  show terminals (frameEvents frames ++ step.events) = _
  rw [terminals_append, terminals_frameEvents, Nat.zero_add]

theorem terminals_requests (interrupts : List (String × Value)) :
    terminals (interrupts.map fun p => .inputRequested p.1 p.2) = 0 := by
  apply List.countP_eq_zero.mpr
  intro e he
  obtain ⟨p, -, rfl⟩ := List.mem_map.mp he
  exact Bool.false_ne_true

/-- A handler reports the end of the run if its `finish` returns. -/
theorem terminals_handle {terminal : EventData} (hterm : terminal.isTerminal = true) :
    terminals (handle rt tr terminal).events =
      if (tr.finish rt none).raised = none then 1 else 0 := by
  unfold handle
  dsimp only
  rw [terminals_append, terminals_frameEvents, Nat.zero_add]
  cases (tr.finish rt none).raised with
  | none =>
      rw [if_pos rfl]
      exact List.countP_cons_of_pos hterm
  | some exc => rfl

theorem terminals_onException (exc : PyExc) :
    terminals (onException rt assistantId tr exc).events =
      if (tr.finish rt none).raised = none then 1 else 0 := terminals_handle rfl

theorem terminals_onCancelled :
    terminals (onCancelled rt assistantId tr).events =
      if (tr.finish rt none).raised = none then 1 else 0 := terminals_handle rfl

/-- A decision is reported when it is a question or the open turn parses. -/
theorem terminals_settle (h : tr.Plays rt s) (hp : s.parses rt = true)
    (values : Dict String Value) :
    terminals (settle rt assistantId tr values).events =
      if ((Ending.decided values).asks rt || s.openParses rt) = true then 1 else 0 := by
  have hfin := h.finish_none hp
  have hstuck := (h.run hp (.finish none)).2.2
  unfold settle Ending.asks
  cases hi : interruptsFromSnapshot rt values with
  | error exc =>
      simp only [hi, Bool.false_or, ← hfin]
      exact terminals_onException exc
  | ok interrupts =>
      cases interrupts with
      | cons p interrupts =>
          have hrequests := terminals_requests (p :: interrupts)
          simp only [hi, List.isEmpty_cons, Bool.not_false, Bool.true_or, if_true]
          unfold terminals at hrequests ⊢
          rw [List.countP_cons_of_pos rfl, hrequests]
      | nil =>
          simp only [hi, List.isEmpty_nil, Bool.not_true, Bool.false_or, ← hfin]
          unfold orFail
          rw [terminals_after]
          cases hr : (tr.finish rt none).raised with
          | none => rfl
          | some exc =>
              have hagain : ((tr.finish rt none).state.finish rt none).raised ≠ none := by
                apply hstuck
                show (tr.finish rt none).raised ≠ none
                rw [hr]
                exact Option.some_ne_none exc
              dsimp only
              rw [terminals_onException, if_neg hagain, if_neg (Option.some_ne_none exc)]

/-- A translator call of the loop fails: nothing is reported, whatever calls were to follow. -/
theorem terminals_failed (h : tr.Plays rt s) (hp : s.parses rt = true) (call : Call) {exc : PyExc}
    (hr : (call.run rt tr).raised = some exc) (rest : List Call) :
    let s' := rest.foldl Script.step (s.step call)
    terminals (onException rt assistantId (call.run rt tr).state exc).events =
      if (s'.parses rt && s'.openParses rt) = true then 1 else 0 := by
  obtain ⟨hparses, -, hstuck⟩ := h.run hp call
  rw [hr] at hparses hstuck
  have hnot : (rest.foldl Script.step (s.step call)).parses rt = false := by
    apply Bool.eq_false_iff.mpr
    intro hp'
    cases hparses.mpr (Script.parses_of_steps rest (s.step call) hp')
  dsimp only
  rw [terminals_onException, if_neg (hstuck (Option.some_ne_none exc)), hnot, Bool.false_and,
    if_neg Bool.false_ne_true]

/-- One item: the run goes on with the calls of the item, or it is over. -/
theorem onItem_reports (h : tr.Plays rt s) (hp : s.parses rt = true)
    (last : Option (Dict String Value)) (item : StreamItem) :
    let step := onItem rt assistantId tr last item
    let s' := item.calls.foldl Script.step s
    (∃ tr' last', step.phase = .streaming tr' last' ∧ tr'.Plays rt s' ∧ s'.parses rt = true ∧
        terminals step.events = 0) ∨
      (step.phase = .done ∧ terminals step.events =
        if (s'.parses rt && s'.openParses rt) = true then 1 else 0) := by
  cases item with
  | values chunk => exact .inl ⟨tr, some chunk, rfl, h, hp, rfl⟩
  | other => exact .inl ⟨tr, last, rfl, h, hp, rfl⟩
  | malformed exc =>
      refine .inr ⟨rfl, ?_⟩
      show terminals (onException rt assistantId tr exc).events =
        if (s.parses rt && s.openParses rt) = true then 1 else 0
      rw [terminals_onException, hp, Bool.true_and]
      simp only [h.finish_none hp]
  | messages chunk =>
      obtain ⟨hfeed, hplays, -⟩ := h.run hp (.feed chunk)
      have hcalls : (StreamItem.messages chunk).calls = .feed chunk ::
        if chunk.usageMetadata.entries.isEmpty then [] else [.finish (some chunk)] := rfl
      simp only [onItem]
      rw [hcalls, List.foldl_cons]
      unfold orFail
      rw [terminals_after]
      cases hr : (tr.feed rt chunk).raised with
      | some exc =>
          exact .inr ⟨rfl, terminals_failed h hp (.feed chunk) hr _⟩
      | none =>
          have hp₁ := hfeed.mp hr
          have h₁ := hplays hr
          dsimp only
          split
          · exact .inl ⟨_, last, rfl, h₁, hp₁, rfl⟩
          · obtain ⟨hfin, hplays', -⟩ := h₁.run hp₁ (.finish (some chunk))
            rw [terminals_after]
            cases hr' : ((tr.feed rt chunk).state.finish rt (some chunk)).raised with
            | none => exact .inl ⟨_, last, rfl, hplays' hr', hfin.mp hr', rfl⟩
            | some exc =>
                exact .inr ⟨rfl, terminals_failed h₁ hp₁ (.finish (some chunk)) hr' []⟩

end Steps

/-! ## The terminal events of a run -/

section Tasks

variable {rt : Runtime} {task : Task} {awaited : Awaited} {s : TaskStep}

/-- The turns of the items a run has heard. -/
def Task.turns (task : Task) : Script := script (callsOf (itemsOf task.fed))

/-- The terminal events published so far, by the await the task is suspended at. -/
def Task.Reported (rt : Runtime) (task : Task) : Prop :=
  match task.phase with
  | .created => terminals task.events = 0
  | .streaming tr _ | .snapshot tr =>
    terminals task.events = 0 ∧ tr.Plays rt task.turns ∧ task.turns.parses rt = true
  | .done => task.fed = [] ∨ terminals task.events =
      if (task.turns.parses rt && ((ending task.graph none task.fed).any (Ending.asks rt) ||
        task.turns.openParses rt)) = true then 1 else 0

theorem turns_advance_item (task : Task) (item : StreamItem) (s : TaskStep) :
    (task.advance (.item item) s).turns = item.calls.foldl Script.step task.turns := by
  show script (callsOf (itemsOf (task.fed ++ [.item item]))) = _
  rw [itemsOf_append]
  show script (callsOf (itemsOf task.fed ++ [item])) = _
  unfold callsOf script
  rw [List.flatMap_append, List.flatMap_singleton, List.foldl_append]
  rfl

theorem turns_advance (h : itemsOf [awaited] = []) (s : TaskStep) :
    (task.advance awaited s).turns = task.turns := by
  show script (callsOf (itemsOf (task.fed ++ [awaited]))) = _
  rw [itemsOf_append, h, List.append_nil]
  rfl

namespace Task.Reported

variable {tr : MessagesTranslator} {last : Option (Dict String Value)}

/-- The run is over. -/
theorem ended {e : Option Ending} (hdone : s.phase = .done) (hzero : terminals task.events = 0)
    (hend : ending task.graph none (task.fed ++ [awaited]) = e)
    (hs : terminals s.events = if ((task.advance awaited s).turns.parses rt &&
      (e.any (Ending.asks rt) || (task.advance awaited s).turns.openParses rt)) = true
        then 1 else 0) :
    (task.advance awaited s).Reported rt := by
  have hphase : (task.advance awaited s).phase = .done := hdone
  unfold Reported
  rw [hphase]
  refine .inr ?_
  show terminals (task.events ++ s.events) = if (_ &&
    ((ending task.graph none (task.fed ++ [awaited])).any _ || _)) = true then 1 else 0
  rw [terminals_append, hzero, Nat.zero_add, hend]
  exact hs

/-- A handler ends the run. -/
theorem handled {e : Option Ending} (hitem : itemsOf [awaited] = [])
    (hzero : terminals task.events = 0) (hplays : tr.Plays rt task.turns)
    (hp : task.turns.parses rt = true)
    (hend : ending task.graph none (task.fed ++ [awaited]) = e)
    (hasks : e.any (Ending.asks rt) = false) (hdone : s.phase = .done)
    (hs : terminals s.events = if (tr.finish rt none).raised = none then 1 else 0) :
    (task.advance awaited s).Reported rt := by
  apply ended hdone hzero hend
  rw [turns_advance hitem, hs, hp, hasks, Bool.true_and, Bool.false_or]
  simp only [hplays.finish_none hp]

/-- The run decides on a snapshot. -/
theorem settled {values : Dict String Value} (hitem : itemsOf [awaited] = [])
    (hzero : terminals task.events = 0) (hplays : tr.Plays rt task.turns)
    (hp : task.turns.parses rt = true)
    (hend : ending task.graph none (task.fed ++ [awaited]) = some (.decided values)) :
    (task.advance awaited (settle rt task.assistantId tr values)).Reported rt := by
  apply ended (settle_phase _ _ _ _) hzero hend
  rw [turns_advance hitem, hp, Bool.true_and, Option.any_some]
  exact terminals_settle hplays hp values

/-- One item of the stream. -/
theorem item {item : StreamItem} (hzero : terminals task.events = 0)
    (hplays : tr.Plays rt task.turns) (hp : task.turns.parses rt = true)
    (hend : ∀ rest, ending task.graph none (task.fed ++ rest) = ending task.graph last rest) :
    (task.advance (.item item) (onItem rt task.assistantId tr last item)).Reported rt := by
  have hturns := turns_advance_item task item (onItem rt task.assistantId tr last item)
  rcases onItem_reports hplays hp last item with
    ⟨tr', last', hphase, hplays', hp', hstep⟩ | ⟨hdone, hstep⟩
  · have hphase' : (task.advance (.item item) (onItem rt task.assistantId tr last item)).phase =
        .streaming tr' last' := hphase
    unfold Reported
    rw [hphase', hturns]
    refine ⟨?_, hplays', hp'⟩
    show terminals (task.events ++ _) = 0
    rw [terminals_append, hzero, hstep]
  · apply ended hdone hzero (hend _)
    have hasks : (ending task.graph last [.item item]).any (Ending.asks rt) = false := by
      cases item <;> rfl
    rw [hturns, hasks, Bool.false_or]
    exact hstep

/-- Any later step. -/
theorem resume (h : task.Reported rt) (hspoken : task.Spoken rt)
    (hs : AgentProtocol.resume rt task.assistantId task.graph task.phase awaited = some s) :
    (task.advance awaited s).Reported rt := by
  unfold Reported at h
  unfold Spoken at hspoken
  cases hphase : task.phase with
  | created =>
      rw [hphase] at hs
      cases awaited <;> cases hs
  | done =>
      rw [hphase] at hs
      cases awaited <;> cases hs
  | streaming tr last =>
      simp only [hphase] at h hspoken hs
      obtain ⟨hzero, hplays, hp⟩ := h
      obtain ⟨-, -, -, hend⟩ := hspoken
      cases awaited with
      | item item =>
          obtain rfl := Option.some.inj hs
          exact .item hzero hplays hp hend
      | snapshot values => cases hs
      | raised exc =>
          obtain rfl := Option.some.inj hs
          exact .handled rfl hzero hplays hp (hend _) rfl rfl (terminals_onException exc)
      | cancelled =>
          obtain rfl := Option.some.inj hs
          exact .handled rfl hzero hplays hp (hend _) rfl rfl terminals_onCancelled
      | stop =>
          obtain rfl := Option.some.inj hs
          cases last with
          | some values => exact .settled rfl hzero hplays hp (hend _)
          | none =>
              unfold onStop
              dsimp only
              by_cases hg : task.graph.hasGetState = true
              · -- the run goes on with the snapshot
                rw [if_pos hg]
                refine ⟨?_, ?_, ?_⟩
                · show terminals (task.events ++ []) = 0
                  rw [List.append_nil]
                  exact hzero
                · rw [turns_advance rfl]
                  exact hplays
                · rw [turns_advance rfl]
                  exact hp
              · rw [if_neg hg]
                refine .settled rfl hzero hplays hp ((hend _).trans ?_)
                simp [ending, hg]
  | snapshot tr =>
      simp only [hphase] at h hspoken hs
      obtain ⟨hzero, hplays, hp⟩ := h
      obtain ⟨-, -, -, hg, hend⟩ := hspoken
      cases awaited with
      | item item => cases hs
      | stop => cases hs
      | snapshot values =>
          obtain rfl := Option.some.inj hs
          exact .settled rfl hzero hplays hp ((hend _).trans (by simp [ending, hg]))
      | raised exc =>
          obtain rfl := Option.some.inj hs
          exact .settled rfl hzero hplays hp ((hend _).trans (by simp [ending, hg]))
      | cancelled =>
          obtain rfl := Option.some.inj hs
          refine .handled (e := some .cancelled) rfl hzero hplays hp ((hend _).trans ?_) rfl rfl
            terminals_onCancelled
          simp [ending, hg]

end Task.Reported

end Tasks

namespace World

variable {rt : Runtime} {n : Nat} {w : World}

/-- Every task has reported its end, or what it has to finish does not parse. -/
theorem reported_of_reachable (h : (runSys rt n).Reachable w) {r : String} {task : Task}
    (hg : w.tasks.get? r = some task) : task.Reported rt := by
  refine (tasks_induct (P := fun task => task.Spoken rt ∧ task.Reported rt) h
    ?_ ?_ ?_ ?_ ?_ ?_ r task hg).2
  · intro w runId s graph config task hg
    rw [World.launch, Dict.get?_set_self, Option.some.injEq] at hg
    rw [← hg]
    exact ⟨⟨rfl, rfl⟩, rfl⟩
  · exact fun _ hinv => hinv
  · intro w id task _ _ hinv hphase _
    obtain ⟨hspoken, -⟩ := hinv
    unfold Task.Spoken at hspoken ⊢
    simp only [hphase] at hspoken ⊢
    exact ⟨.inl hspoken, .inl hspoken.2⟩
  · intro task hinv hphase
    obtain ⟨hspoken, -⟩ := hinv
    unfold Task.Spoken at hspoken
    simp only [hphase] at hspoken
    obtain ⟨hev, hfed⟩ := hspoken
    unfold Task.Spoken Task.Reported Task.turns Task.begun
    simp only [hev, hfed]
    exact ⟨⟨rfl, MessagesTranslator.refines_new, rfl, fun _ => rfl⟩,
      rfl, MessagesTranslator.Plays.new, rfl⟩
  · intro w id task awaited s _ _ hinv hs
    exact ⟨hinv.1.resume hs, hinv.2.resume hinv.1 hs⟩
  · exact fun _ hinv => hinv

end World

end AgentProtocol

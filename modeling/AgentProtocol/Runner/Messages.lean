import AgentProtocol.Runner.Trace
import AgentProtocol.Translation.Reading

/-!
# The message frames of a run

`Sequencer.item` is what the loop of a run makes of one item of its stream. The
frames a run has published are those of a sequencer over its items
(`Task.Spoken`), and once it is done the end of the last turn after them, unless it
ended in a request for input: then nothing closes the message that was open.
-/

namespace AgentProtocol

/-- The message frames among these events. -/
def messageFrames (es : List EventData) : List Frame :=
  es.filterMap fun e =>
    match e with
    | .message frame => some frame
    | _ => none

/-- The run decided on a snapshot that held interrupts. -/
def Ending.asks (rt : Runtime) : Ending → Bool
  | .decided values =>
    match interruptsFromSnapshot rt values with
    | .error _ => false
    | .ok interrupts => !interrupts.isEmpty
  | _ => false

/-- One item of the stream; an item that does not unpack ends it. -/
def Sequencer.item (rt : Runtime) (q : Sequencer) : StreamItem → Emission Sequencer
  | .messages chunk =>
    (q.feed rt chunk).andThen fun q =>
      if chunk.usageMetadata.entries.isEmpty then { state := q, frames := [], raised := none }
      else q.finish rt (some chunk)
  | .malformed exc => { state := q, frames := [], raised := some exc }
  | _ => { state := q, frames := [], raised := none }

/-- These frames are the end of the last turn; none of them finishes its message if a
block of it does not parse. -/
def Sequencer.Ends (rt : Runtime) (q : Sequencer) (frames : List Frame) : Prop :=
  ((q.close rt ∅).raised = none → frames = (q.close rt ∅).frames) ∧
    ((q.close rt ∅).raised ≠ none → ∀ f ∈ frames, f.isContent = true ∧ f.delta = none)

section Frames

theorem messageFrames_append (xs ys : List EventData) :
    messageFrames (xs ++ ys) = messageFrames xs ++ messageFrames ys :=
  List.filterMap_append

theorem messageFrames_frameEvents (frames : List Frame) :
    messageFrames (frameEvents frames) = frames := by
  rw [messageFrames, frameEvents, List.filterMap_map]
  exact List.filterMap_some

theorem messageFrames_requests (interrupts : List (String × Value)) :
    messageFrames (interrupts.map fun p => .inputRequested p.1 p.2) = [] := by
  refine List.filterMap_eq_nil_iff.mpr fun e he => ?_
  obtain ⟨p, -, rfl⟩ := List.mem_map.mp he
  rfl

end Frames

namespace Sequencer

variable {rt : Runtime} {q : Sequencer}

/-- A turn that cannot be ended sinks finished blocks only, again and again. -/
theorem close_raised_frames {usage : Dict String Json} (h : (q.close rt usage).raised ≠ none) :
    (∀ f ∈ (q.close rt usage).frames, f.isContent = true ∧ f.delta = none) ∧
      ((q.close rt usage).state.close rt ∅).raised ≠ none := by
  obtain ⟨current, seen⟩ := q
  cases current with
  | none => exact absurd rfl h
  | some p =>
      obtain ⟨id, e⟩ := p
      obtain ⟨blocks, hblocks, hclose⟩ := e.close_frames rt usage
      simp only [close] at h ⊢
      rcases hclose with ⟨hr, -⟩ | ⟨hr, hframes⟩
      · simp only [hr] at h
        exact absurd rfl h
      · obtain ⟨exc, hexc⟩ := Option.ne_none_iff_exists'.mp hr
        simp only [hexc, hframes]
        refine ⟨hblocks, ?_⟩
        -- the blocks are those that did not parse
        have hparses : ((e.close rt usage).state.close rt ∅).raised ≠ none := by
          rw [Ne, MessageFrameEmitter.close_raised_iff, MessageFrameEmitter.close_parses,
            ← MessageFrameEmitter.close_raised_iff rt usage]
          exact hr
        obtain ⟨exc', hexc'⟩ := Option.ne_none_iff_exists'.mp hparses
        simp only [hexc']
        exact Option.some_ne_none exc'

/-- The `finish` of a handler. -/
theorem ends_of_refines {tr : MessagesTranslator} (h : tr.Refines q) :
    q.Ends rt (tr.finish rt none).frames := by
  have hfin : (tr.finish rt none).frames = (q.close rt ∅).frames := (h.finish rt none).frames
  rw [hfin]
  exact ⟨fun _ => rfl, fun hr => (close_raised_frames hr).1⟩

end Sequencer

/-! ## The frames of a step -/

section Steps

variable {rt : Runtime} {assistantId : String} {tr : MessagesTranslator} {q : Sequencer}

theorem onException_frames (exc : PyExc) :
    messageFrames (onException rt assistantId tr exc).events = (tr.finish rt none).frames := by
  unfold onException handle
  dsimp only
  rw [messageFrames_append, messageFrames_frameEvents]
  split <;> exact List.append_nil _

theorem onCancelled_frames :
    messageFrames (onCancelled rt assistantId tr).events = (tr.finish rt none).frames := by
  unfold onCancelled handle
  dsimp only
  rw [messageFrames_append, messageFrames_frameEvents]
  split <;> exact List.append_nil _

theorem after_frames (frames : List Frame) (s : TaskStep) :
    messageFrames (s.after (frameEvents frames)).events = frames ++ messageFrames s.events := by
  show messageFrames (frameEvents frames ++ s.events) = _
  rw [messageFrames_append, messageFrames_frameEvents]

/-- A run that requests input publishes nothing of its messages any more. -/
theorem settle_frames_of_asks {values : Dict String Value}
    (h : (Ending.decided values).asks rt = true) :
    messageFrames (settle rt assistantId tr values).events = [] := by
  unfold Ending.asks at h
  unfold settle
  cases hi : interruptsFromSnapshot rt values with
  | error exc =>
      simp only [hi] at h
      cases h
  | ok interrupts =>
      cases interrupts with
      | nil =>
          simp only [hi] at h
          cases h
      | cons p interrupts => exact messageFrames_requests (p :: interrupts)

/-- Any other decision ends the last turn. -/
theorem settle_frames_of_not_asks (h : tr.Refines q) {values : Dict String Value}
    (hasks : (Ending.decided values).asks rt = false) :
    q.Ends rt (messageFrames (settle rt assistantId tr values).events) := by
  unfold Ending.asks at hasks
  unfold settle
  cases hi : interruptsFromSnapshot rt values with
  | error exc =>
      dsimp only
      rw [onException_frames]
      exact Sequencer.ends_of_refines h
  | ok interrupts =>
      cases interrupts with
      | cons p interrupts =>
          simp only [hi] at hasks
          cases hasks
      | nil =>
          have hfin : (tr.finish rt none).Refines (q.close rt ∅) := h.finish rt none
          dsimp only
          unfold orFail
          rw [after_frames, hfin.frames]
          cases hr : (tr.finish rt none).raised with
          | none =>
              refine ⟨fun _ => List.append_nil _, fun hne => ?_⟩
              exact absurd (hfin.raised ▸ hr) hne
          | some exc =>
              have hne : (q.close rt ∅).raised ≠ none := by
                rw [← hfin.raised, hr]
                exact Option.some_ne_none exc
              obtain ⟨hfirst, hagain⟩ := Sequencer.close_raised_frames hne
              refine ⟨fun hnone => absurd hnone hne, fun _ f hf => ?_⟩
              dsimp only at hf
              rw [onException_frames] at hf
              rcases List.mem_append.mp hf with hf | hf
              · exact hfirst f hf
              · exact (Sequencer.ends_of_refines hfin.state).2 hagain f hf

/-- One item of the stream leads to the next await, or to the end of the run. -/
theorem onItem_frames (rt : Runtime) (assistantId : String) (h : tr.Refines q)
    (last : Option (Dict String Value)) (item : StreamItem) :
    let s := onItem rt assistantId tr last item
    match (q.item rt item).raised with
    | none => ∃ tr' last', s.phase = .streaming tr' last' ∧ tr'.Refines (q.item rt item).state ∧
        messageFrames s.events = (q.item rt item).frames ∧
        ∀ graph rest, ending graph last (.item item :: rest) = ending graph last' rest
    | some _ => s.phase = .done ∧ ∃ tail, messageFrames s.events = (q.item rt item).frames ++ tail ∧
        (q.item rt item).state.Ends rt tail := by
  cases item with
  | values chunk => exact ⟨tr, some chunk, rfl, h, rfl, fun _ _ => rfl⟩
  | other => exact ⟨tr, last, rfl, h, rfl, fun _ _ => rfl⟩
  | malformed exc => exact ⟨rfl, _, onException_frames exc, Sequencer.ends_of_refines h⟩
  | messages chunk =>
      have hfeed := h.feed rt chunk
      simp only [onItem, Sequencer.item]
      unfold orFail
      cases hr : (tr.feed rt chunk).raised with
      | some exc =>
          rw [Emission.andThen_raised (hfeed.raised ▸ hr), ← hfeed.raised, hr]
          refine ⟨rfl, _, ?_, Sequencer.ends_of_refines hfeed.state⟩
          rw [after_frames, onException_frames, hfeed.frames]
      | none =>
          rw [Emission.andThen_returned (hfeed.raised ▸ hr)]
          by_cases husage : chunk.usageMetadata.entries.isEmpty = true
          · simp only [if_pos husage]
            refine ⟨_, last, rfl, hfeed.state, ?_, fun _ _ => rfl⟩
            rw [after_frames, hfeed.frames]
            rfl
          · simp only [if_neg husage]
            have hfin := hfeed.state.finish rt (some chunk)
            rw [← hfin.raised]
            cases hr' : ((tr.feed rt chunk).state.finish rt (some chunk)).raised with
            | none =>
                refine ⟨_, last, rfl, hfin.state, ?_, fun _ _ => rfl⟩
                rw [after_frames, after_frames, hfeed.frames, hfin.frames]
                exact congrArg _ (List.append_nil _)
            | some exc =>
                refine ⟨rfl, _, ?_, Sequencer.ends_of_refines hfin.state⟩
                rw [after_frames, after_frames, onException_frames, hfeed.frames, hfin.frames,
                  List.append_assoc]

end Steps

/-! ## The frames of a task -/

/-- The items a run has heard. -/
def itemsOf (fed : List Awaited) : List StreamItem :=
  fed.filterMap fun awaited =>
    match awaited with
    | .item item => some item
    | _ => none

/-- A sequencer over these items. -/
def sequence (rt : Runtime) (items : List StreamItem) : Emission Sequencer :=
  Emission.fold (Sequencer.item rt) items .new

/-- The frames published so far, by the await the task is suspended at. -/
def Task.Spoken (rt : Runtime) (task : Task) : Prop :=
  let r := sequence rt (itemsOf task.fed)
  match task.phase with
  | .created => task.events = [] ∧ task.fed = []
  | .streaming tr last => r.raised = none ∧ tr.Refines r.state ∧
      messageFrames task.events = r.frames ∧
      ∀ rest, ending task.graph none (task.fed ++ rest) = ending task.graph last rest
  | .snapshot tr => r.raised = none ∧ tr.Refines r.state ∧
      messageFrames task.events = r.frames ∧ task.graph.hasGetState = true ∧
      ∀ rest, ending task.graph none (task.fed ++ rest) = ending task.graph none (.stop :: rest)
  | .done => (task.events = [] ∧ task.fed = []) ∨ ∃ tail,
      messageFrames task.events = r.frames ++ tail ∧
      if (ending task.graph none task.fed).any (Ending.asks rt) then r.raised = none ∧ tail = []
      else r.state.Ends rt tail

theorem Sequencer.item_readFrom {rt : Runtime} (q : Sequencer) (item : StreamItem) :
    (q.item rt item).ReadFrom q := by
  cases item with
  | messages chunk =>
      unfold item
      refine (q.feed_readFrom rt chunk).andThen fun q => ?_
      split
      · exact .silent none
      · exact q.finish_readFrom (some chunk)
  | _ => exact .silent _

theorem sequence_readFrom (rt : Runtime) (items : List StreamItem) :
    (sequence rt items).ReadFrom .new :=
  .fold (fun q item => q.item_readFrom item) items .new

/-- No message is started twice. -/
theorem sequence_startIds_nodup (rt : Runtime) (items : List StreamItem) :
    (startIds (sequence rt items).frames).Nodup := by
  have h := sequence_readFrom rt items
  have hnodup := h.nodup List.nodup_nil
  rw [h.seen, show Sequencer.new.seen = [] from rfl, List.append_nil] at hnodup
  exact List.nodup_reverse.mp hnodup

/-- What a sequencer that gets these items sinks up to the end of the run. -/
def Sequencer.Sinks (rt : Runtime) (asks : Bool) (q : Sequencer) (items : List StreamItem)
    (frames : List Frame) : Prop :=
  let r := Emission.fold (Sequencer.item rt) items q
  ∃ tail, frames = r.frames ++ tail ∧
    if asks then r.raised = none ∧ tail = [] else r.state.Ends rt tail

namespace Sequencer.Sinks

variable {rt : Runtime} {asks : Bool} {q : Sequencer} {item : StreamItem}
  {items : List StreamItem} {frames : List Frame}

theorem nil (h : q.Sinks rt asks [] frames) : if asks then frames = [] else q.Ends rt frames := by
  obtain ⟨tail, rfl, htail⟩ := h
  cases asks with
  | true => exact htail.2
  | false => exact htail

/-- The item is taken, and the run goes on. -/
theorem returned (h : q.Sinks rt asks (item :: items) frames)
    (hr : (q.item rt item).raised = none) :
    ∃ rest, frames = (q.item rt item).frames ++ rest ∧
      (q.item rt item).state.Sinks rt asks items rest := by
  obtain ⟨tail, rfl, htail⟩ := h
  have hfold : Emission.fold (Sequencer.item rt) (item :: items) q =
      (q.item rt item).andThen (Emission.fold (Sequencer.item rt) items) := rfl
  rw [Emission.andThen_returned hr] at hfold
  rw [hfold] at htail ⊢
  exact ⟨_, List.append_assoc _ _ _, tail, rfl, htail⟩

/-- The item ends the run. -/
theorem raised {exc : PyExc} (h : q.Sinks rt asks (item :: items) frames)
    (hr : (q.item rt item).raised = some exc) :
    asks = false ∧
      ∃ tail, frames = (q.item rt item).frames ++ tail ∧ (q.item rt item).state.Ends rt tail := by
  obtain ⟨tail, rfl, htail⟩ := h
  have hfold : Emission.fold (Sequencer.item rt) (item :: items) q =
      (q.item rt item).andThen (Emission.fold (Sequencer.item rt) items) := rfl
  rw [Emission.andThen_raised hr] at hfold
  rw [hfold] at htail ⊢
  cases asks with
  | true =>
      rw [if_pos rfl, hr] at htail
      cases htail.1
  | false => exact ⟨rfl, tail, rfl, htail⟩

end Sequencer.Sinks

section Tasks

variable {rt : Runtime} {task : Task} {awaited : Awaited} {s : TaskStep}

theorem itemsOf_append (xs ys : List Awaited) : itemsOf (xs ++ ys) = itemsOf xs ++ itemsOf ys :=
  List.filterMap_append

theorem sequence_concat (items : List StreamItem) (item : StreamItem) :
    sequence rt (items ++ [item]) = (sequence rt items).andThen fun q => q.item rt item := by
  unfold sequence
  rw [Emission.fold_append]
  exact congrArg _ (funext fun q => Emission.fold_singleton _ item q)

/-- A stretch of another await has heard no item. -/
theorem sequence_advance (h : itemsOf [awaited] = []) :
    sequence rt (itemsOf (task.fed ++ [awaited])) = sequence rt (itemsOf task.fed) := by
  rw [itemsOf_append, h, List.append_nil]

namespace Task.Spoken

variable {q : Sequencer} {tr : MessagesTranslator} {last : Option (Dict String Value)}

/-- A handler ends the run. -/
theorem handled (hitem : itemsOf [awaited] = [])
    (hq : (sequence rt (itemsOf task.fed)).state = q)
    (hfr : messageFrames task.events = (sequence rt (itemsOf task.fed)).frames)
    (hend : (ending task.graph none (task.fed ++ [awaited])).any (Ending.asks rt) = false)
    (hphase : s.phase = .done) (hs : q.Ends rt (messageFrames s.events)) :
    (task.advance awaited s).Spoken rt := by
  unfold Spoken Task.advance
  simp only [hphase, hend, Bool.false_eq_true, if_false]
  rw [sequence_advance hitem, hq]
  refine .inr ⟨messageFrames s.events, ?_, hs⟩
  rw [messageFrames_append, hfr]

/-- The run decides on a snapshot. -/
theorem settled {values : Dict String Value} (hitem : itemsOf [awaited] = [])
    (hr : (sequence rt (itemsOf task.fed)).raised = none)
    (href : tr.Refines (sequence rt (itemsOf task.fed)).state)
    (hfr : messageFrames task.events = (sequence rt (itemsOf task.fed)).frames)
    (hend : ending task.graph none (task.fed ++ [awaited]) = some (.decided values)) :
    (task.advance awaited (settle rt task.assistantId tr values)).Spoken rt := by
  cases hasks : (Ending.decided values).asks rt with
  | false =>
      refine handled hitem rfl hfr ?_ ?_ (settle_frames_of_not_asks href hasks)
      · rw [hend]
        exact hasks
      · exact settle_phase _ _ _ _
  | true =>
      unfold Spoken Task.advance
      simp only [settle_phase, hend, Option.any_some, hasks, if_true]
      rw [sequence_advance hitem]
      refine .inr ⟨[], ?_, hr, rfl⟩
      rw [messageFrames_append, hfr, settle_frames_of_asks hasks]

/-- One item of the stream. -/
theorem item {item : StreamItem} (hr : (sequence rt (itemsOf task.fed)).raised = none)
    (href : tr.Refines (sequence rt (itemsOf task.fed)).state)
    (hfr : messageFrames task.events = (sequence rt (itemsOf task.fed)).frames)
    (hend : ∀ rest, ending task.graph none (task.fed ++ rest) = ending task.graph last rest) :
    (task.advance (.item item) (onItem rt task.assistantId tr last item)).Spoken rt := by
  have hseq : sequence rt (itemsOf (task.fed ++ [.item item])) =
      (sequence rt (itemsOf task.fed)).andThen fun q => q.item rt item := by
    rw [itemsOf_append]
    exact sequence_concat _ item
  rw [Emission.andThen_returned hr] at hseq
  have hstep := onItem_frames rt task.assistantId href last item
  dsimp only at hstep
  unfold Spoken Task.advance
  cases hraised : ((sequence rt (itemsOf task.fed)).state.item rt item).raised with
  | none =>
      rw [hraised] at hstep
      obtain ⟨tr', last', hphase, href', hframes, hending⟩ := hstep
      simp only [hphase, hseq]
      refine ⟨hraised, href', ?_, ?_⟩
      · rw [messageFrames_append, hfr, hframes]
      · intro rest
        rw [List.append_assoc, hend]
        exact hending _ rest
  | some exc =>
      rw [hraised] at hstep
      obtain ⟨hphase, tail, htail, hends⟩ := hstep
      have hasks : (ending task.graph none (task.fed ++ [.item item])).any (Ending.asks rt) =
          false := by
        rw [hend]
        cases item <;> rfl
      simp only [hphase, hasks, hseq, Bool.false_eq_true, if_false]
      refine .inr ⟨tail, ?_, hends⟩
      rw [messageFrames_append, hfr, htail, List.append_assoc]

/-- Any later step. -/
theorem resume (h : task.Spoken rt)
    (hs : AgentProtocol.resume rt task.assistantId task.graph task.phase awaited = some s) :
    (task.advance awaited s).Spoken rt := by
  unfold Spoken at h
  cases hphase : task.phase with
  | created =>
      rw [hphase] at hs
      cases awaited <;> cases hs
  | done =>
      rw [hphase] at hs
      cases awaited <;> cases hs
  | streaming tr last =>
      simp only [hphase] at h hs
      obtain ⟨hr, href, hfr, hend⟩ := h
      cases awaited with
      | item item =>
          obtain rfl := Option.some.inj hs
          exact .item hr href hfr hend
      | snapshot values => cases hs
      | raised exc =>
          obtain rfl := Option.some.inj hs
          refine .handled rfl rfl hfr (by rw [hend]; rfl) rfl ?_
          rw [onException_frames]
          exact Sequencer.ends_of_refines href
      | cancelled =>
          obtain rfl := Option.some.inj hs
          refine .handled rfl rfl hfr (by rw [hend]; rfl) rfl ?_
          rw [onCancelled_frames]
          exact Sequencer.ends_of_refines href
      | stop =>
          obtain rfl := Option.some.inj hs
          cases last with
          | some values => exact .settled rfl hr href hfr (hend _)
          | none =>
              unfold onStop
              dsimp only
              by_cases hg : task.graph.hasGetState = true
              · rw [if_pos hg]
                unfold Spoken Task.advance
                dsimp only
                rw [sequence_advance rfl]
                refine ⟨hr, href, ?_, hg, fun rest => ?_⟩
                · rw [List.append_nil]
                  exact hfr
                · rw [List.append_assoc]
                  exact hend _
              · rw [if_neg hg]
                refine .settled rfl hr href hfr ((hend _).trans ?_)
                simp [ending, hg]
  | snapshot tr =>
      simp only [hphase] at h hs
      obtain ⟨hr, href, hfr, hg, hend⟩ := h
      cases awaited with
      | item item => cases hs
      | stop => cases hs
      | snapshot values =>
          obtain rfl := Option.some.inj hs
          exact .settled rfl hr href hfr ((hend _).trans (by simp [ending, hg]))
      | raised exc =>
          obtain rfl := Option.some.inj hs
          exact .settled rfl hr href hfr ((hend _).trans (by simp [ending, hg]))
      | cancelled =>
          obtain rfl := Option.some.inj hs
          refine .handled rfl rfl hfr (by rw [hend]; simp [ending, hg, Ending.asks]) rfl ?_
          rw [onCancelled_frames]
          exact Sequencer.ends_of_refines href

/-- What a run that is done has sunk. -/
theorem sinks (h : task.Spoken rt) (hdone : task.phase = .done) (hfed : task.fed ≠ []) :
    Sequencer.new.Sinks rt ((ending task.graph none task.fed).any (Ending.asks rt))
      (itemsOf task.fed) (messageFrames task.events) := by
  unfold Spoken at h
  simp only [hdone] at h
  rcases h with ⟨-, hnil⟩ | ⟨tail, hframes, htail⟩
  · exact absurd hnil hfed
  · exact ⟨tail, hframes, htail⟩

end Task.Spoken

end Tasks

namespace World

variable {rt : Runtime} {n : Nat} {w : World}

/-- Every task has published the frames of its items. -/
theorem spoken_of_reachable {ok : World → Act → Prop} (h : (runSys rt n).ReachableVia ok w)
    {r : String} {task : Task} (hg : w.tasks.get? r = some task) : task.Spoken rt := by
  refine tasks_induct (P := Task.Spoken rt) h ?_ ?_ ?_ ?_ ?_ ?_ r task hg
  · intro w runId s graph config task hg
    rw [World.launch, Dict.get?_set_self, Option.some.injEq] at hg
    rw [← hg]
    exact ⟨rfl, rfl⟩
  · exact fun _ hspoken => hspoken
  · intro w id task _ _ hspoken hphase _
    unfold Task.Spoken at hspoken ⊢
    simp only [hphase] at hspoken ⊢
    exact .inl hspoken
  · intro task hspoken hphase
    unfold Task.Spoken at hspoken
    simp only [hphase] at hspoken
    obtain ⟨hev, hfed⟩ := hspoken
    unfold Task.Spoken Task.begun
    simp only [hev, hfed]
    exact ⟨rfl, MessagesTranslator.refines_new, rfl, fun _ => rfl⟩
  · intro w id task awaited s _ _ hspoken hs
    exact hspoken.resume hs
  · exact fun _ hspoken => hspoken

end World

/-! ## Small runs -/

/-- A run that streams these items to their end. -/
def streamed (items : List StreamItem) : List Act :=
  [.register "agent", .start "t" (.str "agent") .null none .null "1",
    .resolved "1" (.graph ⟨false⟩), .begin "1"] ++
    items.map (fun item => .resume "1" (.item item)) ++ [.resume "1" .stop]

def streamedEnd (items : List StreamItem) : World :=
  ((runSys .inert 500).run (.new 500) (streamed items)).getD (.new 500)

end AgentProtocol

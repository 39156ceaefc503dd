import AgentProtocol.Runner.Messages
import AgentProtocol.Runner.Log

/-!
# Messages are closed before a run ends (`RunManager._execute`)

Three of the four exits of a run finish the message that is open; the one on a
snapshot that holds interrupts does not. `openAfter` reads off the stream which
message is open at its end, and `messages_closed_iff` says that a run has finished
what it started unless it asks for input while a message is open.
-/

namespace AgentProtocol

/-- What a chunk makes of the message that is open, and of the ids so far. The first
chunk of a message opens it, in place of the one before; a chunk with usage closes its
message. -/
def Chunk.moves (chunk : Chunk) (cur : Option String) (seen : List String) :
    Option String × List String :=
  let id := MessagesTranslator.messageId chunk
  let isNew : Bool := (role chunk).isSome && !seen.contains id
  let cur := if isNew then some id else cur
  let closes : Bool := !chunk.usageMetadata.entries.isEmpty && (strOr chunk.id none).isSome &&
    strOr chunk.id none == cur
  (if closes then none else cur, if isNew then id :: seen else seen)

/-- The message that is open after these items. -/
def openAfter : Option String → List String → List StreamItem → Option String
  | cur, _, [] => cur
  | cur, seen, .messages chunk :: items =>
    openAfter (chunk.moves cur seen).1 (chunk.moves cur seen).2 items
  | cur, _, .malformed _ :: _ => cur
  | cur, seen, _ :: items => openAfter cur seen items

/-- Each message that is started is finished once, before the terminal event. -/
def MessagesClosed (es : List EventData) : Prop :=
  ∃ pre terminal post, es = pre ++ terminal :: post ∧ terminal.isTerminal = true ∧
    (∀ e ∈ pre, e.isTerminal = false) ∧ messageFrames post = [] ∧
    framed none (messageFrames pre) = some none ∧ (startIds (messageFrames pre)).Nodup

section Turns

variable {rt : Runtime}

theorem feed_turn (h : rt.LoadsTotal) (q : Sequencer) (chunk : Chunk) :
    let isNew : Bool := (role chunk).isSome && !q.seen.contains (MessagesTranslator.messageId chunk)
    (q.feed rt chunk).raised = none ∧
      (q.feed rt chunk).state.turn =
        (if isNew then some (MessagesTranslator.messageId chunk) else q.turn) ∧
      (q.feed rt chunk).state.seen =
        if isNew then MessagesTranslator.messageId chunk :: q.seen else q.seen := by
  unfold Sequencer.feed
  cases hrole : role chunk with
  | none => exact ⟨rfl, rfl, rfl⟩
  | some role =>
      dsimp only
      by_cases hseen : MessagesTranslator.messageId chunk ∈ q.seen
      · simp only [if_pos hseen, List.contains_iff_mem.mpr hseen, Option.isSome_some,
          Bool.not_true, Bool.and_false, Bool.false_eq_true, if_false]
        obtain ⟨current, seen⟩ := q
        cases current with
        | none => exact ⟨rfl, rfl, rfl⟩
        | some p =>
            dsimp only
            split
            · next hid => exact ⟨rfl, congrArg some hid.symm, rfl⟩
            · exact ⟨rfl, rfl, rfl⟩
      · have hc : q.seen.contains (MessagesTranslator.messageId chunk) = false := by
          rw [← Bool.not_eq_true, List.contains_iff_mem]
          exact hseen
        rw [if_neg hseen]
        unfold Sequencer.begin
        dsimp only
        rw [q.close_of_loadsTotal h ∅, hc]
        exact ⟨rfl, rfl, rfl⟩

theorem finish_turn (h : rt.LoadsTotal) (q : Sequencer) (chunk : Chunk) :
    (q.finish rt (some chunk)).raised = none ∧
      (q.finish rt (some chunk)).state.turn =
        (if (strOr chunk.id none).isSome && strOr chunk.id none == q.turn then none else q.turn) ∧
      (q.finish rt (some chunk)).state.seen = q.seen := by
  unfold Sequencer.finish
  dsimp only
  cases hid : strOr chunk.id none with
  | none => exact ⟨rfl, rfl, rfl⟩
  | some id =>
      dsimp only
      obtain ⟨current, seen⟩ := q
      cases current with
      | none => exact ⟨rfl, rfl, rfl⟩
      | some p =>
          unfold Sequencer.isTurn Sequencer.turn
          dsimp only
          by_cases hp : p.1 = id
          · have hr := Sequencer.close_of_loadsTotal h ⟨some p, seen⟩ chunk.usageMetadata
            rw [if_pos (beq_iff_eq.mpr hp), Sequencer.close_returned _ hr]
            simp [hp, hr]
          · rw [if_neg (by simpa using hp)]
            simp [Ne.symm hp]

/-- One chunk, and the end of its message if it carries usage. -/
theorem item_turn (h : rt.LoadsTotal) (q : Sequencer) (chunk : Chunk) :
    (q.item rt (.messages chunk)).raised = none ∧
      ((q.item rt (.messages chunk)).state.turn, (q.item rt (.messages chunk)).state.seen) =
        chunk.moves q.turn q.seen := by
  obtain ⟨hr, hturn, hseen⟩ := feed_turn h q chunk
  obtain ⟨hr', hturn', hseen'⟩ := finish_turn h (q.feed rt chunk).state chunk
  unfold Sequencer.item Chunk.moves
  dsimp only
  rw [Emission.andThen_returned hr]
  cases husage : chunk.usageMetadata.entries.isEmpty with
  | true =>
      rw [if_pos rfl]
      show _ ∧ (Sequencer.turn _, Sequencer.seen _) = _
      rw [hturn, hseen]
      exact ⟨rfl, rfl⟩
  | false =>
      rw [if_neg Bool.false_ne_true]
      show Emission.raised _ = none ∧ (Sequencer.turn _, Sequencer.seen _) = _
      rw [hturn', hseen', hturn, hseen]
      exact ⟨hr', rfl⟩

/-- The turn after a stream. -/
theorem fold_item_turn (h : rt.LoadsTotal) (items : List StreamItem) (q : Sequencer) :
    (Emission.fold (Sequencer.item rt) items q).state.turn = openAfter q.turn q.seen items := by
  induction items generalizing q with
  | nil => rfl
  | cons item items ih =>
      show Sequencer.turn ((q.item rt item).andThen (Emission.fold (Sequencer.item rt) items)).state =
        _
      cases item with
      | messages chunk =>
          obtain ⟨hr, hmoves⟩ := item_turn h q chunk
          rw [Emission.andThen_returned hr, openAfter, ← hmoves]
          exact ih _
      | malformed exc => rfl
      | values chunk => exact ih q
      | other => exact ih q

end Turns

/-! ## The events of a run -/

/-- A terminal event is no message. -/
theorem messageFrames_around {pre post : List EventData} {terminal : EventData}
    (hterm : terminal.isTerminal = true) (hpost : messageFrames post = []) :
    messageFrames (pre ++ terminal :: post) = messageFrames pre := by
  have hone : messageFrames (terminal :: post) = messageFrames post := by
    cases terminal with
    | lifecycle => rfl
    | _ => cases hterm
  rw [messageFrames_append, hone, hpost, List.append_nil]

/-- Where the terminal event stands is known, the frames of the run decide. -/
theorem messagesClosed_iff {pre post : List EventData} {terminal : EventData}
    (hterm : terminal.isTerminal = true) (hpre : ∀ e ∈ pre, e.isTerminal = false)
    (hpost : messageFrames post = []) :
    MessagesClosed (pre ++ terminal :: post) ↔
      framed none (messageFrames (pre ++ terminal :: post)) = some none ∧
        (startIds (messageFrames (pre ++ terminal :: post))).Nodup := by
  constructor
  · rintro ⟨pre', terminal', post', heq, hterm', -, hpost', hframed, hnodup⟩
    rw [heq, messageFrames_around hterm' hpost']
    exact ⟨hframed, hnodup⟩
  · intro h
    rw [messageFrames_around hterm hpost] at h
    exact ⟨pre, terminal, post, rfl, hterm, hpre, hpost, h.1, h.2⟩

/-- A closing is a terminal event, and no message comes after it. -/
theorem closing_eq (rt : Runtime) (assistantId : String) (e : Ending) :
    ∃ terminal requests, closing rt assistantId e = terminal :: requests ∧
      terminal.isTerminal = true ∧ messageFrames requests = [] := by
  cases e with
  | failed exc => exact ⟨_, [], rfl, rfl, rfl⟩
  | cancelled => exact ⟨_, [], rfl, rfl, rfl⟩
  | decided values =>
      unfold closing
      dsimp only
      cases interruptsFromSnapshot rt values with
      | error exc => exact ⟨_, [], rfl, rfl, rfl⟩
      | ok interrupts =>
          cases interrupts with
          | nil => exact ⟨_, [], rfl, rfl, rfl⟩
          | cons p interrupts => exact ⟨_, _, rfl, rfl, messageFrames_requests (p :: interrupts)⟩

/-- Its frames decide for a run that is done. -/
theorem Task.Shape.messagesClosed_iff {rt : Runtime} {task : Task} (h : task.Shape rt)
    (hdone : task.phase = .done) (hfed : task.fed ≠ []) :
    MessagesClosed task.events ↔ framed none (messageFrames task.events) = some none ∧
      (startIds (messageFrames task.events)).Nodup := by
  unfold Task.Shape at h
  simp only [hdone] at h
  rcases h with ⟨-, hnil, -⟩ | ⟨body, e, -, hbody, hev⟩
  · exact absurd hnil hfed
  · obtain ⟨terminal, requests, hclosing, hterm, hreq⟩ := closing_eq rt task.assistantId e
    have hlayout : task.events = (startedEvent task.assistantId :: runningEvent task.assistantId ::
        body) ++ terminal :: requests := by
      rw [hev, hclosing]
      rfl
    rw [hlayout]
    refine AgentProtocol.messagesClosed_iff hterm ?_ hreq
    intro x hx
    rcases List.mem_cons.mp hx with rfl | hx
    · rfl
    · rcases List.mem_cons.mp hx with rfl | hx
      · rfl
      · exact EventData.isTerminal_of_isBody (hbody x hx)

/-- A run whose body executed has finished each message it started before its terminal
event, unless it asks for input while a message is open. -/
theorem messages_closed_iff (rt : Runtime) (hloads : rt.LoadsTotal) (n : Nat) (w : World)
    (h : (runSys rt n).Reachable w) (r : String) (task : Task) (hg : w.tasks.get? r = some task)
    (hdone : task.phase = .done) (hfed : task.fed ≠ []) :
    MessagesClosed (w.eventsOf task.threadId r) ↔
      ((ending task.graph none task.fed).any (Ending.asks rt) = true →
        openAfter none [] (itemsOf task.fed) = none) := by
  have hL : w.LogInv := World.logInv_of_reachable h
  have hshape : task.Shape rt :=
    World.shape_of_reachable h (fun w a _ => World.parsesAt_of_loadsTotal hloads w a) hg
  rw [hL.eventsOf_eq hg, hshape.messagesClosed_iff hdone hfed]
  have hspoken := World.spoken_of_reachable h hg
  unfold Task.Spoken at hspoken
  simp only [hdone] at hspoken
  rcases hspoken with ⟨-, hnil⟩ | ⟨tail, hframes, htail⟩
  · exact absurd hnil hfed
  · have hread := sequence_readFrom rt (itemsOf task.fed)
    have hturn : (sequence rt (itemsOf task.fed)).state.turn =
        openAfter none [] (itemsOf task.fed) := fold_item_turn hloads _ .new
    have hstarts := sequence_startIds_nodup rt (itemsOf task.fed)
    rw [hframes]
    split at htail
    · -- nothing closes the message that is open
      next hasks =>
      rw [htail.2, List.append_nil, show framed none _ = _ from hread.framed, hturn, hasks,
        Option.some.injEq]
      exact ⟨fun h _ => h.1, fun h => ⟨h rfl, hstarts⟩⟩
    · next hasks =>
      refine iff_of_true ?_ fun h => absurd h hasks
      have hclose := Sequencer.close_of_loadsTotal hloads (sequence rt (itemsOf task.fed)).state ∅
      have hread' : framed none (sequence rt (itemsOf task.fed)).frames =
        some (sequence rt (itemsOf task.fed)).state.turn := hread.framed
      obtain ⟨hframed, -, hnone⟩ :=
        (sequence rt (itemsOf task.fed)).state.close_spec rt ∅
      rw [htail.1 hclose, framed_append hread', hframed, startIds_append, hnone, List.append_nil,
        Sequencer.close_returned _ hclose]
      exact ⟨rfl, hstarts⟩

/-! ## A run that asks in the middle of a message -/

/-- The state of a graph that stopped at a question. -/
def question : Dict String Value :=
  .ofList [("__interrupt__", .list [.dict [(.str "id", .str "i"), (.str "value", .str "go?")]])]

def brokenOff : List StreamItem := [.messages (textChunk "a" "Let me ask"), .values question]

theorem message_left_open :
    ¬∀ w, (runSys .inert 500).Reachable w → ∀ r task, w.tasks.get? r = some task →
      task.phase = .done → task.fed ≠ [] → MessagesClosed (w.eventsOf task.threadId r) := by
  intro hall
  have hrun : (runSys .inert 500).run (.new 500) (streamed brokenOff) =
    some (streamedEnd brokenOff) := rfl
  have hreach := TSys.reachable_of_run (M := runSys .inert 500) rfl hrun
  obtain ⟨pre, terminal, post, heq, hterm, -, hpost, hframed, -⟩ :=
    hall (streamedEnd brokenOff) hreach "1" _ rfl rfl (List.cons_ne_nil _ _)
  rw [← messageFrames_around hterm hpost, ← heq] at hframed
  exact absurd hframed (by decide)

/-- A message that is over when the run ends. -/
theorem messages_closed_streamed :
    MessagesClosed ((streamedEnd [.messages (textChunk "a" "Done.")]).eventsOf "t" "1") := by
  have hrun : (runSys .inert 500).run (.new 500) (streamed [.messages (textChunk "a" "Done.")]) =
    some (streamedEnd [.messages (textChunk "a" "Done.")]) := rfl
  have hreach := TSys.reachable_of_run (M := runSys .inert 500) rfl hrun
  have hloads : Runtime.inert.LoadsTotal := fun _ _ h => by cases h
  exact (messages_closed_iff .inert hloads 500 _ hreach "1" _ rfl rfl
    (List.cons_ne_nil _ _)).mpr fun hasks => by cases hasks

end AgentProtocol

import AgentProtocol.Theorems.Interleaving
import AgentProtocol.Theorems.TerminalEvent
import AgentProtocol.Theorems.Usage

/-!
# The messages a client puts together

What a graph streams reaches a client through the translator of the run, the hub of the
thread with its ring and its queues, and the responses the client opens one after the other.
A client that has read the terminal event of a run, and lost nothing on the way, reads frames
in their order, each message begun once, and of each message the fragments that were fed to
it, in order (`client_assembles`). It has all of them exactly when each came in the turn of its
message (`heard`).
-/

namespace AgentProtocol

/-! ## What a run makes of its stream -/

/-- Each fragment among these items comes in a chunk that the sequencer takes, and none
after a chunk that ends the run. -/
def heard (rt : Runtime) : Sequencer → List StreamItem → Bool
  | _, [] => true
  | q, .messages chunk :: items =>
    (q.takes rt chunk || chunk.silent rt) &&
      match (q.item rt (.messages chunk)).raised with
      | none => heard rt (q.item rt (.messages chunk)).state items
      | some _ => (chunksOf items).all (Chunk.silent rt)
  | _, .malformed _ :: _ => true
  | q, _ :: items => heard rt q items

section Items

variable {rt : Runtime} {q : Sequencer}

/-- The share of one item in what is read back. -/
theorem owned_items_cons (item : StreamItem) (items : List StreamItem) (q : Sequencer) :
    owned q.turn (Emission.fold (Sequencer.item rt) (item :: items) q).frames =
      owned q.turn (q.item rt item).frames ++
      match (q.item rt item).raised with
      | some _ => []
      | none =>
        owned (q.item rt item).state.turn
          (Emission.fold (Sequencer.item rt) items (q.item rt item).state).frames := by
  show owned q.turn ((q.item rt item).andThen _).frames = _
  cases hr : (q.item rt item).raised with
  | some exc => rw [Emission.andThen_raised hr, List.append_nil]
  | none =>
      rw [Emission.andThen_returned hr]
      exact owned_append (q.item_readFrom item).framed

/-- A chunk that closes its message carries what it would carry without. -/
theorem owned_item (q : Sequencer) (chunk : Chunk) :
    owned q.turn (q.item rt (.messages chunk)).frames =
      if q.takes rt chunk then
        (chunk.fragments rt).map fun d => (MessagesTranslator.messageId chunk, d)
      else [] := by
  obtain ⟨hframed, howned⟩ := q.feed_spec rt chunk
  rw [← howned]
  unfold Sequencer.item
  dsimp only
  cases hr : (q.feed rt chunk).raised with
  | some exc => rw [Emission.andThen_raised hr]
  | none =>
      rw [Emission.andThen_returned hr]
      show owned q.turn ((q.feed rt chunk).frames ++ _) = _
      rw [owned_append hframed]
      split
      · exact List.append_nil _
      · rw [((q.feed rt chunk).state.finish_spec rt (some chunk)).2.1, List.append_nil]

/-- What is read back of a stream is what was fed, or less; all of it exactly if it was heard. -/
theorem owned_items (rt : Runtime) (items : List StreamItem) (q : Sequencer) :
    (owned q.turn (Emission.fold (Sequencer.item rt) items q).frames).Sublist
        (fedAll rt (chunksOf items)) ∧
      (owned q.turn (Emission.fold (Sequencer.item rt) items q).frames =
          fedAll rt (chunksOf items) ↔
        heard rt q items = true) := by
  induction items generalizing q with
  | nil => exact ⟨List.Sublist.refl _, iff_of_true rfl rfl⟩
  | cons item items ih =>
      cases item with
      | values | other => exact ih q
      | malformed exc => exact ⟨List.Sublist.refl _, iff_of_true rfl rfl⟩
      | messages chunk =>
          rw [owned_items_cons, owned_item, chunksOf, fedAll_cons, heard, Bool.and_eq_true]
          have hmine : (if q.takes rt chunk = true then
              (chunk.fragments rt).map fun d => (MessagesTranslator.messageId chunk, d)
            else []) = if q.takes rt chunk = true then
              if (role chunk).isSome = true then
                (chunk.fragments rt).map fun d => (MessagesTranslator.messageId chunk, d)
              else [] else [] := by
            split
            · next htakes => rw [if_pos (known_of_takes htakes)]
            · rfl
          have hsilent : (if (role chunk).isSome = true then
              (chunk.fragments rt).map fun d => (MessagesTranslator.messageId chunk, d)
            else []).isEmpty = chunk.silent rt := by
            unfold Chunk.silent
            cases role chunk <;> simp
          rw [hmine, ← hsilent]
          cases hr : (q.item rt (.messages chunk)).raised with
          | none =>
              obtain ⟨hsub, hiff⟩ := ih (q.item rt (.messages chunk)).state
              obtain ⟨hle, heq⟩ := @carried_iff _ (q.takes rt chunk) _ _ _ hsub
              exact ⟨hle, heq.trans (and_congr_right' hiff)⟩
          | some exc =>
              -- the run is over, and what it has not heard counts as lost
              obtain ⟨hle, heq⟩ := @carried_iff _ (q.takes rt chunk) _ _ _
                (List.nil_sublist (fedAll rt (chunksOf items)))
              refine ⟨hle, heq.trans (and_congr_right' ?_)⟩
              rw [← fedAll_eq_nil_iff]
              exact eq_comm

/-- The end of the last turn carries nothing. -/
theorem Sequencer.Ends.spec {tail : List Frame} (h : q.Ends rt tail) :
    (∃ cur, framed q.turn tail = some cur) ∧ owned q.turn tail = [] ∧ startIds tail = [] := by
  obtain ⟨hframed, howned, hstart⟩ := q.close_spec rt ∅
  by_cases hr : (q.close rt ∅).raised = none
  · rw [h.1 hr]
    exact ⟨⟨_, hframed⟩, howned, hstart⟩
  · have hcontent : ∀ f ∈ tail, f.isContent = true := fun f hf => (h.2 hr f hf).1
    have hdelta : tail.filterMap Frame.delta = [] :=
      List.filterMap_eq_nil_iff.mpr fun f hf => (h.2 hr f hf).2
    cases hcur : q.current with
    | none =>
        exfalso
        apply hr
        unfold close
        rw [hcur]
    | some p =>
        have hturn : q.turn = some p.1 := by
          rw [turn, hcur]
          rfl
        rw [hturn, framed_content p.1 hcontent, owned_content p.1 hcontent, hdelta]
        exact ⟨⟨_, rfl⟩, rfl, startIds_content hcontent⟩

/-- What is read back of a run that is done is what its sequencer has sunk. -/
theorem Task.Spoken.read_back {task : Task} (h : task.Spoken rt) (hdone : task.phase = .done) :
    (∃ cur, framed none (messageFrames task.events) = some cur) ∧
      (startIds (messageFrames task.events)).Nodup ∧
      owned none (messageFrames task.events) =
        owned none (sequence rt (itemsOf task.fed)).frames := by
  unfold Task.Spoken at h
  simp only [hdone] at h
  have hread := sequence_readFrom rt (itemsOf task.fed)
  have hnodup := sequence_startIds_nodup rt (itemsOf task.fed)
  rcases h with ⟨hev, hfed⟩ | ⟨tail, hframes, htail⟩
  · rw [hev, hfed]
    exact ⟨⟨_, rfl⟩, List.nodup_nil, rfl⟩
  · have hspec : (∃ cur, framed (sequence rt (itemsOf task.fed)).state.turn tail = some cur) ∧
        owned (sequence rt (itemsOf task.fed)).state.turn tail = [] ∧ startIds tail = [] := by
      split at htail
      · rw [htail.2]
        exact ⟨⟨_, rfl⟩, rfl, rfl⟩
      · exact htail.spec
    obtain ⟨⟨cur, hcur⟩, howned, hstart⟩ := hspec
    rw [hframes, startIds_append, hstart, List.append_nil]
    refine ⟨⟨cur, (framed_append hread.framed).trans hcur⟩, hnodup, ?_⟩
    rw [show owned none _ = _ from owned_append hread.framed, howned, List.append_nil]

end Items

/-! ## What a client reads of a run -/

/-- The message frames of a run among these events. -/
def runFrames (r : String) (l : List (Envelope Published)) : List Frame :=
  messageFrames ((l.filter fun x => x.data.runId == r).map fun x => x.data.data)

/-- The client has the fragments that were fed to each message, and so its text. -/
structure Assembled (rt : Runtime) (items : List StreamItem) (frames : List Frame) : Prop where
  fragments : ∀ id, readBack id frames = fedTo rt id (chunksOf items)
  text : ∀ id, String.join ((readBack id frames).filterMap Delta.text?) =
    String.join (((chunksOf items).filter fun chunk =>
      (role chunk).isSome && MessagesTranslator.messageId chunk == id).map (textContent rt))

section Reading

variable {rt : Runtime} {n : Nat} {w : World} {t r : String}

theorem runFrames_cons (x : Envelope Published) (l : List (Envelope Published)) :
    runFrames r (x :: l) =
      (if x.data.runId = r then messageFrames [x.data.data] else []) ++ runFrames r l := by
  unfold runFrames
  by_cases hr : x.data.runId = r
  · rw [List.filter_cons, if_pos (beq_iff_eq.mpr hr), if_pos hr, ← messageFrames_append]
    rfl
  · rw [List.filter_cons, if_neg (by simpa using hr), if_neg hr, List.nil_append]

/-- Leaving out what is no message of the run leaves its frames. -/
theorem runFrames_filter {l : List (Envelope Published)} {p : Envelope Published → Bool}
    (h : ∀ x ∈ l, x.data.runId = r → (∃ frame, x.data.data = .message frame) → p x = true) :
    runFrames r (l.filter p) = runFrames r l := by
  induction l with
  | nil => rfl
  | cons x l ih =>
      rw [List.forall_mem_cons] at h
      have hrest := ih h.2
      cases hp : p x with
      | true => rw [List.filter_cons_of_pos hp, runFrames_cons, runFrames_cons, hrest]
      | false =>
          rw [List.filter_cons_of_neg (by simp [hp]), hrest, runFrames_cons]
          split
          · next hr =>
            -- it is of the run, so it is no message
            cases hdata : x.data.data with
            | message frame =>
                rw [h.1 hr ⟨frame, hdata⟩] at hp
                cases hp
            | _ => rfl
          · rfl

/-- The hub has the frames that the task of a run has published. -/
theorem runFrames_published (hL : w.LogInv) {task : Task} (hg : w.tasks.get? r = some task) :
    runFrames r (w.hub task.threadId).published = messageFrames task.events := by
  rw [← hL.eventsOf_eq hg, World.eventsOf, List.filter_map, List.map_map]
  rfl

theorem readBack_eq_iff {frames : List Frame} {chunks : List Chunk}
    (hsub : (owned none frames).Sublist (fedAll rt chunks)) :
    (∀ id, readBack id frames = fedTo rt id chunks) ↔ owned none frames = fedAll rt chunks := by
  constructor
  · intro h
    refine eq_of_sublist_of_shares hsub fun id => ?_
    have hid := h id
    rw [readBack, fedTo_eq] at hid
    rw [share_eq, hid, ← share_eq]
  · intro heq id
    rw [readBack, fedTo_eq, heq]

end Reading

/-- A client that asks for messages, came before those of a run, lost no event and has read
the run's terminal event, over any number of responses: what it has of the run's messages
are frames in their order, no message begun twice, and of each message fragments that the
graph streamed for it, in their order. It has all of them, of every message, exactly when
each fragment came in the turn of its message. -/
theorem client_assembles (rt : Runtime) (n : Nat) (w : World) (hw : (runSys rt n).Reachable w)
    (t : String) (asks : Envelope Published → Bool) (c c' : Int) (conns : List Connection)
    (l : List (Envelope Published)) (hread : Session (w.hub t) asks c conns l c')
    (hall : ∀ conn ∈ conns,
      (runSys rt n).ReachableVia (World.OnHub rt n t (StreamHub.Lossless conn.id)) w)
    (e : Envelope Published) (he : e ∈ l) (hterm : e.data.data.isTerminal = true)
    (hasks : ∀ x ∈ (w.hub t).published, x.data.runId = e.data.runId → x.method = "messages" →
      asks x = true ∧ c < (x.seq : Int)) :
    ∃ task, w.tasks.get? e.data.runId = some task ∧ task.threadId = t ∧
      (∃ cur, framed none (runFrames e.data.runId l) = some cur) ∧
      (startIds (runFrames e.data.runId l)).Nodup ∧
      (∀ id, (readBack id (runFrames e.data.runId l)).Sublist
        (fedTo rt id (chunksOf (itemsOf task.fed)))) ∧
      (Assembled rt (itemsOf task.fed) (runFrames e.data.runId l) ↔
        heard rt .new (itemsOf task.fed) = true) := by
  have hL := World.logInv_of_reachable hw
  have hI := inv_of_reachable (World.hub_reachable hw t)
  obtain ⟨hpub, -, -, hle⟩ := (hread.sound hI).2 e he
  obtain ⟨task, hg, rfl, hmem⟩ := hL.task_of_mem hpub
  have hdone := done_of_terminal hw hg hmem hterm
  -- nothing of the run's messages is missing in what the client has read
  have hframes : runFrames e.data.runId l = messageFrames task.events := by
    rw [hread.complete_of_lossless hw hall, ← runFrames_published hL hg]
    refine runFrames_filter fun x hx hrun ⟨frame, hframe⟩ => ?_
    have hmethod : x.method = "messages" := by
      rw [hL.methods _ x hx, hframe]
      rfl
    obtain ⟨hask, hlt⟩ := hasks x hx hrun hmethod
    have hend : x.seq ≤ e.seq := by
      by_contra hlater
      have hreq := request_of_later hw hpub hx hrun (by omega) hterm
      rw [hframe] at hreq
      cases hreq
    simp only [hask, Bool.and_true, Bool.and_eq_true, decide_eq_true_eq]
    omega
  obtain ⟨hordered, hnodup, howned⟩ := (World.spoken_of_reachable hw hg).read_back hdone
  obtain ⟨hsub, hheard⟩ := owned_items rt (itemsOf task.fed) .new
  have hsub' : (owned none (runFrames e.data.runId l)).Sublist
      (fedAll rt (chunksOf (itemsOf task.fed))) := by
    rw [hframes, howned]
    exact hsub
  have hwhole : (∀ id, readBack id (runFrames e.data.runId l) =
      fedTo rt id (chunksOf (itemsOf task.fed))) ↔ heard rt .new (itemsOf task.fed) = true := by
    rw [readBack_eq_iff hsub', hframes, howned]
    exact hheard
  refine ⟨task, hg, rfl, hframes ▸ hordered, hframes ▸ hnodup, fun id => ?_, ?_⟩
  · rw [readBack, fedTo_eq]
    exact (hsub'.filter _).map _
  · rw [← hwhole]
    exact ⟨fun h => h.fragments, fun h => ⟨h, fun id => by rw [h id, join_text_fedTo]⟩⟩

/-- The client reads two messages, one after the other. -/
def dictated : List Act :=
  .stream "t" (.subscribe none none none) ::
    streamed [.messages (textChunk "a" "Hel"), .messages (textChunk "a" "lo"),
      .messages (textChunk "b" "Bye")] ++
    List.replicate 12 (.stream "t" (.pull 0))

def dictatedEnd : World := ((runSys .inert 500).run (.new 500) dictated).getD (.new 500)

theorem client_assembles_dictated :
    ∃ l, Session (dictatedEnd.hub "t") (fun _ => true) 0 [⟨0, 10⟩] l 10 ∧
      String.join ((readBack "a" (runFrames "1" l)).filterMap Delta.text?) = "Hello" := by
  have hrun : (runSys .inert 500).run (.new 500) dictated = some dictatedEnd := rfl
  have hok : (runSys .inert 500).RunsVia (World.OnHub .inert 500 "t" (StreamHub.Lossless 0))
      (.new 500) dictated := by
    decide
  have hreach := TSys.reachable_of_run (M := runSys .inert 500) rfl hrun
  obtain ⟨l, e, hsession, he, hterm, hid⟩ : ∃ l e,
      Session (dictatedEnd.hub "t") (fun _ => true) 0 [⟨0, 10⟩] l 10 ∧ e ∈ l ∧
        e.data.data.isTerminal = true ∧ e.data.runId = "1" := by
    refine ⟨_, _, .connect (k := ⟨0, 10⟩) rfl rfl rfl .nil, List.getElem_mem (n := 9) ?_, ?_⟩
    · decide
    · exact ⟨rfl, rfl⟩
  have hI := inv_of_reachable (World.hub_reachable hreach "t")
  obtain ⟨task, hg, -, -, -, -, hiff⟩ := client_assembles .inert 500 dictatedEnd hreach "t"
    (fun _ => true) 0 10 [⟨0, 10⟩] l hsession
    (fun conn hconn => by
      rw [List.mem_singleton.mp hconn]
      exact ⟨_, rfl, TSys.reachesVia_of_run _ hok hrun⟩)
    e he hterm
    (fun x hx _ _ => ⟨rfl, by have := hI.numbered.bounds hx; omega⟩)
  rw [hid] at hg hiff
  obtain rfl := Option.some.inj (hg.symm.trans (show dictatedEnd.tasks.get? "1" = some _ from rfl))
  have htext := (hiff.mpr (by decide)).text "a"
  refine ⟨l, hsession, htext.trans ?_⟩
  decide

end AgentProtocol

import AgentProtocol.Translation.Reading
import AgentProtocol.Translation.Blocks
import AgentProtocol.Translation.Lifetime

/-!
# The grammar of the translator's output

Whatever calls are made, what a translator sinks is a sequence of segments, one for each
message (`output_grammar`). Which chunks a segment is made of is said by the calls during
which its message is open (`Lifetime`).
-/

namespace AgentProtocol

/-! ## Segments -/

/-- What is sunk for a message: its start, its body and, when it is finished, the finish
frames of its blocks and its own. -/
structure Segment where
  id : String
  role : String
  body : List Frame
  closing : Option (List Frame × Dict String Json)

namespace Segment

def frames (seg : Segment) : List Frame :=
  .messageStart seg.role seg.id :: (seg.body ++
    match seg.closing with
    | some (blocks, usage) => blocks ++ [.messageFinish usage]
    | none => [])

/-- The text of its deltas. -/
def text (seg : Segment) : String :=
  String.join ((seg.body.filterMap Frame.delta).filterMap Delta.text?)

/-- Its body has no frame of a start or an end, and the blocks that have started in it are
finished in the order of their indices. -/
structure WellFormed (seg : Segment) : Prop where
  body : ∀ f ∈ seg.body, f.isBody = true
  finishes : ∀ blocks usage, seg.closing = some (blocks, usage) →
    ∃ indices : List Int, indices.Pairwise (· < ·) ∧
      blocks.map Frame.finishIndex = indices.map some ∧
      ∀ index, index ∈ indices ↔ index ∈ seg.body.filterMap Frame.startIndex

end Segment

/-! ## The segment of a turn -/

section Segments

variable {rt : Runtime}

def MessageTurn.segment (rt : Runtime) (turn : MessageTurn)
    (closing : Option (List Frame × Dict String Json)) : Segment :=
  { id := turn.id, role := turn.role, body := turn.body rt, closing }

/-- What is sunk at the end of a turn whose arguments parse. -/
def MessageTurn.closed (rt : Runtime) (p : MessageTurn × Dict String Json) :
    List Frame × Dict String Json :=
  ((p.1.emitter rt).finishFrames rt, ((p.1.emitter rt).withUsage p.2).usage)

/-- The segments of a script. -/
def Script.segments (rt : Runtime) (s : Script) : List Segment :=
  s.ended.map (fun p => p.1.segment rt (some (MessageTurn.closed rt p))) ++
    s.current.toList.map fun turn => turn.segment rt none

theorem Script.segments_ids (s : Script) : (s.segments rt).map Segment.id = s.ids := by
  unfold Script.segments Script.ids
  rw [List.map_append, List.map_map, List.map_map]
  rfl

theorem Script.segments_frames {s : Script} (h : s.parses rt = true) :
    s.frames rt = (s.segments rt).flatMap Segment.frames := by
  have hended : ∀ p ∈ s.ended, p.1.frames rt ++ p.1.closing rt p.2 =
      (p.1.segment rt (some (MessageTurn.closed rt p))).frames := by
    intro p hp
    have hparses := List.all_eq_true.mp h p hp
    rw [MessageTurn.closing, MessageFrameEmitter.close_of_parses hparses]
    rfl
  have hcurrent : ∀ turn ∈ s.current.toList, turn.frames rt = (turn.segment rt none).frames := by
    intro turn _
    show _ = _ :: (_ ++ [])
    rw [List.append_nil]
    rfl
  unfold Script.frames Script.segments
  rw [List.flatMap_append, List.flatMap_map, List.flatMap_map, List.flatMap_congr hended,
    List.flatMap_congr hcurrent]

theorem speak_deltas (e : MessageFrameEmitter) (chunks : List Chunk) :
    (e.speak rt chunks).2.filterMap Frame.delta = chunks.flatMap (Chunk.fragments rt) := by
  induction chunks generalizing e with
  | nil => rfl
  | cons chunk chunks ih =>
      show (e.content rt chunk ++ _).filterMap Frame.delta = _
      rw [List.filterMap_append, (e.content_frames rt chunk).2, ih, List.flatMap_cons]

/-- The text of a turn is that of its chunks. -/
theorem MessageTurn.segment_text (turn : MessageTurn)
    (closing : Option (List Frame × Dict String Json)) :
    (turn.segment rt closing).text = String.join (turn.chunks.map (textContent rt)) := by
  show String.join (((MessageFrameEmitter.speak rt _ turn.chunks).2.filterMap Frame.delta).filterMap
    Delta.text?) = _
  rw [speak_deltas, join_text_fragments]

/-- The blocks of a turn are those that have started in its body. -/
theorem MessageTurn.mem_indices_iff (turn : MessageTurn) (index : Int) :
    index ∈ (turn.emitter rt).indices ↔ index ∈ (turn.body rt).filterMap Frame.startIndex := by
  have hat := turn.body_at rt index
  have hstart : index ∈ (turn.body rt).filterMap Frame.startIndex ↔
      ∃ f ∈ (turn.body rt).filter (Frame.isToolAt index), f.startIndex = some index := by
    rw [List.mem_filterMap]
    constructor
    · rintro ⟨f, hf, hidx⟩
      refine ⟨f, List.mem_filter.mpr ⟨hf, ?_⟩, hidx⟩
      cases f with
      | blockStart i id name =>
          rw [Frame.isToolAt, beq_iff_eq]
          exact hidx
      | _ => cases hidx
    · rintro ⟨f, hf, hidx⟩
      exact ⟨f, (List.mem_filter.mp hf).1, hidx⟩
  rw [hstart, hat, MessageFrameEmitter.mem_indices, turn.block_at]
  cases fragmentsAt index (turn.placed rt) with
  | nil =>
      refine iff_of_false ?_ ?_
      · rintro ⟨state, hstate⟩
        cases hstate
      · rintro ⟨f, hf, -⟩
        cases hf
  | cons fragment fragments =>
      refine iff_of_true ?_ ?_
      · exact Option.isSome_iff_exists.mp (blockAfter_isSome index _ fragments)
      · obtain ⟨deltas, hframes, -⟩ := blockFrames_none index fragment fragments
        rw [hframes]
        exact ⟨_, List.mem_cons_self, rfl⟩

theorem MessageTurn.segment_wellFormed {turn : MessageTurn}
    (closing : Option (List Frame × Dict String Json))
    (h : ∀ blocks usage, closing = some (blocks, usage) →
      turn.parses rt = true ∧ blocks = (turn.emitter rt).finishFrames rt) :
    (turn.segment rt closing).WellFormed where
  body := turn.body_isBody
  finishes := by
    intro blocks usage hclosing
    obtain ⟨hparses, rfl⟩ := h blocks usage hclosing
    refine ⟨(turn.emitter rt).indices, MessageFrameEmitter.indices_pairwise, ?_,
      turn.mem_indices_iff⟩
    exact MessageFrameEmitter.finishFrames_finishIndex hparses

/-- Only the message that is open is not finished, and it is the last one. -/
theorem Script.segments_dropLast (s : Script) :
    ∀ seg ∈ (s.segments rt).dropLast, seg.closing.isSome = true := by
  have hended : ∀ seg ∈ s.ended.map (fun p => p.1.segment rt (some (MessageTurn.closed rt p))),
      seg.closing.isSome = true := by
    intro seg hseg
    obtain ⟨p, -, rfl⟩ := List.mem_map.mp hseg
    rfl
  intro seg hseg
  unfold segments at hseg
  cases hcur : s.current with
  | none =>
      rw [hcur, Option.toList_none, List.map_nil, List.append_nil] at hseg
      exact hended seg ((List.dropLast_sublist _).mem hseg)
  | some turn =>
      rw [hcur, Option.toList_some, List.map_singleton, List.dropLast_concat] at hseg
      exact hended seg hseg

/-- The segment of a message that has been finished. -/
theorem segment_of_ended (hrt : rt.LoadsTotal) {calls : List Call}
    {p : MessageTurn × Dict String Json} (hp : p ∈ (script calls).ended) :
    (p.1.segment rt (some (MessageTurn.closed rt p))).WellFormed ∧
      ∃ before during after, calls = before ++ during ++ after ∧
        Lifetime p.1.id p.1.role before during after ∧
        p.1.chunks = chunksFed p.1.id during ∧ after ≠ [] := by
  constructor
  · apply MessageTurn.segment_wellFormed
    intro blocks usage heq
    exact ⟨(p.1.emitter rt).parses_of_loadsTotal hrt,
      (congrArg Prod.fst (Option.some.inj heq)).symm⟩
  · obtain ⟨before, during, call, rest, hcalls, hspan⟩ := (Script.Follows.script calls).ended p hp
    exact ⟨before, during, call :: rest, hcalls, hspan.lifetime, hspan.chunks,
      List.cons_ne_nil _ _⟩

/-- The segment of the message that is open. -/
theorem segment_of_current {calls : List Call} {turn : MessageTurn}
    (hturn : (script calls).current = some turn) :
    (turn.segment rt none).WellFormed ∧
      ∃ before during, calls = before ++ during ∧
        Lifetime turn.id turn.role before during [] ∧ turn.chunks = chunksFed turn.id during := by
  constructor
  · apply MessageTurn.segment_wellFormed
    intro blocks usage heq
    cases heq
  · obtain ⟨before, during, hcalls, hspan⟩ := (Script.Follows.script calls).current turn hturn
    exact ⟨before, during, hcalls, hspan.lifetime, hspan.chunks⟩

end Segments

/-! ## The theorem -/

/-- A message that is not open is not finished again. -/
theorem Script.finish_of_closed {s : Script} (h : s.current = none) (chunk : Option Chunk) :
    s.finish chunk = s := by
  unfold Script.finish
  cases chunk with
  | none =>
      show s.close ∅ = s
      unfold Script.close
      rw [h]
  | some chunk =>
      have hturn : ∀ id, s.isTurn id = false := by
        intro id
        unfold Script.isTurn
        rw [h]
      dsimp only
      split
      · rfl
      · rw [hturn, if_neg Bool.false_ne_true]

/-- Once all messages are finished, finishing changes nothing. -/
theorem script_finish_all (calls : List Call) (more : List (Option Chunk)) :
    script (calls ++ .finish none :: more.map .finish) = script (calls ++ [.finish none]) := by
  have hclosed : (script (calls ++ [.finish none])).current = none := by
    rw [script_concat]
    exact (script calls).close_current ∅
  rw [List.append_cons]
  induction more using List.reverseRecOn with
  | nil => rw [List.map_nil, List.append_nil]
  | append_singleton more chunk ih =>
      rw [List.map_append, ← List.append_assoc]
      show script (_ ++ [Call.finish chunk]) = _
      rw [script_concat, ih]
      exact Script.finish_of_closed hclosed chunk

/-- Whatever is fed and finished, the frames are a segment for each message that is fed, in
which its text is that of the chunks it is fed while it is open, and whose end is missing only
when nothing has finished it. Once all messages are finished nothing is sunk until one is
fed. -/
theorem output_grammar (rt : Runtime) (hrt : rt.LoadsTotal) (calls : List Call) :
    (runCalls rt calls).raised = none ∧
    (∃ segments : List Segment,
      (runCalls rt calls).frames = segments.flatMap Segment.frames ∧
      (segments.map Segment.id).Nodup ∧
      (∀ id, id ∈ segments.map Segment.id ↔ id ∈ fedIds calls) ∧
      (∀ seg ∈ segments, seg.WellFormed ∧
        ∃ before during after, calls = before ++ during ++ after ∧
          Lifetime seg.id seg.role before during after ∧
          seg.text = String.join ((chunksFed seg.id during).map (textContent rt)) ∧
          (seg.closing.isSome = true ↔ after ≠ [])) ∧
      (∀ seg ∈ segments.dropLast, seg.closing.isSome = true)) ∧
    (∀ more : List (Option Chunk),
      (runCalls rt (calls ++ .finish none :: more.map .finish)).frames =
        (runCalls rt (calls ++ [.finish none])).frames) := by
  have hparses : ∀ s : Script, s.parses rt = true := Script.parses_of_loadsTotal hrt
  have hfollows := Script.Follows.script calls
  refine ⟨(runCalls_raised_iff rt calls).mpr (hparses _),
    ⟨(script calls).segments rt, ?_, ?_, ?_, ?_, ?_⟩, ?_⟩
  · rw [runCalls_frames (hparses _), Script.segments_frames (hparses _)]
  · rw [Script.segments_ids]
    exact hfollows.nodup
  · rw [Script.segments_ids]
    exact hfollows.fed
  · intro seg hseg
    rcases List.mem_append.mp hseg with hseg | hseg
    · obtain ⟨p, hp, rfl⟩ := List.mem_map.mp hseg
      obtain ⟨hwell, before, during, after, hcalls, hlife, hchunks, hafter⟩ :=
        segment_of_ended hrt hp
      refine ⟨hwell, before, during, after, hcalls, hlife, ?_, iff_of_true rfl hafter⟩
      rw [MessageTurn.segment_text, hchunks]
      rfl
    · obtain ⟨turn, hturn, rfl⟩ := List.mem_map.mp hseg
      obtain ⟨hwell, before, during, hcalls, hlife, hchunks⟩ :=
        segment_of_current (Option.mem_toList.mp hturn)
      refine ⟨hwell, before, during, [], ?_, hlife, ?_, ?_⟩
      · rw [List.append_nil]
        exact hcalls
      · rw [MessageTurn.segment_text, hchunks]
        rfl
      · exact iff_of_false Bool.false_ne_true fun hne => hne rfl
  · exact (script calls).segments_dropLast
  · intro more
    rw [runCalls_frames (hparses _), runCalls_frames (hparses _), script_finish_all]

theorem output_grammar_two :
    ∃ segments : List Segment,
      (runCalls Runtime.inert
        [.feed (textChunk "m" "Hi"), .feed (textChunk "n" "Ho"), .finish none]).frames =
          segments.flatMap Segment.frames ∧
      (segments.map Segment.id).Nodup ∧
      (∀ id, id ∈ segments.map Segment.id ↔ id = "m" ∨ id = "n") ∧
      (∀ seg ∈ segments, seg.WellFormed) ∧
      (∀ seg ∈ segments.dropLast, seg.closing.isSome = true) := by
  have hloads : Runtime.inert.LoadsTotal := fun _ _ h => by cases h
  obtain ⟨-, ⟨segments, hframes, hnd, hids, hseg, hlast⟩, -⟩ := output_grammar Runtime.inert hloads
    [.feed (textChunk "m" "Hi"), .feed (textChunk "n" "Ho"), .finish none]
  refine ⟨segments, hframes, hnd, fun id => ?_, fun seg hmem => (hseg seg hmem).1, hlast⟩
  rw [hids]
  have hfed : fedIds [.feed (textChunk "m" "Hi"), .feed (textChunk "n" "Ho"), .finish none] =
      ["m", "n"] := by decide
  rw [hfed, List.mem_cons, List.mem_singleton]

end AgentProtocol

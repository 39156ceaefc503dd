import AgentProtocol.Translation.Reading
import AgentProtocol.Translation.Blocks
import AgentProtocol.Translation.Lifetime

/-!
# How tool calls are cut does not matter

The fragments of a tool call that carries its index come with any texts and any other tool
calls in between, in any pieces: what the block of that index ends up as is decided by the
first id, the first name and the text of all the arguments (`reassembled`).
-/

namespace AgentProtocol

/-! ## The calls of a message -/

/-- The fragments for the tool call at this index, in order. -/
def callsAt (index : Int) (chunks : List Chunk) : List Fragment :=
  (chunks.flatMap Chunk.toolCallChunks).filter fun fragment => fragment.index == some index

/-- Every fragment carries its index, and an id or a name only when it is not empty. -/
def Explicit (chunks : List Chunk) : Prop :=
  ∀ chunk ∈ chunks, ∀ fragment ∈ chunk.toolCallChunks,
    fragment.index ≠ none ∧ fragment.id ≠ some "" ∧ fragment.name ≠ some ""

/-- The same tool calls: at the same indices, with the same first id, the same first name and
the same text of arguments. -/
structure SameCalls (chunks chunks' : List Chunk) : Prop where
  indices : ∀ index, callsAt index chunks = [] ↔ callsAt index chunks' = []
  ids : ∀ index, (callsAt index chunks).findSome? Fragment.id =
    (callsAt index chunks').findSome? Fragment.id
  names : ∀ index, (callsAt index chunks).findSome? Fragment.name =
    (callsAt index chunks').findSome? Fragment.name
  args : ∀ index, argsText (callsAt index chunks) = argsText (callsAt index chunks')

/-- The frames of the tool calls of these chunks. At the index of one there are its start,
deltas of all its arguments, and its finish frame with the object they say, if they say one;
at another index there is nothing. -/
structure Bracketed (rt : Runtime) (chunks : List Chunk) (frames : List Frame) : Prop where
  calls : ∀ index, callsAt index chunks ≠ [] → ∃ id name deltas args,
    frames.filter (Frame.isToolAt index) =
        .blockStart index id name :: deltas ++
          [.blockFinish index ((callsAt index chunks).findSome? Fragment.id)
            ((callsAt index chunks).findSome? Fragment.name) args] ∧
      (∀ f ∈ deltas, ∃ id name args, f = .blockDelta index id name args) ∧
      String.join (deltas.filterMap Frame.args?) = argsText (callsAt index chunks) ∧
      ∀ d, rt.ReadsBack (argsText (callsAt index chunks)) d → args = .obj d.entries
  others : ∀ index, callsAt index chunks = [] → frames.filter (Frame.isToolAt index) = []

/-- These frames are sunk when the chunks of a new message are fed and it is finished. -/
def SunkFor (rt : Runtime) (before : List Call) (chunks : List Chunk) (last : Option Chunk)
    (frames : List Frame) : Prop :=
  (runCalls rt (before ++ chunks.map .feed ++ [.finish last])).frames =
    (runCalls rt (before ++ [.finish none])).frames ++ frames

/-! ## A block of explicit fragments -/

def Piece.fragment? : Piece → Option Fragment
  | .text _ => none
  | .call fragment => some fragment

/-- A fragment that carries its index is emitted there. -/
theorem fragmentsAt_place {pieces : List Piece}
    (h : ∀ piece ∈ pieces, ∀ fragment, piece.fragment? = some fragment → fragment.index ≠ none)
    (index next : Int) (textIndex : Option Int) :
    fragmentsAt index (place next textIndex pieces) =
      (pieces.filterMap Piece.fragment?).filter fun fragment => fragment.index == some index := by
  induction pieces generalizing next textIndex with
  | nil => rfl
  | cons piece pieces ih =>
      rw [List.forall_mem_cons] at h
      rw [place]
      cases piece with
      | text s => exact ih h.2 _ _
      | call fragment =>
          obtain ⟨j, hj⟩ := Option.ne_none_iff_exists'.mp (h.1 fragment rfl)
          have hindex : Piece.indexFrom next textIndex (.call fragment) = j := by
            show fragment.index.getD next = j
            rw [hj]
            rfl
          rw [fragmentsAt_call, hindex, ih h.2]
          show _ = List.filter _ (fragment :: pieces.filterMap Piece.fragment?)
          rw [List.filter_cons, hj]
          simp only [beq_iff_eq, Option.some.injEq]

theorem Chunk.pieces_fragments (rt : Runtime) (chunks : List Chunk) :
    (chunks.flatMap (Chunk.pieces rt)).filterMap Piece.fragment? =
      chunks.flatMap Chunk.toolCallChunks := by
  induction chunks with
  | nil => rfl
  | cons chunk chunks ih =>
      have hcalls : (chunk.toolCallChunks.map Piece.call).filterMap Piece.fragment? =
          chunk.toolCallChunks := by
        rw [List.filterMap_map]
        exact List.filterMap_some
      rw [List.flatMap_cons, List.filterMap_append, ih, List.flatMap_cons]
      congr 1
      unfold Chunk.pieces
      rw [List.filterMap_append, hcalls]
      split <;> rfl

/-- The fragments at an index are those that carry it. -/
theorem MessageTurn.fragmentsAt_placed {rt : Runtime} {turn : MessageTurn}
    (h : Explicit turn.chunks) (index : Int) :
    fragmentsAt index (turn.placed rt) = callsAt index turn.chunks := by
  rw [MessageTurn.placed, fragmentsAt_place, MessageTurn.pieces, Chunk.pieces_fragments]
  · rfl
  · intro piece hpiece fragment hfragment
    have hmem : fragment ∈ (turn.pieces rt).filterMap Piece.fragment? :=
      List.mem_filterMap.mpr ⟨piece, hpiece, hfragment⟩
    rw [MessageTurn.pieces, Chunk.pieces_fragments] at hmem
    obtain ⟨chunk, hchunk, hmem⟩ := List.mem_flatMap.mp hmem
    exact (h chunk hchunk fragment hmem).1

theorem Explicit.parts {chunks : List Chunk} (h : Explicit chunks) (index : Int) :
    ∀ fragment ∈ callsAt index chunks, fragment.id ≠ some "" ∧ fragment.name ≠ some "" := by
  intro fragment hmem
  obtain ⟨chunk, hchunk, hfragment⟩ := List.mem_flatMap.mp (List.mem_filter.mp hmem).1
  exact (h chunk hchunk fragment hfragment).2

theorem strOr_eq_or {a : Option String} (h : a ≠ some "") (b : Option String) :
    strOr a b = a.or b := by
  unfold strOr
  cases a with
  | none => rfl
  | some s =>
      dsimp only
      rw [if_neg fun hs => h (congrArg some hs)]
      rfl

theorem or_ne_empty {a b : Option String} (ha : a ≠ some "") (hb : b ≠ some "") :
    a.or b ≠ some "" := by
  cases a with
  | none => exact hb
  | some s => exact ha

/-- What the fragments make of a block that is there. -/
theorem blockAfter_some {index : Int} {state : BlockState} {fragments : List Fragment}
    (hid : state.callId ≠ some "") (hname : state.name ≠ some "")
    (h : ∀ fragment ∈ fragments, fragment.id ≠ some "" ∧ fragment.name ≠ some "") :
    blockAfter index (some state) fragments =
      some { state with
        callId := state.callId.or (fragments.findSome? Fragment.id)
        name := state.name.or (fragments.findSome? Fragment.name)
        args := state.args ++ argsText fragments } := by
  induction fragments generalizing state with
  | nil =>
      show some state = some { state with
        callId := state.callId.or none, name := state.name.or none, args := state.args ++ "" }
      rw [Option.or_none, Option.or_none, String.append_empty]
  | cons fragment fragments ih =>
      rw [List.forall_mem_cons] at h
      have hjoined : BlockState.joined index (some state) fragment =
          { state with
            callId := state.callId.or fragment.id
            name := state.name.or fragment.name
            args := state.args ++ fragment.args.getD "" } := by
        unfold BlockState.joined
        dsimp only
        rw [strOr_eq_or hid, strOr_eq_or hname]
      have hcons : ∀ (f : Fragment → Option String) (a : Option String),
          (a.or (f fragment)).or (fragments.findSome? f) =
            a.or ((fragment :: fragments).findSome? f) := by
        intro f a
        rw [Option.or_assoc, List.findSome?_cons]
        cases f fragment <;> rfl
      rw [blockAfter_cons, hjoined, ih (or_ne_empty hid h.1.1) (or_ne_empty hname h.1.2) h.2]
      dsimp only
      rw [hcons, hcons, argsText_cons, String.append_assoc]

/-- What the fragments make of a new block. -/
theorem blockAfter_none (index : Int) {fragments : List Fragment} (hne : fragments ≠ [])
    (h : ∀ fragment ∈ fragments, fragment.id ≠ some "" ∧ fragment.name ≠ some "") :
    blockAfter index none fragments =
      some { index
             callId := fragments.findSome? Fragment.id
             name := fragments.findSome? Fragment.name
             args := argsText fragments } := by
  cases fragments with
  | nil => exact absurd rfl hne
  | cons fragment fragments =>
      rw [List.forall_mem_cons] at h
      have hcons : ∀ f : Fragment → Option String,
          (f fragment).or (fragments.findSome? f) = (fragment :: fragments).findSome? f := by
        intro f
        rw [List.findSome?_cons]
        cases f fragment <;> rfl
      rw [blockAfter_cons, BlockState.joined, blockAfter_some h.1.1 h.1.2 h.2]
      dsimp only
      rw [hcons, hcons, argsText_cons]

/-! ## The frames of a message of tool calls -/

section Messages

variable {rt : Runtime}

/-- Frames are seen at the index of a tool call before its end and at its end. -/
theorem MessageTurn.frames_at (turn : MessageTurn) (h : turn.parses rt = true)
    (usage : Dict String Json) (index : Int) :
    (turn.frames rt ++ turn.closing rt usage).filter (Frame.isToolAt index) =
      blockFrames index none (fragmentsAt index (turn.placed rt)) ++
        ((blockAfter index none (fragmentsAt index (turn.placed rt))).bind
          (BlockState.finishFrame rt index)).toList := by
  rw [MessageTurn.closing, MessageFrameEmitter.close_of_parses h, List.filter_append,
    List.filter_append, MessageFrameEmitter.finishFrames_at, turn.block_at, ← turn.body_at]
  show List.filter _ (turn.body rt) ++ (_ ++ []) = _
  rw [List.append_nil]

/-- The finish frames of a message stand at its end. -/
theorem MessageTurn.finishes_eq (turn : MessageTurn) (h : turn.parses rt = true)
    (usage : Dict String Json) :
    (turn.frames rt ++ turn.closing rt usage).filter (fun f => f.finishIndex.isSome) =
      (turn.emitter rt).finishFrames rt := by
  have hbody : (turn.body rt).filter (fun f => f.finishIndex.isSome) = [] := by
    apply List.filter_eq_nil_iff.mpr
    intro f hf
    have hb := turn.body_isBody f hf
    cases f with
    | blockFinish => cases hb
    | _ => exact Bool.false_ne_true
  have hfinish : ((turn.emitter rt).finishFrames rt).filter (fun f => f.finishIndex.isSome) =
      (turn.emitter rt).finishFrames rt := by
    apply List.filter_eq_self.mpr
    intro f hf
    obtain ⟨index, -, hframe⟩ := List.mem_filterMap.mp hf
    rw [(MessageFrameEmitter.finishFrame_index hframe).2]
    rfl
  rw [MessageTurn.closing, MessageFrameEmitter.close_of_parses h, List.filter_append,
    List.filter_append, hfinish]
  show List.filter _ (turn.body rt) ++ (_ ++ []) = _
  rw [hbody, List.append_nil, List.nil_append]

/-- The tool calls of a message are bracketed. -/
theorem MessageTurn.bracketed {turn : MessageTurn} (hexp : Explicit turn.chunks)
    (h : turn.parses rt = true) (usage : Dict String Json) :
    Bracketed rt turn.chunks (turn.frames rt ++ turn.closing rt usage) where
  calls := by
    intro index hne
    have hblock := blockAfter_none index hne (hexp.parts index)
    have hat := turn.frames_at h usage index
    have hmem : index ∈ (turn.emitter rt).indices := by
      rw [MessageFrameEmitter.mem_indices, turn.block_at, MessageTurn.fragmentsAt_placed hexp,
        hblock]
      exact ⟨_, rfl⟩
    obtain ⟨state, args, hget, hargs, hframe⟩ := MessageFrameEmitter.finishFrame_of_mem h hmem
    rw [turn.block_at, MessageTurn.fragmentsAt_placed hexp, hblock] at hget hframe
    obtain rfl := Option.some.inj hget
    obtain ⟨fragment, fragments, hcons⟩ := List.exists_cons_of_ne_nil hne
    obtain ⟨deltas, hframes, hdelta, htext⟩ := blockFrames_none index fragment fragments
    rw [← hcons] at hframes htext
    rw [MessageTurn.fragmentsAt_placed hexp, hframes, hblock, hframe] at hat
    refine ⟨_, _, deltas, args, hat, hdelta, htext, fun d hback => ?_⟩
    unfold BlockState.parseArgs at hargs
    dsimp only at hargs
    rw [if_neg hback.1, hback.2] at hargs
    exact (Except.ok.inj hargs).symm
  others := by
    intro index hnil
    rw [turn.frames_at h usage, MessageTurn.fragmentsAt_placed hexp, hnil]
    rfl

/-- What is sunk for a message is what its turn says. -/
theorem sunkFor_turn (hrt : rt.LoadsTotal) {id : String} {before : List Call}
    (hnew : id ∉ fedIds before) {chunks : List Chunk} (h : OfMessage id chunks)
    {last : Option Chunk} (hlast : Finisher id last) :
    ∃ turn : MessageTurn, turn.chunks = chunks ∧
      SunkFor rt before chunks last (turn.frames rt ++ turn.closing rt (usageOf last)) := by
  obtain ⟨role, hscript⟩ := script_message_finish hnew h hlast
  have hparses : ∀ s : Script, s.parses rt = true := Script.parses_of_loadsTotal hrt
  refine ⟨{ id, role, chunks }, rfl, ?_⟩
  unfold SunkFor
  rw [runCalls_frames (hparses _), runCalls_frames (hparses _), hscript, script_concat]
  show _ = Script.frames rt ((script before).close ∅) ++ _
  unfold Script.frames
  rw [Script.close_current, List.flatMap_append, List.flatMap_singleton]
  show (_ ++ _) ++ [] = (_ ++ []) ++ _
  rw [List.append_nil, List.append_nil]

/-- The blocks of two turns with the same tool calls. -/
theorem MessageTurn.block_congr {turn turn' : MessageTurn} (hexp : Explicit turn.chunks)
    (hexp' : Explicit turn'.chunks) (hsame : SameCalls turn.chunks turn'.chunks) (index : Int) :
    (turn.emitter rt).blocks.get? index = (turn'.emitter rt).blocks.get? index := by
  rw [turn.block_at, turn'.block_at, MessageTurn.fragmentsAt_placed hexp,
    MessageTurn.fragmentsAt_placed hexp']
  by_cases hnil : callsAt index turn.chunks = []
  · rw [hnil, (hsame.indices index).mp hnil]
  · have hnil' : callsAt index turn'.chunks ≠ [] := mt (hsame.indices index).mpr hnil
    rw [blockAfter_none index hnil (hexp.parts index),
      blockAfter_none index hnil' (hexp'.parts index), hsame.ids, hsame.names, hsame.args]

end Messages

/-! ## The theorem -/

/-- Two lists of chunks of a new message with the same tool calls, however these are cut and
spread and whatever text is in between, are finished with the same frames, and the frames of
each are bracketed index by index. -/
theorem reassembled (rt : Runtime) (hrt : rt.LoadsTotal) (before : List Call) (id : String)
    (hnew : id ∉ fedIds before) (chunks chunks' : List Chunk) (h : OfMessage id chunks)
    (h' : OfMessage id chunks') (hexp : Explicit chunks) (hexp' : Explicit chunks')
    (hsame : SameCalls chunks chunks') (last last' : Option Chunk) (hlast : Finisher id last)
    (hlast' : Finisher id last') :
    ∃ frames frames', SunkFor rt before chunks last frames ∧
      SunkFor rt before chunks' last' frames' ∧
      frames.filter (fun f => f.finishIndex.isSome) =
        frames'.filter (fun f => f.finishIndex.isSome) ∧
      Bracketed rt chunks frames ∧ Bracketed rt chunks' frames' := by
  obtain ⟨turn, rfl, hsunk⟩ := sunkFor_turn hrt hnew h hlast
  obtain ⟨turn', rfl, hsunk'⟩ := sunkFor_turn hrt hnew h' hlast'
  have hparses : ∀ turn : MessageTurn, turn.parses rt = true := fun turn =>
    (turn.emitter rt).parses_of_loadsTotal hrt
  refine ⟨_, _, hsunk, hsunk', ?_, MessageTurn.bracketed hexp (hparses turn) _,
    MessageTurn.bracketed hexp' (hparses turn') _⟩
  rw [turn.finishes_eq (hparses turn), turn'.finishes_eq (hparses turn')]
  exact MessageFrameEmitter.finishFrames_congr (MessageTurn.block_congr hexp hexp' hsame)

/-- A chunk of text and of fragments of the tool call at index 0. -/
def toolChunk (text : String) (fragments : List (Option String × Option String × String)) : Chunk :=
  { textChunk "m" text with
    toolCallChunks := fragments.map fun p =>
      { index := some 0, id := p.1, name := p.2.1, args := some p.2.2 } }

/-- A runtime that reads the empty object. -/
def Runtime.readsEmpty : Runtime :=
  { Runtime.inert with loads := fun text => if text = "{}" then .value (.obj []) else .decodeError }

/-- One fragment, and the same call in two chunks with text in between and a late id. -/
theorem reassembled_two :
    ∃ frames frames',
      SunkFor .readsEmpty [] [toolChunk "" [(some "c", some "f", "{}")]] none frames ∧
      SunkFor .readsEmpty []
        [toolChunk "Hi" [(none, some "f", "\x7b")], toolChunk "" [(some "c", none, "\x7d")]] none
        frames' ∧
      frames.filter (fun f => f.finishIndex.isSome) =
        frames'.filter (fun f => f.finishIndex.isSome) := by
  have hloads : Runtime.readsEmpty.LoadsTotal := by
    intro text exc h
    unfold Runtime.readsEmpty at h
    dsimp only at h
    split at h <;> cases h
  have hsame : SameCalls [toolChunk "" [(some "c", some "f", "{}")]]
      [toolChunk "Hi" [(none, some "f", "\x7b")], toolChunk "" [(some "c", none, "\x7d")]] := by
    have hzero : ∀ index : Int, index ≠ 0 →
        callsAt index [toolChunk "" [(some "c", some "f", "{}")]] = [] ∧
          callsAt index [toolChunk "Hi" [(none, some "f", "\x7b")],
            toolChunk "" [(some "c", none, "\x7d")]] = [] := by
      intro index hne
      simp [callsAt, toolChunk, hne.symm]
    constructor <;> intro index <;> by_cases hindex : index = 0
    all_goals first
      | (subst hindex; decide)
      | rw [(hzero index hindex).1, (hzero index hindex).2]
  obtain ⟨frames, frames', h, h', heq, -⟩ := reassembled .readsEmpty hloads [] "m"
    List.not_mem_nil _ _ ⟨List.cons_ne_nil _ _, by decide⟩ ⟨List.cons_ne_nil _ _, by decide⟩
    (by unfold Explicit; decide) (by unfold Explicit; decide) hsame none none
    (fun _ hn => by cases hn) (fun _ hn => by cases hn)
  exact ⟨frames, frames', h, h', heq⟩

end AgentProtocol

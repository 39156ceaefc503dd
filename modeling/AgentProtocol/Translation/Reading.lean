import Mathlib.Algebra.GroupWithZero.Nat
import AgentProtocol.Translation.Sequence

/-!
# Reading frames back

A client reads frames in order: a `message-start` says whose message the frames
after it are, a `message-finish` that it is over. `framed` follows this and fails on
a frame out of place; `owned` collects the fragments of text and of tool-call
arguments with the message they were read for.

What a sequencer sinks can be followed from turn to turn, and a chunk it takes is
read back whole (`Sequencer.feed_spec`, `Sequencer.close_spec`).
-/

namespace AgentProtocol

/-- A fragment, as a delta frame carries it. -/
inductive Delta where
  | text (s : String)
  | args (s : String)
  deriving DecidableEq

def Delta.text? : Delta → Option String
  | .text s => some s
  | .args _ => none

def Delta.args? : Delta → Option String
  | .text _ => none
  | .args s => some s

def Fragment.delta (fragment : Fragment) : Option Delta :=
  match fragment.args with
  | some args => if args = "" then none else some (.args args)
  | none => none

/-- The fragments of a chunk that are not empty. -/
def Chunk.fragments (rt : Runtime) (chunk : Chunk) : List Delta :=
  (if textContent rt chunk = "" then [] else [.text (textContent rt chunk)]) ++
    chunk.toolCallChunks.filterMap Fragment.delta

/-- A chunk of text, as a chat model streams it. -/
def textChunk (id text : String) : Chunk :=
  { address := 0, type := "AIMessageChunk", id, content := .text text, toolCallChunks := []
    usageMetadata := ∅ }

namespace Frame

def delta : Frame → Option Delta
  | .textDelta _ text => some (.text text)
  | .blockDelta _ _ _ args => some (.args args)
  | _ => none

/-- It stands inside a message. -/
def isContent : Frame → Bool
  | .messageStart .. => false
  | .messageFinish _ => false
  | _ => true

def isFinish : Frame → Bool
  | .messageFinish _ => true
  | _ => false

theorem isFinish_of_isContent {frame : Frame} (h : frame.isContent = true) :
    frame.isFinish = false := by
  cases frame with
  | messageFinish => cases h
  | _ => rfl

end Frame

/-- The message that is open after these frames, if none of them is out of place. -/
def framed : Option String → List Frame → Option (Option String)
  | cur, [] => some cur
  | none, .messageStart _ id :: frames => framed (some id) frames
  | some _, .messageFinish _ :: frames => framed none frames
  | some id, frame :: frames => if frame.isContent then framed (some id) frames else none
  | none, _ :: _ => none

/-- The fragments in these frames, each with the message that is open there. -/
def owned : Option String → List Frame → List (String × Delta)
  | _, [] => []
  | _, .messageStart _ id :: frames => owned (some id) frames
  | _, .messageFinish _ :: frames => owned none frames
  | some id, frame :: frames => (frame.delta.toList.map fun d => (id, d)) ++ owned (some id) frames
  | none, _ :: frames => owned none frames

/-- The ids of the messages these frames start. -/
def startIds (frames : List Frame) : List String :=
  frames.filterMap fun frame =>
    match frame with
    | .messageStart _ id => some id
    | _ => none

/-! ## Fragments -/

section Fragments

theorem Fragment.delta_eq_some {fragment : Fragment} {d : Delta} (h : fragment.delta = some d) :
    ∃ args, args ≠ "" ∧ d = .args args := by
  unfold Fragment.delta at h
  split at h
  · next args _ =>
    split at h
    · cases h
    · next hne => exact ⟨args, hne, (Option.some.inj h).symm⟩
  · cases h

/-- The text of these chunks is that of their fragments. -/
theorem join_text_fragments (rt : Runtime) (chunks : List Chunk) :
    String.join ((chunks.flatMap (Chunk.fragments rt)).filterMap Delta.text?) =
      String.join (chunks.map (textContent rt)) := by
  induction chunks with
  | nil => rfl
  | cons chunk chunks ih =>
      have hargs : (chunk.toolCallChunks.filterMap Fragment.delta).filterMap Delta.text? = [] := by
        refine List.filterMap_eq_nil_iff.mpr fun d hd => ?_
        obtain ⟨fragment, -, hf⟩ := List.mem_filterMap.mp hd
        obtain ⟨args, -, rfl⟩ := Fragment.delta_eq_some hf
        rfl
      rw [List.flatMap_cons, List.filterMap_append, String.join_append, ih, List.map_cons,
        String.join_cons]
      congr 1
      unfold Chunk.fragments
      rw [List.filterMap_append, hargs, List.append_nil]
      split
      · next h => rw [h]; rfl
      · show String.join [textContent rt chunk] = _
        rw [String.join_cons, String.join_nil, String.append_empty]

/-- So are the arguments of their tool calls. -/
theorem args_fragments (rt : Runtime) (chunks : List Chunk) :
    (chunks.flatMap (Chunk.fragments rt)).filterMap Delta.args? =
      ((chunks.flatMap Chunk.toolCallChunks).filterMap Fragment.delta).filterMap Delta.args? := by
  induction chunks with
  | nil => rfl
  | cons chunk chunks ih =>
      rw [List.flatMap_cons, List.flatMap_cons, List.filterMap_append, List.filterMap_append,
        List.filterMap_append, ih]
      congr 1
      unfold Chunk.fragments
      rw [List.filterMap_append]
      split <;> rfl

/-- How much of a message a fragment is. -/
def Delta.weight : Delta → Nat
  | .text s => s.length
  | .args _ => 1

theorem weight_pos {rt : Runtime} {chunks : List Chunk} :
    ∀ d ∈ chunks.flatMap (Chunk.fragments rt), 0 < d.weight := by
  intro d hd
  obtain ⟨chunk, -, hd⟩ := List.mem_flatMap.mp hd
  unfold Chunk.fragments at hd
  rcases List.mem_append.mp hd with hd | hd
  · split at hd
    · cases hd
    · next hne =>
      rw [List.mem_singleton.mp hd]
      show 0 < (textContent rt chunk).length
      rw [← String.length_toList]
      exact List.length_pos_iff.mpr fun hnil => hne (String.toList_eq_nil_iff.mp hnil)
  · obtain ⟨fragment, -, hf⟩ := List.mem_filterMap.mp hd
    obtain ⟨args, -, rfl⟩ := Fragment.delta_eq_some hf
    exact Nat.one_pos

theorem sum_weight (ds : List Delta) :
    (ds.map Delta.weight).sum =
      (String.join (ds.filterMap Delta.text?)).length + (ds.filterMap Delta.args?).length := by
  induction ds with
  | nil => rfl
  | cons d ds ih =>
      rw [List.map_cons, List.sum_cons, ih]
      cases d with
      | text s =>
          show s.length + _ = (String.join (s :: _)).length + _
          rw [String.join_cons, String.length_append, Nat.add_assoc]
          rfl
      | args s =>
          show 1 + _ = _ + (_ :: List.filterMap _ ds).length
          rw [List.length_cons]
          show 1 + _ = (String.join (ds.filterMap Delta.text?)).length + _
          omega

/-- Fragments that are left out are missed. -/
theorem eq_of_sublist_of_weight {xs ys : List Delta} (h : xs.Sublist ys)
    (hpos : ∀ d ∈ ys, 0 < d.weight) :
    (xs.map Delta.weight).sum ≤ (ys.map Delta.weight).sum ∧
      ((xs.map Delta.weight).sum = (ys.map Delta.weight).sum → xs = ys) := by
  induction h with
  | slnil => exact ⟨Nat.le_refl _, fun _ => rfl⟩
  | @cons xs ys d _ ih =>
      rw [List.forall_mem_cons] at hpos
      obtain ⟨hle, -⟩ := ih hpos.2
      have hd := hpos.1
      rw [List.map_cons, List.sum_cons]
      exact ⟨by omega, fun heq => by omega⟩
  | @cons_cons xs ys d _ ih =>
      rw [List.forall_mem_cons] at hpos
      obtain ⟨hle, heq⟩ := ih hpos.2
      rw [List.map_cons, List.sum_cons, List.map_cons, List.sum_cons]
      exact ⟨by omega, fun h => congrArg _ (heq (by omega))⟩

/-- Fragments with the text and the arguments of these chunks are all of them. -/
theorem eq_fragments_of_sublist {rt : Runtime} {chunks : List Chunk} {ds : List Delta}
    (h : ds.Sublist (chunks.flatMap (Chunk.fragments rt)))
    (htext : String.join (ds.filterMap Delta.text?) = String.join (chunks.map (textContent rt)))
    (hargs : ds.filterMap Delta.args? =
      ((chunks.flatMap Chunk.toolCallChunks).filterMap Fragment.delta).filterMap Delta.args?) :
    ds = chunks.flatMap (Chunk.fragments rt) := by
  apply (eq_of_sublist_of_weight h weight_pos).2
  rw [sum_weight, sum_weight, htext, hargs, join_text_fragments, args_fragments]

end Fragments

section Reading

variable {cur cur' : Option String} {xs ys : List Frame}

theorem framed_append (h : framed cur xs = some cur') : framed cur (xs ++ ys) = framed cur' ys := by
  induction xs generalizing cur with
  | nil =>
      obtain rfl := Option.some.inj h
      rfl
  | cons frame xs ih =>
      cases cur with
      | none =>
          cases frame with
          | messageStart role id => exact ih h
          | _ => cases h
      | some id =>
          cases frame with
          | messageStart role id => cases h
          | _ => exact ih h

theorem owned_append (h : framed cur xs = some cur') :
    owned cur (xs ++ ys) = owned cur xs ++ owned cur' ys := by
  induction xs generalizing cur with
  | nil =>
      obtain rfl := Option.some.inj h
      rfl
  | cons frame xs ih =>
      cases cur with
      | none =>
          cases frame with
          | messageStart role id => exact ih h
          | _ => cases h
      | some id =>
          cases frame with
          | messageStart role id => cases h
          | messageFinish usage => exact ih h
          | _ => exact (congrArg _ (ih h)).trans (List.append_assoc _ _ _).symm

/-- Frames inside one message. -/
theorem framed_content (id : String) (h : ∀ f ∈ xs, f.isContent = true) :
    framed (some id) xs = some (some id) := by
  induction xs with
  | nil => rfl
  | cons frame xs ih =>
      rw [List.forall_mem_cons] at h
      cases frame with
      | messageStart => cases h.1
      | messageFinish => cases h.1
      | _ => exact ih h.2

theorem owned_content (id : String) (h : ∀ f ∈ xs, f.isContent = true) :
    owned (some id) xs = (xs.filterMap Frame.delta).map fun d => (id, d) := by
  induction xs with
  | nil => rfl
  | cons frame xs ih =>
      rw [List.forall_mem_cons] at h
      cases frame with
      | messageStart => cases h.1
      | messageFinish => cases h.1
      | _ => exact congrArg _ (ih h.2)

theorem startIds_append (xs ys : List Frame) : startIds (xs ++ ys) = startIds xs ++ startIds ys :=
  List.filterMap_append

theorem startIds_content (h : ∀ f ∈ xs, f.isContent = true) : startIds xs = [] := by
  refine List.filterMap_eq_nil_iff.mpr fun frame hf => ?_
  cases frame with
  | messageStart => cases h _ hf
  | _ => rfl

end Reading

/-! ## The frames of an emitter -/

namespace MessageFrameEmitter

variable {rt : Runtime}

theorem emitTextDelta_frames (rt : Runtime) (e : MessageFrameEmitter) (chunk : Chunk) :
    (∀ f ∈ (e.emitTextDelta rt chunk).2, f.isContent = true) ∧
      (e.emitTextDelta rt chunk).2.filterMap Frame.delta =
        if textContent rt chunk = "" then [] else [.text (textContent rt chunk)] := by
  unfold emitTextDelta
  dsimp only
  split
  · exact ⟨fun f hf => (by cases hf), rfl⟩
  · refine ⟨fun f hf => ?_, rfl⟩
    rw [List.mem_singleton.mp hf]
    rfl

theorem emitToolCallChunk_frames (e : MessageFrameEmitter) (fragment : Fragment) :
    (∀ f ∈ (e.emitToolCallChunk fragment).2, f.isContent = true) ∧
      (e.emitToolCallChunk fragment).2.filterMap Frame.delta = fragment.delta.toList := by
  unfold emitToolCallChunk Fragment.delta
  cases hget : (e.fragmentIndex fragment).2.blocks.get? (e.fragmentIndex fragment).1 with
  | none =>
      cases fragment.args with
      | none => simp [hget, Frame.isContent, Frame.delta]
      | some args =>
          by_cases ha : args = ""
          · simp [hget, ha, Frame.isContent, Frame.delta]
          · simp [hget, ha, Frame.isContent, Frame.delta, List.filterMap_cons]
  | some state =>
      cases fragment.args with
      | none => simp [hget]
      | some args => by_cases ha : args = "" <;> simp [hget, ha, Frame.isContent, Frame.delta]

theorem emitToolCallChunks_frames (e : MessageFrameEmitter) (fragments : List Fragment) :
    (∀ f ∈ (e.emitToolCallChunks fragments).2, f.isContent = true) ∧
      (e.emitToolCallChunks fragments).2.filterMap Frame.delta =
        fragments.filterMap Fragment.delta := by
  induction fragments generalizing e with
  | nil => exact ⟨fun f hf => (by cases hf), rfl⟩
  | cons fragment fragments ih =>
      obtain ⟨hc, hd⟩ := e.emitToolCallChunk_frames fragment
      obtain ⟨hc', hd'⟩ := ih (e.emitToolCallChunk fragment).1
      constructor
      · intro f hf
        exact (List.mem_append.mp hf).elim (hc f) (hc' f)
      · show ((e.emitToolCallChunk fragment).2 ++ _).filterMap Frame.delta = _
        rw [List.filterMap_append, hd, hd']
        cases hfd : fragment.delta with
        | none => rw [List.filterMap_cons_none hfd]; rfl
        | some d => rw [List.filterMap_cons_some hfd]; rfl

/-- The frames of a chunk stand inside its message and carry its fragments. -/
theorem content_frames (rt : Runtime) (e : MessageFrameEmitter) (chunk : Chunk) :
    (∀ f ∈ e.content rt chunk, f.isContent = true) ∧
      (e.content rt chunk).filterMap Frame.delta = chunk.fragments rt := by
  obtain ⟨hc, hd⟩ := e.emitStart.1.emitTextDelta_frames rt chunk
  obtain ⟨hc', hd'⟩ :=
    (e.emitStart.1.emitTextDelta rt chunk).1.emitToolCallChunks_frames chunk.toolCallChunks
  constructor
  · intro f hf
    exact (List.mem_append.mp hf).elim (hc f) (hc' f)
  · unfold content Chunk.fragments
    rw [List.filterMap_append, hd, hd']

theorem finalizeBlocksAt_frames (blocks : Dict Int BlockState) (indices : List Int) :
    ∀ f ∈ (finalizeBlocksAt rt blocks indices).1, f.isContent = true ∧ f.delta = none := by
  induction indices with
  | nil =>
      intro f hf
      cases hf
  | cons index indices ih =>
      rw [finalizeBlocksAt]
      split
      · exact ih
      · split
        · intro f hf
          cases hf
        · intro f hf
          rcases List.mem_cons.mp hf with rfl | hf
          · exact ⟨rfl, rfl⟩
          · exact ih f hf

/-- Closing a message sinks no fragment, and its finish frame last if it returns. -/
theorem close_frames (rt : Runtime) (usage : Dict String Json) (e : MessageFrameEmitter) :
    ∃ blocks, (∀ f ∈ blocks, f.isContent = true ∧ f.delta = none) ∧
      (((e.close rt usage).raised = none ∧
          ∃ usage', (e.close rt usage).frames = blocks ++ [.messageFinish usage']) ∨
        ((e.close rt usage).raised ≠ none ∧ (e.close rt usage).frames = blocks)) := by
  refine ⟨((e.withUsage usage).finalizeBlocks rt).1, finalizeBlocksAt_frames _ _, ?_⟩
  unfold close
  dsimp only
  split
  · next h =>
    rw [h]
    exact .inr ⟨Option.some_ne_none _, rfl⟩
  · next h =>
    rw [h]
    exact .inl ⟨rfl, _, rfl⟩

end MessageFrameEmitter

/-! ## The frames of a sequencer -/

namespace Sequencer

variable {rt : Runtime} {q : Sequencer}

/-- The message whose turn it is. -/
def turn (q : Sequencer) : Option String := q.current.map Prod.fst

/-- The end of a turn closes its message and carries nothing. -/
theorem close_spec (rt : Runtime) (q : Sequencer) (usage : Dict String Json) :
    framed q.turn (q.close rt usage).frames = some (q.close rt usage).state.turn ∧
      owned q.turn (q.close rt usage).frames = [] ∧ startIds (q.close rt usage).frames = [] := by
  obtain ⟨current, seen⟩ := q
  cases current with
  | none => exact ⟨rfl, rfl, rfl⟩
  | some p =>
      obtain ⟨id, e⟩ := p
      obtain ⟨blocks, hblocks, hclose⟩ := e.close_frames rt usage
      have hcontent : ∀ f ∈ blocks, f.isContent = true := fun f hf => (hblocks f hf).1
      have hdelta : blocks.filterMap Frame.delta = [] :=
        List.filterMap_eq_nil_iff.mpr fun f hf => (hblocks f hf).2
      have howned : owned (some id) blocks = [] := by
        rw [owned_content id hcontent, hdelta]
        rfl
      simp only [close, turn, Option.map_some]
      rcases hclose with ⟨hr, usage', hframes⟩ | ⟨hr, hframes⟩
      · simp only [hr, hframes]
        refine ⟨?_, ?_, ?_⟩
        · rw [framed_append (framed_content id hcontent)]
          rfl
        · rw [owned_append (framed_content id hcontent), howned]
          rfl
        · rw [startIds_append, startIds_content hcontent]
          rfl
      · obtain ⟨exc, hexc⟩ := Option.ne_none_iff_exists'.mp hr
        simp only [hexc, hframes]
        exact ⟨framed_content id hcontent, howned, startIds_content hcontent⟩

theorem finish_spec (rt : Runtime) (q : Sequencer) (chunk : Option Chunk) :
    framed q.turn (q.finish rt chunk).frames = some (q.finish rt chunk).state.turn ∧
      owned q.turn (q.finish rt chunk).frames = [] ∧
      startIds (q.finish rt chunk).frames = [] := by
  unfold finish
  split
  · exact q.close_spec rt ∅
  · split
    · exact ⟨rfl, rfl, rfl⟩
    · split
      · exact q.close_spec rt _
      · exact ⟨rfl, rfl, rfl⟩

/-- The chunk is sunk: it is its message's turn, or its message is new and the one
before can be closed. -/
def takes (rt : Runtime) (q : Sequencer) (chunk : Chunk) : Bool :=
  (role chunk).isSome &&
    if MessagesTranslator.messageId chunk ∈ q.seen then
      q.isTurn (MessagesTranslator.messageId chunk)
    else (q.close rt ∅).raised.isNone

/-- A chunk that is taken is read back whole, under its own message. -/
theorem feed_spec (rt : Runtime) (q : Sequencer) (chunk : Chunk) :
    framed q.turn (q.feed rt chunk).frames = some (q.feed rt chunk).state.turn ∧
      owned q.turn (q.feed rt chunk).frames =
        (if q.takes rt chunk then
          (chunk.fragments rt).map fun d => (MessagesTranslator.messageId chunk, d)
        else []) := by
  unfold feed takes
  cases hrole : role chunk with
  | none => exact ⟨rfl, rfl⟩
  | some role =>
      dsimp only
      by_cases hseen : MessagesTranslator.messageId chunk ∈ q.seen
      · simp only [if_pos hseen, Option.isSome_some, Bool.true_and]
        obtain ⟨current, seen⟩ := q
        cases current with
        | none => exact ⟨rfl, rfl⟩
        | some p =>
            obtain ⟨id, e⟩ := p
            by_cases hid : id = MessagesTranslator.messageId chunk
            · subst hid
              obtain ⟨hc, hd⟩ := e.content_frames rt chunk
              simp only [isTurn, turn, if_true, beq_self_eq_true, Option.map_some]
              exact ⟨framed_content _ hc, by rw [owned_content _ hc, hd]⟩
            · simp only [isTurn, if_neg hid, beq_eq_false_iff_ne.mpr hid, Bool.false_eq_true,
                if_false]
              exact ⟨rfl, rfl⟩
      · simp only [if_neg hseen, Option.isSome_some, Bool.true_and]
        obtain ⟨hframed, howned, -⟩ := q.close_spec rt ∅
        unfold begin
        dsimp only
        cases hr : (q.close rt ∅).raised with
        | some exc => exact ⟨hframed, howned⟩
        | none =>
            obtain ⟨hc, hd⟩ :=
              (MessageFrameEmitter.new (MessagesTranslator.messageId chunk) role).content_frames
                rt chunk
            rw [q.close_returned hr] at hframed
            simp only [Option.isNone_none, if_true]
            constructor
            · rw [framed_append hframed]
              exact framed_content _ hc
            · rw [owned_append hframed, howned, List.nil_append]
              show owned (some _) _ = _
              rw [owned_content _ hc, hd]

end Sequencer

/-! ## The messages of a sequencer -/

/-- The frames of a call lead from the turn before it to the turn after it, and start
each message once. -/
structure Emission.ReadFrom (r : Emission Sequencer) (q : Sequencer) : Prop where
  framed : framed q.turn r.frames = some r.state.turn
  seen : r.state.seen = (startIds r.frames).reverse ++ q.seen
  nodup : q.seen.Nodup → r.state.seen.Nodup

namespace Emission.ReadFrom

variable {r : Emission Sequencer} {q : Sequencer}

theorem silent (raised : Option PyExc) : (Emission.mk q [] raised).ReadFrom q :=
  ⟨rfl, rfl, id⟩

theorem andThen (h : r.ReadFrom q) {next : Sequencer → Emission Sequencer}
    (hnext : ∀ q, (next q).ReadFrom q) : (r.andThen next).ReadFrom q := by
  cases hr : r.raised with
  | some exc =>
      rw [andThen_raised hr]
      exact h
  | none =>
      have hn := hnext r.state
      rw [andThen_returned hr]
      constructor
      · exact (framed_append h.framed).trans hn.framed
      · show (next r.state).state.seen = (startIds (r.frames ++ _)).reverse ++ q.seen
        rw [hn.seen, h.seen, startIds_append, List.reverse_append, List.append_assoc]
      · exact fun hq => hn.nodup (h.nodup hq)

theorem fold {α : Type} {call : Sequencer → α → Emission Sequencer}
    (hcall : ∀ q x, (call q x).ReadFrom q) (xs : List α) (q : Sequencer) :
    (Emission.fold call xs q).ReadFrom q := by
  induction xs generalizing q with
  | nil => exact .silent none
  | cons x xs ih => exact (hcall q x).andThen ih

end Emission.ReadFrom

namespace Sequencer

variable {rt : Runtime}

theorem close_of_loadsTotal (h : rt.LoadsTotal) (q : Sequencer) (usage : Dict String Json) :
    (q.close rt usage).raised = none := by
  obtain ⟨current, seen⟩ := q
  cases current with
  | none => rfl
  | some p =>
      have hp := (p.2.close_raised_iff rt usage).mpr (p.2.parses_of_loadsTotal h)
      simp only [close, hp]

theorem close_seen (q : Sequencer) (usage : Dict String Json) :
    (q.close rt usage).state.seen = q.seen := by
  unfold close
  split
  · rfl
  · dsimp only
    split <;> rfl

theorem close_readFrom (rt : Runtime) (q : Sequencer) (usage : Dict String Json) :
    (q.close rt usage).ReadFrom q := by
  obtain ⟨hframed, -, hstart⟩ := q.close_spec rt usage
  refine ⟨hframed, ?_, ?_⟩
  · rw [hstart, close_seen]
    rfl
  · rw [close_seen]
    exact id

theorem finish_readFrom (q : Sequencer) (chunk : Option Chunk) :
    (q.finish rt chunk).ReadFrom q := by
  unfold finish
  split
  · exact q.close_readFrom rt ∅
  · split
    · exact .silent none
    · split
      · exact q.close_readFrom rt _
      · exact .silent none

theorem feed_readFrom (rt : Runtime) (q : Sequencer) (chunk : Chunk) :
    (q.feed rt chunk).ReadFrom q := by
  suffices h : (q.feed rt chunk).state.seen =
      (startIds (q.feed rt chunk).frames).reverse ++ q.seen ∧
      (q.seen.Nodup → (q.feed rt chunk).state.seen.Nodup) from ⟨(q.feed_spec rt chunk).1, h.1, h.2⟩
  unfold feed
  cases hrole : role chunk with
  | none => exact ⟨rfl, id⟩
  | some role =>
      dsimp only
      by_cases hseen : MessagesTranslator.messageId chunk ∈ q.seen
      · rw [if_pos hseen]
        obtain ⟨current, seen⟩ := q
        cases current with
        | none => exact ⟨rfl, id⟩
        | some p =>
            dsimp only
            split
            · obtain ⟨hc, -⟩ := p.2.content_frames rt chunk
              exact ⟨by rw [startIds_content hc]; rfl, id⟩
            · exact ⟨rfl, id⟩
      · rw [if_neg hseen]
        have hclose := q.close_readFrom rt ∅
        unfold begin
        dsimp only
        cases hr : (q.close rt ∅).raised with
        | some exc => exact ⟨hclose.seen, hclose.nodup⟩
        | none =>
            obtain ⟨hc, -⟩ := (MessageFrameEmitter.new (MessagesTranslator.messageId chunk)
              role).content_frames rt chunk
            obtain ⟨-, -, hstart⟩ := q.close_spec rt ∅
            constructor
            · rw [startIds_append, hstart]
              show _ = (_ :: startIds _).reverse ++ _
              rw [startIds_content hc]
              rfl
            · exact fun hq => List.nodup_cons.mpr ⟨hseen, hq⟩

end Sequencer

end AgentProtocol

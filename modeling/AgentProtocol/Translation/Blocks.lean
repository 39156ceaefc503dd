import AgentProtocol.Translation.Script

/-!
# The blocks of a message

A message is a list of pieces: texts and fragments of tool calls. Each piece has an index
when it is emitted, the one it carries or one that is allocated for it (`place`). What
becomes of a block is decided by the fragments at its index alone, in their order, whatever
is emitted in between: its state is their `BlockState.joined`, and its frames are those of
`blockFrames` (`emitPieces_at`).
-/

namespace AgentProtocol

/-- What a chunk adds to its message: a text that is not empty, or a fragment. -/
inductive Piece where
  | text (s : String)
  | call (fragment : Fragment)

def Chunk.pieces (rt : Runtime) (chunk : Chunk) : List Piece :=
  (if textContent rt chunk = "" then [] else [.text (textContent rt chunk)]) ++
    chunk.toolCallChunks.map .call

def MessageTurn.pieces (rt : Runtime) (turn : MessageTurn) : List Piece :=
  turn.chunks.flatMap (Chunk.pieces rt)

namespace Piece

/-- The index a piece is emitted at, when `next` is the next one to be allocated and
`textIndex` that of the text. -/
def indexFrom (next : Int) (textIndex : Option Int) : Piece → Int
  | .text _ => textIndex.getD next
  | .call fragment => fragment.index.getD next

/-- An index is allocated for it. -/
def allocates (textIndex : Option Int) : Piece → Bool
  | .text _ => textIndex.isNone
  | .call fragment => fragment.index.isNone

/-- The next index after it. -/
def nextFrom (next : Int) (textIndex : Option Int) (piece : Piece) : Int :=
  if piece.allocates textIndex then next + 1 else next

/-- The index of the text after it. -/
def textFrom (next : Int) (textIndex : Option Int) : Piece → Option Int
  | .text _ => some (textIndex.getD next)
  | .call _ => textIndex

end Piece

/-- The pieces with the indices they are emitted at. -/
def place (next : Int) (textIndex : Option Int) : List Piece → List (Int × Piece)
  | [] => []
  | piece :: pieces =>
    (piece.indexFrom next textIndex, piece) ::
      place (piece.nextFrom next textIndex) (piece.textFrom next textIndex) pieces

/-- The pieces of a turn with their indices. -/
def MessageTurn.placed (rt : Runtime) (turn : MessageTurn) : List (Int × Piece) :=
  place 0 none (turn.pieces rt)

/-- The fragments at this index. -/
def fragmentsAt (index : Int) (placed : List (Int × Piece)) : List Fragment :=
  placed.filterMap fun p =>
    match p.2 with
    | .call fragment => if p.1 = index then some fragment else none
    | .text _ => none

/-- The text of the arguments of these fragments. -/
def argsText (fragments : List Fragment) : String :=
  String.join (fragments.map fun fragment => fragment.args.getD "")

theorem argsText_cons (fragment : Fragment) (fragments : List Fragment) :
    argsText (fragment :: fragments) = fragment.args.getD "" ++ argsText fragments := by
  unfold argsText
  rw [List.map_cons, String.join_cons]

theorem fragmentsAt_call (index j : Int) (fragment : Fragment) (placed : List (Int × Piece)) :
    fragmentsAt index ((j, .call fragment) :: placed) =
      if j = index then fragment :: fragmentsAt index placed else fragmentsAt index placed := by
  unfold fragmentsAt
  rw [List.filterMap_cons]
  dsimp only
  by_cases h : j = index
  · rw [if_pos h, if_pos h]
  · rw [if_neg h, if_neg h]

/-- A block after one fragment more. -/
def BlockState.joined (index : Int) (state : Option BlockState) (fragment : Fragment) :
    BlockState :=
  match state with
  | none =>
    { index, callId := fragment.id, name := fragment.name, args := fragment.args.getD "" }
  | some state =>
    { state with
        callId := strOr state.callId fragment.id
        name := strOr state.name fragment.name
        args := state.args ++ fragment.args.getD "" }

/-- The frames of a fragment at this index. -/
def fragmentFrames (index : Int) (state : Option BlockState) (fragment : Fragment) : List Frame :=
  (if state.isNone then [.blockStart index fragment.id fragment.name] else []) ++
    match fragment.args with
    | some args =>
      if args = "" then []
      else
        [.blockDelta index (BlockState.joined index state fragment).callId
          (BlockState.joined index state fragment).name args]
    | none => []

/-- The block of these fragments, and their frames. -/
def blockAfter (index : Int) (state : Option BlockState) (fragments : List Fragment) :
    Option BlockState :=
  fragments.foldl (fun state fragment => some (.joined index state fragment)) state

def blockFrames (index : Int) (state : Option BlockState) : List Fragment → List Frame
  | [] => []
  | fragment :: fragments =>
    fragmentFrames index state fragment ++
      blockFrames index (some (.joined index state fragment)) fragments

/-- The index of a frame of a tool call. -/
def Frame.toolIndex : Frame → Option Int
  | .blockStart index _ _ => some index
  | .blockDelta index _ _ _ => some index
  | .blockFinish index _ _ _ => some index
  | _ => none

/-- It is a frame of the tool call at this index. -/
def Frame.isToolAt (index : Int) (frame : Frame) : Bool := frame.toolIndex == some index

/-- It may stand in the body of a message. -/
def Frame.isBody : Frame → Bool
  | .textDelta .. => true
  | .blockStart .. => true
  | .blockDelta .. => true
  | _ => false

/-- The index of a block that starts here. -/
def Frame.startIndex : Frame → Option Int
  | .blockStart index _ _ => some index
  | _ => none

/-- The index of a block that finishes here. -/
def Frame.finishIndex : Frame → Option Int
  | .blockFinish index _ _ _ => some index
  | _ => none

namespace MessageFrameEmitter

def emitPiece (e : MessageFrameEmitter) : Piece → MessageFrameEmitter × List Frame
  | .text s => (e.ensureTextIndex.2, [.textDelta e.ensureTextIndex.1 s])
  | .call fragment => e.emitToolCallChunk fragment

def emitPieces (e : MessageFrameEmitter) : List Piece → MessageFrameEmitter × List Frame
  | [] => (e, [])
  | piece :: pieces =>
    let r := e.emitPiece piece
    let r' := r.1.emitPieces pieces
    (r'.1, r.2 ++ r'.2)

/-- The emitter of a message that has started. -/
def opened (messageId role : String) : MessageFrameEmitter :=
  { new messageId role with started := true }

section Pieces

variable {rt : Runtime}

theorem emitPieces_append (e : MessageFrameEmitter) (xs ys : List Piece) :
    e.emitPieces (xs ++ ys) = (((e.emitPieces xs).1.emitPieces ys).1,
      (e.emitPieces xs).2 ++ ((e.emitPieces xs).1.emitPieces ys).2) := by
  induction xs generalizing e with
  | nil => rfl
  | cons x xs ih =>
      simp only [List.cons_append, emitPieces, ih, List.append_assoc]

theorem emitToolCallChunks_eq (e : MessageFrameEmitter) (fragments : List Fragment) :
    e.emitToolCallChunks fragments = e.emitPieces (fragments.map .call) := by
  induction fragments generalizing e with
  | nil => rfl
  | cons fragment fragments ih =>
      show (((e.emitToolCallChunk fragment).1.emitToolCallChunks fragments).1, _ ++ _) = _
      rw [ih]
      rfl

theorem emitTextDelta_eq (e : MessageFrameEmitter) (chunk : Chunk) :
    e.emitTextDelta rt chunk =
      e.emitPieces
        (if textContent rt chunk = "" then [] else [.text (textContent rt chunk)]) := by
  unfold emitTextDelta
  dsimp only
  split <;> rfl

/-- A chunk is emitted piece by piece. -/
theorem emitChunk_eq (rt : Runtime) (e : MessageFrameEmitter) (chunk : Chunk) :
    (e.fed rt chunk, e.content rt chunk) = e.emitStart.1.emitPieces (chunk.pieces rt) := by
  unfold fed content Chunk.pieces
  rw [emitPieces_append, emitToolCallChunks_eq, emitTextDelta_eq]

theorem emitStart_of_started {e : MessageFrameEmitter} (h : e.started = true) :
    e.emitStart.1 = e := by
  unfold emitStart
  rw [if_pos h]

/-- A message that has started is emitted piece by piece. -/
theorem speak_of_started {e : MessageFrameEmitter} (h : e.started = true) (chunks : List Chunk) :
    e.speak rt chunks = e.emitPieces (chunks.flatMap (Chunk.pieces rt)) := by
  induction chunks generalizing e with
  | nil => rfl
  | cons chunk chunks ih =>
      have hchunk := e.emitChunk_eq rt chunk
      rw [emitStart_of_started h] at hchunk
      rw [List.flatMap_cons, emitPieces_append, ← hchunk, ← ih (e.fed_started chunk)]
      rfl

theorem speak_started {e : MessageFrameEmitter} (h : e.started = true) (chunks : List Chunk) :
    (e.speak rt chunks).1.started = true := by
  induction chunks generalizing e with
  | nil => exact h
  | cons chunk chunks ih => exact ih (e.fed_started chunk)

end Pieces

end MessageFrameEmitter

/-- The frames and the blocks of a turn are those of its pieces. -/
theorem MessageTurn.emitPieces_eq (rt : Runtime) (turn : MessageTurn) :
    turn.body rt = ((MessageFrameEmitter.opened turn.id turn.role).emitPieces (turn.pieces rt)).2 ∧
      (turn.emitter rt).blocks =
        ((MessageFrameEmitter.opened turn.id turn.role).emitPieces (turn.pieces rt)).1.blocks := by
  obtain ⟨id, role, chunks⟩ := turn
  cases chunks with
  | nil => exact ⟨rfl, rfl⟩
  | cons chunk chunks =>
      -- the first chunk starts the message, and nothing else depends on that
      have hspeak : (MessageFrameEmitter.new id role).speak rt (chunk :: chunks) =
          (MessageFrameEmitter.opened id role).speak rt (chunk :: chunks) := rfl
      unfold MessageTurn.body MessageTurn.emitter MessageTurn.pieces
      rw [hspeak, MessageFrameEmitter.speak_of_started rfl]
      exact ⟨rfl, rfl⟩

/-! ## A block and the fragments at its index -/

/-- The arguments in a frame. -/
def Frame.args? : Frame → Option String
  | .blockDelta _ _ _ args => some args
  | _ => none

/-- A fragment starts its block when it is new, and adds its arguments. -/
theorem fragmentFrames_eq (index : Int) (state : Option BlockState) (fragment : Fragment) :
    ∃ deltas, fragmentFrames index state fragment =
        (if state.isNone then [.blockStart index fragment.id fragment.name] else []) ++ deltas ∧
      (∀ f ∈ deltas, ∃ id name args, f = .blockDelta index id name args) ∧
      String.join (deltas.filterMap Frame.args?) = fragment.args.getD "" := by
  refine ⟨_, rfl, ?_⟩
  cases fragment.args with
  | none => exact ⟨fun f hf => (by cases hf), rfl⟩
  | some args =>
      by_cases ha : args = ""
      · rw [ha]
        exact ⟨fun f hf => (by cases hf), rfl⟩
      · simp only [ha, if_false]
        refine ⟨fun f hf => ?_, ?_⟩
        · rw [List.mem_singleton.mp hf]
          exact ⟨_, _, _, rfl⟩
        · show String.join [args] = args
          rw [String.join_cons, String.join_nil, String.append_empty]

namespace MessageFrameEmitter

theorem fragmentIndex_eq (e : MessageFrameEmitter) (fragment : Fragment) :
    (e.fragmentIndex fragment).1 = fragment.index.getD e.nextIndex ∧
      (e.fragmentIndex fragment).2.blocks = e.blocks ∧
      (e.fragmentIndex fragment).2.textIndex = e.textIndex ∧
      (e.fragmentIndex fragment).2.nextIndex =
        if fragment.index.isNone then e.nextIndex + 1 else e.nextIndex := by
  unfold fragmentIndex allocateIndex
  cases fragment.index <;> exact ⟨rfl, rfl, rfl, rfl⟩

/-- A fragment joins the block at its index. -/
theorem emitToolCallChunk_eq (e : MessageFrameEmitter) (fragment : Fragment) :
    e.emitToolCallChunk fragment =
      ({ (e.fragmentIndex fragment).2 with
          blocks := e.blocks.set (fragment.index.getD e.nextIndex)
            (.joined (fragment.index.getD e.nextIndex)
              (e.blocks.get? (fragment.index.getD e.nextIndex)) fragment) },
        fragmentFrames (fragment.index.getD e.nextIndex)
          (e.blocks.get? (fragment.index.getD e.nextIndex)) fragment) := by
  obtain ⟨hindex, hblocks, -⟩ := e.fragmentIndex_eq fragment
  unfold emitToolCallChunk fragmentFrames BlockState.joined
  rw [← hindex]
  generalize e.fragmentIndex fragment = r at hblocks ⊢
  obtain ⟨index, e'⟩ := r
  dsimp only at hblocks ⊢
  rw [hblocks]
  cases e.blocks.get? index with
  | none =>
      cases fragment.args with
      | none => rfl
      | some args => by_cases ha : args = "" <;> simp [ha]
  | some state =>
      cases fragment.args with
      | none => simp
      | some args => by_cases ha : args = "" <;> simp [ha]

theorem ensureTextIndex_eq (e : MessageFrameEmitter) :
    e.ensureTextIndex.1 = e.textIndex.getD e.nextIndex ∧ e.ensureTextIndex.2.blocks = e.blocks ∧
      e.ensureTextIndex.2.textIndex = some (e.textIndex.getD e.nextIndex) ∧
      e.ensureTextIndex.2.nextIndex =
        if e.textIndex.isNone then e.nextIndex + 1 else e.nextIndex := by
  unfold ensureTextIndex allocateIndex
  cases h : e.textIndex with
  | none => exact ⟨rfl, rfl, rfl, rfl⟩
  | some index => exact ⟨rfl, rfl, h, rfl⟩

/-- The counters after a piece. -/
theorem emitPiece_counters (e : MessageFrameEmitter) (piece : Piece) :
    (e.emitPiece piece).1.nextIndex = piece.nextFrom e.nextIndex e.textIndex ∧
      (e.emitPiece piece).1.textIndex = piece.textFrom e.nextIndex e.textIndex := by
  cases piece with
  | text s =>
      obtain ⟨-, -, htext, hnext⟩ := e.ensureTextIndex_eq
      exact ⟨hnext, htext⟩
  | call fragment =>
      obtain ⟨-, -, htext, hnext⟩ := e.fragmentIndex_eq fragment
      show (e.emitToolCallChunk fragment).1.nextIndex = _ ∧ _
      rw [emitPiece, emitToolCallChunk_eq]
      exact ⟨hnext, htext⟩

theorem mem_fragmentFrames {index : Int} {state : Option BlockState} {fragment : Fragment}
    {f : Frame} (h : f ∈ fragmentFrames index state fragment) :
    f = .blockStart index fragment.id fragment.name ∨
      ∃ id name args, f = .blockDelta index id name args := by
  obtain ⟨deltas, hframes, hdelta, -⟩ := fragmentFrames_eq index state fragment
  rw [hframes] at h
  rcases List.mem_append.mp h with h | h
  · split at h
    · exact .inl (List.mem_singleton.mp h)
    · cases h
  · exact .inr (hdelta f h)

theorem fragmentFrames_toolIndex (index : Int) (state : Option BlockState) (fragment : Fragment) :
    ∀ f ∈ fragmentFrames index state fragment, f.toolIndex = some index := by
  intro f hf
  rcases mem_fragmentFrames hf with rfl | ⟨id, name, args, rfl⟩ <;> rfl

/-- A fragment is seen at its own index only. -/
theorem fragmentFrames_filter (index j : Int) (state : Option BlockState) (fragment : Fragment) :
    (fragmentFrames j state fragment).filter (Frame.isToolAt index) =
      if j = index then fragmentFrames j state fragment else [] := by
  have hj := fragmentFrames_toolIndex j state fragment
  split
  · next h =>
    apply List.filter_eq_self.mpr
    intro f hf
    rw [Frame.isToolAt, hj f hf, h]
    exact beq_self_eq_true _
  · next h =>
    apply List.filter_eq_nil_iff.mpr
    intro f hf
    rw [Frame.isToolAt, hj f hf, beq_iff_eq, Option.some.injEq]
    exact h

/-- The block at an index, and its frames, after these pieces. -/
theorem emitPieces_at (e : MessageFrameEmitter) (pieces : List Piece) (index : Int) :
    (e.emitPieces pieces).1.blocks.get? index =
        blockAfter index (e.blocks.get? index)
          (fragmentsAt index (place e.nextIndex e.textIndex pieces)) ∧
      (e.emitPieces pieces).2.filter (Frame.isToolAt index) =
        blockFrames index (e.blocks.get? index)
          (fragmentsAt index (place e.nextIndex e.textIndex pieces)) := by
  induction pieces generalizing e with
  | nil => exact ⟨rfl, rfl⟩
  | cons piece pieces ih =>
      obtain ⟨hblock, hframes⟩ := ih (e.emitPiece piece).1
      obtain ⟨hnext, htext⟩ := e.emitPiece_counters piece
      rw [hnext, htext] at hblock hframes
      rw [emitPieces, place]
      dsimp only
      rw [List.filter_append, hblock, hframes]
      cases piece with
      | text s =>
          obtain ⟨-, hsame, -⟩ := e.ensureTextIndex_eq
          rw [emitPiece]
          dsimp only
          rw [hsame]
          exact ⟨rfl, rfl⟩
      | call fragment =>
          have hindex : Piece.indexFrom e.nextIndex e.textIndex (.call fragment) =
              fragment.index.getD e.nextIndex := rfl
          rw [emitPiece, emitToolCallChunk_eq, fragmentsAt_call, fragmentFrames_filter, hindex]
          dsimp only
          rw [Dict.get?_set]
          by_cases hj : fragment.index.getD e.nextIndex = index
          · rw [if_pos hj, if_pos hj, if_pos hj, hj]
            exact ⟨rfl, rfl⟩
          · rw [if_neg hj, if_neg hj, if_neg hj]
            exact ⟨rfl, rfl⟩

end MessageFrameEmitter

/-- The block at an index is that of the fragments there. -/
theorem MessageTurn.block_at (rt : Runtime) (turn : MessageTurn) (index : Int) :
    (turn.emitter rt).blocks.get? index =
      blockAfter index none (fragmentsAt index (turn.placed rt)) := by
  rw [(turn.emitPieces_eq rt).2]
  exact (MessageFrameEmitter.emitPieces_at _ _ index).1

/-- So are the frames it has before its end. -/
theorem MessageTurn.body_at (rt : Runtime) (turn : MessageTurn) (index : Int) :
    (turn.body rt).filter (Frame.isToolAt index) =
      blockFrames index none (fragmentsAt index (turn.placed rt)) := by
  rw [(turn.emitPieces_eq rt).1]
  exact (MessageFrameEmitter.emitPieces_at _ _ index).2

theorem blockAfter_cons (index : Int) (state : Option BlockState) (fragment : Fragment)
    (fragments : List Fragment) :
    blockAfter index state (fragment :: fragments) =
      blockAfter index (some (.joined index state fragment)) fragments := rfl

theorem blockAfter_isSome (index : Int) (state : BlockState) (fragments : List Fragment) :
    (blockAfter index (some state) fragments).isSome = true := by
  induction fragments generalizing state with
  | nil => rfl
  | cons fragment fragments ih => exact ih _

/-- There is a block where there is a fragment. -/
theorem blockAfter_eq_none_iff (index : Int) (fragments : List Fragment) :
    blockAfter index none fragments = none ↔ fragments = [] := by
  cases fragments with
  | nil => exact iff_of_true rfl rfl
  | cons fragment fragments =>
      have h := blockAfter_isSome index (.joined index none fragment) fragments
      refine iff_of_false (fun hn => ?_) (List.cons_ne_nil _ _)
      rw [blockAfter_cons] at hn
      rw [hn] at h
      cases h

/-- The arguments of a block are those of its fragments. -/
theorem blockAfter_args {index : Int} {state state' : BlockState} {fragments : List Fragment}
    (h : blockAfter index (some state) fragments = some state') :
    state'.args = state.args ++ argsText fragments := by
  induction fragments generalizing state with
  | nil =>
      obtain rfl := Option.some.inj h
      exact String.append_empty.symm
  | cons fragment fragments ih =>
      rw [ih h, argsText_cons, ← String.append_assoc]
      rfl

/-- A block that is there goes on with the arguments of its fragments. -/
theorem blockFrames_some (index : Int) (state : BlockState) (fragments : List Fragment) :
    (∀ f ∈ blockFrames index (some state) fragments,
        ∃ id name args, f = .blockDelta index id name args) ∧
      String.join ((blockFrames index (some state) fragments).filterMap Frame.args?) =
        argsText fragments := by
  induction fragments generalizing state with
  | nil => exact ⟨fun f hf => (by cases hf), rfl⟩
  | cons fragment fragments ih =>
      obtain ⟨deltas, hframes, hdelta, hargs⟩ := fragmentFrames_eq index (some state) fragment
      obtain ⟨hdelta', hargs'⟩ := ih (.joined index (some state) fragment)
      rw [blockFrames, hframes]
      constructor
      · intro f hf
        exact (List.mem_append.mp hf).elim (hdelta f) (hdelta' f)
      · show String.join ((deltas ++ _).filterMap Frame.args?) = _
        rw [List.filterMap_append, String.join_append, hargs, hargs', argsText_cons]

/-- A new block starts, and goes on with the arguments of all its fragments. -/
theorem blockFrames_none (index : Int) (fragment : Fragment) (fragments : List Fragment) :
    ∃ deltas, blockFrames index none (fragment :: fragments) =
        .blockStart index fragment.id fragment.name :: deltas ∧
      (∀ f ∈ deltas, ∃ id name args, f = .blockDelta index id name args) ∧
      String.join (deltas.filterMap Frame.args?) =
        argsText (fragment :: fragments) := by
  obtain ⟨deltas, hframes, hdelta, hargs⟩ := fragmentFrames_eq index none fragment
  obtain ⟨hdelta', hargs'⟩ := blockFrames_some index (.joined index none fragment) fragments
  rw [blockFrames, hframes]
  refine ⟨deltas ++ _, rfl, fun f hf => ?_, ?_⟩
  · exact (List.mem_append.mp hf).elim (hdelta f) (hdelta' f)
  · rw [List.filterMap_append, String.join_append, hargs, hargs', argsText_cons]

theorem isBody_of_mem_fragmentFrames {index : Int} {state : Option BlockState}
    {fragment : Fragment} : ∀ f ∈ fragmentFrames index state fragment, f.isBody = true := by
  intro f hf
  rcases MessageFrameEmitter.mem_fragmentFrames hf with rfl | ⟨id, name, args, rfl⟩ <;> rfl

theorem isBody_of_mem_emitPieces (e : MessageFrameEmitter) (pieces : List Piece) :
    ∀ f ∈ (e.emitPieces pieces).2, f.isBody = true := by
  induction pieces generalizing e with
  | nil =>
      intro f hf
      cases hf
  | cons piece pieces ih =>
      intro f hf
      rcases List.mem_append.mp hf with hf | hf
      · cases piece with
        | text s =>
            rw [List.mem_singleton.mp hf]
            rfl
        | call fragment =>
            rw [MessageFrameEmitter.emitPiece, MessageFrameEmitter.emitToolCallChunk_eq] at hf
            exact isBody_of_mem_fragmentFrames f hf
      · exact ih _ f hf

theorem MessageTurn.body_isBody {rt : Runtime} (turn : MessageTurn) :
    ∀ f ∈ turn.body rt, f.isBody = true := by
  rw [(turn.emitPieces_eq rt).1]
  exact isBody_of_mem_emitPieces _ _

/-! ## The end of a message -/

/-- Of what a function makes of distinct keys, this is what belongs to one of them. -/
theorem filter_filterMap_key {κ β : Type} [DecidableEq κ] {f : κ → Option β} {p : β → Bool}
    {k : κ} (hf : ∀ j b, f j = some b → (p b = true ↔ j = k)) {keys : List κ}
    (hnd : keys.Nodup) :
    (keys.filterMap f).filter p = if k ∈ keys then (f k).toList else [] := by
  induction keys with
  | nil => rfl
  | cons j keys ih =>
      obtain ⟨hj, hnd⟩ := List.nodup_cons.mp hnd
      have hmem : k ≠ j → (k ∈ j :: keys ↔ k ∈ keys) := fun hne => by
        rw [List.mem_cons, or_iff_right hne]
      rw [List.filterMap_cons]
      cases hget : f j with
      | none =>
          dsimp only
          rw [ih hnd]
          by_cases hkj : k = j
          · subst hkj
            rw [if_neg hj, if_pos List.mem_cons_self, hget]
            rfl
          · simp only [hmem hkj]
      | some b =>
          dsimp only
          rw [List.filter_cons, ih hnd]
          by_cases hkj : k = j
          · subst hkj
            rw [if_pos ((hf k b hget).mpr rfl), if_neg hj, if_pos List.mem_cons_self, hget]
            rfl
          · rw [if_neg (fun hp => hkj ((hf j b hget).mp hp).symm)]
            simp only [hmem hkj]

/-- The finish frame of a block whose arguments parse. -/
def BlockState.finishFrame (rt : Runtime) (index : Int) (state : BlockState) : Option Frame :=
  match state.parseArgs rt with
  | .ok args => some (.blockFinish index state.callId state.name args)
  | .error _ => none

theorem BlockState.finishFrame_of_parses {rt : Runtime} {state : BlockState}
    (h : state.parses rt = true) (index : Int) :
    ∃ args, state.parseArgs rt = .ok args ∧
      state.finishFrame rt index = some (.blockFinish index state.callId state.name args) := by
  unfold parses at h
  unfold finishFrame
  cases hargs : state.parseArgs rt with
  | ok args => exact ⟨args, rfl, rfl⟩
  | error exc =>
      rw [hargs] at h
      cases h

namespace MessageFrameEmitter

/-- The indices of the blocks, in order. -/
def indices (e : MessageFrameEmitter) : List Int := e.blocks.keys.insertionSort (· ≤ ·)

/-- The finish frames of the blocks, in order. -/
def finishFrames (rt : Runtime) (e : MessageFrameEmitter) : List Frame :=
  e.indices.filterMap fun index => (e.blocks.get? index).bind (BlockState.finishFrame rt index)

variable {rt : Runtime} {e e' : MessageFrameEmitter}

theorem mem_indices (index : Int) :
    index ∈ e.indices ↔ ∃ state, e.blocks.get? index = some state := by
  rw [indices, List.mem_insertionSort, ← Option.ne_none_iff_exists', ne_eq, Dict.get?_eq_none_iff,
    not_not]

theorem indices_pairwise : e.indices.Pairwise (· < ·) := by
  have hnd : e.indices.Nodup :=
    (List.perm_insertionSort _ _).nodup_iff.mpr e.blocks.nodupKeys
  have hle : e.indices.Pairwise (· ≤ ·) := List.pairwise_insertionSort _ _
  exact hle.imp₂ (fun _ _ hxy hne => lt_of_le_of_ne hxy hne) hnd

theorem finalizeBlocksAt_of_parses (h : e.parses rt = true) (indices : List Int) :
    finalizeBlocksAt rt e.blocks indices =
      (indices.filterMap fun index => (e.blocks.get? index).bind (BlockState.finishFrame rt index),
        none) := by
  induction indices with
  | nil => rfl
  | cons index indices ih =>
      rw [finalizeBlocksAt, ih, List.filterMap_cons]
      cases hget : e.blocks.get? index with
      | none => rfl
      | some state =>
          obtain ⟨args, hargs, hframe⟩ :=
            BlockState.finishFrame_of_parses ((parses_iff e).mp h index state hget) index
          rw [Option.bind_some, hframe]
          dsimp only
          rw [hargs]

/-- A message whose arguments parse is finished: its blocks, then itself. -/
theorem close_of_parses (h : e.parses rt = true) (usage : Dict String Json) :
    (e.close rt usage).frames =
      e.finishFrames rt ++ [.messageFinish (e.withUsage usage).usage] := by
  have hsame : (e.withUsage usage).blocks = e.blocks := by
    unfold withUsage
    split <;> rfl
  have hfinal : (e.withUsage usage).finalizeBlocks rt = (e.finishFrames rt, none) := by
    rw [finalizeBlocks, hsame, finalizeBlocksAt_of_parses h]
    rfl
  unfold close
  dsimp only
  rw [hfinal]

/-- The order in which the blocks came does not matter. -/
theorem indices_congr (h : ∀ index, e.blocks.get? index = e'.blocks.get? index) :
    e.indices = e'.indices := by
  have hmem : ∀ index, index ∈ e.indices ↔ index ∈ e'.indices := by
    intro index
    rw [mem_indices, mem_indices, h]
  have hperm : e.indices.Perm e'.indices :=
    (List.perm_ext_iff_of_nodup e.indices_pairwise.nodup e'.indices_pairwise.nodup).mpr hmem
  refine hperm.eq_of_pairwise (fun i j _ _ hij hji => ?_) e.indices_pairwise e'.indices_pairwise
  omega

theorem finishFrames_congr (h : ∀ index, e.blocks.get? index = e'.blocks.get? index) :
    e.finishFrames rt = e'.finishFrames rt := by
  unfold finishFrames
  rw [indices_congr h]
  exact List.filterMap_congr fun index _ => by rw [h]

/-- The block of an index that is finished. -/
theorem finishFrame_of_mem (h : e.parses rt = true) {index : Int} (hmem : index ∈ e.indices) :
    ∃ state args, e.blocks.get? index = some state ∧ state.parseArgs rt = .ok args ∧
      (e.blocks.get? index).bind (BlockState.finishFrame rt index) =
        some (.blockFinish index state.callId state.name args) := by
  obtain ⟨state, hget⟩ := (e.mem_indices index).mp hmem
  obtain ⟨args, hargs, hframe⟩ :=
    BlockState.finishFrame_of_parses ((parses_iff e).mp h index state hget) index
  refine ⟨state, args, hget, hargs, ?_⟩
  rw [hget, Option.bind_some, hframe]

theorem finishFrame_index {index : Int} {state : Option BlockState} {frame : Frame}
    (h : state.bind (BlockState.finishFrame rt index) = some frame) :
    frame.toolIndex = some index ∧ frame.finishIndex = some index := by
  obtain ⟨state, -, h⟩ := Option.bind_eq_some_iff.mp h
  unfold BlockState.finishFrame at h
  split at h
  · rw [← Option.some.inj h]
    exact ⟨rfl, rfl⟩
  · cases h

/-- The finish frame at an index is that of its block. -/
theorem finishFrames_at (index : Int) :
    (e.finishFrames rt).filter (Frame.isToolAt index) =
      ((e.blocks.get? index).bind (BlockState.finishFrame rt index)).toList := by
  have hat : ∀ j frame, (e.blocks.get? j).bind (BlockState.finishFrame rt j) = some frame →
      (frame.isToolAt index = true ↔ j = index) := by
    intro j frame hframe
    rw [Frame.isToolAt, (finishFrame_index hframe).1, beq_iff_eq, Option.some.injEq]
  rw [finishFrames, filter_filterMap_key hat e.indices_pairwise.nodup]
  split
  · rfl
  · next hmem =>
    have hnone : e.blocks.get? index = none := by
      by_contra hne
      exact hmem ((e.mem_indices index).mpr (Option.ne_none_iff_exists'.mp hne))
    rw [hnone]
    rfl

/-- Every block is finished once. -/
theorem finishFrames_finishIndex (h : e.parses rt = true) :
    (e.finishFrames rt).map Frame.finishIndex = e.indices.map some := by
  rw [finishFrames, List.map_filterMap, ← List.filterMap_eq_map']
  apply List.filterMap_congr
  intro index hmem
  obtain ⟨state, args, -, -, hframe⟩ := finishFrame_of_mem h hmem
  rw [hframe]
  rfl

end MessageFrameEmitter

end AgentProtocol

import Mathlib.Data.List.Dedup
import AgentProtocol.Translation.Reading
import AgentProtocol.Translation.Blocks

/-!
# Where the indices of a message clash

The text of a message and its fragments without an index take theirs from a counter, and a
fragment that has one keeps it, whatever the counter has given out or will. The indices
identify the content blocks exactly when no fragment carries the number that the text takes
or the number that a fragment without an index takes, be it before that one or after it
(`indices_identify_iff`).
-/

namespace AgentProtocol

/-! ## What the indices are for -/

def Frame.textIndex : Frame → Option Int
  | .textDelta index _ => some index
  | _ => none

/-- The indices of the content blocks in these frames: of the text, and of every tool call
that starts. -/
def contentIndices (frames : List Frame) : List Int :=
  (frames.filterMap Frame.textIndex).dedup ++ frames.filterMap Frame.startIndex

/-- The emitter when it comes to the fragment of a chunk that follows these. -/
def MessageFrameEmitter.comeTo (rt : Runtime) (e : MessageFrameEmitter) (chunk : Chunk)
    (fragments : List Fragment) : MessageFrameEmitter :=
  ((e.emitStart.1.emitTextDelta rt chunk).1.emitToolCallChunks fragments).1

/-- The fragment opens a block of its own. -/
def MessageFrameEmitter.Opens (e : MessageFrameEmitter) (fragment : Fragment) : Prop :=
  e.blocks.get? (e.fragmentIndex fragment).1 = none

/-- These fragments with the indices they are emitted at. -/
def MessageFrameEmitter.callsAt (e : MessageFrameEmitter) : List Fragment → List (Int × Fragment)
  | [] => []
  | fragment :: fragments =>
    ((e.fragmentIndex fragment).1, fragment) :: (e.emitToolCallChunk fragment).1.callsAt fragments

/-- The fragments of these chunks with the indices they are emitted at. -/
def MessageFrameEmitter.callsIn (rt : Runtime) (e : MessageFrameEmitter) :
    List Chunk → List (Int × Fragment)
  | [] => []
  | chunk :: chunks =>
    (e.emitStart.1.emitTextDelta rt chunk).1.callsAt chunk.toolCallChunks ++
      (e.fed rt chunk).callsIn rt chunks

def MessageTurn.calls (rt : Runtime) (turn : MessageTurn) : List (Int × Fragment) :=
  (MessageFrameEmitter.new turn.id turn.role).callsIn rt turn.chunks

/-- The indices of the tool calls that a message is told of: one for each fragment without an
index, and one for each index that fragments carry. -/
def callIndices (calls : List (Int × Fragment)) : List Int :=
  (calls.filter fun call => call.2.index.isNone).map Prod.fst ++
    ((calls.filter fun call => call.2.index.isSome).map Prod.fst).dedup

/-- The index of the text is no tool call's, a fragment without an index opens a block of its
own and no other fragment is put into that block, and no two content blocks that start have
one index. -/
structure IndicesIdentify (rt : Runtime) (turn : MessageTurn) : Prop where
  text : ∀ index s, .textDelta index s ∈ turn.body rt →
    ∀ f ∈ turn.body rt, f.toolIndex ≠ some index
  opens : ∀ before chunk after fs fragment gs, turn.chunks = before ++ chunk :: after →
    chunk.toolCallChunks = fs ++ fragment :: gs → fragment.index = none →
      ((MessageTurn.emitter rt { turn with chunks := before }).comeTo rt chunk fs).Opens fragment
  calls : (callIndices (turn.calls rt)).Nodup
  distinct : (contentIndices (turn.body rt)).Nodup

/-! ## The numbers that are given out -/

/-- How many of these fragments have no index. -/
def indexless (fragments : List Fragment) : Nat := fragments.countP fun f => f.index.isNone

def fragmentsOf (chunks : List Chunk) : List Fragment := chunks.flatMap Chunk.toolCallChunks

def hasText (rt : Runtime) (chunks : List Chunk) : Bool :=
  chunks.any fun chunk => textContent rt chunk ≠ ""

/-- The number that the text takes: one for each fragment without an index before it. -/
def textNumber (rt : Runtime) (chunks : List Chunk) : Int :=
  indexless (fragmentsOf (chunks.takeWhile fun chunk => textContent rt chunk = ""))

/-- The number a fragment without an index takes that follows these of its chunk: one for each
before it, and one for the text. -/
def fragmentNumber (rt : Runtime) (before : List Chunk) (chunk : Chunk) (fs : List Fragment) :
    Int :=
  indexless (fragmentsOf before ++ fs) + if hasText rt (before ++ [chunk]) then 1 else 0

/-- No fragment carries the number of the text, or the number of a fragment without an index,
before that one or after it. -/
structure NumbersClear (rt : Runtime) (chunks : List Chunk) : Prop where
  text : hasText rt chunks = true →
    ∀ fragment ∈ fragmentsOf chunks, fragment.index ≠ some (textNumber rt chunks)
  fragments : ∀ before chunk after fs fragment gs, chunks = before ++ chunk :: after →
    chunk.toolCallChunks = fs ++ fragment :: gs → fragment.index = none →
      ∀ other ∈ fragmentsOf chunks, other.index ≠ some (fragmentNumber rt before chunk fs)

/-! ## The counter -/

namespace Piece

def isText : Piece → Bool
  | .text _ => true
  | .call _ => false

/-- A fragment without an index. -/
def isIndexless : Piece → Bool
  | .text _ => false
  | .call fragment => fragment.index.isNone

end Piece

/-- The counter after these pieces. -/
def nextAfter (next : Int) (textIndex : Option Int) (pieces : List Piece) : Int :=
  next + pieces.countP Piece.isIndexless +
    if textIndex.isNone && pieces.any Piece.isText then 1 else 0

/-- The index of the text among these pieces. -/
def textAmong (next : Int) (textIndex : Option Int) (pieces : List Piece) : Int :=
  textIndex.getD (next + (pieces.takeWhile fun p => !p.isText).countP Piece.isIndexless)

theorem nextAfter_cons (next : Int) (textIndex : Option Int) (piece : Piece) (pieces : List Piece) :
    nextAfter next textIndex (piece :: pieces) =
      nextAfter (piece.nextFrom next textIndex) (piece.textFrom next textIndex) pieces := by
  unfold nextAfter
  rw [List.countP_cons, List.any_cons]
  cases piece with
  | text s =>
      show next + ((_ + 0 : Nat) : Int) + (if textIndex.isNone && true then 1 else 0) =
        (if textIndex.isNone then next + 1 else next) + _ + 0
      rw [Bool.and_true]
      split <;> omega
  | call fragment =>
      show next + ((_ + (if fragment.index.isNone = true then 1 else 0) : Nat) : Int) +
          (if textIndex.isNone && pieces.any Piece.isText then 1 else 0) =
        (if fragment.index.isNone then next + 1 else next) + _ +
          (if textIndex.isNone && pieces.any Piece.isText then 1 else 0)
      cases fragment.index.isNone <;> simp only [if_true, if_false, Bool.false_eq_true] <;> omega

theorem textAmong_cons (next : Int) (textIndex : Option Int) (piece : Piece)
    (pieces : List Piece) :
    textAmong next textIndex (piece :: pieces) =
      textAmong (piece.nextFrom next textIndex) (piece.textFrom next textIndex) pieces := by
  unfold textAmong
  cases piece with
  | text s =>
      show textIndex.getD (next + 0) = textIndex.getD next
      rw [Int.add_zero]
  | call fragment =>
      show textIndex.getD
        (next + (List.countP _ (.call fragment :: List.takeWhile _ pieces) : Nat)) =
          textIndex.getD ((if fragment.index.isNone then next + 1 else next) + _)
      rw [List.countP_cons]
      congr 1
      show next + ((_ + (if fragment.index.isNone = true then 1 else 0) : Nat) : Int) = _
      split <;> omega

theorem le_nextAfter (next : Int) (textIndex : Option Int) (pieces : List Piece) :
    next ≤ nextAfter next textIndex pieces := by
  unfold nextAfter
  split <;> omega

/-- All text has the one index. -/
theorem place_text {next : Int} {textIndex : Option Int} {pieces : List Piece} {index : Int}
    {s : String} (h : (index, .text s) ∈ place next textIndex pieces) :
    index = textAmong next textIndex pieces := by
  induction pieces generalizing next textIndex with
  | nil => cases h
  | cons piece pieces ih =>
      rw [textAmong_cons]
      rcases List.mem_cons.mp h with heq | htail
      · obtain ⟨rfl, rfl⟩ := Prod.mk.inj heq
        rfl
      · exact ih htail

theorem Piece.le_nextFrom (next : Int) (textIndex : Option Int) (piece : Piece) :
    next ≤ piece.nextFrom next textIndex := by
  unfold Piece.nextFrom
  split <;> omega

/-- The text has a number that has been given out. -/
theorem Piece.textFrom_lt {next : Int} {textIndex : Option Int}
    (h : ∀ i, textIndex = some i → i < next) (piece : Piece) :
    ∀ i, piece.textFrom next textIndex = some i → i < piece.nextFrom next textIndex := by
  intro i hi
  cases piece with
  | text s =>
      cases textIndex with
      | none =>
          obtain rfl := Option.some.inj hi
          exact Int.lt_add_one_iff.mpr (Int.le_refl _)
      | some j =>
          obtain rfl := Option.some.inj hi
          exact h _ rfl
  | call fragment => exact Int.lt_of_lt_of_le (h i hi) (Piece.le_nextFrom _ _ _)

theorem ne_textAmong {next : Int} {textIndex : Option Int} (h : ∀ i, textIndex = some i → i < next)
    (pieces : List Piece) : next ≠ textAmong (next + 1) textIndex pieces := by
  unfold textAmong
  cases textIndex with
  | none =>
      show next ≠ next + 1 + _
      omega
  | some i =>
      have hi := h i rfl
      show next ≠ i
      omega

/-- The number of a fragment without an index is new, and not that of the text. -/
theorem place_indexless {next : Int} {textIndex : Option Int} {pieces : List Piece} {index : Int}
    {fragment : Fragment} (htext : ∀ i, textIndex = some i → i < next)
    (h : (index, .call fragment) ∈ place next textIndex pieces) (hnone : fragment.index = none) :
    index < nextAfter next textIndex pieces ∧ index ≠ textAmong next textIndex pieces := by
  induction pieces generalizing next textIndex with
  | nil => cases h
  | cons piece pieces ih =>
      rw [nextAfter_cons, textAmong_cons]
      rcases List.mem_cons.mp h with heq | htail
      · obtain ⟨hindex, rfl⟩ := Prod.mk.inj heq
        have hnext : Piece.nextFrom next textIndex (.call fragment) = next + 1 := by
          show (if fragment.index.isNone then _ else _) = _
          rw [hnone]
          rfl
        have hindex : index = next := by
          rw [hindex]
          show fragment.index.getD next = next
          rw [hnone]
          rfl
        rw [hnext, hindex]
        have hle := le_nextAfter (next + 1) textIndex pieces
        exact ⟨by show next < nextAfter (next + 1) textIndex pieces; omega,
          ne_textAmong htext pieces⟩
      · exact ih (Piece.textFrom_lt htext piece) htail

/-- The fragments among placed pieces. -/
def placedCalls (placed : List (Int × Piece)) : List (Int × Fragment) :=
  placed.filterMap fun p =>
    match p.2 with
    | .call fragment => some (p.1, fragment)
    | .text _ => none

theorem placedCalls_append (xs ys : List (Int × Piece)) :
    placedCalls (xs ++ ys) = placedCalls xs ++ placedCalls ys := List.filterMap_append

theorem mem_placedCalls {placed : List (Int × Piece)} {index : Int} {fragment : Fragment} :
    (index, fragment) ∈ placedCalls placed ↔ (index, .call fragment) ∈ placed := by
  rw [placedCalls, List.mem_filterMap]
  constructor
  · rintro ⟨⟨i, piece⟩, hmem, heq⟩
    cases piece with
    | text s => cases heq
    | call f =>
        obtain ⟨rfl, rfl⟩ := Prod.mk.inj (Option.some.inj heq)
        exact hmem
  · exact fun hmem => ⟨_, hmem, rfl⟩

/-- A fragment without an index is placed at the number the counter has come to. -/
theorem mem_place_append (next : Int) (textIndex : Option Int) (xs ys : List Piece)
    {fragment : Fragment} (hnone : fragment.index = none) :
    (nextAfter next textIndex xs, .call fragment) ∈
      place next textIndex (xs ++ .call fragment :: ys) := by
  induction xs generalizing next textIndex with
  | nil =>
      refine List.mem_cons.mpr (.inl ?_)
      show _ = (fragment.index.getD next, _)
      rw [hnone]
      simp [nextAfter]
  | cons piece xs ih =>
      rw [nextAfter_cons]
      exact List.mem_cons_of_mem _ (ih _ _)

/-- And each that is placed is placed so. -/
theorem append_of_mem_place {next : Int} {textIndex : Option Int} {pieces : List Piece}
    {index : Int} {fragment : Fragment}
    (h : (index, .call fragment) ∈ place next textIndex pieces) (hnone : fragment.index = none) :
    ∃ xs ys, pieces = xs ++ .call fragment :: ys ∧ index = nextAfter next textIndex xs := by
  induction pieces generalizing next textIndex with
  | nil => cases h
  | cons piece pieces ih =>
      rcases List.mem_cons.mp h with heq | htail
      · obtain ⟨hindex, rfl⟩ := Prod.mk.inj heq
        refine ⟨[], pieces, rfl, ?_⟩
        rw [hindex]
        show fragment.index.getD next = _
        rw [hnone]
        simp [nextAfter]
      · obtain ⟨xs, ys, rfl, hindex⟩ := ih htail
        exact ⟨piece :: xs, ys, rfl, by rw [nextAfter_cons, hindex]⟩

/-- The fragments without an index take ascending numbers. -/
theorem place_ascends (next : Int) (textIndex : Option Int) (pieces : List Piece) :
    (∀ call ∈ placedCalls (place next textIndex pieces), call.2.index = none → next ≤ call.1) ∧
      (((placedCalls (place next textIndex pieces)).filter fun call => call.2.index.isNone).map
        Prod.fst).Pairwise (· < ·) := by
  induction pieces generalizing next textIndex with
  | nil => exact ⟨fun call hcall => (by cases hcall), List.Pairwise.nil⟩
  | cons piece pieces ih =>
      obtain ⟨hle, hasc⟩ := ih (piece.nextFrom next textIndex) (piece.textFrom next textIndex)
      have hnext := piece.le_nextFrom next textIndex
      have hrest : ∀ call ∈ placedCalls (place (piece.nextFrom next textIndex)
          (piece.textFrom next textIndex) pieces), call.2.index = none → next ≤ call.1 :=
        fun call hcall hnone => Int.le_trans hnext (hle call hcall hnone)
      cases piece with
      | text s => exact ⟨hrest, hasc⟩
      | call fragment =>
          cases hf : fragment.index with
          | some i =>
              refine ⟨List.forall_mem_cons.mpr ⟨fun hnone => ?_, hrest⟩, ?_⟩
              · rw [hf] at hnone
                cases hnone
              · show (((_ :: placedCalls _).filter _).map Prod.fst).Pairwise _
                rw [List.filter_cons_of_neg (by simp [hf])]
                exact hasc
          | none =>
              have hlt : Piece.nextFrom next textIndex (.call fragment) = next + 1 := by
                show (if fragment.index.isNone then _ else _) = _
                rw [hf]
                rfl
              have hat : Piece.indexFrom next textIndex (.call fragment) = next := by
                show fragment.index.getD next = next
                rw [hf]
                rfl
              refine ⟨List.forall_mem_cons.mpr ⟨fun _ => ?_, hrest⟩, ?_⟩
              · rw [hat]
              · show (((_ :: placedCalls _).filter _).map Prod.fst).Pairwise _
                rw [List.filter_cons_of_pos (by simp [hf]), List.map_cons, List.pairwise_cons]
                refine ⟨fun index hindex => ?_, hasc⟩
                obtain ⟨call, hcall, rfl⟩ := List.mem_map.mp hindex
                obtain ⟨hmem, hnone⟩ := List.mem_filter.mp hcall
                have hcall := hle call hmem (Option.isNone_iff_eq_none.mp hnone)
                rw [hat]
                omega

/-! ## Splitting the pieces -/

namespace MessageFrameEmitter

/-- The counter of an emitter. -/
theorem emitPieces_nextIndex (e : MessageFrameEmitter) (pieces : List Piece) :
    (e.emitPieces pieces).1.nextIndex = nextAfter e.nextIndex e.textIndex pieces := by
  induction pieces generalizing e with
  | nil =>
      unfold nextAfter
      simp [emitPieces]
  | cons piece pieces ih =>
      obtain ⟨hnext, htext⟩ := e.emitPiece_counters piece
      rw [nextAfter_cons, ← hnext, ← htext, ← ih]
      rfl

end MessageFrameEmitter

/-- Every piece is placed. -/
theorem place_map_snd (next : Int) (textIndex : Option Int) (pieces : List Piece) :
    (place next textIndex pieces).map Prod.snd = pieces := by
  induction pieces generalizing next textIndex with
  | nil => rfl
  | cons piece pieces ih => exact congrArg (piece :: ·) (ih _ _)

/-- A fragment carries the index it is placed at, or has none. -/
theorem index_of_mem_place {next : Int} {textIndex : Option Int} {pieces : List Piece}
    {index : Int} {fragment : Fragment}
    (h : (index, .call fragment) ∈ place next textIndex pieces) :
    fragment.index = some index ∨ fragment.index = none := by
  induction pieces generalizing next textIndex with
  | nil => cases h
  | cons piece pieces ih =>
      rcases List.mem_cons.mp h with heq | htail
      · obtain ⟨hindex, rfl⟩ := Prod.mk.inj heq
        cases hf : fragment.index with
        | none => exact .inr rfl
        | some i =>
            left
            rw [hindex]
            show some i = some (fragment.index.getD next)
            rw [hf]
            rfl
      · exact ih htail

theorem mem_of_mem_place {next : Int} {textIndex : Option Int} {pieces : List Piece} {index : Int}
    {piece : Piece} (h : (index, piece) ∈ place next textIndex pieces) : piece ∈ pieces := by
  rw [← place_map_snd next textIndex pieces]
  exact List.mem_map_of_mem h

/-- A fragment that carries an index is placed there. -/
theorem mem_place_of_index {pieces : List Piece} {index : Int} {fragment : Fragment}
    (h : .call fragment ∈ pieces) (hindex : fragment.index = some index) (next : Int)
    (textIndex : Option Int) : (index, .call fragment) ∈ place next textIndex pieces := by
  induction pieces generalizing next textIndex with
  | nil => cases h
  | cons piece pieces ih =>
      rcases List.mem_cons.mp h with rfl | htail
      · refine List.mem_cons.mpr (.inl ?_)
        show _ = (fragment.index.getD next, _)
        rw [hindex]
        rfl
      · exact List.mem_cons_of_mem _ (ih htail _ _)

theorem mem_fragmentsAt (index : Int) (placed : List (Int × Piece)) :
    fragmentsAt index placed ≠ [] ↔ ∃ fragment, (index, .call fragment) ∈ placed := by
  constructor
  · intro h
    obtain ⟨fragment, hmem⟩ := List.exists_mem_of_ne_nil _ h
    obtain ⟨⟨i, piece⟩, hp, hpiece⟩ := List.mem_filterMap.mp hmem
    cases piece with
    | text s => cases hpiece
    | call fragment' =>
        dsimp only at hpiece
        split at hpiece
        · next heq =>
          subst heq
          exact ⟨fragment', hp⟩
        · cases hpiece
  · rintro ⟨fragment, hp⟩
    refine List.ne_nil_of_mem (a := fragment) (List.mem_filterMap.mpr ⟨_, hp, ?_⟩)
    dsimp only
    rw [if_pos rfl]

/-! ## The pieces of chunks -/

section Chunks

variable {rt : Runtime}

theorem call_mem_pieces (chunks : List Chunk) (fragment : Fragment) :
    .call fragment ∈ chunks.flatMap (Chunk.pieces rt) ↔ fragment ∈ fragmentsOf chunks := by
  unfold fragmentsOf
  rw [List.mem_flatMap, List.mem_flatMap]
  refine exists_congr fun chunk => and_congr Iff.rfl ?_
  unfold Chunk.pieces
  rw [List.mem_append, List.mem_map]
  constructor
  · rintro (h | ⟨fragment', h, heq⟩)
    · split at h
      · cases h
      · cases List.mem_singleton.mp h
    · obtain rfl := Piece.call.inj heq
      exact h
  · exact fun h => .inr ⟨fragment, h, rfl⟩

theorem countP_calls (fragments : List Fragment) :
    (fragments.map Piece.call).countP Piece.isIndexless = indexless fragments := by
  rw [List.countP_map]
  rfl

theorem any_calls (fragments : List Fragment) :
    (fragments.map Piece.call).any Piece.isText = false := by
  rw [List.any_eq_false]
  intro piece hpiece
  obtain ⟨fragment, -, rfl⟩ := List.mem_map.mp hpiece
  exact Bool.false_ne_true

theorem indexless_append (xs ys : List Fragment) :
    indexless (xs ++ ys) = indexless xs + indexless ys :=
  List.countP_append

theorem countP_pieces (chunks : List Chunk) :
    (chunks.flatMap (Chunk.pieces rt)).countP Piece.isIndexless =
      indexless (fragmentsOf chunks) := by
  induction chunks with
  | nil => rfl
  | cons chunk chunks ih =>
      have htext : (if textContent rt chunk = "" then []
          else [Piece.text (textContent rt chunk)]).countP Piece.isIndexless = 0 := by
        split <;> rfl
      unfold fragmentsOf at ih ⊢
      rw [List.flatMap_cons, List.flatMap_cons, List.countP_append, indexless_append, ih,
        Chunk.pieces, List.countP_append, htext, countP_calls, Nat.zero_add]

theorem any_pieces (chunks : List Chunk) :
    (chunks.flatMap (Chunk.pieces rt)).any Piece.isText = hasText rt chunks := by
  unfold hasText
  rw [List.any_flatMap]
  refine congrArg chunks.any (funext fun chunk => ?_)
  unfold Chunk.pieces
  rw [List.any_append, any_calls, Bool.or_false]
  by_cases h : textContent rt chunk = ""
  · rw [if_pos h, h]
    rfl
  · rw [if_neg h]
    exact (decide_eq_true h).symm

/-- The fragments before the first text are those of the chunks before it. -/
theorem countP_before_text (chunks : List Chunk) :
    ((chunks.flatMap (Chunk.pieces rt)).takeWhile fun p => !p.isText).countP Piece.isIndexless =
      indexless (fragmentsOf (chunks.takeWhile fun chunk => textContent rt chunk = "")) := by
  induction chunks with
  | nil => rfl
  | cons chunk chunks ih =>
      rw [List.flatMap_cons, List.takeWhile_cons, Chunk.pieces]
      by_cases h : textContent rt chunk = ""
      · have hcalls : ∀ piece ∈ chunk.toolCallChunks.map Piece.call, (!piece.isText) = true := by
          intro piece hpiece
          obtain ⟨fragment, -, rfl⟩ := List.mem_map.mp hpiece
          rfl
        rw [if_pos h, List.nil_append, List.takeWhile_append_of_pos hcalls, List.countP_append,
          countP_calls, ih, if_pos (decide_eq_true h)]
        show _ = indexless (List.flatMap _ (chunk :: _))
        rw [List.flatMap_cons, indexless_append]
        rfl
      · rw [if_neg h, if_neg (by rw [decide_eq_true_iff]; exact h)]
        rfl

/-- The text of a message has its number. -/
theorem textAmong_pieces (chunks : List Chunk) :
    textAmong 0 none (chunks.flatMap (Chunk.pieces rt)) = textNumber rt chunks := by
  unfold textAmong textNumber
  rw [countP_before_text]
  exact Int.zero_add _

/-- The fragments before one, with a last chunk that has no more of them. -/
theorem fragmentsOf_cut (before : List Chunk) (chunk : Chunk) (fs : List Fragment) :
    fragmentsOf (before ++ [{ chunk with toolCallChunks := fs }]) = fragmentsOf before ++ fs := by
  unfold fragmentsOf
  rw [List.flatMap_append, List.flatMap_singleton]

/-- The counter when it comes to a fragment. -/
theorem nextAfter_pieces (before : List Chunk) (chunk : Chunk) (fs : List Fragment) :
    nextAfter 0 none
      ((before ++ [{ chunk with toolCallChunks := fs }]).flatMap (Chunk.pieces rt)) =
        fragmentNumber rt before chunk fs := by
  have htext : hasText rt (before ++ [{ chunk with toolCallChunks := fs }]) =
      hasText rt (before ++ [chunk]) := by
    unfold hasText
    rw [List.any_append, List.any_append]
    rfl
  unfold nextAfter fragmentNumber
  rw [countP_pieces, any_pieces, fragmentsOf_cut, htext, Int.zero_add]
  rfl

/-- What has been emitted before the next chunk. -/
theorem emitStart_emitter (turn : MessageTurn) :
    (turn.emitter rt).emitStart.1 =
      ((MessageFrameEmitter.opened turn.id turn.role).emitPieces (turn.pieces rt)).1 := by
  obtain ⟨id, role, chunks⟩ := turn
  cases chunks with
  | nil => rfl
  | cons chunk chunks =>
      have hspeak : (MessageTurn.emitter rt { id, role, chunks := chunk :: chunks }) =
          ((MessageFrameEmitter.opened id role).speak rt (chunk :: chunks)).1 := rfl
      have hstarted :
          (MessageTurn.emitter rt { id, role, chunks := chunk :: chunks }).started = true := by
        rw [hspeak]
        exact MessageFrameEmitter.speak_started rfl _
      rw [MessageFrameEmitter.emitStart_of_started hstarted, hspeak,
        MessageFrameEmitter.speak_of_started rfl]
      rfl

/-- What has been emitted when the translator comes to a fragment. -/
theorem comeTo_eq (rt : Runtime) (turn : MessageTurn) (chunk : Chunk) (fs : List Fragment) :
    ∃ pieces, (∀ fragment, .call fragment ∈ pieces ↔ fragment ∈ fragmentsOf turn.chunks ++ fs) ∧
      nextAfter 0 none pieces = fragmentNumber rt turn.chunks chunk fs ∧
      (turn.emitter rt).comeTo rt chunk fs =
        ((MessageFrameEmitter.opened turn.id turn.role).emitPieces pieces).1 := by
  -- the last chunk as if it had these fragments only
  let cut : Chunk := { chunk with toolCallChunks := fs }
  have hpieces : (turn.chunks ++ [cut]).flatMap (Chunk.pieces rt) =
      turn.pieces rt ++ cut.pieces rt := by
    rw [List.flatMap_append, List.flatMap_singleton]
    rfl
  refine ⟨(turn.chunks ++ [cut]).flatMap (Chunk.pieces rt), fun fragment => ?_,
    nextAfter_pieces turn.chunks chunk fs, ?_⟩
  · rw [call_mem_pieces, fragmentsOf_cut]
  · rw [hpieces, MessageFrameEmitter.emitPieces_append, ← emitStart_emitter, Chunk.pieces,
      MessageFrameEmitter.emitPieces_append]
    unfold MessageFrameEmitter.comeTo
    rw [MessageFrameEmitter.emitToolCallChunks_eq, MessageFrameEmitter.emitTextDelta_eq]
    rfl

/-- The text of a message is emitted where it is placed. -/
theorem mem_emitPieces_text (e : MessageFrameEmitter) (pieces : List Piece) (index : Int)
    (s : String) : .textDelta index s ∈ (e.emitPieces pieces).2 ↔
      (index, .text s) ∈ place e.nextIndex e.textIndex pieces := by
  induction pieces generalizing e with
  | nil => exact iff_of_false (fun h => by cases h) (fun h => by cases h)
  | cons piece pieces ih =>
      obtain ⟨hnext, htext⟩ := e.emitPiece_counters piece
      rw [place, ← hnext, ← htext, List.mem_cons, ← ih, MessageFrameEmitter.emitPieces]
      dsimp only
      rw [List.mem_append]
      refine or_congr ?_ Iff.rfl
      cases piece with
      | text s' =>
          show _ ∈ [Frame.textDelta e.ensureTextIndex.1 s'] ↔ _
          rw [List.mem_singleton, e.ensureTextIndex_eq.1, Frame.textDelta.injEq, Prod.mk.injEq,
            Piece.text.injEq]
          rfl
      | call fragment =>
          refine iff_of_false (fun h => ?_) (fun h => by cases (Prod.mk.inj h).2)
          rw [MessageFrameEmitter.emitPiece, MessageFrameEmitter.emitToolCallChunk_eq] at h
          cases MessageFrameEmitter.fragmentFrames_toolIndex _ _ _ _ h

/-- There are frames of a tool call at an index where a fragment is placed. -/
theorem MessageTurn.exists_tool_frame (turn : MessageTurn) (index : Int) :
    (∃ f ∈ turn.body rt, f.toolIndex = some index) ↔
      ∃ fragment, (index, .call fragment) ∈ turn.placed rt := by
  rw [← mem_fragmentsAt]
  have hbody : (∃ f ∈ turn.body rt, f.toolIndex = some index) ↔
      (turn.body rt).filter (Frame.isToolAt index) ≠ [] := by
    rw [Ne, List.filter_eq_nil_iff]
    simp only [Frame.isToolAt, beq_iff_eq, not_forall, not_not, exists_prop]
  rw [hbody, turn.body_at]
  cases fragmentsAt index (turn.placed rt) with
  | nil =>
      rw [blockFrames]
      exact iff_of_false (fun h => h rfl) (fun h => h rfl)
  | cons fragment fragments =>
      obtain ⟨deltas, hframes, -⟩ := blockFrames_none index fragment fragments
      rw [hframes]
      exact iff_of_true (List.cons_ne_nil _ _) (List.cons_ne_nil _ _)

/-- The text has an index of its own when no fragment carries its number. -/
theorem text_clear_iff (turn : MessageTurn) :
    (∀ index s, .textDelta index s ∈ turn.body rt →
        ∀ f ∈ turn.body rt, f.toolIndex ≠ some index) ↔
      (hasText rt turn.chunks = true → ∀ fragment ∈ fragmentsOf turn.chunks,
        fragment.index ≠ some (textNumber rt turn.chunks)) := by
  have hplaced : ∀ index s, .textDelta index s ∈ turn.body rt ↔
      (index, .text s) ∈ turn.placed rt := by
    intro index s
    rw [(turn.emitPieces_eq rt).1]
    exact mem_emitPieces_text _ _ index s
  have hnumber : ∀ index s, (index, .text s) ∈ turn.placed rt →
      index = textNumber rt turn.chunks := by
    intro index s h
    rw [← textAmong_pieces]
    exact place_text h
  have hexists : ∀ s, .text s ∈ turn.pieces rt ↔ ∃ index, (index, .text s) ∈ turn.placed rt := by
    intro s
    rw [← place_map_snd 0 none (turn.pieces rt), List.mem_map, Prod.exists]
    exact ⟨fun ⟨i, _, hmem, heq⟩ => ⟨i, heq ▸ hmem⟩, fun ⟨i, hmem⟩ => ⟨i, _, hmem, rfl⟩⟩
  constructor
  · intro h htext fragment hfragment hindex
    rw [← any_pieces, List.any_eq_true] at htext
    obtain ⟨piece, hpiece, hp⟩ := htext
    cases piece with
    | call fragment => cases hp
    | text s =>
        obtain ⟨index, hat⟩ := (hexists s).mp hpiece
        have hi := hnumber index s hat
        rw [← hi] at hindex
        obtain ⟨f, hf, htool⟩ := (turn.exists_tool_frame index).mpr
          ⟨fragment, mem_place_of_index ((call_mem_pieces _ _).mpr hfragment) hindex 0 none⟩
        exact h index s ((hplaced index s).mpr hat) f hf htool
  · intro h index s hdelta f hf htool
    have hat := (hplaced index s).mp hdelta
    have hi := hnumber index s hat
    obtain ⟨fragment, hcall⟩ := (turn.exists_tool_frame index).mp ⟨f, hf, htool⟩
    have hmem := mem_of_mem_place hcall
    rcases index_of_mem_place hcall with hindex | hnone
    · refine h ?_ fragment ((call_mem_pieces _ _).mp hmem) (hi ▸ hindex)
      rw [← any_pieces, List.any_eq_true]
      exact ⟨_, (hexists s).mpr ⟨index, hat⟩, rfl⟩
    · refine (place_indexless (fun i hi => by cases hi) hcall hnone).2 ?_
      exact hi.trans (textAmong_pieces turn.chunks).symm

/-- A fragment without an index opens a block of its own when none before it carries its
number. -/
theorem opens_iff (turn : MessageTurn) (chunk : Chunk) (fs : List Fragment) {fragment : Fragment}
    (hnone : fragment.index = none) :
    ((turn.emitter rt).comeTo rt chunk fs).Opens fragment ↔
      ∀ earlier ∈ fragmentsOf turn.chunks ++ fs,
        earlier.index ≠ some (fragmentNumber rt turn.chunks chunk fs) := by
  obtain ⟨pieces, hpieces, hnumber, hcome⟩ := comeTo_eq rt turn chunk fs
  have hnext : (MessageFrameEmitter.opened turn.id turn.role).nextIndex = 0 := rfl
  have hblocks : (MessageFrameEmitter.opened turn.id turn.role).blocks = ∅ := rfl
  have htext : (MessageFrameEmitter.opened turn.id turn.role).textIndex = none := rfl
  rw [hcome, MessageFrameEmitter.Opens, (MessageFrameEmitter.fragmentIndex_eq _ fragment).1, hnone]
  show Dict.get? _ (MessageFrameEmitter.emitPieces _ pieces).1.nextIndex = none ↔ _
  rw [(MessageFrameEmitter.emitPieces_at _ pieces _).1, MessageFrameEmitter.emitPieces_nextIndex,
    hnext, hblocks, htext, hnumber]
  show blockAfter _ none _ = none ↔ _
  rw [blockAfter_eq_none_iff]
  constructor
  · intro h earlier hmem hindex
    refine (mem_fragmentsAt _ _).mpr ?_ h
    exact ⟨earlier, mem_place_of_index ((hpieces earlier).mpr hmem) hindex 0 none⟩
  · intro h
    by_contra hne
    obtain ⟨earlier, hcall⟩ := (mem_fragmentsAt _ _).mp hne
    have hmem := mem_of_mem_place hcall
    rcases index_of_mem_place hcall with hindex | hnone'
    · exact h earlier ((hpieces earlier).mp hmem) hindex
    · -- a number that was given out before is smaller
      have hlt := (place_indexless (fun i hi => by cases hi) hcall hnone').1
      rw [hnumber] at hlt
      exact Int.lt_irrefl _ hlt

/-! ## The indices of the tool calls -/

theorem place_append (e : MessageFrameEmitter) (xs ys : List Piece) :
    place e.nextIndex e.textIndex (xs ++ ys) = place e.nextIndex e.textIndex xs ++
      place (e.emitPieces xs).1.nextIndex (e.emitPieces xs).1.textIndex ys := by
  induction xs generalizing e with
  | nil => rfl
  | cons piece xs ih =>
      obtain ⟨hnext, htext⟩ := e.emitPiece_counters piece
      rw [List.cons_append, place, place, ← hnext, ← htext, ih]
      rfl

theorem callsAt_eq (e : MessageFrameEmitter) (fragments : List Fragment) :
    e.callsAt fragments =
      placedCalls (place e.nextIndex e.textIndex (fragments.map Piece.call)) := by
  induction fragments generalizing e with
  | nil => rfl
  | cons fragment fragments ih =>
      obtain ⟨hnext, htext⟩ := e.emitPiece_counters (.call fragment)
      rw [MessageFrameEmitter.callsAt, ih, List.map_cons, place, ← hnext, ← htext,
        (e.fragmentIndex_eq fragment).1]
      rfl

/-- The fragments of a message that has started are emitted where they are placed. -/
theorem callsIn_eq {e : MessageFrameEmitter} (h : e.started = true) (chunks : List Chunk) :
    e.callsIn rt chunks =
      placedCalls (place e.nextIndex e.textIndex (chunks.flatMap (Chunk.pieces rt))) := by
  induction chunks generalizing e with
  | nil => rfl
  | cons chunk chunks ih =>
      have hstart := MessageFrameEmitter.emitStart_of_started h
      have hfed : e.fed rt chunk = (e.emitPieces (chunk.pieces rt)).1 := by
        have hchunk := congrArg Prod.fst (e.emitChunk_eq rt chunk)
        rwa [hstart] at hchunk
      have htexts : placedCalls (place e.nextIndex e.textIndex
          (if textContent rt chunk = "" then [] else [.text (textContent rt chunk)])) = [] := by
        split <;> rfl
      rw [MessageFrameEmitter.callsIn, ih (e.fed_started chunk), hstart, callsAt_eq,
        MessageFrameEmitter.emitTextDelta_eq, hfed, List.flatMap_cons, place_append,
        placedCalls_append, Chunk.pieces, place_append, placedCalls_append, htexts,
        List.nil_append]

theorem calls_eq (turn : MessageTurn) : turn.calls rt = placedCalls (turn.placed rt) := by
  obtain ⟨id, role, chunks⟩ := turn
  cases chunks with
  | nil => rfl
  | cons chunk chunks =>
      have hcalls : MessageTurn.calls rt { id, role, chunks := chunk :: chunks } =
          (MessageFrameEmitter.opened id role).callsIn rt (chunk :: chunks) := rfl
      rw [hcalls, callsIn_eq rfl]
      rfl

/-- What stands before a fragment, by chunks. -/
theorem chunks_of_pieces {chunks : List Chunk} {xs ys : List Piece} {fragment : Fragment}
    (h : chunks.flatMap (Chunk.pieces rt) = xs ++ .call fragment :: ys) :
    ∃ before chunk after fs gs, chunks = before ++ chunk :: after ∧
      chunk.toolCallChunks = fs ++ fragment :: gs ∧
      xs = (before ++ [{ chunk with toolCallChunks := fs }]).flatMap (Chunk.pieces rt) := by
  induction chunks generalizing xs with
  | nil => cases xs <;> cases h
  | cons chunk chunks ih =>
      rw [List.flatMap_cons] at h
      rcases List.append_eq_append_iff.mp h with ⟨zs, rfl, hrest⟩ | ⟨zs, hpieces, hrest⟩
      · -- in a later chunk
        obtain ⟨before, later, after, fs, gs, rfl, hfs, rfl⟩ := ih hrest
        exact ⟨chunk :: before, later, after, fs, gs, rfl, hfs, rfl⟩
      · cases zs with
        | nil =>
            have hlater : chunks.flatMap (Chunk.pieces rt) = [] ++ .call fragment :: ys :=
              hrest.symm
            obtain ⟨before, later, after, fs, gs, rfl, hfs, hxs⟩ := ih hlater
            refine ⟨chunk :: before, later, after, fs, gs, rfl, hfs, ?_⟩
            rw [List.append_nil] at hpieces
            rw [List.cons_append, List.flatMap_cons, ← hxs, List.append_nil, hpieces]
        | cons z zs =>
            obtain ⟨rfl, -⟩ := List.cons.inj hrest
            unfold Chunk.pieces at hpieces
            obtain ⟨us, hus, hsplit⟩ : ∃ us, xs = (if textContent rt chunk = "" then []
                else [Piece.text (textContent rt chunk)]) ++ us ∧
                chunk.toolCallChunks.map Piece.call = us ++ .call fragment :: zs := by
              by_cases htext : textContent rt chunk = ""
              · rw [if_pos htext] at hpieces ⊢
                exact ⟨xs, rfl, hpieces⟩
              · rw [if_neg htext] at hpieces ⊢
                cases xs with
                | nil => cases hpieces
                | cons x xs =>
                    obtain ⟨rfl, htail⟩ := List.cons.inj hpieces
                    exact ⟨xs, rfl, htail⟩
            obtain ⟨fs, rest, hfs, rfl, hrest⟩ := List.map_eq_append_iff.mp hsplit
            obtain ⟨f, gs, rfl, hf, -⟩ := List.map_eq_cons_iff.mp hrest
            obtain rfl := Piece.call.inj hf
            refine ⟨[], chunk, chunks, fs, gs, rfl, hfs, ?_⟩
            rw [hus, List.nil_append, List.flatMap_singleton]
            rfl

/-- A fragment without an index takes its number. -/
theorem mem_calls_indexless (turn : MessageTurn) (index : Int) :
    (∃ fragment, (index, fragment) ∈ turn.calls rt ∧ fragment.index = none) ↔
      ∃ before chunk after fs fragment gs, turn.chunks = before ++ chunk :: after ∧
        chunk.toolCallChunks = fs ++ fragment :: gs ∧ fragment.index = none ∧
          index = fragmentNumber rt before chunk fs := by
  simp only [calls_eq, mem_placedCalls]
  constructor
  · rintro ⟨fragment, hmem, hnone⟩
    obtain ⟨xs, ys, hpieces, rfl⟩ := append_of_mem_place hmem hnone
    obtain ⟨before, chunk, after, fs, gs, hchunks, hfs, rfl⟩ := chunks_of_pieces hpieces
    exact ⟨before, chunk, after, fs, fragment, gs, hchunks, hfs, hnone,
      nextAfter_pieces before chunk fs⟩
  · rintro ⟨before, chunk, after, fs, fragment, gs, hchunks, hfs, hnone, rfl⟩
    refine ⟨fragment, ?_, hnone⟩
    rw [← nextAfter_pieces, MessageTurn.placed, MessageTurn.pieces, hchunks]
    have hpieces : (before ++ chunk :: after).flatMap (Chunk.pieces rt) =
        (before ++ [{ chunk with toolCallChunks := fs }]).flatMap (Chunk.pieces rt) ++
          .call fragment :: (gs.map Piece.call ++ after.flatMap (Chunk.pieces rt)) := by
      rw [List.flatMap_append, List.flatMap_append, List.flatMap_cons, List.flatMap_singleton,
        Chunk.pieces, Chunk.pieces, hfs, List.map_append, List.map_cons]
      simp only [List.append_assoc, List.cons_append]
      rfl
    rw [hpieces]
    exact mem_place_append 0 none _ _ hnone

/-- A fragment that carries an index is emitted there. -/
theorem mem_calls_explicit (turn : MessageTurn) (index : Int) :
    (∃ fragment, (index, fragment) ∈ turn.calls rt ∧ fragment.index.isSome = true) ↔
      ∃ fragment ∈ fragmentsOf turn.chunks, fragment.index = some index := by
  simp only [calls_eq, mem_placedCalls]
  constructor
  · rintro ⟨fragment, hmem, hsome⟩
    refine ⟨fragment, (call_mem_pieces _ _).mp (mem_of_mem_place hmem), ?_⟩
    rcases index_of_mem_place hmem with hindex | hnone
    · exact hindex
    · rw [hnone] at hsome
      cases hsome
  · rintro ⟨fragment, hmem, hindex⟩
    refine ⟨fragment, ?_, by rw [hindex]; rfl⟩
    exact mem_place_of_index ((call_mem_pieces _ _).mpr hmem) hindex 0 none

/-- No two tool calls have one index when no fragment carries the number of a fragment without
one. -/
theorem callIndices_nodup_iff (turn : MessageTurn) :
    (callIndices (turn.calls rt)).Nodup ↔
      ∀ before chunk after fs fragment gs, turn.chunks = before ++ chunk :: after →
        chunk.toolCallChunks = fs ++ fragment :: gs → fragment.index = none →
          ∀ other ∈ fragmentsOf turn.chunks,
            other.index ≠ some (fragmentNumber rt before chunk fs) := by
  have hnumbers :
      (((turn.calls rt).filter fun call => call.2.index.isNone).map Prod.fst).Nodup := by
    rw [calls_eq]
    exact (place_ascends 0 none (turn.pieces rt)).2.imp Int.ne_of_lt
  have hmem : ∀ (p : Fragment → Bool) (index : Int),
      index ∈ ((turn.calls rt).filter fun call => p call.2).map Prod.fst ↔
        ∃ fragment, (index, fragment) ∈ turn.calls rt ∧ p fragment = true := by
    intro p index
    simp only [List.mem_map, List.mem_filter, Prod.exists, exists_and_right, exists_eq_right]
  rw [callIndices, List.nodup_append']
  constructor
  · rintro ⟨-, -, hdisjoint⟩ before chunk after fs fragment gs hchunks hfs hnone other hother hindex
    refine hdisjoint ((hmem (fun f => f.index.isNone) _).mpr ?_) (List.mem_dedup.mpr
      ((hmem (fun f => f.index.isSome) _).mpr
        ((mem_calls_explicit turn _).mpr ⟨other, hother, hindex⟩)))
    obtain ⟨f, hf, hf'⟩ := (mem_calls_indexless turn _).mpr
      ⟨before, chunk, after, fs, fragment, gs, hchunks, hfs, hnone, rfl⟩
    exact ⟨f, hf, by rw [hf']; rfl⟩
  · intro hclear
    refine ⟨hnumbers, List.nodup_dedup _, fun index hnumber hcarried => ?_⟩
    obtain ⟨f, hf, hf'⟩ := (hmem (fun f => f.index.isNone) index).mp hnumber
    obtain ⟨before, chunk, after, fs, fragment, gs, hchunks, hfs, hnone, rfl⟩ :=
      (mem_calls_indexless turn index).mp ⟨f, hf, Option.isNone_iff_eq_none.mp hf'⟩
    obtain ⟨other, hother, hindex⟩ := (mem_calls_explicit turn _).mp
      ((hmem (fun f => f.index.isSome) _).mp (List.mem_dedup.mp hcarried))
    exact hclear before chunk after fs fragment gs hchunks hfs hnone other hother hindex

/-- The starts at an index are among the frames seen there. -/
theorem count_startIndex (index : Int) (frames : List Frame) :
    (frames.filterMap Frame.startIndex).count index =
      ((frames.filter (Frame.isToolAt index)).filterMap Frame.startIndex).count index := by
  induction frames with
  | nil => rfl
  | cons frame frames ih =>
      cases frame with
      | blockStart i id name =>
          show (i :: frames.filterMap Frame.startIndex).count index = _
          rw [List.filter_cons, List.count_cons, ih]
          by_cases hi : i = index
          · have hat : (Frame.blockStart i id name).isToolAt index = true := by
              rw [hi]
              exact beq_self_eq_true _
            rw [if_pos hat]
            show _ = (i :: List.filterMap Frame.startIndex _).count index
            rw [List.count_cons]
          · have hat : ¬(Frame.blockStart i id name).isToolAt index = true := by
              rw [Frame.isToolAt, beq_iff_eq]
              exact fun h => hi (Option.some.inj h)
            rw [if_neg hat, if_neg (mt beq_iff_eq.mp hi), Nat.add_zero]
      | _ =>
          rw [List.filterMap_cons_none rfl, ih, List.filter_cons]
          split
          · rw [List.filterMap_cons_none rfl]
          · rfl

/-- No two tool calls start at one index. -/
theorem startIndices_nodup (turn : MessageTurn) :
    ((turn.body rt).filterMap Frame.startIndex).Nodup := by
  rw [List.nodup_iff_count_le_one]
  intro index
  rw [count_startIndex, turn.body_at]
  cases fragmentsAt index (turn.placed rt) with
  | nil => exact Nat.zero_le _
  | cons fragment fragments =>
      obtain ⟨deltas, hframes, hdelta, -⟩ := blockFrames_none index fragment fragments
      have hnil : deltas.filterMap Frame.startIndex = [] := by
        apply List.filterMap_eq_nil_iff.mpr
        intro f hf
        obtain ⟨id, name, args, rfl⟩ := hdelta f hf
        rfl
      rw [hframes]
      show (index :: deltas.filterMap Frame.startIndex).count index ≤ 1
      rw [hnil]
      exact List.count_le_length

theorem contentIndices_nodup (turn : MessageTurn)
    (h : ∀ index s, .textDelta index s ∈ turn.body rt →
      ∀ f ∈ turn.body rt, f.toolIndex ≠ some index) : (contentIndices (turn.body rt)).Nodup := by
  apply List.Nodup.append (List.nodup_dedup _) (startIndices_nodup turn)
  intro index htext hstart
  obtain ⟨f, hf, hidx⟩ := List.mem_filterMap.mp (List.mem_dedup.mp htext)
  obtain ⟨f', hf', hidx'⟩ := List.mem_filterMap.mp hstart
  cases f with
  | textDelta i s =>
      obtain rfl := Option.some.inj hidx
      cases f' with
      | blockStart j id name => exact h _ s hf _ hf' hidx'
      | _ => cases hidx'
  | _ => cases hidx

end Chunks

/-! ## The theorem -/

/-- The indices of a message identify its content blocks exactly when no fragment carries a
number of the counter that clashes. -/
theorem indices_identify_iff (rt : Runtime) (turn : MessageTurn) :
    IndicesIdentify rt turn ↔ NumbersClear rt turn.chunks := by
  constructor
  · rintro ⟨htext, -, hcalls, -⟩
    exact ⟨(text_clear_iff turn).mp htext, (callIndices_nodup_iff turn).mp hcalls⟩
  · rintro ⟨htext, hfragments⟩
    have htext := (text_clear_iff turn).mpr htext
    refine ⟨htext, ?_, (callIndices_nodup_iff turn).mpr hfragments,
      contentIndices_nodup turn htext⟩
    intro before chunk after fs fragment gs hchunks hsplit hnone
    refine (opens_iff { turn with chunks := before } chunk fs hnone).mpr fun earlier hearlier => ?_
    apply hfragments before chunk after fs fragment gs hchunks hsplit hnone
    rw [hchunks, fragmentsOf, List.flatMap_append, List.flatMap_cons, hsplit]
    rcases List.mem_append.mp hearlier with hbefore | hfs
    · exact List.mem_append_left _ hbefore
    · exact List.mem_append_right _ (List.mem_append_left _ (List.mem_append_left _ hfs))

/-- A text, and a tool call that a provider numbers from 0. -/
def textAndCall : Chunk :=
  { textChunk "m" "Hi" with
    toolCallChunks := [{ index := some 0, id := "c", name := "f", args := "{}" }] }

/-- Both are at index 0. -/
theorem text_index_shared :
    ¬IndicesIdentify .inert { id := "m", role := "ai", chunks := [textAndCall] } := by
  rintro ⟨htext, -, -, -⟩
  have hbody : MessageTurn.body .inert { id := "m", role := "ai", chunks := [textAndCall] } =
      [.textDelta 0 "Hi", .blockStart 0 "c" "f", .blockDelta 0 "c" "f" "{}"] := rfl
  rw [hbody] at htext
  exact htext 0 "Hi" List.mem_cons_self (.blockStart 0 "c" "f") (by simp) rfl

/-- A fragment that carries 0 joins the block of the fragment without an index before it. -/
example :
    let calls : List Fragment :=
      [{ index := none, id := "c", name := "f", args := none },
        { index := some 0, id := "d", name := "g", args := none }]
    callIndices (MessageTurn.calls .inert
      { id := "m", role := "ai", chunks := [{ textChunk "m" "" with toolCallChunks := calls }] }) =
        [0, 0] := by decide

end AgentProtocol

import AgentProtocol.Translation.Translator

/-!
# When the translator raises

A block *parses* when `json.loads` returns or raises `JSONDecodeError` on its
arguments. `finish` raises exactly when a message it terminates has a block that
does not parse (`finish_raised_iff`), and `feed` only through the `finish` it
calls for a brand-new message (`feed_raised_iff`).
-/

namespace AgentProtocol

def BlockState.parses (rt : Runtime) (state : BlockState) : Bool :=
  match state.parseArgs rt with
  | .ok _ => true
  | .error _ => false

/-- All its blocks parse. -/
def MessageFrameEmitter.parses (rt : Runtime) (e : MessageFrameEmitter) : Bool :=
  e.blocks.entries.all fun entry => entry.2.parses rt

/-- All the messages that `finish chunk` terminates parse. -/
def MessagesTranslator.parses (rt : Runtime) (tr : MessagesTranslator) (chunk : Option Chunk) :
    Bool :=
  (tr.targets chunk).all fun id =>
    match tr.openMessages.get? id with
    | none => true
    | some e => e.parses rt

/-- `json.loads` raises nothing but `JSONDecodeError`. -/
def Runtime.LoadsTotal (rt : Runtime) : Prop := ∀ text exc, rt.loads text ≠ .raised exc

namespace MessageFrameEmitter

variable {rt : Runtime}

theorem parses_iff (e : MessageFrameEmitter) :
    e.parses rt = true ↔ ∀ index state, e.blocks.get? index = some state →
      state.parses rt = true := by
  rw [parses, List.all_eq_true]
  constructor
  · intro h index state hget
    exact h (index, state) ((Dict.mem_entries_iff _ _ _).mpr hget)
  · intro h entry hmem
    exact h entry.1 entry.2 ((Dict.mem_entries_iff _ _ _).mp hmem)

theorem parses_of_loadsTotal (h : rt.LoadsTotal) (e : MessageFrameEmitter) :
    e.parses rt = true := by
  rw [parses_iff]
  intro _ state _
  unfold BlockState.parses BlockState.parseArgs
  cases hl : rt.loads (if state.args = "" then "{}" else state.args) with
  | value parsed => simp only [hl]
  | decodeError => simp only [hl]
  | raised exc => exact absurd hl (h _ exc)

theorem finalizeBlocksAt_raised_iff (blocks : Dict Int BlockState) (indices : List Int) :
    (finalizeBlocksAt rt blocks indices).2 = none ↔
      ∀ index ∈ indices, ∀ state, blocks.get? index = some state → state.parses rt = true := by
  induction indices with
  | nil => simp [finalizeBlocksAt]
  | cons index indices ih =>
      rw [List.forall_mem_cons, ← ih, finalizeBlocksAt]
      cases hget : blocks.get? index with
      | none => simp
      | some state =>
          cases hargs : state.parseArgs rt with
          | ok args => simp [BlockState.parses, hargs]
          | error exc => simp [BlockState.parses, hargs]

theorem finalizeBlocks_raised_iff (e : MessageFrameEmitter) :
    (e.finalizeBlocks rt).2 = none ↔ e.parses rt = true := by
  rw [finalizeBlocks, finalizeBlocksAt_raised_iff, parses_iff]
  constructor
  · intro h index state hget
    refine h index ?_ state hget
    rw [List.mem_insertionSort]
    by_contra hmem
    rw [(Dict.get?_eq_none_iff _ _).mpr hmem] at hget
    cases hget
  · intro h index _ state hget
    exact h index state hget

/-- Closing a message leaves its blocks. -/
theorem close_blocks (usage : Dict String Json) (e : MessageFrameEmitter) :
    (e.close rt usage).state.blocks = e.blocks := by
  have husage : (e.withUsage usage).blocks = e.blocks := by
    unfold withUsage
    split <;> rfl
  rw [← husage]
  unfold close
  dsimp only
  split <;> rfl

theorem close_parses (usage : Dict String Json) (e : MessageFrameEmitter) :
    (e.close rt usage).state.parses rt = e.parses rt := by
  rw [parses, parses, close_blocks]

theorem close_raised_iff (rt : Runtime) (usage : Dict String Json) (e : MessageFrameEmitter) :
    (e.close rt usage).raised = none ↔ e.parses rt = true := by
  have husage : (e.withUsage usage).parses rt = e.parses rt := by
    unfold withUsage
    split <;> rfl
  rw [← husage, ← finalizeBlocks_raised_iff]
  unfold close
  dsimp only
  split
  · next h => simp [h]
  · next h => simp [h]

end MessageFrameEmitter

namespace MessagesTranslator

variable {rt : Runtime}

theorem closeAll_raised_iff (usage : Dict String Json) (ids : List String)
    (tr : MessagesTranslator) :
    (closeAll rt usage ids tr).raised = none ↔
      ∀ id ∈ ids, ∀ e, tr.openMessages.get? id = some e → e.parses rt = true := by
  induction ids generalizing tr with
  | nil => simp [closeAll]
  | cons id ids ih =>
      rw [List.forall_mem_cons, closeAll]
      cases hget : tr.openMessages.get? id with
      | none => simpa using ih tr
      | some e =>
          have hstep : (e.close rt usage).raised = none ↔ e.parses rt = true :=
            MessageFrameEmitter.close_raised_iff rt usage e
          cases hr : (e.close rt usage).raised with
          | some exc =>
              rw [hr] at hstep
              simp only [reduceCtorEq, false_iff] at hstep
              simp [hr, hstep]
          | none =>
              have hp := hstep.mp hr
              simp only [hr, ih, Option.some.injEq, forall_eq', hp, true_and]
              -- closing `id` changes no message's blocks
              refine forall_congr' fun id' => forall_congr' fun _ => ?_
              by_cases hid : id = id'
              · subst hid
                simp only [Dict.get?_set_self, hget, Option.some.injEq, forall_eq',
                  MessageFrameEmitter.close_parses]
              · rw [Dict.get?_set_ne _ _ hid]

/-- `finish` returns exactly when every message it terminates parses. -/
theorem finish_raised_iff (tr : MessagesTranslator) (chunk : Option Chunk) :
    (tr.finish rt chunk).raised = none ↔ tr.parses rt chunk = true := by
  rw [finish, closeAll_raised_iff, parses, List.all_eq_true]
  refine forall_congr' fun id => forall_congr' fun _ => ?_
  cases tr.openMessages.get? id <;> simp

/-- `feed` raises only for the first chunk of a message, while an open one does not
parse. -/
theorem feed_raised_iff (tr : MessagesTranslator) (chunk : Chunk) :
    (tr.feed rt chunk).raised = none ↔
      (role chunk = none ∨ (tr.openMessages.get? (messageId chunk)).isSome = true ∨
        tr.parses rt none = true) := by
  unfold feed
  cases hrole : role chunk with
  | none => simp
  | some r =>
      cases hget : tr.openMessages.get? (messageId chunk) with
      | some e => by_cases hf : e.finished = true <;> simp [hget, hf]
      | none =>
          rw [← finish_raised_iff]
          cases hr : (tr.finish rt none).raised with
          | none => simp [hget, hr]
          | some exc => simp [hget, hr]

theorem parses_of_loadsTotal (h : rt.LoadsTotal) (tr : MessagesTranslator)
    (chunk : Option Chunk) : tr.parses rt chunk = true := by
  rw [parses, List.all_eq_true]
  intro id _
  cases tr.openMessages.get? id with
  | none => rfl
  | some e => exact e.parses_of_loadsTotal h

end MessagesTranslator

end AgentProtocol

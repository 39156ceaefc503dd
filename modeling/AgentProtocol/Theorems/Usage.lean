import AgentProtocol.Runner.Messages
import AgentProtocol.Runner.Log

/-!
# Usage metadata and the rest of a message (`RunManager._execute`)

The loop of a run finishes a message on any of its chunks that carries usage, and the
translator drops what comes after. `uncut` says when a message gets through whole all
the same, and `message_whole_iff` that it does exactly then.
-/

namespace AgentProtocol

/-- The message chunks among these items, up to an item that ends the run. -/
def chunksOf : List StreamItem → List Chunk
  | [] => []
  | .messages chunk :: items => chunk :: chunksOf items
  | .malformed _ :: _ => []
  | _ :: items => chunksOf items

/-- The loop finishes the message of this chunk. -/
def Chunk.closes (chunk : Chunk) : Bool :=
  !chunk.usageMetadata.entries.isEmpty && (strOr chunk.id none).isSome

/-- The emitter of a message after one more chunk; the first one whose role is known
makes it. -/
def Chunk.joins (rt : Runtime) (chunk : Chunk) (e : Option MessageFrameEmitter) :
    Option MessageFrameEmitter :=
  match role chunk with
  | none => e
  | some role => some ((e.getD (.new (MessagesTranslator.messageId chunk) role)).fed rt chunk)

/-- Every fragment comes in a chunk whose role is known, and no later than the usage;
the message is begun, and its blocks parse at its end; a run that asks for input has
met the usage. -/
def uncut (rt : Runtime) (asks : Bool) : Option MessageFrameEmitter → List Chunk → Bool
  | none, [] => false
  | some e, [] => !asks && e.parses rt
  | e, chunk :: chunks =>
    ((role chunk).isSome || (chunk.fragments rt).isEmpty) &&
      match chunk.joins rt e with
      | none => uncut rt asks none chunks
      | some e =>
        if chunk.closes then e.parses rt && chunks.all fun chunk => (chunk.fragments rt).isEmpty
        else uncut rt asks (some e) chunks

/-- One of these frames finishes a message, and no fragment comes after it. -/
def finishedLast : List Frame → Bool
  | [] => false
  | .messageFinish _ :: frames => frames.all fun frame => !frame.isFinish && frame.delta.isNone
  | _ :: frames => finishedLast frames

/-- The message of these chunks is published whole. -/
structure MessageWhole (rt : Runtime) (chunks : List Chunk) (frames : List Frame) : Prop where
  text : String.join ((frames.filterMap Frame.delta).filterMap Delta.text?) =
    String.join (chunks.map (textContent rt))
  args : (frames.filterMap Frame.delta).filterMap Delta.args? =
    ((chunks.flatMap Chunk.toolCallChunks).filterMap Fragment.delta).filterMap Delta.args?
  finished : finishedLast frames = true

theorem finishedLast_append {xs ys : List Frame} (h : ∀ f ∈ xs, f.isFinish = false) :
    finishedLast (xs ++ ys) = finishedLast ys := by
  induction xs with
  | nil => rfl
  | cons frame xs ih =>
      rw [List.forall_mem_cons] at h
      cases frame with
      | messageFinish usage => cases h.1
      | _ => exact ih h.2

theorem finishedLast_eq_false {xs : List Frame} (h : ∀ f ∈ xs, f.isFinish = false) :
    finishedLast xs = false := by
  rw [← List.append_nil xs, finishedLast_append h]
  rfl

/-- The share of one chunk in what is carried. -/
theorem carried_iff {α : Type*} {known : Bool} {mine ds rest : List α} (h : ds.Sublist rest) :
    ((if known then mine else []) ++ ds).Sublist (mine ++ rest) ∧
      ((if known then mine else []) ++ ds = mine ++ rest ↔
        (known || mine.isEmpty) = true ∧ ds = rest) := by
  cases known with
  | true =>
      rw [if_pos rfl, List.append_cancel_left_eq, Bool.true_or]
      exact ⟨h.append_left mine, (and_iff_right rfl).symm⟩
  | false =>
      rw [if_neg Bool.false_ne_true, List.nil_append, Bool.false_or, List.isEmpty_iff]
      refine ⟨h.trans (List.sublist_append_right _ _), fun heq => ?_, ?_⟩
      · -- the fragments that are missing would be missed in the length
        have hlen := h.length_le
        rw [heq, List.length_append] at hlen
        have hnil : mine = [] := List.length_eq_zero_iff.mp (by omega)
        rw [hnil, List.nil_append] at heq
        exact ⟨hnil, heq⟩
      · rintro ⟨rfl, rfl⟩
        rfl

/-! ## A sequencer of one message -/

/-- The only message there is has this emitter, if it has begun. -/
structure Sequencer.At (q : Sequencer) (id : String) (e : Option MessageFrameEmitter) : Prop where
  current : q.current = e.map fun e => (id, e)
  seen : id ∈ q.seen ↔ e.isSome = true

section Single

variable {rt : Runtime} {q : Sequencer} {id : String} {e : Option MessageFrameEmitter}
  {chunk : Chunk}

theorem feed_at (rt : Runtime) (h : q.At id e) (hid : MessagesTranslator.messageId chunk = id) :
    (q.feed rt chunk).raised = none ∧ (q.feed rt chunk).state.At id (chunk.joins rt e) ∧
      (∀ f ∈ (q.feed rt chunk).frames, f.isFinish = false) ∧
      (q.feed rt chunk).frames.filterMap Frame.delta =
        if (role chunk).isSome then chunk.fragments rt else [] := by
  unfold Sequencer.feed Chunk.joins
  cases hrole : role chunk with
  | none => exact ⟨rfl, h, fun f hf => (by cases hf), rfl⟩
  | some role =>
      dsimp only
      rw [hid]
      cases e with
      | none =>
          have hseen : id ∉ q.seen := fun hin => by cases h.seen.mp hin
          obtain ⟨hc, hd⟩ := (MessageFrameEmitter.new id role).content_frames rt chunk
          have hclose : q.close rt ∅ = { state := q, frames := [], raised := none } := by
            unfold Sequencer.close
            rw [h.current]
            rfl
          rw [if_neg hseen]
          unfold Sequencer.begin
          rw [hclose]
          refine ⟨rfl, ⟨rfl, iff_of_true List.mem_cons_self rfl⟩, ?_, hd⟩
          intro f hf
          rcases List.mem_cons.mp hf with rfl | hf
          · rfl
          · exact Frame.isFinish_of_isContent (hc f hf)
      | some e =>
          have hseen : id ∈ q.seen := h.seen.mpr rfl
          obtain ⟨hc, hd⟩ := e.content_frames rt chunk
          rw [if_pos hseen, h.current]
          simp only [Option.map_some, if_true]
          exact ⟨trivial, ⟨rfl, iff_of_true hseen rfl⟩,
            fun f hf => Frame.isFinish_of_isContent (hc f hf), hd⟩

/-- A chunk that does not close its message. -/
theorem item_at_open (h : q.At id e) (hid : MessagesTranslator.messageId chunk = id)
    (hopen : chunk.joins rt e = none ∨ chunk.closes = false) :
    q.item rt (.messages chunk) = q.feed rt chunk := by
  obtain ⟨-, hat, -, -⟩ := feed_at rt h hid
  unfold Sequencer.item
  apply Emission.andThen_silent
  cases husage : chunk.usageMetadata.entries.isEmpty with
  | true => rfl
  | false =>
      rw [if_neg Bool.false_ne_true]
      unfold Sequencer.finish
      dsimp only
      cases hsome : strOr chunk.id none with
      | none => rfl
      | some id' =>
          dsimp only
          rcases hopen with hnone | hcloses
          · unfold Sequencer.isTurn
            rw [hat.current, hnone]
            rfl
          · unfold Chunk.closes at hcloses
            rw [husage, hsome] at hcloses
            cases hcloses

/-- A chunk that closes it. -/
theorem item_at_closes {e' : MessageFrameEmitter} (h : q.At id e)
    (hid : MessagesTranslator.messageId chunk = id) (hjoins : chunk.joins rt e = some e')
    (hcloses : chunk.closes = true) :
    q.item rt (.messages chunk) =
      { (q.feed rt chunk).state.close rt chunk.usageMetadata with
        frames := (q.feed rt chunk).frames ++
          ((q.feed rt chunk).state.close rt chunk.usageMetadata).frames } := by
  obtain ⟨hr, hat, -, -⟩ := feed_at rt h hid
  unfold Chunk.closes at hcloses
  rw [Bool.and_eq_true, Bool.not_eq_true'] at hcloses
  obtain ⟨husage, hsome⟩ := hcloses
  obtain ⟨id', hid'⟩ := Option.isSome_iff_exists.mp hsome
  have heq : id' = id := by
    rw [← hid, MessagesTranslator.messageId, hid', Option.getD_some]
  have hturn : (q.feed rt chunk).state.isTurn id' = true := by
    unfold Sequencer.isTurn
    rw [hat.current, hjoins, heq]
    exact beq_self_eq_true id
  unfold Sequencer.item
  dsimp only
  rw [Emission.andThen_returned hr, husage, if_neg Bool.false_ne_true]
  unfold Sequencer.finish
  dsimp only
  rw [hid']
  dsimp only
  rw [if_pos hturn]

/-- What is fed to a message that is finished is dropped. -/
theorem sinks_over {asks : Bool} {items : List StreamItem} {frames : List Frame}
    (hcur : q.current = none) (hseen : id ∈ q.seen)
    (hids : ∀ chunk ∈ chunksOf items, MessagesTranslator.messageId chunk = id)
    (h : q.Sinks rt asks items frames) : frames = [] := by
  have hclose : q.close rt ∅ = { state := q, frames := [], raised := none } := by
    unfold Sequencer.close
    rw [hcur]
  have hends : ∀ tail, q.Ends rt tail → tail = [] := by
    intro tail htail
    have := htail.1
    rw [hclose] at this
    exact this rfl
  induction items generalizing frames with
  | nil =>
      have := h.nil
      cases asks with
      | true => exact this
      | false => exact hends _ this
  | cons item items ih =>
      cases item with
      | malformed exc =>
          obtain ⟨-, tail, rfl, htail⟩ := h.raised rfl
          exact hends _ htail
      | values chunk =>
          obtain ⟨rest, rfl, hrest⟩ := h.returned rfl
          exact ih hids hrest
      | other =>
          obtain ⟨rest, rfl, hrest⟩ := h.returned rfl
          exact ih hids hrest
      | messages chunk =>
          obtain ⟨hid, hids⟩ := List.forall_mem_cons.mp hids
          have hitem : q.item rt (.messages chunk) = { state := q, frames := [], raised := none } := by
            have hfeed : q.feed rt chunk = { state := q, frames := [], raised := none } := by
              unfold Sequencer.feed
              cases role chunk with
              | none => rfl
              | some role =>
                  dsimp only
                  rw [hid, if_pos hseen, hcur]
            unfold Sequencer.item
            dsimp only
            rw [hfeed, Emission.andThen_returned rfl]
            dsimp only
            split
            · rfl
            · unfold Sequencer.finish Sequencer.isTurn
              dsimp only
              rw [hcur]
              cases strOr chunk.id none <;> rfl
          have hstate : (q.item rt (.messages chunk)).state = q := by rw [hitem]
          obtain ⟨rest, rfl, hrest⟩ := h.returned (by rw [hitem])
          rw [hstate] at hrest
          rw [hitem, ih hids hrest]
          rfl

/-- What closing the message sinks. -/
theorem close_at (rt : Runtime) {e : MessageFrameEmitter} (hcur : q.current = some (id, e))
    (usage : Dict String Json) :
    (e.parses rt = true ∧ (q.close rt usage).raised = none ∧
      (q.close rt usage).state = { q with current := none } ∧
      (q.close rt usage).frames.filterMap Frame.delta = [] ∧
      finishedLast (q.close rt usage).frames = true) ∨
    (e.parses rt = false ∧ (q.close rt usage).raised ≠ none) := by
  have hparses := e.close_raised_iff rt usage
  have hclose : (q.close rt usage).raised = (e.close rt usage).raised ∧
      (q.close rt usage).frames = (e.close rt usage).frames := by
    unfold Sequencer.close
    rw [hcur]
    dsimp only
    cases (e.close rt usage).raised <;> exact ⟨rfl, rfl⟩
  rw [hclose.1, hclose.2]
  obtain ⟨blocks, hblocks, ⟨hr, usage', hframes⟩ | ⟨hr, -⟩⟩ := e.close_frames rt usage
  · refine .inl ⟨hparses.mp hr, hr, q.close_returned (hclose.1.trans hr), ?_, ?_⟩
    · rw [hframes, List.filterMap_append,
        List.filterMap_eq_nil_iff.mpr fun f hf => (hblocks f hf).2]
      rfl
    · rw [hframes, finishedLast_append fun f hf => Frame.isFinish_of_isContent (hblocks f hf).1]
      rfl
  · exact .inr ⟨Bool.eq_false_iff.mpr fun h => hr (hparses.mpr h), hr⟩

/-- Frames that finish nothing. -/
theorem ends_unfinished {frames : List Frame} (h : q.Ends rt frames)
    (hr : (q.close rt ∅).raised ≠ none) :
    frames.filterMap Frame.delta = [] ∧ ∀ f ∈ frames, f.isFinish = false :=
  ⟨List.filterMap_eq_nil_iff.mpr fun f hf => (h.2 hr f hf).2,
    fun f hf => Frame.isFinish_of_isContent (h.2 hr f hf).1⟩

/-- The end of the run. -/
theorem ends_at (asks : Bool) {frames : List Frame} (hat : q.At id e)
    (h : if asks then frames = [] else q.Ends rt frames) :
    frames.filterMap Frame.delta = [] ∧
      (finishedLast frames = true ↔ uncut rt asks e [] = true) := by
  cases asks with
  | true =>
      obtain rfl : frames = [] := h
      refine ⟨rfl, iff_of_false Bool.false_ne_true ?_⟩
      cases e <;> exact Bool.false_ne_true
  | false =>
      have hends : q.Ends rt frames := h
      cases e with
      | none =>
          have hclose : q.close rt ∅ = { state := q, frames := [], raised := none } := by
            unfold Sequencer.close
            rw [hat.current]
            rfl
          have hnil := hends.1
          rw [hclose] at hnil
          rw [hnil rfl]
          exact ⟨rfl, Iff.rfl⟩
      | some e =>
          rw [uncut, Bool.not_false, Bool.true_and]
          rcases close_at rt hat.current ∅ with ⟨hp, hr, -, hd, hf⟩ | ⟨hp, hr⟩
          · rw [hends.1 hr]
            exact ⟨hd, iff_of_true hf hp⟩
          · obtain ⟨hd, hf⟩ := ends_unfinished hends hr
            rw [finishedLast_eq_false hf, hp]
            exact ⟨hd, Iff.rfl⟩

/-- A chunk that raises at its finish: neither its frames nor the frames of the end finish
the message. -/
theorem ends_raised {usage : Dict String Json} {tail : List Frame}
    (hr : (q.close rt usage).raised ≠ none) (h : (q.close rt usage).state.Ends rt tail) :
    ((q.close rt usage).frames ++ tail).filterMap Frame.delta = [] ∧
      ∀ f ∈ (q.close rt usage).frames ++ tail, f.isFinish = false := by
  obtain ⟨hframes, hagain⟩ := Sequencer.close_raised_frames hr
  obtain ⟨hd, hf⟩ := ends_unfinished h hagain
  constructor
  · rw [List.filterMap_append, hd, List.filterMap_eq_nil_iff.mpr fun f hf => (hframes f hf).2]
    rfl
  · intro f hmem
    rcases List.mem_append.mp hmem with hmem | hmem
    · exact Frame.isFinish_of_isContent (hframes f hmem).1
    · exact hf f hmem

/-- The frames of a chunk of the message, and what comes after them. -/
theorem fed_split (rt : Runtime) (hat : q.At id e) (hid : MessagesTranslator.messageId chunk = id)
    {rest : List Frame} {ds more : List Delta} (hds : rest.filterMap Frame.delta = ds)
    (hsub : ds.Sublist more) :
    (((q.feed rt chunk).frames ++ rest).filterMap Frame.delta).Sublist
        (chunk.fragments rt ++ more) ∧
      (((q.feed rt chunk).frames ++ rest).filterMap Frame.delta = chunk.fragments rt ++ more ↔
        ((role chunk).isSome || (chunk.fragments rt).isEmpty) = true ∧ ds = more) ∧
      finishedLast ((q.feed rt chunk).frames ++ rest) = finishedLast rest := by
  obtain ⟨-, -, hnofinish, hcarried⟩ := feed_at rt hat hid
  rw [List.filterMap_append, hcarried, hds]
  exact ⟨(carried_iff hsub).1, (carried_iff hsub).2, finishedLast_append hnofinish⟩

/-- The chunk that closes the message: what follows it is dropped. -/
theorem sinks_iff_of_closes {asks : Bool} {items : List StreamItem} {frames : List Frame}
    {e' : MessageFrameEmitter} (hat : q.At id e) (hid : MessagesTranslator.messageId chunk = id)
    (hids : ∀ chunk ∈ chunksOf items, MessagesTranslator.messageId chunk = id)
    (hjoins : chunk.joins rt e = some e') (hcloses : chunk.closes = true)
    (h : q.Sinks rt asks (.messages chunk :: items) frames) :
    (frames.filterMap Frame.delta).Sublist
        (chunk.fragments rt ++ (chunksOf items).flatMap (Chunk.fragments rt)) ∧
      (frames.filterMap Frame.delta =
          chunk.fragments rt ++ (chunksOf items).flatMap (Chunk.fragments rt) ∧
        finishedLast frames = true ↔
          ((role chunk).isSome || (chunk.fragments rt).isEmpty) = true ∧ e'.parses rt = true ∧
            (chunksOf items).all (fun chunk => (chunk.fragments rt).isEmpty) = true) := by
  obtain ⟨hr, hat', -, -⟩ := feed_at rt hat hid
  have hitem := item_at_closes hat hid hjoins hcloses
  rw [hjoins] at hat'
  have hnone : (chunksOf items).all (fun chunk => (chunk.fragments rt).isEmpty) = true ↔
      [] = (chunksOf items).flatMap (Chunk.fragments rt) := by
    rw [eq_comm (a := []), List.flatMap_eq_nil_iff, List.all_eq_true]
    simp only [List.isEmpty_iff]
  rcases close_at rt hat'.current chunk.usageMetadata with
    ⟨hp, hcr, hstate, hd, hf⟩ | ⟨hp, hcr⟩
  · obtain ⟨rest, rfl, hrest⟩ := h.returned (by rw [hitem]; exact hcr)
    rw [hitem] at hrest ⊢
    obtain rfl : rest = [] := by
      refine sinks_over ?_ ?_ hids hrest
      · rw [hstate]
      · rw [hstate]
        exact hat'.seen.mpr rfl
    obtain ⟨hsub, heq, hlast⟩ := fed_split rt hat hid hd (List.nil_sublist _)
    rw [List.append_nil]
    refine ⟨hsub, ?_⟩
    rw [heq, hlast, hf, hp, hnone]
    simp only [and_true, true_and]
  · obtain ⟨exc, hexc⟩ := Option.ne_none_iff_exists'.mp hcr
    obtain ⟨-, tail, rfl, htail⟩ := h.raised (by rw [hitem]; exact hexc)
    rw [hitem] at htail ⊢
    obtain ⟨hd, hf⟩ := ends_raised hcr htail
    obtain ⟨hsub, -, hlast⟩ := fed_split rt hat hid hd (List.nil_sublist _)
    rw [List.append_assoc]
    refine ⟨hsub, ?_⟩
    rw [hlast, finishedLast_eq_false hf, hp]
    exact iff_of_false (fun h => Bool.false_ne_true h.2) fun h => Bool.false_ne_true h.2.1

/-- A run with these items carries the fragments of its chunks and finishes their message
exactly when it is uncut. -/
theorem sinks_iff {asks : Bool} {items : List StreamItem} {frames : List Frame} (hat : q.At id e)
    (hids : ∀ chunk ∈ chunksOf items, MessagesTranslator.messageId chunk = id)
    (h : q.Sinks rt asks items frames) :
    (frames.filterMap Frame.delta).Sublist ((chunksOf items).flatMap (Chunk.fragments rt)) ∧
      (frames.filterMap Frame.delta = (chunksOf items).flatMap (Chunk.fragments rt) ∧
        finishedLast frames = true ↔ uncut rt asks e (chunksOf items) = true) := by
  induction items generalizing q e frames with
  | nil =>
      obtain ⟨hd, hf⟩ := ends_at _ hat h.nil
      rw [hd]
      exact ⟨List.Sublist.refl _, (and_iff_right rfl).trans hf⟩
  | cons item items ih =>
      cases item with
      | values chunk =>
          obtain ⟨rest, rfl, hrest⟩ := h.returned rfl
          exact ih hat hids hrest
      | other =>
          obtain ⟨rest, rfl, hrest⟩ := h.returned rfl
          exact ih hat hids hrest
      | malformed exc =>
          obtain ⟨rfl, tail, rfl, htail⟩ := h.raised rfl
          obtain ⟨hd, hf⟩ := ends_at false hat htail
          show (List.filterMap _ _).Sublist [] ∧ (List.filterMap _ _ = [] ∧ _ ↔ _)
          rw [hd]
          exact ⟨List.Sublist.refl _, (and_iff_right rfl).trans hf⟩
      | messages chunk =>
          obtain ⟨hid, hids⟩ := List.forall_mem_cons.mp hids
          show (List.filterMap _ _).Sublist (List.flatMap _ (chunk :: chunksOf items)) ∧
            (List.filterMap _ _ = List.flatMap _ (chunk :: chunksOf items) ∧ _ ↔
              uncut rt asks e (chunk :: chunksOf items) = true)
          rw [List.flatMap_cons, uncut, Bool.and_eq_true]
          by_cases hopen : chunk.joins rt e = none ∨ chunk.closes = false
          · obtain ⟨hr, hat', -, -⟩ := feed_at rt hat hid
            have hitem := item_at_open hat hid hopen
            obtain ⟨rest, rfl, hrest⟩ := h.returned (by rw [hitem]; exact hr)
            rw [hitem] at hrest ⊢
            obtain ⟨hsub, hiff⟩ := ih hat' hids hrest
            obtain ⟨hsub', heq, hlast⟩ := fed_split rt hat hid rfl hsub
            refine ⟨hsub', ?_⟩
            rw [heq, hlast, and_assoc, hiff]
            cases hjoins : chunk.joins rt e with
            | none => exact Iff.rfl
            | some e' =>
                rw [hjoins] at hopen
                rw [hopen.resolve_left (Option.some_ne_none e')]
                exact Iff.rfl
          · obtain ⟨hsome, hcloses⟩ := not_or.mp hopen
            obtain ⟨e', hjoins⟩ := Option.ne_none_iff_exists'.mp hsome
            rw [Bool.not_eq_false] at hcloses
            rw [hjoins]
            dsimp only
            rw [hcloses, if_pos rfl, Bool.and_eq_true]
            exact sinks_iff_of_closes hat hid hids hjoins hcloses h

end Single

/-- A run that streams one message publishes it whole exactly when it is uncut. -/
theorem message_whole_iff (rt : Runtime) (n : Nat) (w : World) (h : (runSys rt n).Reachable w)
    (r : String) (task : Task) (hg : w.tasks.get? r = some task) (hdone : task.phase = .done)
    (hfed : task.fed ≠ []) (id : String)
    (hids : ∀ chunk ∈ chunksOf (itemsOf task.fed), MessagesTranslator.messageId chunk = id) :
    MessageWhole rt (chunksOf (itemsOf task.fed))
        (messageFrames (w.eventsOf task.threadId r)) ↔
      uncut rt ((ending task.graph none task.fed).any (Ending.asks rt)) none
        (chunksOf (itemsOf task.fed)) = true := by
  rw [(World.logInv_of_reachable h).eventsOf_eq hg]
  have hnew : Sequencer.new.At id none := ⟨rfl, by simp [Sequencer.new]⟩
  obtain ⟨hsub, hiff⟩ :=
    sinks_iff hnew hids ((World.spoken_of_reachable h hg).sinks hdone hfed)
  rw [← hiff]
  constructor
  · intro hwhole
    exact ⟨eq_fragments_of_sublist hsub hwhole.text hwhole.args, hwhole.finished⟩
  · rintro ⟨heq, hlast⟩
    exact ⟨by rw [heq, join_text_fragments], by rw [heq, args_fragments], hlast⟩

def usageChunk (id text : String) : Chunk :=
  { textChunk id text with usageMetadata := .ofList [("input_tokens", .int 3)] }

/-- A provider that reports the input tokens first. -/
def usageFirst : List StreamItem := [.messages (usageChunk "a" "Hel"), .messages (textChunk "a" "lo")]

/-- The rest of the message is lost. -/
theorem text_after_usage_lost :
    ¬∀ w, (runSys .inert 500).Reachable w → ∀ r task, w.tasks.get? r = some task →
      task.phase = .done → task.fed ≠ [] → ∀ id,
      (∀ chunk ∈ chunksOf (itemsOf task.fed), MessagesTranslator.messageId chunk = id) →
        MessageWhole .inert (chunksOf (itemsOf task.fed))
          (messageFrames (w.eventsOf task.threadId r)) := by
  intro hall
  have hrun : (runSys .inert 500).run (.new 500) (streamed usageFirst) =
    some (streamedEnd usageFirst) := rfl
  have hreach := TSys.reachable_of_run (M := runSys .inert 500) rfl hrun
  have hwhole := hall (streamedEnd usageFirst) hreach "1" _ rfl rfl (List.cons_ne_nil _ _) "a"
    (by decide)
  exact absurd hwhole.text (by decide)

def usageLast : List StreamItem := [.messages (textChunk "a" "Hel"), .messages (usageChunk "a" "lo")]

theorem message_whole_usage_last :
    MessageWhole .inert [textChunk "a" "Hel", usageChunk "a" "lo"]
      (messageFrames ((streamedEnd usageLast).eventsOf "t" "1")) := by
  have hrun : (runSys .inert 500).run (.new 500) (streamed usageLast) =
    some (streamedEnd usageLast) := rfl
  have hreach := TSys.reachable_of_run (M := runSys .inert 500) rfl hrun
  exact (message_whole_iff .inert 500 _ hreach "1" _ rfl rfl (List.cons_ne_nil _ _) "a"
    (by decide)).mpr rfl

end AgentProtocol

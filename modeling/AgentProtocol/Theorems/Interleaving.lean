import AgentProtocol.Translation.Reading

/-!
# Interleaved messages (`MessagesTranslator.feed`)

The state of a translator is kept by message id, but the first chunk of a message
finishes the ones before it, and what is fed to a finished message is dropped.
`inTurn` says when nothing is lost that way: no fragment comes after the turn of its
message, and none is held up by a message that cannot be closed.
`fragments_carried_iff` is the equivalence.
-/

namespace AgentProtocol

/-- Feed these chunks to one translator, then `finish(None)`. -/
def translate (rt : Runtime) (chunks : List Chunk) : Emission MessagesTranslator :=
  (Emission.fold (MessagesTranslator.feed rt) chunks .new).andThen fun tr => tr.finish rt none

/-- The chunk carries no fragment, or its role is unknown. -/
def Chunk.silent (rt : Runtime) (chunk : Chunk) : Bool :=
  (role chunk).isNone || (chunk.fragments rt).isEmpty

/-- Every fragment comes in the turn of its message: a turn begins with the first chunk
of a message, if the message before parses, and lasts up to the next. -/
def inTurn (rt : Runtime) : Sequencer → List Chunk → Bool
  | _, [] => true
  | q, chunk :: chunks =>
    match role chunk with
    | none => inTurn rt q chunks
    | some role =>
      let id := MessagesTranslator.messageId chunk
      if id ∈ q.seen then
        match q.current with
        | some (id', e) =>
          if id' = id then inTurn rt { q with current := some (id, e.fed rt chunk) } chunks
          else chunk.silent rt && inTurn rt q chunks
        | none => chunk.silent rt && inTurn rt q chunks
      else if q.current.all fun p => p.2.parses rt then
        inTurn rt
          { current := some (id, (MessageFrameEmitter.new id role).fed rt chunk)
            seen := id :: q.seen } chunks
      else (chunk :: chunks).all (Chunk.silent rt)

/-- The fragments fed to a message. -/
def fedTo (rt : Runtime) (id : String) (chunks : List Chunk) : List Delta :=
  (chunks.filter fun chunk =>
    (role chunk).isSome && MessagesTranslator.messageId chunk == id).flatMap (Chunk.fragments rt)

/-- The fragments read back for a message. -/
def readBack (id : String) (frames : List Frame) : List Delta :=
  ((owned none frames).filter fun x => x.1 == id).map Prod.snd

/-- No frame is out of place, each fragment is read back once for its message, and so
is the text of each message. -/
structure FragmentsCarried (rt : Runtime) (chunks : List Chunk) : Prop where
  ordered : ∃ cur, framed none (translate rt chunks).frames = some cur
  fragments : ∀ id, readBack id (translate rt chunks).frames = fedTo rt id chunks
  text : ∀ id, String.join ((readBack id (translate rt chunks).frames).filterMap Delta.text?) =
    String.join ((chunks.filter fun chunk =>
      (role chunk).isSome && MessagesTranslator.messageId chunk == id).map (textContent rt))

/-! ## Lists of owned fragments -/

/-- Leaving out elements shows in the share of one id. -/
theorem eq_of_sublist_of_shares {xs ys : List (String × Delta)} (h : xs.Sublist ys)
    (hshare : ∀ id, (xs.filter fun x => x.1 == id) = ys.filter fun x => x.1 == id) : xs = ys := by
  induction h with
  | slnil => rfl
  | @cons xs ys y hsub _ =>
      -- `y` is missing from the share of its own id
      have hy := hshare y.1
      rw [List.filter_cons, if_pos (beq_self_eq_true y.1)] at hy
      have hle := (hsub.filter fun x => x.1 == y.1).length_le
      rw [hy, List.length_cons] at hle
      omega
  | @cons_cons xs ys y hsub ih =>
      refine congrArg (y :: ·) (ih fun id => ?_)
      have hid := hshare id
      rw [List.filter_cons, List.filter_cons] at hid
      split at hid
      · exact (List.cons_inj_right y).mp hid
      · exact hid

/-- In the share of one id the fragments determine the pairs. -/
theorem share_eq (id : String) (xs : List (String × Delta)) :
    (xs.filter fun x => x.1 == id) =
      ((xs.filter fun x => x.1 == id).map Prod.snd).map fun d => (id, d) := by
  rw [List.map_map]
  refine (List.map_id _).symm.trans (List.map_congr_left fun x hx => ?_)
  have hid := beq_iff_eq.mp (List.mem_filter.mp hx).2
  rw [← hid]
  rfl

/-- All the fragments fed, each with its message. -/
def fedAll (rt : Runtime) (chunks : List Chunk) : List (String × Delta) :=
  chunks.flatMap fun chunk =>
    if (role chunk).isSome then
      (chunk.fragments rt).map fun d => (MessagesTranslator.messageId chunk, d)
    else []

section Fed

variable {rt : Runtime}

theorem fedAll_cons (chunk : Chunk) (chunks : List Chunk) :
    fedAll rt (chunk :: chunks) =
      (if (role chunk).isSome then
        (chunk.fragments rt).map fun d => (MessagesTranslator.messageId chunk, d)
      else []) ++ fedAll rt chunks := List.flatMap_cons

theorem fedAll_eq_nil_iff (chunks : List Chunk) :
    fedAll rt chunks = [] ↔ chunks.all (Chunk.silent rt) = true := by
  rw [fedAll, List.flatMap_eq_nil_iff, List.all_eq_true]
  refine forall_congr' fun chunk => forall_congr' fun _ => ?_
  unfold Chunk.silent
  cases role chunk with
  | none => simp
  | some role => simp

theorem fedTo_eq (id : String) (chunks : List Chunk) :
    fedTo rt id chunks = ((fedAll rt chunks).filter fun x => x.1 == id).map Prod.snd := by
  induction chunks with
  | nil => rfl
  | cons chunk chunks ih =>
      rw [fedAll_cons, List.filter_append, List.map_append, ← ih]
      unfold fedTo
      cases hrole : (role chunk).isSome with
      | false =>
          rw [List.filter_cons_of_neg (by simp [hrole])]
          rfl
      | true =>
          rw [if_pos rfl, List.filter_map]
          by_cases hid : MessagesTranslator.messageId chunk = id
          · rw [List.filter_cons_of_pos (by simp [hrole, hid]), List.flatMap_cons]
            congr 1
            simp [Function.comp_def, hid]
          · rw [List.filter_cons_of_neg (by simp [hid])]
            simp [Function.comp_def, hid]

/-- The text of a message is that of its fragments. -/
theorem join_text_fedTo (id : String) (chunks : List Chunk) :
    String.join ((fedTo rt id chunks).filterMap Delta.text?) =
      String.join ((chunks.filter fun chunk =>
        (role chunk).isSome && MessagesTranslator.messageId chunk == id).map (textContent rt)) :=
  join_text_fragments rt _

end Fed

/-! ## What is sunk of a stream -/

section Stream

variable {rt : Runtime}

/-- What a chunk adds to what is read back. -/
theorem owned_feedAll_cons (chunk : Chunk) (chunks : List Chunk) (q : Sequencer) :
    owned q.turn (Emission.fold (Sequencer.feed rt) (chunk :: chunks) q).frames =
      (if q.takes rt chunk then
        (chunk.fragments rt).map fun d => (MessagesTranslator.messageId chunk, d)
      else []) ++
      match (q.feed rt chunk).raised with
      | some _ => []
      | none =>
        owned (q.feed rt chunk).state.turn
          (Emission.fold (Sequencer.feed rt) chunks (q.feed rt chunk).state).frames := by
  obtain ⟨hframed, howned⟩ := q.feed_spec rt chunk
  rw [← howned]
  show owned q.turn ((q.feed rt chunk).andThen _).frames = _
  cases hr : (q.feed rt chunk).raised with
  | some exc => rw [Emission.andThen_raised hr, List.append_nil]
  | none =>
      rw [Emission.andThen_returned hr]
      exact owned_append hframed

theorem known_of_takes {q : Sequencer} {chunk : Chunk} (h : q.takes rt chunk = true) :
    (role chunk).isSome = true := by
  unfold Sequencer.takes at h
  rw [Bool.and_eq_true] at h
  exact h.1

/-- Nothing is read back that was not fed. -/
theorem owned_feedAll_sublist (chunks : List Chunk) (q : Sequencer) :
    (owned q.turn (Emission.fold (Sequencer.feed rt) chunks q).frames).Sublist
      (fedAll rt chunks) := by
  induction chunks generalizing q with
  | nil => exact List.nil_sublist _
  | cons chunk chunks ih =>
      rw [owned_feedAll_cons, fedAll_cons]
      refine List.Sublist.append ?_ ?_
      · split
        · next h =>
          rw [if_pos (known_of_takes h)]
        · exact List.nil_sublist _
      · split
        · exact List.nil_sublist _
        · exact ih _

/-- The condition, chunk by chunk. -/
theorem inTurn_cons (chunk : Chunk) (chunks : List Chunk) (q : Sequencer) :
    inTurn rt q (chunk :: chunks) = true ↔
      (q.takes rt chunk = true ∨ chunk.silent rt = true) ∧
      match (q.feed rt chunk).raised with
      | some _ => chunks.all (Chunk.silent rt) = true
      | none => inTurn rt (q.feed rt chunk).state chunks = true := by
  rw [inTurn]
  unfold Sequencer.takes Sequencer.feed Sequencer.isTurn Chunk.silent
  cases hrole : role chunk with
  | none => simp
  | some role =>
      dsimp only
      by_cases hseen : MessagesTranslator.messageId chunk ∈ q.seen
      · simp only [if_pos hseen]
        cases hcur : q.current with
        | none => simp
        | some p => by_cases hid : p.1 = MessagesTranslator.messageId chunk <;> simp [hid]
      · simp only [if_neg hseen, Sequencer.begin]
        have hclose : (q.close rt ∅).raised = none ↔
            (q.current.all fun p => p.2.parses rt) = true := by
          unfold Sequencer.close
          cases hcur : q.current with
          | none => simp
          | some p =>
              rw [Option.all_some, ← MessageFrameEmitter.close_raised_iff rt ∅]
              cases hr : (p.2.close rt ∅).raised <;> simp [hr]
        cases hr : (q.close rt ∅).raised with
        | none =>
            rw [if_pos (hclose.mp hr), q.close_returned hr]
            simp
        | some exc =>
            rw [if_neg]
            · simp [hrole]
            · rw [← hclose, hr]
              exact Option.some_ne_none exc

/-- Everything is read back exactly when every fragment comes in its turn. -/
theorem owned_feedAll_iff (chunks : List Chunk) (q : Sequencer) :
    inTurn rt q chunks = true ↔
      owned q.turn (Emission.fold (Sequencer.feed rt) chunks q).frames = fedAll rt chunks := by
  induction chunks generalizing q with
  | nil => exact iff_of_true rfl rfl
  | cons chunk chunks ih =>
      have hrest : (match (q.feed rt chunk).raised with
          | some _ => chunks.all (Chunk.silent rt) = true
          | none => inTurn rt (q.feed rt chunk).state chunks = true) ↔
          (match (q.feed rt chunk).raised with
            | some _ => []
            | none =>
              owned (q.feed rt chunk).state.turn
                (Emission.fold (Sequencer.feed rt) chunks (q.feed rt chunk).state).frames) =
            fedAll rt chunks := by
        split
        · rw [← fedAll_eq_nil_iff]
          exact eq_comm
        · exact ih _
      have hsub : (match (q.feed rt chunk).raised with
          | some _ => []
          | none =>
            owned (q.feed rt chunk).state.turn
              (Emission.fold (Sequencer.feed rt) chunks (q.feed rt chunk).state).frames).Sublist
          (fedAll rt chunks) := by
        split
        · exact List.nil_sublist _
        · exact owned_feedAll_sublist _ _
      rw [inTurn_cons, hrest, owned_feedAll_cons, fedAll_cons]
      cases ht : q.takes rt chunk with
      | true =>
          rw [if_pos rfl, if_pos (known_of_takes ht), List.append_cancel_left_eq]
          exact and_iff_right (.inl rfl)
      | false =>
          rw [if_neg Bool.false_ne_true, List.nil_append]
          have hsilent : chunk.silent rt = true ↔ fedAll rt [chunk] = [] := by
            rw [fedAll_eq_nil_iff, List.all_cons, List.all_nil, Bool.and_true]
          rw [fedAll_cons, fedAll, List.flatMap_nil, List.append_nil] at hsilent
          rw [hsilent, or_iff_right Bool.false_ne_true]
          constructor
          · rintro ⟨hnil, heq⟩
            rw [hnil, heq, List.nil_append]
          · intro heq
            -- the fragments left out would be missing from the length
            have hle := hsub.length_le
            rw [heq, List.length_append] at hle
            have hnil := List.length_eq_zero_iff.mp (Nat.le_zero.mp (by omega :
              (if (role chunk).isSome then
                (chunk.fragments rt).map fun d => (MessagesTranslator.messageId chunk, d)
              else []).length ≤ 0))
            rw [hnil, List.nil_append] at heq
            exact ⟨hnil, heq⟩

end Stream

theorem translate_refines (rt : Runtime) (chunks : List Chunk) :
    (translate rt chunks).Refines
      ((Emission.fold (Sequencer.feed rt) chunks .new).andThen fun q => q.finish rt none) :=
  (Emission.Refines.fold (fun _ _ chunk h => h.feed rt chunk) chunks
    MessagesTranslator.refines_new).andThen fun _ _ h => h.finish rt none

/-- The last `finish` brings no fragment. -/
theorem owned_translate (rt : Runtime) (chunks : List Chunk) :
    (∃ cur, framed none (translate rt chunks).frames = some cur) ∧
      owned none (translate rt chunks).frames =
        owned none (Emission.fold (Sequencer.feed rt) chunks .new).frames := by
  have hread := Emission.ReadFrom.fold (fun q chunk => q.feed_readFrom rt chunk) chunks .new
  have hframed := hread.framed
  rw [(translate_refines rt chunks).frames]
  cases hr : (Emission.fold (Sequencer.feed rt) chunks .new).raised with
  | some exc =>
      rw [Emission.andThen_raised hr]
      exact ⟨⟨_, hframed⟩, rfl⟩
  | none =>
      obtain ⟨hfin, hnone, -⟩ :=
        (Emission.fold (Sequencer.feed rt) chunks .new).state.finish_spec rt none
      rw [Emission.andThen_returned hr]
      constructor
      · exact ⟨_, (framed_append hframed).trans hfin⟩
      · rw [show owned none _ = _ from owned_append hframed, hnone, List.append_nil]

/-- A translator carries every fragment of interleaved messages exactly when each
comes in the turn of its message. -/
theorem fragments_carried_iff (rt : Runtime) (chunks : List Chunk) :
    FragmentsCarried rt chunks ↔ inTurn rt .new chunks = true := by
  obtain ⟨hordered, howned⟩ := owned_translate rt chunks
  rw [owned_feedAll_iff]
  show _ ↔ owned none _ = _
  constructor
  · intro h
    refine eq_of_sublist_of_shares (owned_feedAll_sublist chunks .new) fun id => ?_
    show (owned none _).filter _ = _
    have hid := h.fragments id
    rw [readBack, howned, fedTo_eq] at hid
    rw [share_eq, hid, ← share_eq]
  · intro heq
    have hfragments : ∀ id, readBack id (translate rt chunks).frames = fedTo rt id chunks := by
      intro id
      rw [readBack, howned, fedTo_eq]
      exact congrArg _ (congrArg _ heq)
    exact ⟨hordered, hfragments, fun id => by rw [hfragments, join_text_fedTo]⟩

/-- Two nodes of a graph that stream at the same time. -/
def parallelChunks : List Chunk :=
  [textChunk "a" "Hel", textChunk "b" "Good", textChunk "a" "lo", textChunk "b" "bye"]

/-- The rest of the first message is lost. -/
theorem parallel_fragment_lost : ¬FragmentsCarried .inert parallelChunks := by
  intro h
  exact absurd (h.fragments "a") (by decide)

end AgentProtocol

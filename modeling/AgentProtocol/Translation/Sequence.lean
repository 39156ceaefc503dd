import AgentProtocol.Translation.Finish

/-!
# One message at a time

The translator keeps an emitter for every message id, but opening a message
finishes all the others, so at most one of its emitters is unfinished. `Sequencer`
is that view: the message whose turn it is and the ids that have had theirs.
`MessagesTranslator.Refines` ties a translator to a sequencer, and `feed` and
`finish` of the one sink what those of the other do (`Refines.feed`,
`Refines.finish`).
-/

namespace AgentProtocol

/-! ## Calls one after the other -/

namespace Emission

variable {σ τ α : Type}

/-- The next call, unless this one has raised. -/
def andThen (r : Emission σ) (next : σ → Emission σ) : Emission σ :=
  match r.raised with
  | some _ => r
  | none => { next r.state with frames := r.frames ++ (next r.state).frames }

/-- One call for each of these, up to one that raises. -/
def fold (call : σ → α → Emission σ) : List α → σ → Emission σ
  | [], s => { state := s, frames := [], raised := none }
  | x :: xs, s => (call s x).andThen (fold call xs)

theorem andThen_raised {r : Emission σ} {exc : PyExc} (h : r.raised = some exc)
    (next : σ → Emission σ) : r.andThen next = r := by
  unfold andThen
  rw [h]

theorem andThen_returned {r : Emission σ} (h : r.raised = none) (next : σ → Emission σ) :
    r.andThen next =
      { next r.state with frames := r.frames ++ (next r.state).frames } := by
  unfold andThen
  rw [h]

/-- The next call does nothing. -/
theorem andThen_silent {r : Emission σ} {next : σ → Emission σ}
    (h : next r.state = { state := r.state, frames := [], raised := none }) :
    r.andThen next = r := by
  obtain ⟨state, frames, raised⟩ := r
  cases raised with
  | some exc => rfl
  | none =>
      rw [andThen_returned rfl, h, List.append_nil]

theorem andThen_assoc (r : Emission σ) (f g : σ → Emission σ) :
    (r.andThen f).andThen g = r.andThen fun s => (f s).andThen g := by
  cases hr : r.raised with
  | some exc =>
      rw [andThen_raised hr, andThen_raised hr, andThen_raised hr]
  | none =>
      rw [andThen_returned hr, andThen_returned hr]
      generalize f r.state = r'
      obtain ⟨state, frames, raised⟩ := r'
      cases raised with
      | some exc => rfl
      | none =>
          show Emission.mk _ (r.frames ++ frames ++ _) _ = _
          rw [List.append_assoc]
          rfl

theorem fold_append (call : σ → α → Emission σ) (xs ys : List α) (s : σ) :
    fold call (xs ++ ys) s = (fold call xs s).andThen (fold call ys) := by
  induction xs generalizing s with
  | nil => rfl
  | cons x xs ih =>
      show (call s x).andThen (fold call (xs ++ ys)) = ((call s x).andThen _).andThen _
      rw [andThen_assoc]
      exact congrArg _ (funext ih)

theorem fold_singleton (call : σ → α → Emission σ) (x : α) (s : σ) :
    fold call [x] s = call s x := by
  exact andThen_silent rfl

end Emission

namespace MessageFrameEmitter

/-- The emitter after a chunk of its message. -/
def fed (rt : Runtime) (e : MessageFrameEmitter) (chunk : Chunk) : MessageFrameEmitter :=
  ((e.emitStart.1.emitTextDelta rt chunk).1.emitToolCallChunks chunk.toolCallChunks).1

/-- The frames of that chunk after the start frame. -/
def content (rt : Runtime) (e : MessageFrameEmitter) (chunk : Chunk) : List Frame :=
  (e.emitStart.1.emitTextDelta rt chunk).2 ++
    ((e.emitStart.1.emitTextDelta rt chunk).1.emitToolCallChunks chunk.toolCallChunks).2

end MessageFrameEmitter

/-- The message whose turn it is, and the ids of the messages so far. -/
structure Sequencer where
  current : Option (String × MessageFrameEmitter)
  seen : List String

namespace Sequencer

def new : Sequencer := { current := none, seen := [] }

/-- The turn ends, unless a block of its message does not parse. -/
def close (rt : Runtime) (q : Sequencer) (usage : Dict String Json) : Emission Sequencer :=
  match q.current with
  | none => { state := q, frames := [], raised := none }
  | some (id, e) =>
    let r := e.close rt usage
    match r.raised with
    | none => { state := { q with current := none }, frames := r.frames, raised := none }
    | some exc =>
      { state := { q with current := some (id, r.state) }, frames := r.frames, raised := some exc }

/-- It is the turn of the message with this id. -/
def isTurn (q : Sequencer) (id : String) : Bool :=
  match q.current with
  | some (id', _) => id' == id
  | none => false

def finish (rt : Runtime) (q : Sequencer) : Option Chunk → Emission Sequencer
  | none => q.close rt ∅
  | some chunk =>
    match strOr chunk.id none with
    | none => { state := q, frames := [], raised := none }
    | some id =>
      if q.isTurn id then q.close rt chunk.usageMetadata
      else { state := q, frames := [], raised := none }

/-- A new message takes its turn. -/
def begin (rt : Runtime) (q : Sequencer) (id role : String) (chunk : Chunk) : Emission Sequencer :=
  let closed := q.close rt ∅
  match closed.raised with
  | some exc => { closed with raised := some exc }
  | none =>
    let e := MessageFrameEmitter.new id role
    { state := { current := some (id, e.fed rt chunk), seen := id :: q.seen }
      frames := closed.frames ++ .messageStart role id :: e.content rt chunk, raised := none }

def feed (rt : Runtime) (q : Sequencer) (chunk : Chunk) : Emission Sequencer :=
  match role chunk with
  | none => { state := q, frames := [], raised := none }
  | some role =>
    let id := MessagesTranslator.messageId chunk
    if id ∈ q.seen then
      match q.current with
      | some (id', e) =>
        if id' = id then
          { state := { q with current := some (id, e.fed rt chunk) }, frames := e.content rt chunk
            raised := none }
        else { state := q, frames := [], raised := none }
      | none => { state := q, frames := [], raised := none }
    else q.begin rt id role chunk

end Sequencer

namespace Sequencer

variable {rt : Runtime}

/-- After a turn has ended it is nobody's. -/
theorem close_returned (q : Sequencer) {usage : Dict String Json}
    (h : (q.close rt usage).raised = none) :
    (q.close rt usage).state = { q with current := none } := by
  obtain ⟨current, seen⟩ := q
  cases current with
  | none => rfl
  | some p =>
      simp only [close] at h ⊢
      cases hr : (p.2.close rt usage).raised with
      | none => rfl
      | some exc =>
          simp only [hr] at h
          cases h

end Sequencer

/-! ## The translator refines it -/

/-- The sequencer's message is the one unfinished emitter of the translator. -/
structure MessagesTranslator.Refines (tr : MessagesTranslator) (q : Sequencer) : Prop where
  seen : ∀ id, id ∈ q.seen ↔ (tr.openMessages.get? id).isSome = true
  current : ∀ id e, q.current = some (id, e) ↔
    tr.openMessages.get? id = some e ∧ e.finished = false
  started : ∀ id e, tr.openMessages.get? id = some e → e.started = true

/-- Two emissions that sink and raise the same, into states that correspond. -/
structure Emission.Refines (r : Emission MessagesTranslator) (r' : Emission Sequencer) : Prop where
  state : r.state.Refines r'.state
  frames : r.frames = r'.frames
  raised : r.raised = r'.raised

theorem Emission.Refines.andThen {r : Emission MessagesTranslator} {r' : Emission Sequencer}
    {next : MessagesTranslator → Emission MessagesTranslator}
    {next' : Sequencer → Emission Sequencer} (h : r.Refines r')
    (hnext : ∀ tr q, tr.Refines q → (next tr).Refines (next' q)) :
    (r.andThen next).Refines (r'.andThen next') := by
  cases hr : r.raised with
  | some exc =>
      rw [andThen_raised hr, andThen_raised (h.raised ▸ hr)]
      exact h
  | none =>
      have hn := hnext _ _ h.state
      rw [andThen_returned hr, andThen_returned (h.raised ▸ hr)]
      exact ⟨hn.state, by rw [h.frames, hn.frames], hn.raised⟩

theorem Emission.Refines.fold {α : Type} {call : MessagesTranslator → α → Emission MessagesTranslator}
    {call' : Sequencer → α → Emission Sequencer}
    (hcall : ∀ tr q x, tr.Refines q → (call tr x).Refines (call' q x)) (xs : List α)
    {tr : MessagesTranslator} {q : Sequencer} (h : tr.Refines q) :
    (Emission.fold call xs tr).Refines (Emission.fold call' xs q) := by
  induction xs generalizing tr q with
  | nil => exact ⟨h, rfl, rfl⟩
  | cons x xs ih => exact (hcall tr q x h).andThen fun _ _ h' => ih h'

namespace MessageFrameEmitter

variable {rt : Runtime}

theorem emitStart_started (e : MessageFrameEmitter) : e.emitStart.1.started = true := by
  unfold emitStart
  split
  · next h => exact h
  · rfl

theorem emitStart_finished (e : MessageFrameEmitter) : e.emitStart.1.finished = e.finished := by
  unfold emitStart
  split <;> rfl

theorem emitTextDelta_flags (e : MessageFrameEmitter) (chunk : Chunk) :
    (e.emitTextDelta rt chunk).1.started = e.started ∧
      (e.emitTextDelta rt chunk).1.finished = e.finished := by
  unfold emitTextDelta ensureTextIndex allocateIndex
  dsimp only
  split
  · exact ⟨rfl, rfl⟩
  · split <;> exact ⟨rfl, rfl⟩

theorem emitToolCallChunk_flags (e : MessageFrameEmitter) (fragment : Fragment) :
    (e.emitToolCallChunk fragment).1.started = e.started ∧
      (e.emitToolCallChunk fragment).1.finished = e.finished := by
  have hindex : (e.fragmentIndex fragment).2.started = e.started ∧
      (e.fragmentIndex fragment).2.finished = e.finished := by
    unfold fragmentIndex allocateIndex
    split <;> exact ⟨rfl, rfl⟩
  unfold emitToolCallChunk
  dsimp only
  split
  · split <;> exact hindex
  · exact hindex

theorem emitToolCallChunks_flags (e : MessageFrameEmitter) (fragments : List Fragment) :
    (e.emitToolCallChunks fragments).1.started = e.started ∧
      (e.emitToolCallChunks fragments).1.finished = e.finished := by
  induction fragments generalizing e with
  | nil => exact ⟨rfl, rfl⟩
  | cons fragment fragments ih =>
      obtain ⟨hs, hf⟩ := ih (e.emitToolCallChunk fragment).1
      obtain ⟨hs', hf'⟩ := e.emitToolCallChunk_flags fragment
      exact ⟨hs.trans hs', hf.trans hf'⟩

theorem fed_started (e : MessageFrameEmitter) (chunk : Chunk) : (e.fed rt chunk).started = true := by
  unfold fed
  rw [(emitToolCallChunks_flags _ _).1, (emitTextDelta_flags _ _).1, emitStart_started]

theorem fed_finished (e : MessageFrameEmitter) (chunk : Chunk) :
    (e.fed rt chunk).finished = e.finished := by
  unfold fed
  rw [(emitToolCallChunks_flags _ _).2, (emitTextDelta_flags _ _).2, emitStart_finished]

/-- What closing a message leaves of it. -/
theorem close_flags (rt : Runtime) (usage : Dict String Json) (e : MessageFrameEmitter) :
    (e.close rt usage).state.started = e.started ∧
      ((e.close rt usage).raised = none → (e.close rt usage).state.finished = true) ∧
      ((e.close rt usage).raised ≠ none → (e.close rt usage).state.finished = e.finished) := by
  have husage : (e.withUsage usage).started = e.started ∧
      (e.withUsage usage).finished = e.finished := by
    unfold withUsage
    split <;> exact ⟨rfl, rfl⟩
  unfold close
  dsimp only
  split
  · exact ⟨husage.1, fun h => (by cases h), fun _ => husage.2⟩
  · exact ⟨husage.1, fun _ => rfl, fun h => absurd rfl h⟩

end MessageFrameEmitter

namespace MessagesTranslator

variable {rt : Runtime} {tr : MessagesTranslator} {q : Sequencer}

theorem refines_new : MessagesTranslator.new.Refines .new where
  seen id := by simp [new, Sequencer.new]
  current id e := by simp [new, Sequencer.new]
  started id e h := by cases h

/-- The one message `finish(None)` terminates. -/
theorem Refines.targets_none (h : tr.Refines q) :
    tr.targets none = match q.current with
      | none => []
      | some (id, _) => [id] := by
  have hmem : ∀ id, id ∈ tr.targets none ↔ ∃ e, q.current = some (id, e) := by
    intro id
    simp only [targets, List.mem_map, List.mem_filter, Bool.not_eq_true', Prod.exists]
    constructor
    · rintro ⟨_, e, ⟨hmem, hf⟩, rfl⟩
      exact ⟨e, (h.current _ e).mpr ⟨(Dict.mem_entries_iff _ _ _).mp hmem, hf⟩⟩
    · rintro ⟨e, hcur⟩
      obtain ⟨hget, hf⟩ := (h.current id e).mp hcur
      exact ⟨id, e, ⟨(Dict.mem_entries_iff _ _ _).mpr hget, hf⟩, rfl⟩
  have hnd : (tr.targets none).Nodup :=
    tr.openMessages.nodupKeys.sublist (List.filter_sublist.map Prod.fst)
  cases hcur : q.current with
  | none =>
      refine List.eq_nil_iff_forall_not_mem.mpr fun id hid => ?_
      obtain ⟨e, he⟩ := (hmem id).mp hid
      rw [hcur] at he
      cases he
  | some p =>
      obtain ⟨id, e⟩ := p
      refine List.perm_singleton.mp ((List.perm_ext_iff_of_nodup hnd (List.nodup_singleton id)).mpr ?_)
      intro id'
      rw [hmem, hcur, List.mem_singleton]
      constructor
      · rintro ⟨e', he'⟩
        exact (congrArg Prod.fst (Option.some.inj he')).symm
      · rintro rfl
        exact ⟨e, rfl⟩

/-- The emitter of one message is replaced, and no other is unfinished. -/
theorem Refines.set (h : tr.Refines q) {id : String} {e : MessageFrameEmitter} {q' : Sequencer}
    (hseen : ∀ id', id' ∈ q'.seen ↔ id' = id ∨ id' ∈ q.seen)
    (hturn : ∀ id' e', q.current = some (id', e') → id' = id) (hstarted : e.started = true)
    (hcur : q'.current = if e.finished then none else some (id, e)) :
    MessagesTranslator.Refines { openMessages := tr.openMessages.set id e } q' := by
  constructor
  · intro id'
    rw [hseen, h.seen, Dict.get?_set]
    by_cases hid : id = id'
    · simp [hid]
    · rw [if_neg hid]
      exact or_iff_right fun heq => hid heq.symm
  · intro id' e'
    rw [hcur, Dict.get?_set]
    by_cases hid : id = id'
    · subst hid
      cases hf : e.finished with
      | false =>
          simp only [Bool.false_eq_true, if_false, if_true, Option.some.injEq, Prod.mk.injEq,
            true_and]
          exact ⟨fun heq => ⟨heq, heq ▸ hf⟩, And.left⟩
      | true =>
          simp only [if_true, reduceCtorEq, false_iff, Option.some.injEq]
          rintro ⟨rfl, hf'⟩
          rw [hf] at hf'
          cases hf'
    · -- no other message is unfinished
      rw [if_neg hid]
      constructor
      · intro heq
        split at heq
        · cases heq
        · exact absurd (congrArg Prod.fst (Option.some.inj heq)) hid
      · intro hopen
        exact absurd (hturn id' e' ((h.current id' e').mpr hopen)).symm hid
  · intro id' e' hget
    rw [Dict.get?_set] at hget
    split at hget
    · rw [← Option.some.inj hget]
      exact hstarted
    · exact h.started id' e' hget

/-- Terminating the one unfinished message. -/
theorem Refines.closeAll (h : tr.Refines q) (usage : Dict String Json) {id : String}
    {e : MessageFrameEmitter} (hcur : q.current = some (id, e)) :
    (closeAll rt usage [id] tr).Refines (q.close rt usage) := by
  obtain ⟨hget, hf⟩ := (h.current id e).mp hcur
  obtain ⟨hstarted, hfinished, hkept⟩ := e.close_flags rt usage
  have hseen : ∀ id', id' ∈ q.seen ↔ id' = id ∨ id' ∈ q.seen := by
    intro id'
    refine ⟨.inr, ?_⟩
    rintro (rfl | hmem)
    · rw [h.seen, hget]
      rfl
    · exact hmem
  have hturn : ∀ id' e', q.current = some (id', e') → id' = id := by
    intro id' e' hcur'
    rw [hcur] at hcur'
    exact (congrArg Prod.fst (Option.some.inj hcur')).symm
  unfold MessagesTranslator.closeAll Sequencer.close
  simp only [hget, hcur]
  cases hr : (e.close rt usage).raised with
  | none =>
      refine ⟨h.set hseen hturn (hstarted.trans (h.started id e hget)) ?_, ?_, rfl⟩
      · rw [if_pos (hfinished hr)]
      · exact List.append_nil _
  | some exc =>
      refine ⟨h.set hseen hturn (hstarted.trans (h.started id e hget)) ?_, rfl, rfl⟩
      rw [if_neg]
      rw [hkept (by rw [hr]; exact Option.some_ne_none _), hf]
      exact Bool.false_ne_true

/-- `finish` ends a turn. -/
theorem Refines.finish (rt : Runtime) (h : tr.Refines q) (chunk : Option Chunk) :
    (tr.finish rt chunk).Refines (q.finish rt chunk) := by
  unfold MessagesTranslator.finish Sequencer.finish
  cases chunk with
  | none =>
      rw [h.targets_none]
      cases hcur : q.current with
      | none =>
          simp only [Sequencer.close, hcur]
          exact ⟨h, rfl, rfl⟩
      | some p => exact h.closeAll _ hcur
  | some chunk =>
      simp only [targets]
      cases hid : strOr chunk.id none with
      | none => exact ⟨h, rfl, rfl⟩
      | some id =>
          dsimp only
          -- the message of the chunk is terminated when it is its turn
          have hturn : q.isTurn id = true ↔
              ∃ e, tr.openMessages.get? id = some e ∧ e.finished = false := by
            unfold Sequencer.isTurn
            cases hcur : q.current with
            | none =>
                simp only [Bool.false_eq_true, false_iff]
                rintro ⟨e, he⟩
                rw [← h.current id e, hcur] at he
                cases he
            | some p =>
                obtain ⟨id', e'⟩ := p
                simp only [beq_iff_eq]
                constructor
                · rintro rfl
                  exact ⟨e', (h.current id' e').mp hcur⟩
                · rintro ⟨e, he⟩
                  rw [← h.current id e, hcur] at he
                  exact congrArg Prod.fst (Option.some.inj he)
          by_cases hq : q.isTurn id = true
          · obtain ⟨e, hget, hf⟩ := hturn.mp hq
            rw [if_pos hq]
            simp only [hget, hf, Bool.false_eq_true, if_false]
            exact h.closeAll _ ((h.current id e).mpr ⟨hget, hf⟩)
          · rw [if_neg hq]
            cases hget : tr.openMessages.get? id with
            | none => exact ⟨h, rfl, rfl⟩
            | some e =>
                cases hf : e.finished with
                | true => simpa only [hf, if_true] using (⟨h, rfl, rfl⟩ : Emission.Refines _ _)
                | false => exact absurd (hturn.mpr ⟨e, hget, hf⟩) hq

/-- The frames and the emitter of a chunk. -/
theorem feedMessage_eq (tr : MessagesTranslator) (id : String) (e : MessageFrameEmitter)
    (chunk : Chunk) : tr.feedMessage rt id e chunk =
      ({ openMessages := tr.openMessages.set id (e.fed rt chunk) },
        e.emitStart.2 ++ e.content rt chunk) := by
  unfold feedMessage MessageFrameEmitter.fed MessageFrameEmitter.content
  dsimp only
  rw [List.append_assoc]

/-- `feed` goes on with a turn, or begins one. -/
theorem Refines.feed (rt : Runtime) (h : tr.Refines q) (chunk : Chunk) :
    (tr.feed rt chunk).Refines (q.feed rt chunk) := by
  unfold MessagesTranslator.feed Sequencer.feed
  cases hrole : AgentProtocol.role chunk with
  | none => exact ⟨h, rfl, rfl⟩
  | some role =>
      dsimp only
      cases hget : tr.openMessages.get? (messageId chunk) with
      | some e =>
          have hseen : messageId chunk ∈ q.seen := (h.seen _).mpr (by rw [hget]; rfl)
          rw [if_pos hseen]
          have hstarted := h.started _ e hget
          dsimp only
          cases hf : e.finished with
          | true =>
              have hnot : ∀ id' e', q.current = some (id', e') → id' ≠ messageId chunk := by
                rintro id' e' hcur rfl
                obtain ⟨hget', hf'⟩ := (h.current _ e').mp hcur
                rw [hget, Option.some.injEq] at hget'
                rw [← hget', hf] at hf'
                cases hf'
              rw [if_pos rfl]
              cases hcur : q.current with
              | none => exact ⟨h, rfl, rfl⟩
              | some p =>
                  dsimp only
                  rw [if_neg (hnot p.1 p.2 hcur)]
                  exact ⟨h, rfl, rfl⟩
          | false =>
              have hcur := (h.current _ e).mpr ⟨hget, hf⟩
              rw [if_neg Bool.false_ne_true, feedMessage_eq, hcur]
              simp only [if_true]
              refine ⟨h.set ?_ ?_ (e.fed_started chunk) ?_, ?_, rfl⟩
              · intro id'
                exact ⟨.inr, fun hid => hid.elim (fun heq => heq ▸ hseen) id⟩
              · intro id' e' hcur'
                rw [hcur] at hcur'
                exact (congrArg Prod.fst (Option.some.inj hcur')).symm
              · rw [e.fed_finished, hf]
                rfl
              · have hstart : e.emitStart.2 = [] := by
                  unfold MessageFrameEmitter.emitStart
                  rw [if_pos hstarted]
                rw [hstart, List.nil_append]
      | none =>
          have hseen : messageId chunk ∉ q.seen := by
            rw [h.seen, hget]
            exact Bool.false_ne_true
          rw [if_neg hseen]
          have hfin : (tr.finish rt none).Refines (q.close rt ∅) := h.finish rt none
          unfold Sequencer.begin
          dsimp only
          rw [← hfin.raised]
          cases hr : (tr.finish rt none).raised with
          | some exc => exact ⟨hfin.state, hfin.frames, rfl⟩
          | none =>
              dsimp only
              rw [feedMessage_eq]
              have hclosed := q.close_returned (hfin.raised ▸ hr)
              refine ⟨hfin.state.set ?_ ?_ (MessageFrameEmitter.fed_started _ chunk) ?_, ?_, rfl⟩
              · intro id'
                rw [hclosed]
                exact List.mem_cons
              · intro id' e' hcur
                rw [hclosed] at hcur
                cases hcur
              · rw [MessageFrameEmitter.fed_finished]
                rfl
              · rw [hfin.frames]
                rfl

end MessagesTranslator

end AgentProtocol

import AgentProtocol.Translation.Script

/-!
# When a message is open

A message is open from the call that feeds its first chunk until a call finishes it. The
turns of a script are the messages of its calls, and each has taken the chunks that are fed
for it while it is open (`Script.Follows`).
-/

namespace AgentProtocol

/-- The message a call feeds, if the role of its chunk is known. -/
def Call.feeds : Call → Option String
  | .feed chunk => (role chunk).map fun _ => MessagesTranslator.messageId chunk
  | .finish _ => none

/-- The messages fed by these calls. -/
def fedIds (calls : List Call) : List String := calls.filterMap Call.feeds

/-- The chunks these calls feed a message. -/
def chunksFed (id : String) (calls : List Call) : List Chunk :=
  calls.filterMap fun call =>
    match call with
    | .feed chunk => if call.feeds = some id then some chunk else none
    | .finish _ => none

/-- After the calls before, this one finishes the message, if it is open: it finishes all
messages or this one, or feeds a new one. -/
def Call.Finishes (before : List Call) (id : String) : Call → Prop
  | .finish none => True
  | .finish (some chunk) => strOr chunk.id none = some id
  | .feed chunk => ∃ new, (Call.feed chunk).feeds = some new ∧ new ∉ fedIds before

/-- The calls during which a message is open: the first of them feeds it its first chunk, no
other finishes it, and the call after them, if there is one, does. -/
structure Lifetime (id role : String) (before during after : List Call) : Prop where
  new : id ∉ fedIds before
  first : ∃ chunk rest, during = .feed chunk :: rest ∧ AgentProtocol.role chunk = some role ∧
    MessagesTranslator.messageId chunk = id
  lasts : ∀ xs call ys, during = xs ++ call :: ys → xs ≠ [] → ¬call.Finishes (before ++ xs) id
  ends : ∀ call rest, after = call :: rest → call.Finishes (before ++ during) id

theorem fedIds_append (xs ys : List Call) : fedIds (xs ++ ys) = fedIds xs ++ fedIds ys :=
  List.filterMap_append

theorem mem_fedIds_concat (calls : List Call) (call : Call) (id : String) :
    id ∈ fedIds (calls ++ [call]) ↔ id ∈ fedIds calls ∨ call.feeds = some id := by
  rw [fedIds_append, List.mem_append]
  apply or_congr Iff.rfl
  show id ∈ List.filterMap Call.feeds [call] ↔ _
  rw [List.mem_filterMap]
  simp only [List.mem_singleton, exists_eq_left]

theorem chunksFed_concat (id : String) (calls : List Call) (call : Call) :
    chunksFed id (calls ++ [call]) = chunksFed id calls ++ chunksFed id [call] :=
  List.filterMap_append

theorem chunksFed_of_not_feeds {id : String} {call : Call} (h : call.feeds ≠ some id) :
    chunksFed id [call] = [] := by
  cases call with
  | feed chunk => simp [chunksFed, h]
  | finish chunk => rfl

theorem chunksFed_of_feeds {id : String} {chunk : Chunk} (h : (Call.feed chunk).feeds = some id) :
    chunksFed id [.feed chunk] = [chunk] := by
  simp [chunksFed, h]

namespace Lifetime

variable {id role : String} {before during : List Call} {call : Call}

/-- It goes on. -/
theorem extend (h : Lifetime id role before during [])
    (hopen : ¬call.Finishes (before ++ during) id) :
    Lifetime id role before (during ++ [call]) [] where
  new := h.new
  first := by
    obtain ⟨chunk, rest, rfl, hchunk⟩ := h.first
    exact ⟨chunk, rest ++ [call], rfl, hchunk⟩
  lasts := by
    intro xs c ys heq hxs
    rcases List.eq_nil_or_concat ys with rfl | ⟨ys, c', rfl⟩
    · obtain ⟨rfl, hcall⟩ := List.append_inj' heq rfl
      rw [← (List.cons.inj hcall).1]
      exact hopen
    · rw [List.concat_eq_append, ← List.cons_append, ← List.append_assoc] at heq
      obtain ⟨hinit, -⟩ := List.append_inj' heq rfl
      exact h.lasts xs c ys hinit hxs
  ends _ _ heq := by cases heq

/-- It ends. -/
theorem close (h : Lifetime id role before during []) (hends : call.Finishes (before ++ during) id)
    (rest : List Call) : Lifetime id role before during (call :: rest) where
  new := h.new
  first := h.first
  lasts := h.lasts
  ends := by
    intro c rest' heq
    rw [← (List.cons.inj heq).1]
    exact hends

/-- What comes after its end does not matter. -/
theorem later {rest : List Call} (h : Lifetime id role before during (call :: rest))
    (rest' : List Call) : Lifetime id role before during (call :: rest') where
  new := h.new
  first := h.first
  lasts := h.lasts
  ends := by
    intro c _ heq
    rw [← (List.cons.inj heq).1]
    exact h.ends call rest rfl

end Lifetime

/-! ## The turns of a script are those messages -/

/-- A turn has taken the chunks of its message while it was open. -/
structure MessageTurn.Spans (turn : MessageTurn) (before during after : List Call) : Prop where
  lifetime : Lifetime turn.id turn.role before during after
  chunks : turn.chunks = chunksFed turn.id during

/-- The script has followed these calls. -/
structure Script.Follows (s : Script) (calls : List Call) : Prop where
  fed : ∀ id, id ∈ s.ids ↔ id ∈ fedIds calls
  nodup : s.ids.Nodup
  ended : ∀ p ∈ s.ended, ∃ before during call rest,
    calls = before ++ during ++ call :: rest ∧ p.1.Spans before during (call :: rest)
  current : ∀ turn, s.current = some turn → ∃ before during,
    calls = before ++ during ∧ turn.Spans before during []

namespace Script.Follows

variable {s : Script} {calls : List Call} {call : Call}

theorem ended_later (h : s.Follows calls) (call : Call) :
    ∀ p ∈ s.ended, ∃ before during c rest,
      calls ++ [call] = before ++ during ++ c :: rest ∧ p.1.Spans before during (c :: rest) := by
  intro p hp
  obtain ⟨before, during, c, rest, rfl, hspan⟩ := h.ended p hp
  refine ⟨before, during, c, rest ++ [call], ?_, hspan.lifetime.later _, hspan.chunks⟩
  rw [List.append_assoc, List.cons_append]

/-- The call finishes the open message. -/
theorem ended_close (h : s.Follows calls) (usage : Dict String Json)
    (hends : ∀ turn, s.current = some turn → call.Finishes calls turn.id) :
    ∀ p ∈ (s.close usage).ended, ∃ before during c rest,
      calls ++ [call] = before ++ during ++ c :: rest ∧ p.1.Spans before during (c :: rest) := by
  intro p hp
  unfold Script.close at hp
  split at hp
  · exact h.ended_later call p hp
  · next turn hcur =>
    rcases List.mem_append.mp hp with hp | hp
    · exact h.ended_later call p hp
    · rw [List.mem_singleton.mp hp]
      obtain ⟨before, during, rfl, hspan⟩ := h.current turn hcur
      exact ⟨before, during, call, [], rfl, hspan.lifetime.close (hends turn hcur) [], hspan.chunks⟩

/-- A call that finishes no open message and feeds no new one: the open one takes the
chunk, if it is fed one. -/
theorem go (h : s.Follows calls) (current : Option MessageTurn)
    (hids : ({ s with current } : Script).ids = s.ids)
    (hold : ∀ id, call.feeds = some id → id ∈ s.ids)
    (hturn : ∀ turn, current = some turn → ∃ turn₀, s.current = some turn₀ ∧
      turn.id = turn₀.id ∧ turn.role = turn₀.role ∧
      turn.chunks = turn₀.chunks ++ chunksFed turn₀.id [call] ∧ ¬call.Finishes calls turn₀.id) :
    ({ s with current } : Script).Follows (calls ++ [call]) where
  fed id := by
    rw [hids, mem_fedIds_concat, ← h.fed]
    exact (or_iff_left_of_imp (hold id)).symm
  nodup := by
    rw [hids]
    exact h.nodup
  ended := h.ended_later call
  current := by
    intro turn hcur
    obtain ⟨turn₀, hcur₀, hid, hrole, hchunks, hopen⟩ := hturn turn hcur
    obtain ⟨before, during, rfl, hspan⟩ := h.current turn₀ hcur₀
    refine ⟨before, during ++ [call], List.append_assoc _ _ _, ?_, ?_⟩
    · rw [hid, hrole]
      exact hspan.lifetime.extend hopen
    · rw [hid, hchunks, hspan.chunks, chunksFed_concat]

/-- Nothing happens. -/
theorem stay (h : s.Follows calls) (hold : ∀ id, call.feeds = some id → id ∈ s.ids)
    (hturn : ∀ turn, s.current = some turn →
      call.feeds ≠ some turn.id ∧ ¬call.Finishes calls turn.id) :
    s.Follows (calls ++ [call]) := by
  refine h.go s.current rfl hold fun turn hcur => ⟨turn, hcur, rfl, rfl, ?_, ?_⟩
  · rw [chunksFed_of_not_feeds (hturn turn hcur).1, List.append_nil]
  · exact (hturn turn hcur).2

/-- The call finishes the open message and feeds no new one. -/
theorem close (h : s.Follows calls) (usage : Dict String Json) (hold : call.feeds = none)
    (hends : ∀ turn, s.current = some turn → call.Finishes calls turn.id) :
    (s.close usage).Follows (calls ++ [call]) where
  fed id := by
    rw [Script.close_ids, mem_fedIds_concat, hold, h.fed]
    simp
  nodup := by
    rw [Script.close_ids]
    exact h.nodup
  ended := h.ended_close usage hends
  current turn hcur := by
    rw [s.close_current] at hcur
    cases hcur

theorem feeds_eq {chunk : Chunk} {role : String} (hrole : AgentProtocol.role chunk = some role) :
    (Call.feed chunk).feeds = some (MessagesTranslator.messageId chunk) := by
  show (AgentProtocol.role chunk).map _ = _
  rw [hrole]
  rfl

/-- The first chunk of a message. -/
theorem begin (h : s.Follows calls) {chunk : Chunk} {role : String}
    (hrole : AgentProtocol.role chunk = some role)
    (hnew : MessagesTranslator.messageId chunk ∉ s.ids) :
    ({ s.close ∅ with
        current := some { id := MessagesTranslator.messageId chunk, role, chunks := [chunk] } } :
      Script).Follows (calls ++ [.feed chunk]) := by
  have hfeeds := feeds_eq hrole
  have hids := s.close_ids ∅
  have hcurrent := s.close_current ∅
  rw [Script.ids, hcurrent] at hids
  have hids' : ({ s.close ∅ with
      current := some { id := MessagesTranslator.messageId chunk, role, chunks := [chunk] } } :
        Script).ids = s.ids ++ [MessagesTranslator.messageId chunk] := by
    rw [← hids]
    show _ = (_ ++ []) ++ _
    rw [List.append_nil]
    rfl
  have hnew' : MessagesTranslator.messageId chunk ∉ fedIds calls := mt (h.fed _).mpr hnew
  constructor
  · intro id
    rw [hids', mem_fedIds_concat, hfeeds, List.mem_append, h.fed, List.mem_singleton,
      Option.some.injEq]
    exact or_congr Iff.rfl eq_comm
  · rw [hids']
    exact h.nodup.append (List.nodup_singleton _) (List.disjoint_singleton.mpr hnew)
  · exact h.ended_close ∅ fun turn _ => ⟨_, hfeeds, hnew'⟩
  · intro turn hcur
    obtain rfl := Option.some.inj hcur
    refine ⟨calls, [.feed chunk], rfl, ⟨hnew', ⟨chunk, [], rfl, hrole, rfl⟩, ?_, ?_⟩,
      (chunksFed_of_feeds hfeeds).symm⟩
    · intro xs c ys heq hxs
      cases xs with
      | nil => exact absurd rfl hxs
      | cons x xs =>
          have hnil := (List.cons.inj heq).2
          cases xs <;> cases hnil
    · intro c rest heq
      cases heq

theorem isTurn_iff (s : Script) (id : String) :
    s.isTurn id = true ↔ ∃ turn, s.current = some turn ∧ turn.id = id := by
  unfold Script.isTurn
  cases s.current with
  | none => simp
  | some turn => simp

theorem feed (h : s.Follows calls) (chunk : Chunk) :
    (s.feed chunk).Follows (calls ++ [.feed chunk]) := by
  unfold Script.feed
  cases hrole : role chunk with
  | none =>
      have hfeeds : (Call.feed chunk).feeds = none := by
        show (role chunk).map _ = _
        rw [hrole]
        rfl
      refine h.stay (fun id hid => ?_) fun turn _ => ⟨?_, ?_⟩
      · rw [hfeeds] at hid
        cases hid
      · rw [hfeeds]
        exact (Option.some_ne_none _).symm
      · rintro ⟨new, hnew, -⟩
        rw [hfeeds] at hnew
        cases hnew
  | some role =>
      have hfeeds := feeds_eq hrole
      dsimp only
      by_cases hmem : MessagesTranslator.messageId chunk ∈ s.ids
      · rw [if_pos hmem]
        have hold : ∀ id, (Call.feed chunk).feeds = some id → id ∈ s.ids := by
          intro id hid
          rw [hfeeds] at hid
          rw [← Option.some.inj hid]
          exact hmem
        -- the chunk of a message that has been fed finishes nothing
        have hopen : ∀ id, ¬(Call.feed chunk).Finishes calls id := by
          rintro id ⟨new, hnew, hnot⟩
          exact hnot ((h.fed new).mp (hold new hnew))
        by_cases hturn : s.isTurn (MessagesTranslator.messageId chunk) = true
        · rw [if_pos hturn]
          obtain ⟨turn, hcur, hid⟩ := (isTurn_iff s _).mp hturn
          refine h.go _ ?_ hold fun turn' hcur' => ?_
          · rw [Script.ids, Script.ids, hcur]
            rfl
          · rw [hcur] at hcur'
            obtain rfl := Option.some.inj hcur'
            refine ⟨turn, hcur, rfl, rfl, ?_, hopen _⟩
            rw [hid, chunksFed_of_feeds hfeeds]
            rfl
        · rw [if_neg hturn]
          refine h.stay hold fun turn hcur => ⟨fun heq => hturn ?_, hopen _⟩
          rw [hfeeds] at heq
          exact (isTurn_iff s _).mpr ⟨turn, hcur, (Option.some.inj heq).symm⟩
      · rw [if_neg hmem]
        exact h.begin hrole hmem

theorem finish (h : s.Follows calls) (chunk : Option Chunk) :
    (s.finish chunk).Follows (calls ++ [.finish chunk]) := by
  have hfeeds : (Call.finish chunk).feeds = none := rfl
  have hstay : (∀ turn, s.current = some turn → ¬(Call.finish chunk).Finishes calls turn.id) →
      s.Follows (calls ++ [.finish chunk]) := fun hopen =>
    h.stay (fun id hid => (by cases hid)) fun turn hcur =>
      ⟨(Option.some_ne_none _).symm, hopen turn hcur⟩
  unfold Script.finish
  cases chunk with
  | none => exact h.close ∅ hfeeds fun _ _ => trivial
  | some chunk =>
      dsimp only
      cases hid : strOr chunk.id none with
      | none =>
          apply hstay
          intro turn _ hfin
          rw [Call.Finishes, hid] at hfin
          cases hfin
      | some id =>
          dsimp only
          by_cases hturn : s.isTurn id = true
          · rw [if_pos hturn]
            obtain ⟨turn, hcur, rfl⟩ := (isTurn_iff s _).mp hturn
            apply h.close _ hfeeds
            intro turn' hcur'
            rw [hcur] at hcur'
            obtain rfl := Option.some.inj hcur'
            exact hid
          · rw [if_neg hturn]
            refine hstay fun turn hcur hfin => hturn ((isTurn_iff s _).mpr ⟨turn, hcur, ?_⟩)
            rw [Call.Finishes, hid] at hfin
            exact (Option.some.inj hfin).symm

/-- The script of any calls follows them. -/
theorem script (calls : List Call) : (AgentProtocol.script calls).Follows calls := by
  induction calls using List.reverseRecOn with
  | nil =>
      exact ⟨fun _ => Iff.rfl, List.nodup_nil, fun p hp => (by cases hp), fun _ h => (by cases h)⟩
  | append_singleton calls call ih =>
      rw [script_concat]
      cases call with
      | feed chunk => exact ih.feed chunk
      | finish chunk => exact ih.finish chunk

end Script.Follows

/-! ## The chunks of one message -/

/-- They are chunks of the message with this id. -/
structure OfMessage (id : String) (chunks : List Chunk) : Prop where
  nonempty : chunks ≠ []
  feeds : ∀ chunk ∈ chunks, (Call.feed chunk).feeds = some id

/-- `finish` is called with these for the message with this id. -/
def Finisher (id : String) (last : Option Chunk) : Prop :=
  ∀ chunk, last = some chunk → strOr chunk.id none = some id

/-- The usage metadata a message ends with. -/
def usageOf (last : Option Chunk) : Dict String Json := (last.map Chunk.usageMetadata).getD ∅

section Messages

variable {id : String} {before : List Call} {chunks : List Chunk} {last : Option Chunk}

/-- The chunks of a new message are its turn. -/
theorem script_message (hnew : id ∉ fedIds before) (h : OfMessage id chunks) :
    ∃ role, script (before ++ chunks.map .feed) =
      { (script before).close ∅ with current := some { id, role, chunks } } := by
  obtain ⟨hne, hfeeds⟩ := h
  have hids := (Script.Follows.script before).fed id
  induction chunks using List.reverseRecOn with
  | nil => exact absurd rfl hne
  | append_singleton chunks chunk ih =>
      have hchunk := hfeeds chunk (List.mem_append_right _ List.mem_cons_self)
      obtain ⟨role, hrole, hid⟩ := Option.map_eq_some_iff.mp hchunk
      rw [List.map_append, ← List.append_assoc]
      show ∃ role, script (_ ++ [Call.feed chunk]) = _
      rw [script_concat]
      show ∃ role, Script.feed _ chunk = _
      by_cases hfirst : chunks = []
      · -- the first chunk of the message
        refine ⟨role, ?_⟩
        rw [hfirst, List.map_nil, List.append_nil, Script.feed, hrole]
        dsimp only
        rw [hid, if_neg (mt hids.mp hnew)]
        rfl
      · obtain ⟨role', hscript⟩ :=
          ih hfirst fun c hc => hfeeds c (List.mem_append_left _ hc)
        refine ⟨role', ?_⟩
        rw [hscript, Script.feed, hrole]
        dsimp only
        have hmem : id ∈ Script.ids { (script before).close ∅ with
            current := some { id, role := role', chunks } } :=
          List.mem_append_right _ List.mem_cons_self
        have hturn : Script.isTurn { (script before).close ∅ with
            current := some { id, role := role', chunks } } id = true := beq_self_eq_true id
        rw [hid, if_pos hmem, if_pos hturn]
        rfl

/-- Then it is finished. -/
theorem script_message_finish (hnew : id ∉ fedIds before) (h : OfMessage id chunks)
    (hlast : Finisher id last) :
    ∃ role, script (before ++ chunks.map .feed ++ [.finish last]) =
      { ended := ((script before).close ∅).ended ++ [({ id, role, chunks }, usageOf last)]
        current := none } := by
  obtain ⟨role, hscript⟩ := script_message hnew h
  refine ⟨role, ?_⟩
  rw [script_concat, hscript]
  show Script.finish _ last = _
  unfold Script.finish
  cases last with
  | none => rfl
  | some chunk =>
      have hturn : Script.isTurn { (script before).close ∅ with
          current := some { id, role, chunks } } id = true := beq_self_eq_true id
      dsimp only
      rw [hlast chunk rfl]
      dsimp only
      rw [if_pos hturn]
      rfl

/-- The frames of finishing the open message. -/
theorem finish_current {rt : Runtime} {q : Sequencer} {s : Script} {turn : MessageTurn}
    (h : q.Plays rt s) (hcur : s.current = some turn) (hlast : Finisher turn.id last) :
    (q.finish rt last).frames = ((turn.emitter rt).close rt (usageOf last)).frames := by
  have hcurrent := h.current
  rw [hcur] at hcurrent
  have hclose : ∀ usage, (q.close rt usage).frames = ((turn.emitter rt).close rt usage).frames := by
    intro usage
    unfold Sequencer.close
    rw [hcurrent]
    dsimp only [Option.map_some]
    split <;> rfl
  cases last with
  | none => exact hclose ∅
  | some chunk =>
      have hturn : q.isTurn turn.id = true := by
        unfold Sequencer.isTurn
        rw [hcurrent]
        exact beq_self_eq_true _
      unfold Sequencer.finish
      dsimp only
      rw [hlast chunk rfl]
      dsimp only
      rw [if_pos hturn]
      exact hclose _

end Messages

end AgentProtocol

import AgentProtocol.Router.EventStream

/-!
# Reading an event stream (`sse_block`, `readStream`)

However the network cuts the text of a response into pieces, the client reads the
envelopes that were written, in order and once each.
-/

namespace AgentProtocol

universe u v

variable {δ : Type u} {β : Type v}

/-- The text of a response. -/
def streamText (dumps : Envelope δ → String) (bs : List (Block δ)) : List Char :=
  (String.join (bs.map (Block.text dumps))).toList

section Reading

variable {dumps : Envelope δ → String} {parse : String → Option β}

theorem streamText_eq (bs : List (Block δ)) :
    streamText dumps bs =
      (bs.map fun block => ['\n'].intercalate (block.lines dumps)).flatMap (· ++ "\n\n".toList) := by
  induction bs with
  | nil => rfl
  | cons block bs ih =>
      unfold streamText at ih ⊢
      rw [List.map_cons, String.join_cons, String.toList_append, ih, block.text_eq, List.map_cons,
        List.flatMap_cons]

theorem eq_event_of_envelope? {block : Block δ} {e : Envelope δ}
    (h : Gen.envelope? block = some e) : block = .event e := by
  cases block with
  | event e' => exact congrArg _ (Option.some.inj h)
  | _ => cases h

/-- The blocks of a response, cut off its whole text. -/
theorem blocks_streamText {bs : List (Block δ)}
    (hlines : ∀ e, .event e ∈ bs → '\n' ∉ e.method.toList ∧ '\n' ∉ (dumps e).toList) :
    blocks "\n\n".toList (streamText dumps bs) =
      (bs.map fun block => ['\n'].intercalate (block.lines dumps), []) := by
  rw [streamText_eq]
  refine blocks_flatMap (by decide) fun t ht => ?_
  obtain ⟨block, hblock, rfl⟩ := List.mem_map.mp ht
  refine indexOf_lines block.lines_ne_nil (Block.lines_spec fun e he => ?_)
  exact hlines e (eq_event_of_envelope? he ▸ hblock)

/-- A reader that has received a text holds the envelopes of its blocks. -/
structure Reader.Holds (parse : String → Option β) (r : Reader β) (text : List Char) : Prop where
  buf : r.buf = (blocks "\n\n".toList text).2
  envelopes : r.envelopes = (blocks "\n\n".toList text).1.flatMap (readBlock parse)

theorem Reader.Holds.receive {r : Reader β} {text : List Char} (h : r.Holds parse text)
    (value : List Char) : (r.receive parse value).Holds parse (text ++ value) := by
  have hpat : "\n\n".toList ≠ [] := by decide
  have happ := blocks_append hpat text value
  constructor
  · rw [happ, ← h.buf]
    rfl
  · rw [happ, ← h.buf, List.flatMap_append, ← h.envelopes]
    rfl

/-- What is read of a part of the text is a part of what is read of the whole. -/
theorem Reader.Holds.take {r : Reader β} {text : List Char} (h : r.Holds parse text)
    (rest : List Char) :
    ∃ more, (blocks "\n\n".toList (text ++ rest)).1.flatMap (readBlock parse) =
      r.envelopes ++ more := by
  rw [blocks_append (by decide), List.flatMap_append, ← h.envelopes]
  exact ⟨_, rfl⟩

/-- The loop reads the whole text, unless it has enough before. -/
theorem readStream_eq {enough : List β → Bool} {values : List (List Char)} {r : Reader β}
    {text : List Char} (h : r.Holds parse text)
    (henough : ∀ k < ((blocks "\n\n".toList (text ++ values.flatten)).1.flatMap
      (readBlock parse)).length, enough (((blocks "\n\n".toList (text ++ values.flatten)).1.flatMap
        (readBlock parse)).take k) = false) :
    readStream parse enough r values =
      (blocks "\n\n".toList (text ++ values.flatten)).1.flatMap (readBlock parse) := by
  induction values generalizing r text with
  | nil =>
      rw [List.flatten_nil, List.append_nil]
      exact h.envelopes
  | cons value values ih =>
      rw [List.flatten_cons, ← List.append_assoc] at henough ⊢
      have hreceive := h.receive value
      obtain ⟨more, hmore⟩ := hreceive.take values.flatten
      rw [readStream]
      split
      · next hstop =>
        -- it had enough: then it has everything
        by_contra hne
        have hlen : (r.receive parse value).envelopes.length <
            ((blocks "\n\n".toList (text ++ value ++ values.flatten)).1.flatMap
              (readBlock parse)).length := by
          rw [hmore, List.length_append]
          have : more ≠ [] := by
            rintro rfl
            rw [hmore, List.append_nil] at hne
            exact hne rfl
          have := List.length_pos_iff.mpr this
          omega
        have hgo := henough _ hlen
        rw [hmore, List.take_left, hstop] at hgo
        cases hgo
      · exact ih hreceive henough

/-- Block by block. -/
theorem readBlocks_lines {parse : String → Option (Envelope δ)} {bs : List (Block δ)}
    (hmethods : ∀ e ∈ bs.filterMap Gen.envelope?, '\n' ∉ e.method.toList)
    (hdumps : ∀ e ∈ bs.filterMap Gen.envelope?,
      '\n' ∉ (dumps e).toList ∧ parse (dumps e) = some e) :
    (bs.map fun block => ['\n'].intercalate (block.lines dumps)).flatMap (readBlock parse) =
      bs.filterMap Gen.envelope? := by
  induction bs with
  | nil => rfl
  | cons block bs ih =>
      cases hb : Gen.envelope? block with
      | none =>
          rw [List.filterMap_cons_none hb] at hmethods hdumps ⊢
          have hno : ∀ e, Gen.envelope? block = some e →
              '\n' ∉ e.method.toList ∧ '\n' ∉ (dumps e).toList := by
            intro e he
            rw [hb] at he
            cases he
          rw [List.map_cons, List.flatMap_cons, ih hmethods hdumps, readBlock_lines hno, hb]
          rfl
      | some e =>
          rw [List.filterMap_cons_some hb] at hmethods hdumps ⊢
          obtain ⟨hm, hmethods⟩ := List.forall_mem_cons.mp hmethods
          obtain ⟨hd, hdumps⟩ := List.forall_mem_cons.mp hdumps
          rw [List.map_cons, List.flatMap_cons, ih hmethods hdumps, readBlock_lines, hb,
            Option.bind_some, hd.2]
          · rfl
          · intro e' he
            obtain rfl := Option.some.inj (hb.symm.trans he)
            exact ⟨hm, hd.1⟩

end Reading

/-- Whatever the pieces are in which the text of a response arrives, the client reads
exactly its envelopes, if it does not stop before. -/
theorem envelopes_read_back (dumps : Envelope δ → String) (parse : String → Option (Envelope δ))
    (bs : List (Block δ)) (hmethods : ∀ e ∈ bs.filterMap Gen.envelope?, '\n' ∉ e.method.toList)
    (hdumps : ∀ e ∈ bs.filterMap Gen.envelope?,
      '\n' ∉ (dumps e).toList ∧ parse (dumps e) = some e)
    (enough : List (Envelope δ) → Bool)
    (henough : ∀ k < (bs.filterMap Gen.envelope?).length,
      enough ((bs.filterMap Gen.envelope?).take k) = false)
    (values : List (List Char)) (hvalues : values.flatten = streamText dumps bs) :
    readStream parse enough .new values = bs.filterMap Gen.envelope? := by
  have hall : (blocks "\n\n".toList (streamText dumps bs)).1.flatMap (readBlock parse) =
      bs.filterMap Gen.envelope? := by
    have hmem : ∀ e, .event e ∈ bs → e ∈ bs.filterMap Gen.envelope? :=
      fun e he => List.mem_filterMap.mpr ⟨_, he, rfl⟩
    rw [blocks_streamText fun e he => ⟨hmethods e (hmem e he), (hdumps e (hmem e he)).1⟩]
    exact readBlocks_lines hmethods hdumps
  have hnew : (Reader.new : Reader (Envelope δ)).Holds parse [] := ⟨rfl, rfl⟩
  rw [← hvalues] at hall
  rw [← hall] at henough ⊢
  exact readStream_eq hnew henough

/-- A response with one event. -/
def oneEvent : List (Block String) :=
  [.connected, .heartbeat,
   .event { eventId := "7-1", seq := 1, method := "values", ns := [], timestamp := 7, data := "a" }]

/-- The JSON text of an envelope. -/
def dumpsEvent (e : Envelope String) : String :=
  "\x7b\"type\":\"event\",\"event_id\":\"" ++ e.eventId ++ "\",\"seq\":" ++ toString e.seq ++
    ",\"method\":\"" ++ e.method ++ "\",\"params\":\x7b\"namespace\":[],\"timestamp\":" ++
    toString e.timestamp ++ ",\"data\":\"" ++ e.data ++ "\"\x7d\x7d"

def parseEvent (text : String) : Option (Envelope String) :=
  (oneEvent.filterMap Gen.envelope?).find? fun e => dumpsEvent e = text

/-- The text is cut inside the first blank line. -/
theorem envelopes_read_back_one :
    readStream parseEvent (fun _ => false) .new
      [(streamText dumpsEvent oneEvent).take 12, (streamText dumpsEvent oneEvent).drop 12] =
        oneEvent.filterMap Gen.envelope? := by
  refine envelopes_read_back dumpsEvent parseEvent oneEvent ?_ ?_ (fun _ => false)
    (fun _ _ => rfl) _ ?_
  · decide
  · intro e he
    rw [List.mem_singleton.mp he]
    exact ⟨by decide, rfl⟩
  · rw [List.flatten_cons, List.flatten_cons, List.flatten_nil, List.append_nil,
      List.take_append_drop]

end AgentProtocol

import AgentProtocol.Hub.Delivery
import AgentProtocol.Lib.Cursor
import AgentProtocol.Router.Wire
import AgentProtocol.Runner.Log
import AgentProtocol.Theorems.AnnouncedInterrupts
import AgentProtocol.Theorems.EventRoundTrip
import AgentProtocol.Theorems.JsonText

/-!
# What a client has read (`_stream`, `sse_block`, `e2e.mjs`)

The whole way of an event: published on the hub of its thread, yielded by a response
generator, written by `json.dumps`, cut into pieces by the network, perhaps cut off, read by
the loop of the client. The client keeps the largest seq it has read as its cursor
(`maxSeq`); an event whose document it can read was read exactly when its seq is not
above the cursor. What it has of an event is the document with one value for each key
(`Json.merged`).
-/

namespace AgentProtocol

/-- The document of an event, where it has one. -/
def docOf (limit : Nat) (e : Envelope Published) : Json :=
  match dumpEvent limit e with
  | .ok doc => doc
  | .error _ => .null

/-- `json.dumps(envelope)` -/
def dumpsText (limit : Nat) (e : Envelope Published) : String := .ofList (docOf limit e).text

/-- The event has a text, its floats written by `repr`. -/
def HasText (limit : Nat) (e : Envelope Published) : Prop :=
  ∃ doc, dumpEvent limit e = .ok doc ∧ doc.allFloats isFloatRepr = true

/-- `e.seq ?? 0` -/
def seqOf (x : Json) : Int :=
  match x.field "seq" with
  | .int i => i
  | _ => 0

def maxSeq (envs : List Json) : Int := envs.foldl (fun m e => max m (seqOf e)) 0

/-! ## A cut in the text -/

section Cut

variable {δ β : Type*} {dumps : Envelope δ → String} {parse : String → Option β}

/-- The loop has read a part of the pieces, all of them unless it had enough. -/
theorem readStream_take (enough : List β → Bool) (values : List (List Char)) {r : Reader β}
    {text : List Char} (h : r.Holds parse text) :
    ∃ m, readStream parse enough r values =
        (blocks "\n\n".toList (text ++ (values.take m).flatten)).1.flatMap (readBlock parse) ∧
      (enough (readStream parse enough r values) = true ∨ values.length ≤ m) := by
  induction values generalizing r text with
  | nil =>
      refine ⟨0, ?_, .inr (Nat.le_refl 0)⟩
      rw [List.take_nil, List.flatten_nil, List.append_nil]
      exact h.envelopes
  | cons value values ih =>
      have hreceive := h.receive value
      rw [readStream]
      split
      · next hstop =>
        refine ⟨1, ?_, .inl hstop⟩
        rw [List.take_succ_cons, List.take_zero, List.flatten_cons, List.flatten_nil,
          List.append_nil]
        exact hreceive.envelopes
      · obtain ⟨m, hread, hend⟩ := ih hreceive
        refine ⟨m + 1, ?_, hend.imp_right fun hlen => ?_⟩
        · rw [List.take_succ_cons, List.flatten_cons, ← List.append_assoc]
          exact hread
        · rw [List.length_cons]
          omega

/-- The blocks of a part of a text are the first of its blocks. -/
theorem blocks_prefix (text rest : List Char) {pat : List Char} (hpat : pat ≠ []) :
    (blocks pat text).1 =
      (blocks pat (text ++ rest)).1.take (blocks pat text).1.length := by
  rw [blocks_append hpat, List.take_left]

/-- What is read of the first blocks are the first of the events. -/
theorem readBlocks_take (parse : String → Option β) {bs : List (Block δ)}
    (hlines : ∀ e, .event e ∈ bs → '\n' ∉ e.method.toList ∧ '\n' ∉ (dumps e).toList) (k : Nat) :
    ∃ j, ((bs.map fun block => ['\n'].intercalate (block.lines dumps)).take k).flatMap
        (readBlock parse) =
          ((bs.filterMap Gen.envelope?).take j).filterMap (fun e => parse (dumps e)) ∧
      (bs.length ≤ k → (bs.filterMap Gen.envelope?).length ≤ j) := by
  induction bs generalizing k with
  | nil => exact ⟨0, by simp, fun _ => Nat.le_refl 0⟩
  | cons block bs ih =>
      cases k with
      | zero => exact ⟨0, rfl, fun hk => by cases hk⟩
      | succ k =>
          obtain ⟨j, hj, hall⟩ := ih (fun e he => hlines e (List.mem_cons_of_mem _ he)) k
          have hread : readBlock parse (['\n'].intercalate (block.lines dumps)) = _ :=
            readBlock_lines fun e he => hlines e (eq_event_of_envelope? he ▸ List.mem_cons_self)
          rw [List.map_cons, List.take_succ_cons, List.flatMap_cons, hj, hread]
          cases hb : Gen.envelope? block with
          | none =>
              refine ⟨j, ?_, fun hk => ?_⟩
              · rw [List.filterMap_cons_none hb]
                rfl
              · rw [List.filterMap_cons_none hb]
                exact hall (Nat.le_of_succ_le_succ hk)
          | some e =>
              refine ⟨j + 1, ?_, fun hk => ?_⟩
              · rw [List.filterMap_cons_some hb, List.take_succ_cons, List.filterMap_cons]
                cases hp : parse (dumps e) <;> simp [hp]
              · rw [List.filterMap_cons_some hb, List.length_cons]
                exact Nat.succ_le_succ (hall (Nat.le_of_succ_le_succ hk))

end Cut


/-! ## The cursor -/

theorem maxSeq_le_iff {envs : List Json} {i : Int} :
    maxSeq envs ≤ i ↔ 0 ≤ i ∧ ∀ x ∈ envs, seqOf x ≤ i := readTo_le_iff

theorem seqOf_le_maxSeq {envs : List Json} {x : Json} (h : x ∈ envs) : seqOf x ≤ maxSeq envs :=
  pos_le_readTo h

section Events

variable {limit : Nat} {e : Envelope Published}

theorem HasText.docOf_eq (h : HasText limit e) :
    dumpEvent limit e = .ok (docOf limit e) ∧ (docOf limit e).allFloats isFloatRepr = true := by
  obtain ⟨doc, hdoc, hfloats⟩ := h
  rw [docOf, hdoc]
  exact ⟨rfl, hfloats⟩

theorem encodeItems_str_ok {k : String} {v : Value} {items : List (Value × Value)}
    {es : List (String × Json)} (h : encodeItems limit ((.str k, v) :: items) = .ok es) :
    ∃ doc rest, encode limit v = .ok doc ∧ encodeItems limit items = .ok rest ∧
      es = (k, doc) :: rest := by
  obtain ⟨_, doc, rest, hk, hv, hitems, rfl⟩ := encodeItems_cons_ok_iff.mp h
  cases hk
  exact ⟨doc, rest, hv, hitems, rfl⟩

/-- What is read of an event has its seq. -/
theorem HasText.seqOf_eq (h : HasText limit e) : seqOf (docOf limit e).merged = e.seq := by
  have hdump := h.docOf_eq.1
  rw [dumpEvent, Envelope.toValue, strDict, encode] at hdump
  obtain ⟨es, hes, hdoc⟩ := Except.map_ok hdump
  obtain ⟨_, _, -, hrest, rfl⟩ := encodeItems_str_ok hes
  obtain ⟨_, _, -, hrest₁, rfl⟩ := encodeItems_str_ok hrest
  obtain ⟨seq, _, hseq, hrest₂, rfl⟩ := encodeItems_str_ok hrest₁
  obtain ⟨_, _, -, hrest₃, rfl⟩ := encodeItems_str_ok hrest₂
  obtain ⟨_, _, -, hnil, rfl⟩ := encodeItems_str_ok hrest₃
  cases hnil
  have hint : seq = .int e.seq := by
    simp only [encode] at hseq
    split at hseq <;> cases hseq
    rfl
  rw [← hdoc, hint]
  rfl

theorem HasText.parse_eq (h : HasText limit e) :
    '\n' ∉ (dumpsText limit e).toList ∧ parseJson (dumpsText limit e) =
      if (docOf limit e).readable then some (docOf limit e).merged else none := by
  have hfloats := h.docOf_eq.2
  refine ⟨fun hnl => ?_, reads_back _ hfloats⟩
  rw [dumpsText, String.toList_ofList] at hnl
  exact absurd (printable_text _ hfloats _ hnl) (by decide)

theorem method_line (d : EventData) : '\n' ∉ d.method.toList := by
  have hall : ∀ m ∈ ["lifecycle", "messages", "values", "input.requested"], '\n' ∉ m.toList := by
    decide
  apply hall
  cases d <;> simp [EventData.method]

/-! ## What is read of the first events -/

variable {l more : List (Envelope Published)}

/-- What is read of these events, without those that `JSON.parse` throws on. -/
def readDocs (limit : Nat) (l : List (Envelope Published)) : List Json :=
  (l.filter fun e => (docOf limit e).readable).map fun e => (docOf limit e).merged

theorem filterMap_parseJson (h : ∀ e ∈ l, HasText limit e) :
    l.filterMap (fun e => parseJson (dumpsText limit e)) = readDocs limit l := by
  induction l with
  | nil => rfl
  | cons e l ih =>
      obtain ⟨he, hl⟩ := List.forall_mem_cons.mp h
      have hparse := he.parse_eq.2
      rw [readDocs, List.filter_cons]
      cases hr : (docOf limit e).readable with
      | true =>
          rw [hr, if_pos rfl] at hparse
          rw [List.filterMap_cons, hparse, ih hl, if_pos rfl, List.map_cons, readDocs]
      | false =>
          rw [hr, if_neg Bool.false_ne_true] at hparse
          rw [List.filterMap_cons, hparse, ih hl, if_neg Bool.false_ne_true, readDocs]

theorem mem_readDocs {x : Json} :
    x ∈ readDocs limit l ↔
      ∃ e ∈ l, (docOf limit e).readable = true ∧ (docOf limit e).merged = x := by
  simp only [readDocs, List.mem_map, List.mem_filter, and_assoc]

theorem readDocs_pairwise (h : ∀ e ∈ l, HasText limit e) (hasc : Ascending Envelope.seq l) :
    (readDocs limit l).Pairwise fun x y => seqOf x < seqOf y := by
  rw [readDocs, List.pairwise_map]
  refine (List.Pairwise.filter _ hasc).imp_of_mem fun {a b} ha hb hlt => ?_
  rw [(h a (List.mem_of_mem_filter ha)).seqOf_eq, (h b (List.mem_of_mem_filter hb)).seqOf_eq]
  exact_mod_cast hlt

/-- The cursor tells what was read of a stream and what is still to come. -/
theorem mem_readDocs_iff_le_maxSeq (h : ∀ e ∈ l ++ more, HasText limit e)
    (hasc : Ascending Envelope.seq (l ++ more)) (hpos : ∀ e ∈ l ++ more, 0 < e.seq)
    {e : Envelope Published} (he : e ∈ l ++ more) (hr : (docOf limit e).readable = true) :
    (docOf limit e).merged ∈ readDocs limit l ↔ (e.seq : Int) ≤ maxSeq (readDocs limit l) := by
  rw [← (h e he).seqOf_eq]
  constructor
  · exact seqOf_le_maxSeq
  · intro hle
    rcases List.mem_append.mp he with hin | hmore
    · exact mem_readDocs.mpr ⟨e, hin, hr, rfl⟩
    · -- it comes after everything that was read
      have hbelow : maxSeq (readDocs limit l) ≤ e.seq - 1 := by
        refine maxSeq_le_iff.mpr ⟨?_, fun x hx => ?_⟩
        · have := hpos e he
          omega
        · obtain ⟨e', he', -, rfl⟩ := mem_readDocs.mp hx
          have hlt := (List.pairwise_append.mp hasc).2.2 e' he' e hmore
          rw [(h e' (List.mem_append_left _ he')).seqOf_eq]
          omega
      rw [(h e he).seqOf_eq] at hle
      omega

end Events

/-- Whatever part of a response whose events all have a text arrives in whatever pieces, the
client has read the documents of the first events that were delivered, without those that hold
a float that is infinite or not a number: all of them, if the whole response arrived and it did
not stop before. Their seqs ascend, and of the events it can read it has read those up to its
cursor. -/
theorem client_reads_delivered (limit n : Nat) (rt : Runtime) {w : World}
    (hw : (runSys rt n).Reachable w) {t : String} {id : Nat} {g : Gen Published}
    (hg : (w.hub t).gens.get? id = some g) (hdumps : ∀ e ∈ g.delivered, HasText limit e)
    (enough : List Json → Bool) (values : List (List Char))
    (hvalues : values.flatten <+: streamText (dumpsText limit) g.sent) :
    let envs := readStream parseJson enough .new values
    (∃ k, envs = readDocs limit (g.delivered.take k) ∧
      (values.flatten = streamText (dumpsText limit) g.sent →
        enough envs = true ∨ g.delivered.length ≤ k)) ∧
      envs.Pairwise (fun x y => seqOf x < seqOf y) ∧
      ∀ e ∈ g.delivered, (docOf limit e).readable = true →
        ((docOf limit e).merged ∈ envs ↔ (e.seq : Int) ≤ maxSeq envs) := by
  have hI := inv_of_reachable (World.hub_reachable hw t)
  have hsound := hI.sound id g hg
  have hlines : ∀ e, .event e ∈ g.sent →
      '\n' ∉ e.method.toList ∧ '\n' ∉ (dumpsText limit e).toList := by
    intro e he
    have hdelivered : e ∈ g.delivered := List.mem_filterMap.mpr ⟨_, he, rfl⟩
    have hpub := (hsound.wanted e (List.mem_append_left _ hdelivered)).1
    refine ⟨?_, (hdumps e hdelivered).parse_eq.1⟩
    rw [(World.logInv_of_reachable hw).methods t e hpub]
    exact method_line _
  have hnew : (Reader.new : Reader Json).Holds parseJson [] := ⟨rfl, rfl⟩
  obtain ⟨m, hread, hend⟩ := readStream_take enough values hnew
  -- the pieces that were read, in the whole text
  obtain ⟨cut, hcut⟩ := hvalues
  have htext : (values.take m).flatten ++ ((values.drop m).flatten ++ cut) =
      streamText (dumpsText limit) g.sent := by
    rw [← List.append_assoc, ← List.flatten_append, List.take_append_drop, hcut]
  have hblocks := blocks_streamText hlines
  rw [← htext] at hblocks
  have hcount := blocks_prefix (values.take m).flatten ((values.drop m).flatten ++ cut)
    (by decide : "\n\n".toList ≠ [])
  rw [hblocks] at hcount
  obtain ⟨k, hk, hall⟩ := readBlocks_take parseJson hlines
    (blocks "\n\n".toList (values.take m).flatten).1.length
  have hfirst : ∀ e ∈ g.delivered.take k, HasText limit e :=
    fun e he => hdumps e (List.mem_of_mem_take he)
  have henvs : readStream parseJson enough .new values = readDocs limit (g.delivered.take k) := by
    rw [hread, List.nil_append, hcount, hk]
    exact filterMap_parseJson hfirst
  have hasc : Ascending Envelope.seq g.delivered :=
    hsound.ascending.sublist (List.sublist_append_left _ _)
  refine ⟨⟨k, henvs, fun hwhole => hend.imp_right fun hlen => ?_⟩, ?_, fun e he hr => ?_⟩
  · apply hall
    rw [List.take_of_length_le hlen, hwhole, blocks_streamText hlines, List.length_map]
  · rw [henvs]
    exact readDocs_pairwise hfirst (hasc.sublist (List.take_sublist _ _))
  · have hpos : ∀ e ∈ g.delivered, 0 < e.seq := by
      intro e he
      have hwants := (g.wants_iff e).mp (hsound.wanted e (List.mem_append_left _ he)).2
      have hstart : 0 ≤ g.start := Int.le_max_right _ _
      omega
    rw [← List.take_append_drop k g.delivered] at hdumps hasc hpos he
    rw [henvs]
    exact mem_readDocs_iff_le_maxSeq hdumps hasc hpos he hr

/-- A run that has started, and a response that has yielded its first event. -/
def watched : List Act :=
  [.register "agent", .start "t" (.str "agent") .null none .null "1",
    .resolved "1" (.graph ⟨false⟩), .begin "1", .stream "t" (.subscribe none none none),
    .stream "t" (.pull 0), .stream "t" (.pull 0)]

def watchedEnd : World := ((runSys .inert 500).run (.new 500) watched).getD (.new 500)

theorem client_reads_started :
    ∃ g e, (watchedEnd.hub "t").gens.get? 0 = some g ∧ g.delivered = [e] ∧
      readStream parseJson (fun _ => false) .new [streamText (dumpsText 4300) g.sent] =
        readDocs 4300 [e] := by
  have hrun : (runSys .inert 500).run (.new 500) watched = some watchedEnd := rfl
  have hreach := TSys.reachable_of_run (M := runSys .inert 500) rfl hrun
  obtain ⟨g, e, hg, hdelivered, htext⟩ : ∃ g e, (watchedEnd.hub "t").gens.get? 0 = some g ∧
      g.delivered = [e] ∧ HasText 4300 e := ⟨_, _, rfl, rfl, _, rfl, by decide⟩
  have hall : ∀ e ∈ g.delivered, HasText 4300 e := by
    rw [hdelivered]
    exact List.forall_mem_singleton.mpr htext
  obtain ⟨⟨k, henvs, hwhole⟩, -⟩ := client_reads_delivered 4300 500 .inert hreach hg hall
    (fun _ => false) [streamText (dumpsText 4300) g.sent] (by simp)
  refine ⟨g, e, hg, hdelivered, henvs.trans ?_⟩
  rcases hwhole (by simp) with hno | hlen
  · cases hno
  · rw [List.take_of_length_le hlen, hdelivered]

end AgentProtocol

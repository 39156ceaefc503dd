import AgentProtocol.Router.Envelopes
import AgentProtocol.Router.Wire
import AgentProtocol.Runner.Pending
import AgentProtocol.State.Snapshot

/-!
# Interrupts as they are announced and as they are hydrated

A run publishes the payloads of its interrupts as they are, and `read_thread_state` coerces
them. Coercion changes nothing that can be dumped (`encode_toJsonable`), so the two differ
exactly on the payloads that cannot: their events have no text, while the state has one.
-/

namespace AgentProtocol

/-- An interrupt object with a non-empty string id. -/
def IsInterrupt (v : Value) : Prop := ∃ id, id ≠ "" ∧ v.getattr "id" = .str id

/-- The `input.requested` events of a run, as the hub of the thread has published them. -/
def World.requestEnvelopes (w : World) (t r : String) : List (Envelope Published) :=
  (w.hub t).published.filter fun e => e.data.runId == r && e.method == "input.requested"

/-- The id and the payload in the decoded event. -/
def announcedPair (event : Json) : Json × Json :=
  let data := (event.field "params").field "data"
  (data.field "interrupt_id", data.field "payload")

/-- Each event is encoded, and what it announces is, one by one, what the interrupts of the
state are encoded as. -/
def AnnouncedAsHydrated (limit : Nat) (events : List (Envelope Published))
    (hydrated : List InterruptDict) : Prop :=
  List.Forall₂ (fun e i => ∃ event, dumpEvent limit e = .ok event ∧
      encode limit i.id = .ok (announcedPair event).1 ∧
      encode limit i.value = .ok (announcedPair event).2) events hydrated

/-! ## Coercion and encoding -/

section Coercion

variable {limit : Nat}

mutual

/-- What can be dumped is dumped the same after it was coerced. -/
theorem encode_toJsonable {v : Value} {doc : Json} (h : encode limit v = .ok doc) :
    encode limit (toJsonable v) = .ok doc := by
  cases v with
  | none | bool | int | float | str => exact h
  | set | obj | bare => cases h
  | list xs | tuple xs =>
      rw [encode] at h
      obtain ⟨docs, hdocs, rfl⟩ := Except.map_ok h
      rw [toJsonable, encode, encodeList_toJsonable hdocs]
      rfl
  | dict items =>
      rw [encode] at h
      obtain ⟨es, hes, rfl⟩ := Except.map_ok h
      rw [toJsonable, encode, encodeItems_toJsonable hes]
      rfl

theorem encodeList_toJsonable {xs : List Value} {docs : List Json}
    (h : encodeList limit xs = .ok docs) : encodeList limit (toJsonableList xs) = .ok docs := by
  cases xs with
  | nil => exact h
  | cons x xs =>
      obtain ⟨doc, rest, hx, hxs, rfl⟩ := encodeList_cons_ok_iff.mp h
      rw [toJsonableList, encodeList_cons_ok_iff]
      exact ⟨doc, rest, encode_toJsonable hx, encodeList_toJsonable hxs, rfl⟩

theorem encodeItems_toJsonable {items : List (Value × Value)} {es : List (String × Json)}
    (h : encodeItems limit items = .ok es) :
    encodeItems limit (toJsonableItems items) = .ok es := by
  cases items with
  | nil => exact h
  | cons item items =>
      obtain ⟨text, doc, rest, hk, hv, hitems, rfl⟩ := encodeItems_cons_ok_iff.mp h
      rw [toJsonableItems, encodeItems_cons_ok_iff]
      exact ⟨text, doc, rest, hk, encode_toJsonable hv, encodeItems_toJsonable hitems, rfl⟩

end

end Coercion

/-! ## One event -/

section Events

variable {limit : Nat} {e : Envelope Published} {id : String} {payload : Value}

/-- The document of an event that requests input. -/
def requestDocument (e : Envelope Published) (id : String) (payload : Json) : Json :=
  .obj [("type", .str e.type), ("event_id", .str e.eventId), ("seq", .int e.seq),
    ("method", .str e.method),
    ("params", .obj [("namespace", .arr (e.ns.map .str)), ("timestamp", .int e.timestamp),
      ("data", .obj [("interrupt_id", .str id), ("payload", payload)])])]

theorem encodeList_strs (ss : List String) :
    encodeList limit (ss.map .str) = .ok (ss.map .str) := by
  induction ss with
  | nil => rfl
  | cons s ss ih =>
      rw [List.map_cons, encodeList, ih]
      rfl

/-- The event is encoded when its numbers and its payload are. -/
theorem dumpEvent_request (hdata : e.data.data = .inputRequested id payload) :
    dumpEvent limit e =
      if printable limit e.seq = true ∧ printable limit e.timestamp = true then
        (encode limit payload).map (requestDocument e id)
      else .error (tooManyDigits limit) := by
  simp only [dumpEvent, Envelope.toValue, hdata, EventData.toValue, strDict, List.map_cons,
    List.map_nil, encode, encodeItems, keyText, encodeList_strs]
  cases hseq : printable limit e.seq with
  | false => simp [Except.map]
  | true =>
      cases htime : printable limit e.timestamp with
      | false => simp [Except.map]
      | true => cases encode limit payload <;> simp [Except.map, requestDocument]

theorem announcedPair_document (id : String) (payload : Json) :
    announcedPair (requestDocument e id payload) = (.str id, payload) := rfl

/-- One event against one interrupt of the state. -/
theorem announced_iff {i : Value} (hid : i.getattr "id" = .str id)
    (hdata : e.data.data = .inputRequested id (i.getattr "value")) :
    (∃ event, dumpEvent limit e = .ok event ∧
        encode limit (interruptDict i).id = .ok (announcedPair event).1 ∧
        encode limit (interruptDict i).value = .ok (announcedPair event).2) ↔
      (printable limit e.seq = true ∧ printable limit e.timestamp = true) ∧
        Dumpable limit (fun _ => True) false (i.getattr "value") := by
  rw [dumpEvent_request hdata, ← encode_ok_iff]
  constructor
  · -- an encoded event holds an encoded payload
    rintro ⟨event, hevent, -, -⟩
    split at hevent
    · next hnumbers =>
      refine ⟨hnumbers, ?_⟩
      cases hpayload : encode limit (i.getattr "value") with
      | error exc =>
          rw [hpayload] at hevent
          cases hevent
      | ok payload => exact ⟨payload, rfl⟩
    · cases hevent
  · rintro ⟨hnumbers, payload, hpayload⟩
    refine ⟨requestDocument e id payload, ?_, ?_, ?_⟩
    · rw [if_pos hnumbers, hpayload]
      rfl
    · rw [announcedPair_document, interruptDict, hid]
      rfl
    · rw [announcedPair_document]
      exact encode_toJsonable hpayload

end Events

/-! ## The events of a run -/

section Runs

variable {rt : Runtime} {n : Nat} {w : World} {r : String} {task : Task}

/-- The pair an interrupt object gives. -/
theorem interruptPair_eq {i : Value} {id : String} (hne : id ≠ "") (hid : i.getattr "id" = .str id) :
    interruptPair rt i = (id, i.getattr "value") := by
  have htruthy : (Value.str id).truthy = true := by simp [Value.truthy, hne]
  cases i with
  | obj | bare => simp [interruptPair, hid, Value.or, htruthy, Value.toStr]
  | _ => cases hid

theorem filter_requests (es : List EventData) :
    es.filter (fun e => e.method == "input.requested") =
      (requestsOf es).map fun p => .inputRequested p.1 p.2 := by
  induction es with
  | nil => rfl
  | cons e es ih =>
      cases e <;> simpa [EventData.method, requestsOf] using ih

/-- The data of the events that request input are the interrupts the run stopped at. -/
theorem requestEnvelopes_data (hw : (runSys rt n).Reachable w)
    (hg : w.tasks.get? r = some task) :
    (w.requestEnvelopes task.threadId r).map (fun e => e.data.data) =
      (task.interrupts rt).map fun p => .inputRequested p.1 p.2 := by
  have hL : w.LogInv := World.logInv_of_reachable hw
  have hP : w.PendingInv rt := World.pendingInv_of_reachable hw
  have hevents : (w.requestEnvelopes task.threadId r).map (fun e => e.data.data) =
      (w.eventsOf task.threadId r).filter fun e => e.method == "input.requested" := by
    -- the method of an envelope is that of its data
    have hmethods : w.requestEnvelopes task.threadId r =
        (w.hub task.threadId).published.filter fun e =>
          e.data.runId == r && e.data.data.method == "input.requested" := by
      refine List.filter_congr fun e he => ?_
      rw [hL.methods task.threadId e he]
    rw [hmethods, World.eventsOf]
    simp [List.filter_map, List.filter_filter, Function.comp_def, Bool.and_comm]
  rw [hevents, hL.eventsOf_eq hg, filter_requests, hP.announced r task hg]

/-- The interrupts of a run that decided on these values. -/
theorem interrupts_of_decided {values : Dict String Value} {interrupts : List Value}
    (hend : ending task.graph none task.fed = some (.decided values))
    (hentries : (((values.get? "__interrupt__").getD .none).or (.list [])).iter = .ok interrupts) :
    task.interrupts rt = interrupts.map (interruptPair rt) := by
  simp only [Task.interrupts, interruptsAfter, hend, Option.map_some, Option.getD_some,
    Ending.interrupts, interruptsFromSnapshot, hentries]

/-- Events against interrupts, one by one. -/
theorem announcedAsHydrated_iff {limit : Nat} {events : List (Envelope Published)}
    {interrupts : List Value} (hid : ∀ i ∈ interrupts, IsInterrupt i)
    (hdata : events.map (fun e => e.data.data) =
      (interrupts.map (interruptPair rt)).map fun p => .inputRequested p.1 p.2) :
    AnnouncedAsHydrated limit events (interrupts.map interruptDict) ↔
      (∀ e ∈ events, printable limit e.seq = true ∧ printable limit e.timestamp = true) ∧
        ∀ i ∈ interrupts, Dumpable limit (fun _ => True) false (i.getattr "value") := by
  unfold AnnouncedAsHydrated
  induction interrupts generalizing events with
  | nil =>
      obtain rfl : events = [] := List.map_eq_nil_iff.mp hdata
      simp
  | cons i interrupts ih =>
      cases events with
      | nil => cases hdata
      | cons e events =>
          rw [List.forall_mem_cons] at hid
          obtain ⟨id, hne, hi⟩ := hid.1
          simp only [List.map_cons, List.cons.injEq, interruptPair_eq hne hi] at hdata
          rw [List.map_cons, List.forall₂_cons, announced_iff hi hdata.1, ih hid.2 hdata.2,
            List.forall_mem_cons, List.forall_mem_cons]
          exact and_and_and_comm

end Runs

/-- A run that decided on a snapshot with interrupt objects announces what the state reports
for them, event by event, exactly when every payload can be dumped as it is (the numbers of
the envelopes have to have a text as well). -/
theorem announced_as_hydrated_iff (limit : Nat) (rt : Runtime) (n : Nat) (w : World)
    (hw : (runSys rt n).Reachable w) (r : String) (task : Task) (hg : w.tasks.get? r = some task)
    (values : Dict String Value) (hend : ending task.graph none task.fed = some (.decided values))
    (snapshot : Snapshot)
    (hentries : (((values.get? "__interrupt__").getD .none).or (.list [])).iter =
      .ok snapshot.interrupts)
    (hid : ∀ i ∈ snapshot.interrupts, IsInterrupt i)
    (config : Dict String Json) (state : ThreadState)
    (hread : readThreadState rt snapshot config = .ok state) :
    AnnouncedAsHydrated limit (w.requestEnvelopes task.threadId r) state.interrupts ↔
      (∀ e ∈ w.requestEnvelopes task.threadId r,
        printable limit e.seq = true ∧ printable limit e.timestamp = true) ∧
        ∀ i ∈ snapshot.interrupts,
          Dumpable limit (fun _ => True) false (i.getattr "value") := by
  have hdata := requestEnvelopes_data hw hg
  rw [interrupts_of_decided hend hentries] at hdata
  rw [(readThreadState_eq_ok hread).1]
  exact announcedAsHydrated_iff hid hdata

/-- An interrupt object, a run that streams it, and the snapshot that holds it. -/
def interruptWith (payload : Value) : Value :=
  .bare "Interrupt" [("value", payload), ("id", .str "i1")] "Interrupt"

def asksWith (payload : Value) : List StreamItem :=
  [.values (.ofList [("__interrupt__", .tuple [interruptWith payload])])]

def snapshotWith (payload : Value) : Snapshot where
  values := ∅
  next := []
  checkpointId := none
  metadata := .dict []
  createdAt := .none
  tasks := []
  interrupts := [interruptWith payload]

theorem announced_as_hydrated_text :
    let payload : Value := .dict [(.str "question", .tuple [.str "go", .int 2])]
    ∃ state, readThreadState .inert (snapshotWith payload) ∅ = .ok state ∧
      AnnouncedAsHydrated 4300 ((streamedEnd (asksWith payload)).requestEnvelopes "t" "1")
        state.interrupts := by
  intro payload
  have hrun : (runSys .inert 500).run (.new 500) (streamed (asksWith payload)) =
      some (streamedEnd (asksWith payload)) := rfl
  have hreach := TSys.reachable_of_run (M := runSys .inert 500) rfl hrun
  obtain ⟨task, hg, hend⟩ : ∃ task, (streamedEnd (asksWith payload)).tasks.get? "1" = some task ∧
      ending task.graph none task.fed =
        some (.decided (.ofList [("__interrupt__", .tuple [interruptWith payload])])) := ⟨_, rfl, rfl⟩
  obtain ⟨state, hread⟩ : ∃ state, readThreadState .inert (snapshotWith payload) ∅ = .ok state :=
    ⟨_, rfl⟩
  obtain ⟨e, hevents, hnumbers⟩ : ∃ e,
      (streamedEnd (asksWith payload)).requestEnvelopes "t" "1" = [e] ∧
        printable 4300 e.seq = true ∧ printable 4300 e.timestamp = true :=
    ⟨_, rfl, by decide, by decide⟩
  have hthread : task.threadId = "t" := by
    obtain rfl := Option.some.inj hg
    rfl
  have hiff := announced_as_hydrated_iff 4300 .inert 500 _ hreach "1" task hg _ hend
    (snapshotWith payload) rfl (by simp [snapshotWith, IsInterrupt, interruptWith, Value.getattr,
      Entries.get?]) ∅ state hread
  rw [hthread] at hiff
  refine ⟨state, hread, hiff.mpr ⟨?_, ?_⟩⟩
  · simpa [hevents] using hnumbers
  · simp [snapshotWith, interruptWith, payload, Value.getattr, Entries.get?, Dumpable, DumpableItems,
      DumpableList, printable]
    decide

/-- The payload holds a set: the event cannot be encoded, the state can. -/
theorem set_not_announced :
    let payload : Value := .dict [(.str "choices", .set [.str "a", .str "b"])]
    let w := streamedEnd (asksWith payload)
    (runSys .inert 500).Reachable w ∧
      (∃ e, w.requestEnvelopes "t" "1" = [e] ∧ ∀ event, dumpEvent 4300 e ≠ .ok event) ∧
      (∃ doc, encode 4300 (interruptDict (interruptWith payload)).value = .ok doc) ∧
      ¬AnnouncedAsHydrated 4300 (w.requestEnvelopes "t" "1") [interruptDict (interruptWith payload)] := by
  intro payload w
  have hrun : (runSys .inert 500).run (.new 500) (streamed (asksWith payload)) = some w := rfl
  obtain ⟨e, hevents, hdata⟩ : ∃ e, w.requestEnvelopes "t" "1" = [e] ∧
      e.data.data = .inputRequested "i1" payload := ⟨_, rfl, rfl⟩
  have hdump : ∀ event, dumpEvent 4300 e ≠ .ok event := by
    intro event hevent
    rw [dumpEvent_request hdata] at hevent
    split at hevent <;> cases hevent
  refine ⟨TSys.reachable_of_run (M := runSys .inert 500) rfl hrun, ⟨e, hevents, hdump⟩,
    ⟨_, rfl⟩, ?_⟩
  rw [hevents]
  rintro (_ | ⟨⟨event, hevent, -⟩, -⟩)
  exact hdump event hevent

end AgentProtocol

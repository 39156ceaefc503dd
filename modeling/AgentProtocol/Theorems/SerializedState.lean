import AgentProtocol.State.Encode

/-!
# Whether a serialized state can be dumped (`serialize_values`)

Coercion keeps the keys of dicts, so a key without a text fails the encoding, and two keys
with one text become one. The fields of a message are not coerced at all: what
`message_to_dict` gives has to be encodable as it is. `json_safe_iff` says that nothing else
can go wrong.
-/

namespace AgentProtocol

section Text

variable (limit : Nat)

mutual

/-- `str(value)` raises: an int in it cannot be turned into text. -/
def strRaises : Value → Bool
  | .int i => !printable limit i
  | .list xs => strRaisesList xs
  | .tuple xs => strRaisesList xs
  | .set xs => strRaisesList xs
  | .dict items => strRaisesItems items
  | .none | .bool _ | .float _ | .str _ | .obj .. | .bare .. => false

def strRaisesList : List Value → Bool
  | [] => false
  | x :: xs => strRaises x || strRaisesList xs

def strRaisesItems : List (Value × Value) → Bool
  | [] => false
  | (k, v) :: items => strRaises k || strRaises v || strRaisesItems items

end

end Text

section Dump

variable (limit : Nat) (rt : Runtime)

/-- `message_to_dict` raises, and the message is given by its `str`. -/
def isRefused (message : Value) : Bool :=
  match rt.messageToDict message with
  | .ok _ => false
  | .error _ => true

/-- The messages of an entry that are given by their `str`. -/
def fallbacks (key : String) (value : Value) : List Value :=
  if key = "messages" then
    match value with
    | .list xs | .tuple xs => xs.filter (isRefused rt)
    | _ => []
  else []

/-- `json.dumps(serialize_values(values))` -/
def dumpValues (values : Dict String Value) : Except PyExc Json :=
  if values.entries.any fun e => (fallbacks rt e.1 e.2).any (strRaises limit) then
    .error (tooManyDigits limit)
  else encode limit (.ofDict (serializeValues rt values))

/-- The serialized state is encoded, with pairwise different keys in every object. -/
def JsonSafe (values : Dict String Value) : Prop :=
  ∃ doc, dumpValues limit rt values = .ok doc ∧ doc.AllKeys List.Nodup

/-- The fields of the message can be dumped as they are; a message that is given by its
`str` has one. -/
def MessageDumpable (message : Value) : Prop :=
  match rt.messageToDict message with
  | .ok serialized =>
    (∀ e ∈ serialized.data.entries, Dumpable limit List.Nodup false e.2) ∧
      (serialized.data.contains "type" = false → Dumpable limit List.Nodup false serialized.type)
  | .error _ => strRaises limit message = false

/-- The messages of the entry, or its value coerced, can be dumped. -/
def EntryDumpable (key : String) (value : Value) : Prop :=
  if key = "messages" then
    match value with
    | .list xs | .tuple xs => ∀ message ∈ xs, MessageDumpable limit rt message
    | v => Dumpable limit List.Nodup true v
  else Dumpable limit List.Nodup true value

end Dump

/-! ## Messages -/

section Messages

variable {limit : Nat} {rt : Runtime}

/-- A dict with string keys is dumped entry by entry. -/
theorem dumps_ofDict (d : Dict String Value) :
    Dumps List.Nodup limit (.ofDict d) ↔ ∀ e ∈ d.entries, Dumps List.Nodup limit e.2 := by
  rw [Value.ofDict, dumps_dict, List.map_map, List.forall_mem_map]
  -- the keys of the document are those of the dict
  have hnodup : (d.entries.map ((fun e => textOf limit e.1) ∘ fun e => (.str e.1, e.2))).Nodup :=
    d.nodupKeys
  rw [and_iff_right hnodup]
  simp only [hasKeyText_str, true_and]

/-- A message as `str` is always encoded, if it has one. -/
theorem messageDumpable_iff (message : Value) :
    MessageDumpable limit rt message ↔
      (isRefused rt message = true → strRaises limit message = false) ∧
        Dumps List.Nodup limit (serializeMessage rt message) := by
  unfold MessageDumpable isRefused serializeMessage
  cases rt.messageToDict message with
  | error exc =>
      dsimp only
      have hfallback : Dumps List.Nodup limit (.dict
          [(.str "type", .str "unknown"), (.str "content", .str (message.toStr rt.repr))]) := by
        rw [dumps_dict]
        refine ⟨by simp, ?_⟩
        simp only [List.forall_mem_cons, hasKeyText_str, true_and]
        exact ⟨⟨_, rfl, trivial⟩, ⟨_, rfl, trivial⟩, by simp⟩
      simp [hfallback]
  | ok serialized =>
      dsimp only
      cases htype : serialized.data.contains "type" with
      | true =>
          rw [if_pos rfl, dumps_ofDict]
          simp [dumps_as_is_iff]
      | false =>
          have hnone : serialized.data.get? "type" = none := by
            simpa [Dict.contains] using htype
          rw [if_neg Bool.false_ne_true, dumps_ofDict, Dict.entries_set_of_new _ _ hnone]
          simp [dumps_as_is_iff, or_imp, forall_and]

/-- A list of messages is encoded message by message. -/
theorem dumps_messages (xs : List Value) :
    (∀ message ∈ xs, MessageDumpable limit rt message) ↔
      (xs.filter (isRefused rt)).any (strRaises limit) = false ∧
        Dumps List.Nodup limit (.list (xs.map (serializeMessage rt))) := by
  simp only [messageDumpable_iff, dumps_list, List.forall_mem_map, List.any_eq_false,
    List.mem_filter, and_imp, forall_and, Bool.not_eq_true]

theorem entryDumpable_iff (key : String) (value : Value) :
    EntryDumpable limit rt key value ↔
      (fallbacks rt key value).any (strRaises limit) = false ∧
        Dumps List.Nodup limit (serializeEntry rt key value) := by
  unfold EntryDumpable fallbacks serializeEntry
  by_cases hkey : key = "messages"
  · simp only [if_pos hkey]
    cases value with
    | list xs => exact dumps_messages xs
    | tuple xs => exact dumps_messages xs
    | _ => simp [dumps_toJsonable_iff]
  · simp [if_neg hkey, dumps_toJsonable_iff]

end Messages

/-! ## The theorem -/

/-- A serialized state is encoded, and keeps all its keys apart, exactly when every entry of
it can be dumped: the messages with their fields as they are, any other value coerced. -/
theorem json_safe_iff (limit : Nat) (rt : Runtime) (values : Dict String Value) :
    JsonSafe limit rt values ↔ ∀ e ∈ values.entries, EntryDumpable limit rt e.1 e.2 := by
  have hdumps : Dumps List.Nodup limit (.ofDict (serializeValues rt values)) ↔
      ∀ e ∈ values.entries, Dumps List.Nodup limit (serializeEntry rt e.1 e.2) := by
    rw [dumps_ofDict, serializeValues, Dict.mapWithKey, List.forall_mem_map]
  have hsafe : JsonSafe limit rt values ↔
      (values.entries.any fun e => (fallbacks rt e.1 e.2).any (strRaises limit)) = false ∧
        Dumps List.Nodup limit (.ofDict (serializeValues rt values)) := by
    unfold JsonSafe dumpValues
    cases values.entries.any fun e => (fallbacks rt e.1 e.2).any (strRaises limit) with
    | true => simp
    | false => simp [Dumps]
  rw [hsafe, hdumps, List.any_eq_false]
  simp only [entryDumpable_iff, forall_and, Bool.not_eq_true]

/-- A message class whose `message_to_dict` keeps an object among the fields. -/
def artifactRuntime : Runtime :=
  { Runtime.inert with
    messageToDict _ := .ok
      { type := .str "tool"
        data := .ofList [("content", .str "done"),
          ("artifact", .obj "Report" [("rows", .int 3)] "<Report>")] } }

/-- A tuple as a key, two keys with one text, and an object in a field of a message. -/
theorem not_json_safe :
    ¬JsonSafe 4300 .inert (.ofList [("grid", .dict [(.tuple [.int 0, .int 1], .str "x")])]) ∧
    ¬JsonSafe 4300 .inert (.ofList [("votes", .dict [(.int 1, .str "a"), (.str "1", .str "b")])]) ∧
    ¬JsonSafe 4300 artifactRuntime (.ofList [("messages", .list [.obj "ToolMessage" [] "done"])]) := by
  refine ⟨?_, ?_, ?_⟩
  · rintro ⟨doc, hdoc, -⟩
    cases hdoc
  · rintro ⟨doc, hdoc, hkeys⟩
    obtain rfl := Except.ok.inj hdoc
    have hnodup : ["1", "1"].Nodup := hkeys.2.1.1
    exact absurd hnodup (by decide)
  · rintro ⟨doc, hdoc, -⟩
    cases hdoc

end AgentProtocol

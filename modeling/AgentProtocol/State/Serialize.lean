import AgentProtocol.Value

/-!
# The wire shape of state values (`state.py`)

`serialize_values` rebuilds a state dict key by key: the list under `messages`
goes through `serialize_message` element by element, everything else through
`_to_jsonable`.
-/

namespace AgentProtocol

/-- `k.startswith(p)` -/
def startsWith (p k : String) : Bool := p.toList.isPrefixOf k.toList

mutual

/-- Coerce a value: containers element by element, tuples and sets to lists,
objects to the dict of their public attributes, anything else to its text. -/
def toJsonable : Value → Value
  | .none => .none
  | .bool b => .bool b
  | .int i => .int i
  | .float r => .float r
  | .str s => .str s
  | .dict items => .dict (toJsonableItems items)
  | .list xs => .list (toJsonableList xs)
  | .tuple xs => .list (toJsonableList xs)
  | .set xs => .list (toJsonableList xs)
  | .obj _ attrs _ => .dict (toJsonableAttrs attrs)
  | .bare _ _ text => .str text

def toJsonableList : List Value → List Value
  | [] => []
  | x :: xs => toJsonable x :: toJsonableList xs

def toJsonableItems : List (Value × Value) → List (Value × Value)
  | [] => []
  | (k, v) :: items => (k, toJsonable v) :: toJsonableItems items

def toJsonableAttrs : List (String × Value) → List (Value × Value)
  | [] => []
  | (k, v) :: attrs =>
    if startsWith "_" k then toJsonableAttrs attrs
    else (.str k, toJsonable v) :: toJsonableAttrs attrs

end

theorem toJsonableList_eq_map (xs : List Value) : toJsonableList xs = xs.map toJsonable := by
  induction xs with
  | nil => rfl
  | cons x xs ih => rw [toJsonableList, ih, List.map_cons]

/-- A dict with these string keys. -/
def Value.ofDict (d : Dict String Value) : Value := .dict (d.entries.map fun e => (.str e.1, e.2))

variable (rt : Runtime)

/-- Flatten a message into the `{type, content, ...}` shape. -/
def serializeMessage (message : Value) : Value :=
  match rt.messageToDict message with
  | .ok serialized =>
    if serialized.data.contains "type" then .ofDict serialized.data
    else .ofDict (serialized.data.set "type" serialized.type)
  -- not a message or unserializable
  | .error _ =>
    .dict [(.str "type", .str "unknown"), (.str "content", .str (message.toStr rt.repr))]

/-- The wire value of one state key. -/
def serializeEntry (key : String) (value : Value) : Value :=
  if key = "messages" then
    match value with
    | .list xs | .tuple xs => .list (xs.map (serializeMessage rt))
    | v => toJsonable v
  else toJsonable value

def serializeValues (values : Dict String Value) : Dict String Value :=
  values.mapWithKey (serializeEntry rt)

theorem get?_serializeValues (values : Dict String Value) (key : String) :
    (serializeValues rt values).get? key = (values.get? key).map (serializeEntry rt key) :=
  Dict.get?_mapWithKey _ values key

/-- Lists stay lists, of the same length. -/
theorem serializeEntry_list (key : String) (xs : List Value) :
    ∃ ys, serializeEntry rt key (.list xs) = .list ys ∧ ys.length = xs.length := by
  by_cases hkey : key = "messages"
  · exact ⟨xs.map (serializeMessage rt), by rw [serializeEntry, if_pos hkey], List.length_map _⟩
  · refine ⟨toJsonableList xs, by rw [serializeEntry, if_neg hkey, toJsonable], ?_⟩
    rw [toJsonableList_eq_map, List.length_map]

end AgentProtocol

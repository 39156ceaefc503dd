import AgentProtocol.Lib.Dict

/-!
# Values

Two kinds of data go through the package. `Json` is what a request body or
`json.loads` yields. `Value` is a Python object as a graph hands it over: the
same scalars and containers, besides them tuples, sets and objects with attributes.

A float is represented by its `repr`, which determines it.
-/

namespace AgentProtocol

/-- A raised exception: the name of its type and its `str()`. -/
structure PyExc where
  typeName : String
  message : String
  deriving DecidableEq

/-- `f"{type(exc).__name__}: {exc}"` -/
def PyExc.describe (exc : PyExc) : String := s!"{exc.typeName}: {exc.message}"

/-- What a bind that returns has been given. -/
theorem Except.bind_ok {ε α β : Type} {x : Except ε α} {f : α → Except ε β} {b : β}
    (h : (x >>= f) = .ok b) : ∃ a, x = .ok a ∧ f a = .ok b := by
  cases x with
  | error e => cases h
  | ok a => exact ⟨a, rfl, h⟩

theorem Except.map_ok {ε α β : Type} {x : Except ε α} {f : α → β} {b : β}
    (h : x.map f = .ok b) : ∃ a, x = .ok a ∧ f a = b := by
  cases x with
  | error e => cases h
  | ok a => exact ⟨a, rfl, Except.ok.inj h⟩

inductive Json where
  | null
  | bool (b : Bool)
  | int (i : Int)
  | float (repr : String)
  | str (s : String)
  | arr (xs : List Json)
  | obj (entries : List (String × Json))

/-- The falsy floats. -/
def isZeroRepr (repr : String) : Bool := repr == "0.0" || repr == "-0.0"

namespace Json

def truthy : Json → Bool
  | .null => false
  | .bool b => b
  | .int i => i != 0
  | .float r => !isZeroRepr r
  | .str s => s != ""
  | .arr xs => !xs.isEmpty
  | .obj es => !es.isEmpty

/-- `type(x).__name__` -/
def typeName : Json → String
  | .null => "NoneType"
  | .bool _ => "bool"
  | .int _ => "int"
  | .float _ => "float"
  | .str _ => "str"
  | .arr _ => "list"
  | .obj _ => "dict"

/-- `isinstance(x, dict)` -/
def isDict : Json → Bool
  | .obj _ => true
  | _ => false

/-- `{**x}`: only a mapping unpacks. -/
def unpack : Json → Except PyExc (Dict String Json)
  | .obj es => .ok (.ofList es)
  | x => .error ⟨"TypeError", s!"'{x.typeName}' object is not a mapping"⟩

theorem unpack_eq_error_iff (x : Json) : (∃ e, x.unpack = .error e) ↔ x.isDict = false := by
  cases x <;> simp [unpack, isDict]

end Json

inductive Value where
  | none
  | bool (b : Bool)
  | int (i : Int)
  | float (repr : String)
  | str (s : String)
  | list (xs : List Value)
  | tuple (xs : List Value)
  /-- a set or frozenset, in its iteration order -/
  | set (xs : List Value)
  | dict (items : List (Value × Value))
  /-- an object with a `__dict__` -/
  | obj (cls : String) (attrs : List (String × Value)) (text : String)
  /-- an object without one; its attributes are slots -/
  | bare (cls : String) (slots : List (String × Value)) (text : String)

namespace Value

def truthy : Value → Bool
  | .none => false
  | .bool b => b
  | .int i => i != 0
  | .float r => !isZeroRepr r
  | .str s => s != ""
  | .list xs | .tuple xs | .set xs => !xs.isEmpty
  | .dict items => !items.isEmpty
  | .obj .. | .bare .. => true

def typeName : Value → String
  | .none => "NoneType"
  | .bool _ => "bool"
  | .int _ => "int"
  | .float _ => "float"
  | .str _ => "str"
  | .list _ => "list"
  | .tuple _ => "tuple"
  | .set _ => "set"
  | .dict _ => "dict"
  | .obj cls .. | .bare cls .. => cls

/-- `isinstance(value, list)` -/
def isList : Value → Bool
  | .list _ => true
  | _ => false

/-- `a or b` -/
def or (a b : Value) : Value := if a.truthy then a else b

/-- `getattr(value, name, None)`: of the data attributes. -/
def getattr (name : String) : Value → Value
  | .obj _ attrs _ | .bare _ attrs _ => (Entries.get? name attrs).getD .none
  | _ => .none

/-- The value of a string key among the items of a dict. -/
def item? (key : String) : List (Value × Value) → Option Value
  | [] => Option.none
  | (.str k, v) :: items => if k = key then some v else item? key items
  | _ :: items => item? key items

/-- `value.get(key)` where `value` is a dict, else `None`. -/
def dictGet (key : String) : Value → Value
  | .dict items => (item? key items).getD .none
  | _ => .none

/-- The items of `for x in value`. -/
def iter : Value → Except PyExc (List Value)
  | .list xs | .tuple xs | .set xs => .ok xs
  | .dict items => .ok (items.map Prod.fst)
  | .str s => .ok (s.toList.map fun c => .str (String.singleton c))
  | v => .error ⟨"TypeError", s!"'{v.typeName}' object is not iterable"⟩

/-- `str(value)`; `repr` is the text the interpreter gives a container. -/
def toStr (repr : Value → String) : Value → String
  | .none => "None"
  | .bool b => if b then "True" else "False"
  | .int i => toString i
  | .float r => r
  | .str s => s
  | .obj _ _ text | .bare _ _ text => text
  | v => repr v

end Value

/-! ## The objects of a graph -/

namespace Value

def isObject : Value → Bool
  | .obj .. | .bare .. => true
  | _ => false

section Copy

/- What `copy.deepcopy` of an object raises, if it does. -/
variable (object : Value → Option PyExc)

mutual

/-- What `copy.deepcopy` of a value raises: a container is copied item by item. -/
def copyRaises : Value → Option PyExc
  | .list xs | .tuple xs | .set xs => copyRaisesList xs
  | .dict items => copyRaisesItems items
  | .obj cls attrs text => object (.obj cls attrs text)
  | .bare cls slots text => object (.bare cls slots text)
  | _ => Option.none

def copyRaisesList : List Value → Option PyExc
  | [] => Option.none
  | x :: xs => (copyRaises x).or (copyRaisesList xs)

def copyRaisesItems : List (Value × Value) → Option PyExc
  | [] => Option.none
  | (k, v) :: items => ((copyRaises k).or (copyRaises v)).or (copyRaisesItems items)

end

end Copy

end Value

/-- The methods of its objects that the package calls. -/
structure Objects where
  /-- `x.extend(xs)`: what the object then is, or what it raises; `none` where it has no such
  method -/
  extend : Value → List Value → Option (Except PyExc Value)
  /-- what `copy.deepcopy(x)` raises -/
  copyRaises : Value → Option PyExc
  /-- it is still an object, -/
  extend_isObject : ∀ v xs v', extend v xs = some (.ok v') → v'.isObject = true
  /-- and a copy of it then copies what it was and what it was given -/
  extend_copies : ∀ v xs v', extend v xs = some (.ok v') → v'.copyRaises copyRaises = none →
    v.copyRaises copyRaises = none ∧ (Value.list xs).copyRaises copyRaises = none

/-- Objects that have no `extend` and can be copied. -/
def Objects.plain : Objects where
  extend _ _ := none
  copyRaises _ := none
  extend_isObject _ _ _ h := by cases h
  extend_copies _ _ _ h := by cases h

/-! ## What the request handlers do with JSON -/

namespace Json

mutual

/-- The Python object a JSON value decodes to. -/
def toValue : Json → Value
  | .null => .none
  | .bool b => .bool b
  | .int i => .int i
  | .float r => .float r
  | .str s => .str s
  | .arr xs => .list (toValues xs)
  | .obj es => .dict (toItems es)

def toValues : List Json → List Value
  | [] => []
  | x :: xs => x.toValue :: toValues xs

def toItems : List (String × Json) → List (Value × Value)
  | [] => []
  | (k, x) :: es => (.str k, x.toValue) :: toItems es

end

/-- `str(x)` -/
def toStr (repr : Value → String) (x : Json) : String := x.toValue.toStr repr

/-- `x or y` -/
def or (x y : Json) : Json := if x.truthy then x else y

/-- `x.get(key)` -/
def get (x : Json) (key : String) : Except PyExc Json :=
  match x with
  | .obj es => .ok (((Dict.ofList es).get? key).getD .null)
  | x => .error ⟨"AttributeError", s!"'{x.typeName}' object has no attribute 'get'"⟩

/-- An element of a sequence of pairs that `dict` unpacks. -/
def unpackPair (i : Nat) (x : Json) : Except PyExc (Json × Json) :=
  let wrongLength (n : Nat) : PyExc :=
    ⟨"ValueError", s!"dictionary update sequence element #{i} has length {n}; 2 is required"⟩
  match x with
  | .arr [k, v] => .ok (k, v)
  | .arr xs => .error (wrongLength xs.length)
  | .obj [(k, _), (v, _)] => .ok (.str k, .str v)
  | .obj es => .error (wrongLength es.length)
  | .str s =>
    match s.toList with
    | [k, v] => .ok (.str (String.singleton k), .str (String.singleton v))
    | cs => .error (wrongLength cs.length)
  | _ =>
    .error ⟨"TypeError", s!"cannot convert dictionary update sequence element #{i} to a sequence"⟩

/-- The entries of a sequence of pairs. Those under keys that are not strings are
left out: nothing looks them up. -/
def dictOfPairs (i : Nat) (d : Dict String Json) : List Json → Except PyExc (Dict String Json)
  | [] => .ok d
  | x :: xs =>
    match x.unpackPair i with
    | .error exc => .error exc
    | .ok (.str k, v) => dictOfPairs (i + 1) (d.set k v) xs
    | .ok (.arr _, _) => .error ⟨"TypeError", "unhashable type: 'list'"⟩
    | .ok (.obj _, _) => .error ⟨"TypeError", "unhashable type: 'dict'"⟩
    | .ok _ => dictOfPairs (i + 1) d xs

/-- `dict(x)` -/
def toDict : Json → Except PyExc (Dict String Json)
  | .obj es => .ok (.ofList es)
  | .arr xs => dictOfPairs 0 ∅ xs
  | .str s => dictOfPairs 0 ∅ (s.toList.map fun c => .str (String.singleton c))
  | x => .error ⟨"TypeError", s!"'{x.typeName}' object is not iterable"⟩

end Json

/-- The result of `message_to_dict`. -/
structure MessageDict where
  type : Value
  data : Dict String Value

/-- How `json.loads` ends. -/
inductive Loaded where
  | value (parsed : Json)
  | decodeError
  /-- an exception other than `JSONDecodeError` -/
  | raised (exc : PyExc)

/-- The functions the package calls and does not define. -/
structure Runtime where
  /-- the text of a container -/
  repr : Value → String
  messageToDict : Value → Except PyExc MessageDict
  loads : String → Loaded
  /-- the clock reading, in ms, of the publish that takes this seq on this thread -/
  nowMs : String → Nat → Int
  objects : Objects

/-- `json.loads` reads this text back as the object it was dumped from. -/
def Runtime.ReadsBack (rt : Runtime) (text : String) (d : Dict String Json) : Prop :=
  text ≠ "" ∧ rt.loads text = .value (.obj d.entries)

/-- A runtime that knows no message type, decodes no JSON and stands still; its objects are
plain. -/
def Runtime.inert : Runtime where
  repr _ := ""
  messageToDict _ := .error ⟨"AttributeError", "'str' object has no attribute 'type'"⟩
  loads _ := .decodeError
  nowMs _ _ := 0
  objects := .plain

end AgentProtocol

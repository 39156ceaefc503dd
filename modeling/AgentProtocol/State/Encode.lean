import AgentProtocol.State.Serialize

/-!
# Encoding values (`json.dumps`)

`encode` is the document that `json.dumps` writes for a value, or what it raises: sets and
objects have no encoding, and the keys of a dict are written as text, where they have one.
`limit` is the limit of the interpreter on the digits of an int it turns into text, 0 for
none. Its stack has no limit here.

`dumps_iff` says of a value which documents come out, as it is and after `_to_jsonable`;
what the package encodes is a combination of the two.
-/

namespace AgentProtocol

section Encode

variable (limit : Nat)

/-- The int can be turned into text. -/
def printable (i : Int) : Bool :=
  limit == 0 || decide ((Nat.toDigits 10 i.natAbs).length ≤ limit)

def tooManyDigits : PyExc :=
  ⟨"ValueError", s!"Exceeds the limit ({limit} digits) for integer string conversion; " ++
    "use sys.set_int_max_str_digits() to increase the limit"⟩

/-- The text of a float. -/
def floatText : String → String
  | "nan" => "NaN"
  | "inf" => "Infinity"
  | "-inf" => "-Infinity"
  | r => r

/-- The text a key is written as. -/
def keyText : Value → Except PyExc String
  | .str s => .ok s
  | .none => .ok "null"
  | .bool b => .ok (if b then "true" else "false")
  | .int i => if printable limit i then .ok (toString i) else .error (tooManyDigits limit)
  | .float r => .ok (floatText r)
  | v => .error ⟨"TypeError", s!"keys must be str, int, float, bool or None, not {v.typeName}"⟩

def notSerializable (v : Value) : PyExc :=
  ⟨"TypeError", s!"Object of type {v.typeName} is not JSON serializable"⟩

mutual

/-- `json.dumps` -/
def encode : Value → Except PyExc Json
  | .none => .ok .null
  | .bool b => .ok (.bool b)
  | .int i => if printable limit i then .ok (.int i) else .error (tooManyDigits limit)
  | .float r => .ok (.float r)
  | .str s => .ok (.str s)
  | .list xs => (encodeList xs).map .arr
  | .tuple xs => (encodeList xs).map .arr
  | .dict items => (encodeItems items).map .obj
  | .set xs => .error (notSerializable (.set xs))
  | .obj cls attrs text => .error (notSerializable (.obj cls attrs text))
  | .bare cls slots text => .error (notSerializable (.bare cls slots text))

def encodeList : List Value → Except PyExc (List Json)
  | [] => .ok []
  | x :: xs =>
    match encode x with
    | .error exc => .error exc
    | .ok j => (encodeList xs).map (j :: ·)

def encodeItems : List (Value × Value) → Except PyExc (List (String × Json))
  | [] => .ok []
  | (k, v) :: items =>
    match keyText limit k, encode v with
    | .error exc, _ => .error exc
    | .ok _, .error exc => .error exc
    | .ok text, .ok j => (encodeItems items).map ((text, j) :: ·)

end

end Encode

/-! ## The keys of a document -/

section Keys

variable (K : List String → Prop)

namespace Json

mutual

/-- The keys of every object in the document satisfy `K`. -/
def AllKeys : Json → Prop
  | .arr xs => AllKeysList xs
  | .obj es => K (es.map Prod.fst) ∧ AllKeysEntries es
  | _ => True

def AllKeysList : List Json → Prop
  | [] => True
  | x :: xs => x.AllKeys ∧ AllKeysList xs

def AllKeysEntries : List (String × Json) → Prop
  | [] => True
  | (_, x) :: es => x.AllKeys ∧ AllKeysEntries es

end

variable {K}

mutual

/-- Keys of any kind are no condition. -/
theorem allKeys_of_forall (h : ∀ keys, K keys) (x : Json) : x.AllKeys K := by
  cases x with
  | arr xs => exact allKeysList_of_forall h xs
  | obj es => exact ⟨h _, allKeysEntries_of_forall h es⟩
  | _ => trivial

theorem allKeysList_of_forall (h : ∀ keys, K keys) (xs : List Json) : AllKeysList K xs := by
  cases xs with
  | nil => trivial
  | cons x xs => exact ⟨allKeys_of_forall h x, allKeysList_of_forall h xs⟩

theorem allKeysEntries_of_forall (h : ∀ keys, K keys) (es : List (String × Json)) :
    AllKeysEntries K es := by
  cases es with
  | nil => trivial
  | cons e es => exact ⟨allKeys_of_forall h e.2, allKeysEntries_of_forall h es⟩

end

end Json

/-- The value is encoded, as a document with such keys. -/
def Dumps (limit : Nat) (v : Value) : Prop := ∃ doc, encode limit v = .ok doc ∧ doc.AllKeys K

/-- The text of a key that has one. -/
def textOf (limit : Nat) (k : Value) : String :=
  match keyText limit k with
  | .ok text => text
  | .error _ => ""

/-- The key has a text. -/
def hasKeyText (limit : Nat) (k : Value) : Bool :=
  match keyText limit k with
  | .ok _ => true
  | .error _ => false

@[simp] theorem textOf_str (limit : Nat) (s : String) : textOf limit (.str s) = s := rfl

@[simp] theorem hasKeyText_str (limit : Nat) (s : String) : hasKeyText limit (.str s) = true := rfl

theorem keyText_ok_iff {limit : Nat} {k : Value} {text : String} :
    keyText limit k = .ok text ↔ hasKeyText limit k = true ∧ textOf limit k = text := by
  unfold hasKeyText textOf
  cases keyText limit k <;> simp

variable {K} {limit : Nat}

theorem encodeList_cons_ok_iff {x : Value} {xs : List Value} {docs : List Json} :
    encodeList limit (x :: xs) = .ok docs ↔ ∃ doc rest, encode limit x = .ok doc ∧
      encodeList limit xs = .ok rest ∧ docs = doc :: rest := by
  rw [encodeList]
  cases encode limit x with
  | error exc => simp
  | ok doc => cases encodeList limit xs <;> simp [Except.map, eq_comm]

theorem encodeItems_cons_ok_iff {k v : Value} {items : List (Value × Value)}
    {es : List (String × Json)} :
    encodeItems limit ((k, v) :: items) = .ok es ↔ ∃ text doc rest, keyText limit k = .ok text ∧
      encode limit v = .ok doc ∧ encodeItems limit items = .ok rest ∧
        es = (text, doc) :: rest := by
  rw [encodeItems]
  cases keyText limit k with
  | error exc => simp
  | ok text =>
      cases encode limit v with
      | error exc => simp
      | ok doc => cases encodeItems limit items <;> simp [Except.map, eq_comm]

/-- The elements of a list are encoded one by one. -/
theorem encodeList_iff (xs : List Value) :
    (∃ docs, encodeList limit xs = .ok docs ∧ Json.AllKeysList K docs) ↔
      ∀ x ∈ xs, Dumps K limit x := by
  induction xs with
  | nil => simp [encodeList, Json.AllKeysList]
  | cons x xs ih =>
      rw [List.forall_mem_cons, ← ih]
      constructor
      · rintro ⟨docs, hdocs, hkeys⟩
        obtain ⟨doc, rest, hx, hxs, rfl⟩ := encodeList_cons_ok_iff.mp hdocs
        exact ⟨⟨doc, hx, hkeys.1⟩, rest, hxs, hkeys.2⟩
      · rintro ⟨⟨doc, hx, hdoc⟩, rest, hxs, hkeys⟩
        exact ⟨doc :: rest, encodeList_cons_ok_iff.mpr ⟨doc, rest, hx, hxs, rfl⟩, hdoc, hkeys⟩

/-- The items of a dict are encoded one by one, under the texts of their keys. -/
theorem encodeItems_iff (P : List String → Prop) (items : List (Value × Value)) :
    (∃ es, encodeItems limit items = .ok es ∧ P (es.map Prod.fst) ∧ Json.AllKeysEntries K es) ↔
      P (items.map fun e => textOf limit e.1) ∧
        ∀ e ∈ items, hasKeyText limit e.1 = true ∧ Dumps K limit e.2 := by
  induction items generalizing P with
  | nil => simp [encodeItems, Json.AllKeysEntries]
  | cons item items ih =>
      obtain ⟨k, v⟩ := item
      rw [List.forall_mem_cons, List.map_cons]
      -- of the rest the same is asked, behind the text of this key
      have hrest := ih fun texts => P (textOf limit k :: texts)
      constructor
      · rintro ⟨es, hes, hP, hkeys⟩
        obtain ⟨text, doc, rest, hk, hv, hitems, rfl⟩ := encodeItems_cons_ok_iff.mp hes
        obtain ⟨hhas, rfl⟩ := keyText_ok_iff.mp hk
        obtain ⟨hP', hall⟩ := hrest.mp ⟨rest, hitems, hP, hkeys.2⟩
        exact ⟨hP', ⟨hhas, doc, hv, hkeys.1⟩, hall⟩
      · rintro ⟨hP, ⟨hhas, doc, hv, hdoc⟩, hall⟩
        obtain ⟨rest, hitems, hP', hkeys⟩ := hrest.mpr ⟨hP, hall⟩
        have hk := keyText_ok_iff.mpr ⟨hhas, rfl⟩
        refine ⟨(textOf limit k, doc) :: rest, ?_, hP', hdoc, hkeys⟩
        exact encodeItems_cons_ok_iff.mpr ⟨_, doc, rest, hk, hv, hitems, rfl⟩

theorem dumps_list (xs : List Value) : Dumps K limit (.list xs) ↔ ∀ x ∈ xs, Dumps K limit x := by
  rw [← encodeList_iff, Dumps, encode]
  cases encodeList limit xs <;> simp [Except.map, Json.AllKeys]

theorem dumps_dict (items : List (Value × Value)) :
    Dumps K limit (.dict items) ↔ K (items.map fun e => textOf limit e.1) ∧
      ∀ e ∈ items, hasKeyText limit e.1 = true ∧ Dumps K limit e.2 := by
  rw [← encodeItems_iff K, Dumps, encode]
  cases encodeItems limit items <;> simp [Except.map, Json.AllKeys]

end Keys

/-! ## What can be dumped -/

section Dumpable

variable (limit : Nat) (K : List String → Prop) (coerced : Bool)

/-- The attributes that coercion keeps. -/
def publicNames (attrs : List (String × Value)) : List String :=
  (attrs.filter fun e => !startsWith "_" e.1).map Prod.fst

mutual

/-- The value can be dumped, as it is or after it was coerced, with such keys. -/
def Dumpable : Value → Prop
  | .int i => printable limit i = true
  | .list xs => DumpableList xs
  | .tuple xs => DumpableList xs
  | .set xs => coerced = true ∧ DumpableList xs
  | .dict items => K (items.map fun e => textOf limit e.1) ∧ DumpableItems items
  | .obj _ attrs _ => coerced = true ∧ K (publicNames attrs) ∧ DumpableAttrs attrs
  | .bare .. => coerced = true
  | .none | .bool _ | .float _ | .str _ => True

def DumpableList : List Value → Prop
  | [] => True
  | x :: xs => Dumpable x ∧ DumpableList xs

def DumpableItems : List (Value × Value) → Prop
  | [] => True
  | (k, v) :: items => (hasKeyText limit k = true ∧ Dumpable v) ∧ DumpableItems items

def DumpableAttrs : List (String × Value) → Prop
  | [] => True
  | (k, v) :: attrs => (startsWith "_" k = false → Dumpable v) ∧ DumpableAttrs attrs

end

/-- The value as it is, or coerced. -/
def coerce (v : Value) : Value := if coerced then toJsonable v else v

variable {coerced}

theorem coerce_list (xs : List Value) :
    coerce coerced (.list xs) = .list (xs.map (coerce coerced)) := by
  cases coerced with
  | false =>
      have hid : coerce false = id := funext fun _ => rfl
      rw [hid, List.map_id]
      rfl
  | true =>
      rw [coerce, if_pos rfl, toJsonable, toJsonableList_eq_map]
      rfl

theorem toJsonableItems_eq_map (items : List (Value × Value)) :
    toJsonableItems items = items.map fun e => (e.1, toJsonable e.2) := by
  induction items with
  | nil => rfl
  | cons item items ih => rw [toJsonableItems, ih, List.map_cons]

theorem coerce_dict (items : List (Value × Value)) :
    coerce coerced (.dict items) = .dict (items.map fun e => (e.1, coerce coerced e.2)) := by
  cases coerced with
  | false => simp [coerce]
  | true => simp [coerce, toJsonable, toJsonableItems_eq_map]

theorem toJsonableAttrs_eq_map (attrs : List (String × Value)) :
    toJsonableAttrs attrs =
      (attrs.filter fun e => !startsWith "_" e.1).map fun e => (.str e.1, toJsonable e.2) := by
  induction attrs with
  | nil => rfl
  | cons attr attrs ih =>
      rw [toJsonableAttrs, ih]
      cases hprivate : startsWith "_" attr.1 <;> simp [hprivate]

variable {limit K}

theorem dumps_coerce_list (xs : List Value) :
    Dumps K limit (coerce coerced (.list xs)) ↔ ∀ x ∈ xs, Dumps K limit (coerce coerced x) := by
  rw [coerce_list, dumps_list, List.forall_mem_map]

theorem dumps_coerce_dict (items : List (Value × Value)) :
    Dumps K limit (coerce coerced (.dict items)) ↔ K (items.map fun e => textOf limit e.1) ∧
      ∀ e ∈ items, hasKeyText limit e.1 = true ∧ Dumps K limit (coerce coerced e.2) := by
  rw [coerce_dict, dumps_dict, List.map_map, List.forall_mem_map]
  rfl

/-- An object is dumped as the dict of its public attributes. -/
theorem dumps_coerce_obj (cls : String) (attrs : List (String × Value)) (text : String) :
    Dumps K limit (coerce true (.obj cls attrs text)) ↔ K (publicNames attrs) ∧
      ∀ e ∈ attrs, startsWith "_" e.1 = false → Dumps K limit (coerce true e.2) := by
  have hdict : coerce true (.obj cls attrs text) = .dict
      ((attrs.filter fun e => !startsWith "_" e.1).map fun e => (.str e.1, toJsonable e.2)) := by
    rw [coerce, if_pos rfl, toJsonable, toJsonableAttrs_eq_map]
  rw [hdict, dumps_dict, List.map_map, List.forall_mem_map]
  simp only [hasKeyText_str, true_and, List.mem_filter, Bool.not_eq_true', and_imp]
  rfl

mutual

/-- Which values are dumped. -/
theorem dumps_iff (v : Value) :
    Dumps K limit (coerce coerced v) ↔ Dumpable limit K coerced v := by
  cases v with
  | none | bool | float | str =>
      cases coerced <;> simp [coerce, toJsonable, Dumps, encode, Dumpable, Json.AllKeys]
  | int i =>
      have hint : coerce coerced (.int i) = .int i := by cases coerced <;> rfl
      rw [hint, Dumps, Dumpable, encode]
      cases printable limit i <;> simp [Json.AllKeys]
  | list xs => rw [Dumpable, dumps_coerce_list, dumpsList_iff xs]
  | tuple xs =>
      -- with or without coercion, it is written like the list
      have hlist : Dumps K limit (coerce coerced (.tuple xs)) ↔
          Dumps K limit (coerce coerced (.list xs)) := by
        cases coerced <;> rfl
      rw [hlist, Dumpable, dumps_coerce_list, dumpsList_iff xs]
  | set xs =>
      -- only coercion makes a list of it
      rw [Dumpable, ← dumpsList_iff xs]
      cases coerced with
      | false => simp [coerce, Dumps, encode]
      | true =>
          rw [← dumps_coerce_list, and_iff_right rfl]
          rfl
  | dict items => rw [Dumpable, dumps_coerce_dict, dumpsItems_iff items]
  | obj cls attrs text =>
      have hattrs := dumpsAttrs_iff attrs
      rw [Dumpable]
      cases coerced with
      | false => simp [coerce, Dumps, encode]
      | true => rw [dumps_coerce_obj, hattrs, and_iff_right rfl]
  | bare cls slots text =>
      cases coerced <;> simp [coerce, toJsonable, Dumps, encode, Dumpable, Json.AllKeys]

theorem dumpsList_iff (xs : List Value) :
    (∀ x ∈ xs, Dumps K limit (coerce coerced x)) ↔ DumpableList limit K coerced xs := by
  cases xs with
  | nil => simp [DumpableList]
  | cons x xs => rw [List.forall_mem_cons, DumpableList, dumps_iff x, dumpsList_iff xs]

theorem dumpsItems_iff (items : List (Value × Value)) :
    (∀ e ∈ items, hasKeyText limit e.1 = true ∧ Dumps K limit (coerce coerced e.2)) ↔
      DumpableItems limit K coerced items := by
  cases items with
  | nil => simp [DumpableItems]
  | cons item items =>
      rw [List.forall_mem_cons, DumpableItems, dumps_iff item.2, dumpsItems_iff items]

theorem dumpsAttrs_iff (attrs : List (String × Value)) :
    (∀ e ∈ attrs, startsWith "_" e.1 = false → Dumps K limit (coerce coerced e.2)) ↔
      DumpableAttrs limit K coerced attrs := by
  cases attrs with
  | nil => simp [DumpableAttrs]
  | cons attr attrs =>
      rw [List.forall_mem_cons, DumpableAttrs, dumps_iff attr.2, dumpsAttrs_iff attrs]

end

theorem dumps_as_is_iff (v : Value) : Dumps K limit v ↔ Dumpable limit K false v := by
  show Dumps K limit (coerce false v) ↔ _
  exact dumps_iff v

theorem dumps_toJsonable_iff (v : Value) :
    Dumps K limit (toJsonable v) ↔ Dumpable limit K true v := by
  show Dumps K limit (coerce true v) ↔ _
  exact dumps_iff v

/-- Which values are encoded as they are. -/
theorem encode_ok_iff (v : Value) :
    (∃ doc, encode limit v = .ok doc) ↔ Dumpable limit (fun _ => True) false v := by
  rw [← dumps_as_is_iff]
  constructor
  · rintro ⟨doc, hdoc⟩
    exact ⟨doc, hdoc, Json.allKeys_of_forall (fun _ => trivial) doc⟩
  · rintro ⟨doc, hdoc, -⟩
    exact ⟨doc, hdoc⟩

end Dumpable

end AgentProtocol

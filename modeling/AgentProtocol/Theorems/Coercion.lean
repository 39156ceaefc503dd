import AgentProtocol.State.Serialize

/-!
# Coercion of values (`_to_jsonable`)

Coercion lands in the values that are built from scalars, lists and dicts, and those are
the values it leaves as they are. So a value that went through it once, in the state, the
history or a live event, is not changed by going through it again.
-/

namespace AgentProtocol

mutual

/-- Built from scalars, lists and dicts. The keys of a dict are labels: they are kept as
they are, whatever they are. So a dict with a tuple for a key is built so, and is left as it
is, and `json.dumps` refuses it all the same. -/
def Shaped : Value → Prop
  | .none | .bool _ | .int _ | .float _ | .str _ => True
  | .list xs => ShapedList xs
  | .dict items => ShapedItems items
  | .tuple _ | .set _ | .obj .. | .bare .. => False

def ShapedList : List Value → Prop
  | [] => True
  | x :: xs => Shaped x ∧ ShapedList xs

def ShapedItems : List (Value × Value) → Prop
  | [] => True
  | (_, v) :: items => Shaped v ∧ ShapedItems items

end

/-! ## Where coercion lands -/

mutual

theorem shaped_toJsonable (v : Value) : Shaped (toJsonable v) := by
  cases v with
  | none | bool | int | float | str | bare => trivial
  | list xs | tuple xs | set xs =>
      rw [toJsonable, Shaped]
      exact shaped_toJsonableList xs
  | dict items =>
      rw [toJsonable, Shaped]
      exact shaped_toJsonableItems items
  | obj cls attrs text =>
      rw [toJsonable, Shaped]
      exact shaped_toJsonableAttrs attrs

theorem shaped_toJsonableList (xs : List Value) : ShapedList (toJsonableList xs) := by
  cases xs with
  | nil => trivial
  | cons x xs => exact ⟨shaped_toJsonable x, shaped_toJsonableList xs⟩

theorem shaped_toJsonableItems (items : List (Value × Value)) :
    ShapedItems (toJsonableItems items) := by
  cases items with
  | nil => trivial
  | cons item items => exact ⟨shaped_toJsonable item.2, shaped_toJsonableItems items⟩

/-- The dict of an object has its public attributes only; what an attribute holds is coerced
like any other value. -/
theorem shaped_toJsonableAttrs (attrs : List (String × Value)) :
    ShapedItems (toJsonableAttrs attrs) := by
  cases attrs with
  | nil => trivial
  | cons attr attrs =>
      rw [toJsonableAttrs]
      split
      · exact shaped_toJsonableAttrs attrs
      · exact ⟨shaped_toJsonable attr.2, shaped_toJsonableAttrs attrs⟩

end

/-! ## What coercion leaves as it is -/

mutual

theorem toJsonable_eq_self_iff (v : Value) : toJsonable v = v ↔ Shaped v := by
  cases v with
  | none | bool | int | float | str => simp [toJsonable, Shaped]
  | tuple | set | obj | bare => simp [toJsonable, Shaped]
  | list xs =>
      rw [toJsonable, Shaped, Value.list.injEq]
      exact toJsonableList_eq_self_iff xs
  | dict items =>
      rw [toJsonable, Shaped, Value.dict.injEq]
      exact toJsonableItems_eq_self_iff items

theorem toJsonableList_eq_self_iff (xs : List Value) :
    toJsonableList xs = xs ↔ ShapedList xs := by
  cases xs with
  | nil => simp [toJsonableList, ShapedList]
  | cons x xs =>
      rw [toJsonableList, ShapedList, List.cons.injEq, toJsonable_eq_self_iff x,
        toJsonableList_eq_self_iff xs]

theorem toJsonableItems_eq_self_iff (items : List (Value × Value)) :
    toJsonableItems items = items ↔ ShapedItems items := by
  cases items with
  | nil => simp [toJsonableItems, ShapedItems]
  | cons item items =>
      have hpair : (item.1, toJsonable item.2) = item ↔ toJsonable item.2 = item.2 := by
        simp [Prod.ext_iff]
      rw [toJsonableItems, ShapedItems, List.cons.injEq, hpair, toJsonable_eq_self_iff item.2,
        toJsonableItems_eq_self_iff items]

end

/-! ## The theorem -/

/-- Coercing twice is coercing once, and only what is built from scalars, lists and dicts is
left as it is. -/
theorem toJsonable_projection (v : Value) :
    toJsonable (toJsonable v) = toJsonable v ∧ (toJsonable v = v ↔ Shaped v) := by
  have hshaped := shaped_toJsonable v
  exact ⟨(toJsonable_eq_self_iff (toJsonable v)).mpr hshaped, toJsonable_eq_self_iff v⟩

/-- A private attribute is dropped when its object becomes a dict; a dict keeps such a key. -/
example : toJsonable (.tuple [.obj "Point" [("x", .int 1), ("_cache", .int 2)] "<Point>",
      .dict [(.str "_cache", .set [.int 2])]]) =
    .list [.dict [(.str "x", .int 1)], .dict [(.str "_cache", .list [.int 2])]] := by
  simp [toJsonable, toJsonableList, toJsonableItems, toJsonableAttrs, startsWith,
    List.isPrefixOf]

end AgentProtocol

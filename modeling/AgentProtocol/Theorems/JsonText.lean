import AgentProtocol.Lib.Framing
import AgentProtocol.State.JsonText

/-!
# Documents and their text (`json.dumps`, `JSON.parse`)

A document is written on one line of ASCII and read back from it, by recursion on the
document, each object with the last value of each of its keys. The one thing that JSON has no
text for is a float that is infinite or not a number: `json.dumps` writes a word for it and
`JSON.parse` throws on the whole text.
-/

namespace AgentProtocol

/-! ## Documents come back -/

namespace Json

mutual

/-- The floats of a document satisfy `p`. -/
def allFloats (p : String → Bool) : Json → Bool
  | .float r => p r
  | .arr xs => allFloatsList p xs
  | .obj es => allFloatsEntries p es
  | _ => true

def allFloatsList (p : String → Bool) : List Json → Bool
  | [] => true
  | x :: xs => x.allFloats p && allFloatsList p xs

def allFloatsEntries (p : String → Bool) : List (String × Json) → Bool
  | [] => true
  | (_, x) :: es => x.allFloats p && allFloatsEntries p es

end

theorem textList_eq_map (xs : List Json) : textList xs = xs.map text := by
  induction xs with
  | nil => rfl
  | cons x xs ih => rw [textList, ih, List.map_cons]

/-- An entry of an object, as text. -/
def entryText (e : String × Json) : List Char := stringText e.1 ++ ':' :: e.2.text

theorem entryText_head (e : String × Json) : ∃ cs, entryText e = '\x22' :: cs := ⟨_, rfl⟩

theorem entryText_ne_nil (e : String × Json) : entryText e ≠ [] := List.cons_ne_nil _ _

theorem textEntries_eq_map (es : List (String × Json)) : textEntries es = es.map entryText := by
  induction es with
  | nil => rfl
  | cons e es ih => rw [textEntries, ih, List.map_cons, entryText]

theorem text_arr (xs : List Json) :
    (Json.arr xs).text = '[' :: ([','].intercalate (xs.map text) ++ [']']) := by
  rw [text, textList_eq_map, List.cons_append]

theorem text_obj (es : List (String × Json)) :
    (Json.obj es).text = '\x7b' :: ([','].intercalate (es.map entryText) ++ ['\x7d']) := by
  rw [text, textEntries_eq_map, List.cons_append]

theorem allFloatsList_eq_all (p : String → Bool) (xs : List Json) :
    allFloatsList p xs = xs.all (allFloats p) := by
  induction xs with
  | nil => rfl
  | cons x xs ih => rw [allFloatsList, ih, List.all_cons]

theorem allFloatsEntries_eq_all (p : String → Bool) (es : List (String × Json)) :
    allFloatsEntries p es = es.all fun e => e.2.allFloats p := by
  induction es with
  | nil => rfl
  | cons e es ih => rw [allFloatsEntries, ih, List.all_cons]

mutual

/-- What is read of the text of a document: all its objects with one value for each key. -/
def merged : Json → Json
  | .arr xs => .arr (mergedList xs)
  | .obj es => object (mergedEntries es)
  | x => x

def mergedList : List Json → List Json
  | [] => []
  | x :: xs => x.merged :: mergedList xs

def mergedEntries : List (String × Json) → List (String × Json)
  | [] => []
  | (k, x) :: es => (k, x.merged) :: mergedEntries es

/-- No object of the document has a key twice. -/
def distinctKeys : Json → Bool
  | .arr xs => distinctKeysList xs
  | .obj es => decide (es.map Prod.fst).Nodup && distinctKeysEntries es
  | _ => true

def distinctKeysList : List Json → Bool
  | [] => true
  | x :: xs => x.distinctKeys && distinctKeysList xs

def distinctKeysEntries : List (String × Json) → Bool
  | [] => true
  | (_, x) :: es => x.distinctKeys && distinctKeysEntries es

end

theorem mergedList_eq_map (xs : List Json) : mergedList xs = xs.map merged := by
  induction xs with
  | nil => rfl
  | cons x xs ih => rw [mergedList, ih, List.map_cons]

theorem mergedEntries_eq_map (es : List (String × Json)) :
    mergedEntries es = es.map fun e => (e.1, e.2.merged) := by
  induction es with
  | nil => rfl
  | cons e es ih => rw [mergedEntries, ih, List.map_cons]

theorem mergedEntries_keys (es : List (String × Json)) :
    (mergedEntries es).map Prod.fst = es.map Prod.fst := by
  rw [mergedEntries_eq_map, List.map_map]
  rfl

/-- Entries with different keys are all kept. -/
theorem object_eq_iff {es es' : List (String × Json)}
    (hkeys : es'.map Prod.fst = es.map Prod.fst) :
    object es' = .obj es ↔ (es.map Prod.fst).Nodup ∧ es' = es := by
  have hkept : (es.map Prod.fst).Nodup → (Dict.ofList es').entries = es' := fun h =>
    Dict.entries_update_of_new ∅ (by rwa [hkeys])
  rw [object, Json.obj.injEq]
  constructor
  · intro heq
    have hnodup : (es.map Prod.fst).Nodup := heq ▸ (Dict.ofList es').nodupKeys
    exact ⟨hnodup, (hkept hnodup).symm.trans heq⟩
  · rintro ⟨hnodup, rfl⟩
    exact hkept hnodup

mutual

/-- A document is read back as it is if its objects have different keys, and only then. -/
theorem merged_eq_self_iff (x : Json) : x.merged = x ↔ x.distinctKeys = true := by
  cases x with
  | null => exact ⟨fun _ => rfl, fun _ => rfl⟩
  | bool b => exact ⟨fun _ => rfl, fun _ => rfl⟩
  | int i => exact ⟨fun _ => rfl, fun _ => rfl⟩
  | float r => exact ⟨fun _ => rfl, fun _ => rfl⟩
  | str s => exact ⟨fun _ => rfl, fun _ => rfl⟩
  | arr xs =>
      rw [merged, Json.arr.injEq, distinctKeys]
      exact mergedList_eq_self_iff xs
  | obj es =>
      rw [merged, object_eq_iff (mergedEntries_keys es), distinctKeys, Bool.and_eq_true,
        decide_eq_true_eq, mergedEntries_eq_self_iff es]

theorem mergedList_eq_self_iff (xs : List Json) :
    mergedList xs = xs ↔ distinctKeysList xs = true := by
  cases xs with
  | nil => exact ⟨fun _ => rfl, fun _ => rfl⟩
  | cons x xs =>
      rw [mergedList, distinctKeysList, List.cons.injEq, Bool.and_eq_true, merged_eq_self_iff x,
        mergedList_eq_self_iff xs]

theorem mergedEntries_eq_self_iff (es : List (String × Json)) :
    mergedEntries es = es ↔ distinctKeysEntries es = true := by
  cases es with
  | nil => exact ⟨fun _ => rfl, fun _ => rfl⟩
  | cons e es =>
      obtain ⟨k, x⟩ := e
      rw [mergedEntries, distinctKeysEntries, List.cons.injEq, Prod.mk.injEq, Bool.and_eq_true,
        merged_eq_self_iff x, mergedEntries_eq_self_iff es]
      exact and_congr_left fun _ => ⟨And.right, fun h => ⟨rfl, h⟩⟩

end

/-- No float of the document is infinite or not a number. -/
def readable (x : Json) : Bool := x.allFloats fun r => isFloatLiteral r.toList

end Json

/-- What `repr` writes of a float. -/
def isFloatRepr (r : String) : Bool :=
  isFloatLiteral r.toList || r == "nan" || r == "inf" || r == "-inf"

theorem not_literal_iff {r : String} (h : isFloatRepr r = true) :
    isFloatLiteral r.toList = false ↔ r = "nan" ∨ r = "inf" ∨ r = "-inf" := by
  constructor
  · intro hno
    simpa [isFloatRepr, hno, or_assoc] using h
  · rintro (rfl | rfl | rfl) <;> decide

theorem floatText_of_isFloatLiteral {r : String} (h : isFloatLiteral r.toList = true) :
    floatText r = r := by
  unfold floatText
  split
  · exact absurd h (by decide)
  · exact absurd h (by decide)
  · exact absurd h (by decide)
  · rfl

theorem scanNumber_nonfinite {r : String} (h : r = "nan" ∨ r = "inf" ∨ r = "-inf")
    (rest : List Char) : scanNumber ((floatText r).toList ++ rest) = none := by
  rcases h with rfl | rfl | rfl <;> rfl

/-- A float comes back, if it is finite. -/
theorem reads_floatText {r : String} (h : isFloatRepr r = true) :
    scanNumber.Reads (Scan.Ahead isNumberChar) (floatText r).toList
      (if isFloatLiteral r.toList then some (.float r) else none) := by
  cases hlit : isFloatLiteral r.toList with
  | true =>
      rw [floatText_of_isFloatLiteral hlit]
      exact reads_float hlit
  | false => exact fun rest _ => scanNumber_nonfinite ((not_literal_iff h).mp hlit) rest


/-! ## The first character -/

def startsNumber (c : Char) : Bool := c.isDigit || "-NI".toList.contains c

theorem head_of_isFloatLiteral {cs : List Char} (h : isFloatLiteral cs = true) :
    ∃ c ds, cs = c :: ds ∧ startsNumber c = true := by
  cases cs with
  | nil => cases h
  | cons c cs =>
      refine ⟨c, cs, rfl, ?_⟩
      unfold isFloatLiteral unsigned at h
      rw [startsNumber, Bool.or_eq_true]
      split at h
      · next heq =>
        rw [(List.cons.inj heq).1]
        exact .inr (by decide)
      · -- no sign: the part before the fraction is not empty
        cases hc : c.isDigit with
        | true => exact .inl rfl
        | false => simp [isIntPart, isDigits, hc] at h

theorem head_of_floatText {r : String} (h : isFloatRepr r = true) :
    ∃ c ds, (floatText r).toList = c :: ds ∧ startsNumber c = true := by
  cases hlit : isFloatLiteral r.toList with
  | true =>
      rw [floatText_of_isFloatLiteral hlit]
      exact head_of_isFloatLiteral hlit
  | false =>
      rcases (not_literal_iff h).mp hlit with rfl | rfl | rfl
      · exact ⟨'N', _, rfl, by decide⟩
      · exact ⟨'I', _, rfl, by decide⟩
      · exact ⟨'-', _, rfl, by decide⟩

theorem head_of_toString (i : Int) :
    ∃ c ds, (toString i).toList = c :: ds ∧ startsNumber c = true := by
  rw [toList_toString]
  split
  · obtain ⟨c, ds, hcs⟩ := List.exists_cons_of_ne_nil (Nat.toDigits_ne_nil (b := 10) (n := i.toNat))
    have hdigit := Nat.isDigit_of_mem_toDigits (b := 10) (n := i.toNat) (c := c) (by omega)
      (by omega) (hcs ▸ List.mem_cons_self)
    exact ⟨c, ds, hcs, by rw [startsNumber, hdigit, Bool.true_or]⟩
  · exact ⟨'-', _, rfl, by decide⟩

/-- Where a number begins, a number is read. -/
theorem scanValue_number {c : Char} (h : startsNumber c = true) (fuel : Nat) (cs : List Char) :
    scanValue (fuel + 1) (c :: cs) = scanNumber (c :: cs) := by
  unfold scanValue
  split
  case h_8 => rfl
  case h_1 heq => cases heq
  all_goals
    next heq =>
      rw [(List.cons.inj heq).1] at h
      exact absurd h (by decide)

/-- The first character of a document is no blank and closes no list. -/
theorem Json.text_head {x : Json} (h : x.allFloats isFloatRepr = true) :
    ∃ c cs, x.text = c :: cs ∧ isBlank c = false ∧ c ≠ ']' := by
  have hnumber : ∀ c, startsNumber c = true → isBlank c = false ∧ c ≠ ']' := by
    intro c hc
    constructor
    · rw [← Bool.not_eq_true]
      intro hblank
      simp only [isBlank, String.reduceToList, List.contains_iff_mem, List.mem_cons] at hblank
      rcases hblank with rfl | rfl | rfl | rfl | hblank
      · exact absurd hc (by decide)
      · exact absurd hc (by decide)
      · exact absurd hc (by decide)
      · exact absurd hc (by decide)
      · cases hblank
    · rintro rfl
      exact absurd hc (by decide)
  cases x with
  | null => exact ⟨'n', _, rfl, by decide⟩
  | bool b =>
      cases b
      · exact ⟨'f', _, rfl, by decide⟩
      · exact ⟨'t', _, rfl, by decide⟩
  | int i =>
      obtain ⟨c, ds, hcs, hc⟩ := head_of_toString i
      exact ⟨c, ds, hcs, hnumber c hc⟩
  | float r =>
      obtain ⟨c, ds, hcs, hc⟩ := head_of_floatText h
      exact ⟨c, ds, hcs, hnumber c hc⟩
  | str s => exact ⟨'\x22', _, rfl, by decide⟩
  | arr xs => exact ⟨'[', _, rfl, by decide⟩
  | obj es => exact ⟨'\x7b', _, rfl, by decide⟩

/-! ## Values -/

/-- A list that is not empty. -/
theorem scanValue_arr {c : Char} (hblank : isBlank c = false) (hc : c ≠ ']') (fuel : Nat)
    (cs : List Char) :
    scanValue (fuel + 1) ('[' :: c :: cs) =
      (Scan.items (Scan.token isBlank (scanValue fuel)) ',' ']' fuel).map Json.arr (c :: cs) := by
  have hdrop : (c :: cs).dropWhile isBlank = c :: cs := by simp [hblank]
  simp only [scanValue, hdrop]
  split
  · next heq => exact absurd (List.cons.inj heq).1 hc
  · rfl

theorem scanValue_obj (fuel : Nat) (cs : List Char) :
    scanValue (fuel + 1) ('\x7b' :: '\x22' :: cs) =
      (Scan.items (Scan.pair ':' (Scan.token isBlank (scanString fuel))
        (Scan.token isBlank (scanValue fuel))) ',' '\x7d' fuel).map Json.object ('\x22' :: cs) := rfl

theorem map_if {α β : Type*} (f : α → β) (b : Bool) (a : α) :
    (if b then some a else none).map f = if b then some (f a) else none := by
  cases b <;> rfl

/-- A scanner reads a document whose floats are finite, and fails on the others. -/
abbrev ReadsJson (r : Scan Json) (x : Json) : Prop :=
  r.Reads (Scan.Ahead isNumberChar) x.text (if x.readable then some x.merged else none)

/-- What may follow a value and its blanks. -/
def FollowsValue (rest : List Char) : Prop :=
  Scan.Ahead isNumberChar rest ∧ Scan.Ahead isBlank rest

theorem followsValue_cons {c : Char} (h : isNumberChar c = false ∧ isBlank c = false)
    (rest : List Char) : FollowsValue (c :: rest) :=
  ⟨Scan.ahead_cons h.1 rest, Scan.ahead_cons h.2 rest⟩

theorem followsValue_nil : FollowsValue [] := by simp [FollowsValue, Scan.Ahead]

theorem ReadsJson.token {r : Scan Json} {x : Json} (h : ReadsJson r x)
    (hx : x.allFloats isFloatRepr = true) :
    (Scan.token isBlank r).Reads FollowsValue x.text
      (if x.readable then some x.merged else none) := by
  obtain ⟨c, cs, hcs, hblank, -⟩ := Json.text_head hx
  unfold ReadsJson at h
  rw [hcs] at h ⊢
  exact h.token hblank

theorem reads_arr {xs : List Json} {fuel : Nat} (h : ∀ x ∈ xs, x.allFloats isFloatRepr = true)
    (hread : ∀ x ∈ xs, ReadsJson (scanValue fuel) x) (hfuel : xs.length ≤ fuel) :
    ReadsJson (scanValue (fuel + 1)) (.arr xs) := by
  have hreadable : (Json.arr xs).readable = xs.all Json.readable := Json.allFloatsList_eq_all _ xs
  cases xs with
  | nil => exact fun rest _ => rfl
  | cons x xs =>
      have hitems := Scan.reads_items (show ',' ≠ ']' by decide)
        (followsValue_cons (by decide)) (followsValue_cons (by decide))
        (fun y hy => (hread y hy).token (h y hy)) hfuel (List.cons_ne_nil _ _)
      rw [Scan.mapM_guard, ← hreadable] at hitems
      obtain ⟨c, cs, hcs, hblank, hc⟩ := Json.text_head (h x List.mem_cons_self)
      obtain ⟨tail, htail⟩ := intercalate_cons_head ',' c cs (xs.map Json.text)
      have hbody : [','].intercalate ((x :: xs).map Json.text) ++ [']'] = c :: (tail ++ [']']) := by
        rw [List.map_cons, hcs, htail, List.cons_append]
      intro rest _
      rw [Json.text_arr, List.cons_append, hbody, List.cons_append, scanValue_arr hblank hc,
        ← List.cons_append, ← hbody, hitems.map Json.arr rest trivial, map_if, Json.merged,
        Json.mergedList_eq_map]

theorem reads_entry {fuel : Nat} {e : String × Json} (h : e.2.allFloats isFloatRepr = true)
    (hread : ReadsJson (scanValue fuel) e.2) (hkey : (stringText e.1).length ≤ fuel + 1) :
    (Scan.pair ':' (Scan.token isBlank (scanString fuel))
      (Scan.token isBlank (scanValue fuel))).Reads FollowsValue (Json.entryText e)
        (if e.2.readable then some (e.1, e.2.merged) else none) := by
  have hstring : (Scan.token isBlank (scanString fuel)).Reads
      (fun rest => True ∧ Scan.Ahead isBlank rest) (stringText e.1) (some e.1) :=
    (reads_stringText e.1 hkey).token (by decide)
  have hpair := hstring.pair (fun rest => ⟨trivial, Scan.ahead_cons (c := ':') (by decide) rest⟩)
    (hread.token h)
  rwa [map_if] at hpair

theorem reads_obj {es : List (String × Json)} {fuel : Nat}
    (h : ∀ e ∈ es, e.2.allFloats isFloatRepr = true)
    (hread : ∀ e ∈ es, ReadsJson (scanValue fuel) e.2)
    (hkeys : ∀ e ∈ es, (stringText e.1).length ≤ fuel + 1) (hfuel : es.length ≤ fuel) :
    ReadsJson (scanValue (fuel + 1)) (.obj es) := by
  have hreadable : (Json.obj es).readable = es.all fun e => e.2.readable :=
    Json.allFloatsEntries_eq_all _ es
  cases es with
  | nil => exact fun rest _ => rfl
  | cons e es =>
      have hitems := Scan.reads_items (show ',' ≠ '\x7d' by decide)
        (followsValue_cons (by decide)) (followsValue_cons (by decide))
        (fun e he => reads_entry (h e he) (hread e he) (hkeys e he)) hfuel (List.cons_ne_nil _ _)
      rw [Scan.mapM_guard, ← hreadable] at hitems
      obtain ⟨cs, hcs⟩ := Json.entryText_head e
      obtain ⟨tail, htail⟩ := intercalate_cons_head ',' '\x22' cs (es.map Json.entryText)
      have hbody : [','].intercalate ((e :: es).map Json.entryText) ++ ['\x7d'] =
          '\x22' :: (tail ++ ['\x7d']) := by
        rw [List.map_cons, hcs, htail, List.cons_append]
      intro rest _
      rw [Json.text_obj, List.cons_append, hbody, List.cons_append, scanValue_obj,
        ← List.cons_append, ← hbody, hitems.map Json.object rest trivial, map_if, Json.merged,
        Json.mergedEntries_eq_map]

theorem Json.text_ne_nil {x : Json} (h : x.allFloats isFloatRepr = true) : x.text ≠ [] := by
  obtain ⟨c, cs, hcs, -⟩ := Json.text_head h
  rw [hcs]
  exact List.cons_ne_nil _ _

theorem Json.length_text_arr {xs : List Json} (h : ∀ x ∈ xs, x.allFloats isFloatRepr = true) :
    xs.length + 2 ≤ (Json.arr xs).text.length ∧
      ∀ x ∈ xs, x.text.length + 2 ≤ (Json.arr xs).text.length := by
  have hne : ∀ t ∈ xs.map Json.text, t ≠ [] :=
    List.forall_mem_map.mpr fun x hx => Json.text_ne_nil (h x hx)
  have hlen := Scan.length_le_intercalate ',' hne
  rw [Json.text_arr, List.length_cons, List.length_append, List.length_singleton]
  rw [List.length_map] at hlen
  refine ⟨by omega, fun x hx => ?_⟩
  have hone := Scan.length_le_of_mem_intercalate ','
    (List.mem_map_of_mem (f := Json.text) hx)
  omega

theorem Json.length_text_obj (es : List (String × Json)) :
    es.length + 2 ≤ (Json.obj es).text.length ∧ ∀ e ∈ es,
      (stringText e.1).length + e.2.text.length + 2 ≤ (Json.obj es).text.length := by
  have hne : ∀ t ∈ es.map Json.entryText, t ≠ [] :=
    List.forall_mem_map.mpr fun e _ => Json.entryText_ne_nil e
  have hlen := Scan.length_le_intercalate ',' hne
  rw [Json.text_obj, List.length_cons, List.length_append, List.length_singleton]
  rw [List.length_map] at hlen
  refine ⟨by omega, fun e he => ?_⟩
  have hone := Scan.length_le_of_mem_intercalate ','
    (List.mem_map_of_mem (f := Json.entryText) he)
  rw [Json.entryText, List.length_append, List.length_cons] at hone
  omega

mutual

/-- A document comes back from its text if its floats are finite, and only then. -/
theorem reads_text (x : Json) (h : x.allFloats isFloatRepr = true) (fuel : Nat)
    (hfuel : x.text.length ≤ fuel) : ReadsJson (scanValue fuel) x := by
  obtain ⟨c, cs, hcs, -⟩ := Json.text_head h
  obtain ⟨n, rfl⟩ : ∃ n, fuel = n + 1 := by
    rw [hcs, List.length_cons] at hfuel
    exact ⟨fuel - 1, by omega⟩
  cases x with
  | null => exact fun rest _ => rfl
  | bool b => cases b <;> exact fun rest _ => rfl
  | int i =>
      obtain ⟨c, cs, hcs, hc⟩ := head_of_toString i
      intro rest hrest
      have hread := reads_int i rest hrest
      rw [hcs] at hread
      show scanValue (n + 1) ((toString i).toList ++ rest) = _
      rw [hcs, List.cons_append, scanValue_number hc]
      exact hread
  | float r =>
      obtain ⟨c, cs, hcs, hc⟩ := head_of_floatText h
      intro rest hrest
      have hread := reads_floatText h rest hrest
      rw [hcs] at hread
      show scanValue (n + 1) ((floatText r).toList ++ rest) = _
      rw [hcs, List.cons_append, scanValue_number hc]
      exact hread
  | str s =>
      intro rest _
      exact (reads_stringText s hfuel).map Json.str rest trivial
  | arr xs =>
      rw [Json.allFloats, Json.allFloatsList_eq_all, List.all_eq_true] at h
      obtain ⟨hlen, hone⟩ := Json.length_text_arr h
      refine reads_arr h (fun x hx => reads_texts xs x hx (h x hx) n ?_) (by omega)
      have hx := hone x hx
      omega
  | obj es =>
      rw [Json.allFloats, Json.allFloatsEntries_eq_all, List.all_eq_true] at h
      obtain ⟨hlen, hone⟩ := Json.length_text_obj es
      refine reads_obj h (fun e he => reads_values es e he (h e he) n ?_) (fun e he => ?_)
        (by omega)
      · have he := hone e he
        omega
      · have he := hone e he
        omega

theorem reads_texts (xs : List Json) : ∀ x ∈ xs, x.allFloats isFloatRepr = true →
    ∀ fuel, x.text.length ≤ fuel → ReadsJson (scanValue fuel) x := by
  cases xs with
  | nil => exact fun x hx => absurd hx List.not_mem_nil
  | cons x xs => exact List.forall_mem_cons.mpr ⟨reads_text x, reads_texts xs⟩

theorem reads_values (es : List (String × Json)) : ∀ e ∈ es, e.2.allFloats isFloatRepr = true →
    ∀ fuel, e.2.text.length ≤ fuel → ReadsJson (scanValue fuel) e.2 := by
  cases es with
  | nil => exact fun e he => absurd he List.not_mem_nil
  | cons e es => exact List.forall_mem_cons.mpr ⟨reads_text e.2, reads_values es⟩

end

/-! ## One line of ASCII -/

/-- A character from the blank to the tilde. -/
def Printable (c : Char) : Prop := ' ' ≤ c ∧ c ≤ '~'

instance (c : Char) : Decidable (Printable c) := inferInstanceAs (Decidable (_ ∧ _))

theorem printable_of_all {cs : List Char} (h : cs.all (fun c => decide (Printable c)) = true) :
    ∀ c ∈ cs, Printable c :=
  fun c hc => of_decide_eq_true (List.all_eq_true.mp h c hc)

theorem printable_digitChar {d : Nat} (h : d < 16) : Printable (Nat.digitChar d) := by
  interval_cases d <;> decide

theorem printable_unicodeEscape (u : Nat) : ∀ c ∈ unicodeEscape u, Printable c := by
  refine List.forall_mem_append.mpr
    ⟨printable_of_all (by decide), List.forall_mem_map.mpr fun d hd => ?_⟩
  exact printable_digitChar (Numeral.lt_of_mem_numeral (by omega) hd)

theorem printable_escapeChar (c : Char) : ∀ d ∈ escapeChar c, Printable d := by
  unfold escapeChar
  split
  case h_8 =>
    split
    · next hprint => exact List.forall_mem_singleton.mpr hprint
    · split
      · exact printable_unicodeEscape _
      · exact List.forall_mem_append.mpr ⟨printable_unicodeEscape _, printable_unicodeEscape _⟩
  all_goals exact printable_of_all (by decide)

theorem printable_stringText (s : String) : ∀ c ∈ stringText s, Printable c := by
  refine List.forall_mem_append.mpr ⟨List.forall_mem_cons.mpr ⟨by decide, ?_⟩,
    printable_of_all (by decide)⟩
  intro c hc
  obtain ⟨d, -, hcd⟩ := List.mem_flatMap.mp hc
  exact printable_escapeChar d c hcd

theorem printable_of_isNumberChar {c : Char} (h : isNumberChar c = true) : Printable c := by
  rw [isNumberChar, Bool.or_eq_true] at h
  rcases h with hdigit | hsign
  · rw [Char.isDigit, Bool.and_eq_true, decide_eq_true_eq, decide_eq_true_eq] at hdigit
    have hblank : ' '.val ≤ '0'.val := by decide
    have htilde : '9'.val ≤ '~'.val := by decide
    show ' '.val ≤ c.val ∧ c.val ≤ '~'.val
    exact ⟨UInt32.le_trans hblank hdigit.1, UInt32.le_trans hdigit.2 htilde⟩
  · simp only [String.reduceToList, List.contains_iff_mem, List.mem_cons] at hsign
    rcases hsign with rfl | rfl | rfl | rfl | rfl | hnone
    · decide
    · decide
    · decide
    · decide
    · decide
    · cases hnone

theorem printable_toString (i : Int) : ∀ c ∈ (toString i).toList, Printable c := by
  have hdigits : ∀ n, ∀ c ∈ Nat.toDigits 10 n, Printable c := fun n c hc =>
    printable_of_isNumberChar (isNumberChar_of_isDigit
      (Nat.isDigit_of_mem_toDigits (by omega) (by omega) hc))
  rw [toList_toString]
  split
  · exact hdigits _
  · exact List.forall_mem_cons.mpr ⟨by decide, hdigits _⟩

theorem printable_floatText {r : String} (h : isFloatRepr r = true) :
    ∀ c ∈ (floatText r).toList, Printable c := by
  cases hlit : isFloatLiteral r.toList with
  | true =>
      rw [floatText_of_isFloatLiteral hlit]
      exact fun c hc => printable_of_isNumberChar (isNumberChar_of_isFloatLiteral hlit c hc)
  | false =>
      rcases (not_literal_iff h).mp hlit with rfl | rfl | rfl <;>
        exact printable_of_all (by decide)

mutual

theorem printable_text (x : Json) (h : x.allFloats isFloatRepr = true) :
    ∀ c ∈ x.text, Printable c := by
  cases x with
  | null => exact printable_of_all (by decide)
  | bool b => cases b <;> exact printable_of_all (by decide)
  | int i => exact printable_toString i
  | float r => exact printable_floatText h
  | str s => exact printable_stringText s
  | arr xs =>
      rw [Json.allFloats, Json.allFloatsList_eq_all, List.all_eq_true] at h
      rw [Json.text_arr]
      refine List.forall_mem_cons.mpr ⟨by decide, List.forall_mem_append.mpr
        ⟨?_, printable_of_all (by decide)⟩⟩
      refine Scan.forall_mem_intercalate (p := Printable) (by decide) ?_
      exact List.forall_mem_map.mpr fun x hx => printable_texts xs x hx (h x hx)
  | obj es =>
      rw [Json.allFloats, Json.allFloatsEntries_eq_all, List.all_eq_true] at h
      rw [Json.text_obj]
      refine List.forall_mem_cons.mpr ⟨by decide, List.forall_mem_append.mpr
        ⟨?_, printable_of_all (by decide)⟩⟩
      refine Scan.forall_mem_intercalate (p := Printable) (by decide) ?_
      refine List.forall_mem_map.mpr fun e he => ?_
      refine List.forall_mem_append.mpr ⟨printable_stringText e.1, ?_⟩
      exact List.forall_mem_cons.mpr ⟨by decide, printable_values es e he (h e he)⟩

theorem printable_texts (xs : List Json) : ∀ x ∈ xs, x.allFloats isFloatRepr = true →
    ∀ c ∈ x.text, Printable c := by
  cases xs with
  | nil => exact fun x hx => absurd hx List.not_mem_nil
  | cons x xs => exact List.forall_mem_cons.mpr ⟨printable_text x, printable_texts xs⟩

theorem printable_values (es : List (String × Json)) :
    ∀ e ∈ es, e.2.allFloats isFloatRepr = true → ∀ c ∈ e.2.text, Printable c := by
  cases es with
  | nil => exact fun e he => absurd he List.not_mem_nil
  | cons e es => exact List.forall_mem_cons.mpr ⟨printable_text e.2, printable_values es⟩

end

theorem reads_back (doc : Json) (h : doc.allFloats isFloatRepr = true) :
    parseJson (.ofList doc.text) = if doc.readable then some doc.merged else none := by
  have hread := (reads_text doc h (doc.text.length + 1) (by omega)).token h [] followsValue_nil
  rw [List.append_nil] at hread
  rw [parseJson, String.toList_ofList, hread]
  cases doc.readable <;> rfl

/-- What `json.dumps` writes is one line of ASCII. `JSON.parse` throws on it if a float of the
document is infinite or not a number, and otherwise gives the document back, the last value for
each key of an object: the document itself exactly if no object of it has a key twice. -/
theorem parse_of_dumps (doc : Json) (h : doc.allFloats isFloatRepr = true) :
    (∀ c ∈ doc.text, ' ' ≤ c ∧ c ≤ '~') ∧
      parseJson (.ofList doc.text) = (if doc.readable then some doc.merged else none) ∧
      (doc.merged = doc ↔ doc.distinctKeys = true) :=
  ⟨printable_text doc h, reads_back doc h, doc.merged_eq_self_iff⟩

/-- Three planes, an escape and an exponent come back; a float that is not a number does not,
and of the two values of a key (`{1: "a", "1": "b"}`) the last one does. -/
theorem parse_of_dumps_samples :
    let doc : Json := .obj [("text", .str "a\n\u00e9😀"), ("xs", .arr [.int (-12), .float "1e-07"])]
    parseJson (.ofList doc.text) = some doc ∧
      parseJson (.ofList (Json.arr [.float "nan"]).text) = none ∧
      parseJson (.ofList (Json.obj [("1", .str "a"), ("1", .str "b")]).text) =
        some (.obj [("1", .str "b")]) :=
  ⟨(parse_of_dumps _ (by decide)).2.1, (parse_of_dumps (.arr [.float "nan"]) (by decide)).2.1,
    (parse_of_dumps (.obj [("1", .str "a"), ("1", .str "b")]) (by decide)).2.1⟩

end AgentProtocol

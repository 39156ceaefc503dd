import Mathlib.Data.List.Nodup

/-!
# Insertion-ordered dictionaries

Finite maps that remember the order in which keys were first written: writing
an existing key replaces its value where it stands, writing a new one appends
it. Keys are distinct by construction (`Dict.nodupKeys`), so the lookup, the
key list and the list of values always agree.

The raw operations live on `List (κ × υ)`; `Dict` bundles such a list with the
distinctness of its keys. Reasoning goes through `get?`: each operation has
one lemma that says what `get?` returns after it.
-/

namespace AgentProtocol

universe u v w

variable {κ : Type u} {υ : Type v} [DecidableEq κ]

namespace Entries

/-- The value of the first entry with key `k`. -/
def get? (k : κ) : List (κ × υ) → Option υ
  | [] => none
  | e :: es => if e.1 = k then some e.2 else get? k es

/-- Replace the value of `k` where it stands, or append a new entry. -/
def set (k : κ) (v : υ) : List (κ × υ) → List (κ × υ)
  | [] => [(k, v)]
  | e :: es => if e.1 = k then (k, v) :: es else e :: set k v es

theorem get?_set (k k' : κ) (v : υ) (es : List (κ × υ)) :
    get? k' (set k v es) = if k = k' then some v else get? k' es := by
  induction es with
  | nil => simp only [set, get?]
  | cons e es ih =>
      by_cases he : e.1 = k
      · simp only [set, if_pos he, get?]
        by_cases hk : k = k'
        · simp only [if_pos hk]
        · have : ¬e.1 = k' := fun h => hk (he ▸ h)
          simp only [if_neg hk, if_neg this]
      · simp only [set, if_neg he, get?, ih]
        by_cases hk : k = k'
        · have : ¬e.1 = k' := fun h => he (h.trans hk.symm)
          simp only [if_pos hk, if_neg this]
        · simp only [if_neg hk]

theorem get?_eq_none_iff (k : κ) (es : List (κ × υ)) :
    get? k es = none ↔ k ∉ es.map Prod.fst := by
  induction es with
  | nil => simp [get?]
  | cons e es ih =>
      by_cases he : e.1 = k
      · simp [get?, he]
      · simp [get?, he, ih, Ne.symm he]

theorem map_fst_set_of_mem {k : κ} (v : υ) {es : List (κ × υ)}
    (h : k ∈ es.map Prod.fst) : (set k v es).map Prod.fst = es.map Prod.fst := by
  induction es with
  | nil => simp at h
  | cons e es ih =>
      by_cases he : e.1 = k
      · simp [set, he]
      · have hmem : k ∈ es.map Prod.fst := by
          rcases List.mem_cons.mp h with h | h
          · exact absurd h.symm he
          · exact h
        simp only [set, if_neg he, List.map_cons, ih hmem]

theorem set_of_not_mem {k : κ} (v : υ) {es : List (κ × υ)}
    (h : k ∉ es.map Prod.fst) : set k v es = es ++ [(k, v)] := by
  induction es with
  | nil => rfl
  | cons e es ih =>
      simp only [List.map_cons, List.mem_cons, not_or] at h
      simp only [set, if_neg (Ne.symm h.1), ih h.2, List.cons_append]

theorem map_fst_set (k : κ) (v : υ) (es : List (κ × υ)) :
    (set k v es).map Prod.fst =
      if k ∈ es.map Prod.fst then es.map Prod.fst else es.map Prod.fst ++ [k] := by
  by_cases h : k ∈ es.map Prod.fst
  · rw [if_pos h, map_fst_set_of_mem v h]
  · rw [if_neg h, set_of_not_mem v h, List.map_append]; rfl

theorem nodup_set {k : κ} (v : υ) {es : List (κ × υ)} (h : (es.map Prod.fst).Nodup) :
    ((set k v es).map Prod.fst).Nodup := by
  rw [map_fst_set]
  split
  · exact h
  · next hk =>
    rw [List.nodup_append]
    refine ⟨h, List.nodup_singleton k, ?_⟩
    intro a ha b hb hab
    rw [List.mem_singleton] at hb
    exact hk (hb ▸ hab ▸ ha)

theorem mem_iff_get? {k : κ} {v : υ} {es : List (κ × υ)} (h : (es.map Prod.fst).Nodup) :
    (k, v) ∈ es ↔ get? k es = some v := by
  induction es with
  | nil => simp [get?]
  | cons e es ih =>
      simp only [List.map_cons, List.nodup_cons] at h
      rcases e with ⟨k', v'⟩
      by_cases he : k' = k
      · subst he
        simp only [get?, if_pos, List.mem_cons, Prod.mk.injEq, true_and, Option.some.injEq]
        constructor
        · rintro (rfl | hmem)
          · rfl
          · exact absurd (List.mem_map_of_mem (f := Prod.fst) hmem) h.1
        · rintro rfl
          exact .inl rfl
      · simp only [get?, if_neg he, List.mem_cons, Prod.mk.injEq, Ne.symm he, false_and,
          false_or, ih h.2]

/-- The values of all the entries under a key, in order. -/
def getAll (k : κ) (es : List (κ × υ)) : List υ := (es.filter fun e => e.1 = k).map Prod.snd

theorem getAll_eq_nil_iff (k : κ) (es : List (κ × υ)) :
    getAll k es = [] ↔ k ∉ es.map Prod.fst := by
  rw [getAll, List.map_eq_nil_iff, List.filter_eq_nil_iff, List.mem_map, not_exists]
  simp only [decide_eq_true_eq, not_and]

theorem getAll_cons_self (e : κ × υ) (es : List (κ × υ)) :
    getAll e.1 (e :: es) = e.2 :: getAll e.1 es := by
  simp only [getAll, List.filter_cons, decide_true, if_true, List.map_cons]

theorem getAll_cons_ne {k : κ} {e : κ × υ} (h : e.1 ≠ k) (es : List (κ × υ)) :
    getAll k (e :: es) = getAll k es := by
  simp only [getAll, List.filter_cons, h, decide_false, Bool.false_eq_true, if_false]

/-- The keys are different when each is the key of one entry only. -/
theorem nodup_iff_getAll (es : List (κ × υ)) :
    (es.map Prod.fst).Nodup ↔ ∀ e ∈ es, getAll e.1 es = [e.2] := by
  induction es with
  | nil => exact ⟨fun _ _ he => absurd he List.not_mem_nil, fun _ => List.nodup_nil⟩
  | cons e es ih =>
      rw [List.map_cons, List.nodup_cons, List.forall_mem_cons, getAll_cons_self, List.cons.injEq,
        getAll_eq_nil_iff, ih]
      constructor
      · rintro ⟨hnew, hrest⟩
        refine ⟨⟨rfl, hnew⟩, fun e' he' => ?_⟩
        have hne : e.1 ≠ e'.1 := by
          intro heq
          exact hnew (heq ▸ List.mem_map_of_mem he')
        rw [getAll_cons_ne hne]
        exact hrest e' he'
      · rintro ⟨⟨-, hnew⟩, hrest⟩
        refine ⟨hnew, fun e' he' => ?_⟩
        have hne : e.1 ≠ e'.1 := by
          intro heq
          exact hnew (heq ▸ List.mem_map_of_mem he')
        rw [← hrest e' he', getAll_cons_ne hne]

end Entries

/-- A finite map that keeps the order in which its keys were first written. -/
structure Dict (κ : Type u) (υ : Type v) where
  entries : List (κ × υ)
  nodupKeys : (entries.map Prod.fst).Nodup

namespace Dict

instance [DecidableEq υ] : DecidableEq (Dict κ υ) := fun d d' =>
  decidable_of_iff (d.entries = d'.entries) (by cases d; cases d'; simp)

def empty : Dict κ υ := ⟨[], List.nodup_nil⟩

instance : EmptyCollection (Dict κ υ) := ⟨empty⟩

instance : Inhabited (Dict κ υ) := ⟨empty⟩

def get? (d : Dict κ υ) (k : κ) : Option υ := Entries.get? k d.entries

def contains (d : Dict κ υ) (k : κ) : Bool := (d.get? k).isSome

def set (d : Dict κ υ) (k : κ) (v : υ) : Dict κ υ :=
  ⟨Entries.set k v d.entries, Entries.nodup_set v d.nodupKeys⟩

def erase (d : Dict κ υ) (k : κ) : Dict κ υ :=
  ⟨d.entries.filter fun e => e.1 ≠ k,
    d.nodupKeys.sublist ((List.filter_sublist).map Prod.fst)⟩

def keys (d : Dict κ υ) : List κ := d.entries.map Prod.fst

def values (d : Dict κ υ) : List υ := d.entries.map Prod.snd

/-- Apply `f` to every value; the keys and their order stay. -/
def mapVals {υ' : Type w} (f : υ → υ') (d : Dict κ υ) : Dict κ υ' :=
  ⟨d.entries.map fun e => (e.1, f e.2), by
    simpa only [List.map_map, Function.comp_def] using d.nodupKeys⟩

/-- Apply `f` to every entry; the keys and their order stay. -/
def mapWithKey {υ' : Type w} (f : κ → υ → υ') (d : Dict κ υ) : Dict κ υ' :=
  ⟨d.entries.map fun e => (e.1, f e.1 e.2), by
    simpa only [List.map_map, Function.comp_def] using d.nodupKeys⟩

/-- Write every entry of `es` in turn, later ones over earlier ones. -/
def update (d : Dict κ υ) (es : List (κ × υ)) : Dict κ υ :=
  es.foldl (fun d e => d.set e.1 e.2) d

/-- The dictionary a literal with these entries denotes. -/
def ofList (es : List (κ × υ)) : Dict κ υ := empty.update es

@[simp] theorem get?_empty (k : κ) : (∅ : Dict κ υ).get? k = none := rfl

theorem get?_set (d : Dict κ υ) (k k' : κ) (v : υ) :
    (d.set k v).get? k' = if k = k' then some v else d.get? k' :=
  Entries.get?_set k k' v d.entries

@[simp] theorem get?_set_self (d : Dict κ υ) (k : κ) (v : υ) :
    (d.set k v).get? k = some v := by
  rw [get?_set, if_pos rfl]

theorem get?_set_ne (d : Dict κ υ) {k k' : κ} (v : υ) (h : k ≠ k') :
    (d.set k v).get? k' = d.get? k' := by
  rw [get?_set, if_neg h]

theorem mem_entries_iff (d : Dict κ υ) (k : κ) (v : υ) :
    (k, v) ∈ d.entries ↔ d.get? k = some v :=
  Entries.mem_iff_get? d.nodupKeys

theorem get?_eq_none_iff (d : Dict κ υ) (k : κ) : d.get? k = none ↔ k ∉ d.keys :=
  Entries.get?_eq_none_iff k d.entries

@[simp] theorem get?_erase_self (d : Dict κ υ) (k : κ) : (d.erase k).get? k = none := by
  rw [get?_eq_none_iff]
  intro h
  obtain ⟨e, he, hk⟩ := List.mem_map.mp h
  exact of_decide_eq_true (List.mem_filter.mp he).2 hk

theorem get?_erase_ne (d : Dict κ υ) {k k' : κ} (h : k ≠ k') :
    (d.erase k).get? k' = d.get? k' := by
  refine Option.ext fun v => ?_
  rw [← mem_entries_iff, ← mem_entries_iff]
  show (k', v) ∈ d.entries.filter _ ↔ _
  simp only [List.mem_filter, ne_eq, decide_eq_true_eq, Ne.symm h, not_false_eq_true, and_true]

@[simp] theorem get?_mapVals {υ' : Type w} (f : υ → υ') (d : Dict κ υ) (k : κ) :
    (d.mapVals f).get? k = (d.get? k).map f := by
  obtain ⟨es, hes⟩ := d
  show Entries.get? k (es.map _) = (Entries.get? k es).map f
  clear hes
  induction es with
  | nil => rfl
  | cons e es ih =>
      by_cases he : e.1 = k
      · simp [Entries.get?, he]
      · simpa [Entries.get?, he] using ih

theorem get?_mapWithKey {υ' : Type w} (f : κ → υ → υ') (d : Dict κ υ) (k : κ) :
    (d.mapWithKey f).get? k = (d.get? k).map (f k) := by
  obtain ⟨es, hes⟩ := d
  show Entries.get? k (es.map _) = (Entries.get? k es).map (f k)
  clear hes
  induction es with
  | nil => rfl
  | cons e es ih =>
      by_cases he : e.1 = k
      · subst he
        simp only [List.map_cons, Entries.get?, if_pos, Option.map_some]
      · simpa only [List.map_cons, Entries.get?, if_neg he] using ih

@[simp] theorem update_nil (d : Dict κ υ) : d.update [] = d := rfl

@[simp] theorem update_cons (d : Dict κ υ) (e : κ × υ) (es : List (κ × υ)) :
    d.update (e :: es) = (d.set e.1 e.2).update es := rfl

/-- Writing a key that is there replaces its entry where it stands. -/
theorem entries_set_of_mem (d : Dict κ υ) {k : κ} {v₀ : υ} (v : υ) (h : d.get? k = some v₀) :
    (d.set k v).entries = d.entries.map fun e => if e.1 = k then (k, v) else e := by
  obtain ⟨es, hnd⟩ := d
  show Entries.set k v es = es.map _
  replace h : Entries.get? k es = some v₀ := h
  induction es with
  | nil => cases h
  | cons e es ih =>
      rw [List.map_cons, List.nodup_cons] at hnd
      by_cases he : e.1 = k
      · have hrest : es.map (fun e => if e.1 = k then (k, v) else e) = es := by
          refine (List.map_congr_left fun e' he' => ?_).trans (List.map_id es)
          have hne : e'.1 ≠ k := by
            rintro rfl
            exact hnd.1 (he ▸ List.mem_map_of_mem he')
          exact if_neg hne
        rw [Entries.set, if_pos he, List.map_cons, if_pos he, hrest]
      · rw [Entries.get?, if_neg he] at h
        rw [Entries.set, if_neg he, List.map_cons, if_neg he, ih hnd.2 h]

/-- Writing a new key appends it. -/
theorem entries_set_of_new (d : Dict κ υ) {k : κ} (v : υ) (h : d.get? k = none) :
    (d.set k v).entries = d.entries ++ [(k, v)] :=
  Entries.set_of_not_mem v ((Entries.get?_eq_none_iff k d.entries).mp h)

/-- The last entry written under a key is the one found; a key no entry names
keeps its value. -/
theorem get?_update (d : Dict κ υ) (es : List (κ × υ)) (k : κ) :
    (d.update es).get? k = (Entries.get? k es.reverse).or (d.get? k) := by
  have happ : ∀ (xs : List (κ × υ)) (e : κ × υ), Entries.get? k (xs ++ [e]) =
      (Entries.get? k xs).or (if e.1 = k then some e.2 else none) := by
    intro xs e
    induction xs with
    | nil => simp [Entries.get?]
    | cons x xs ih =>
        by_cases hx : x.1 = k
        · simp [Entries.get?, hx]
        · simpa [Entries.get?, hx] using ih
  induction es generalizing d with
  | nil => rfl
  | cons e es ih =>
      rw [update_cons, ih, List.reverse_cons, happ, get?_set, Option.or_assoc]
      by_cases he : e.1 = k
      · simp [he]
      · simp [he]

/-- New keys are added in order. -/
theorem entries_update_of_new (d : Dict κ υ) {es : List (κ × υ)}
    (h : (d.keys ++ es.map Prod.fst).Nodup) : (d.update es).entries = d.entries ++ es := by
  induction es generalizing d with
  | nil => exact (List.append_nil _).symm
  | cons e es ih =>
      have hnew : d.get? e.1 = none := by
        rw [get?_eq_none_iff]
        intro hmem
        rw [List.nodup_append] at h
        exact h.2.2 e.1 hmem e.1 List.mem_cons_self rfl
      have hset := d.entries_set_of_new e.2 hnew
      rw [update_cons, ih, hset, List.append_assoc]
      · rfl
      · rw [keys, hset, List.map_append, List.append_assoc]
        exact h

/-- Writing entries with different keys leaves each of them there. -/
theorem get?_update_of_mem (d : Dict κ υ) {es : List (κ × υ)} (hnd : (es.map Prod.fst).Nodup)
    {e : κ × υ} (he : e ∈ es) : (d.update es).get? e.1 = some e.2 := by
  have hrev : (es.reverse.map Prod.fst).Nodup := by
    rw [List.map_reverse, List.nodup_reverse]
    exact hnd
  rw [get?_update, (Entries.mem_iff_get? hrev).mp (List.mem_reverse.mpr he), Option.some_or]

/-- Writing a whole dictionary over another. -/
theorem get?_update_entries (d d' : Dict κ υ) (k : κ) :
    (d.update d'.entries).get? k = (d'.get? k).or (d.get? k) := by
  have hrev : Entries.get? k d'.entries.reverse = d'.get? k := by
    have hnd : (d'.entries.reverse.map Prod.fst).Nodup := by
      rw [List.map_reverse, List.nodup_reverse]
      exact d'.nodupKeys
    refine Option.ext fun v => ?_
    rw [← Entries.mem_iff_get? hnd, List.mem_reverse]
    exact mem_entries_iff d' k v
  rw [get?_update, hrev]

theorem get?_update_of_not_mem (d : Dict κ υ) {es : List (κ × υ)} {k : κ}
    (h : k ∉ es.map Prod.fst) : (d.update es).get? k = d.get? k := by
  have hnone : Entries.get? k es.reverse = none := by
    rw [Entries.get?_eq_none_iff, List.map_reverse, List.mem_reverse]
    exact h
  rw [get?_update, hnone, Option.none_or]

end Dict

end AgentProtocol

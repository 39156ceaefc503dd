import Mathlib.Data.List.TakeWhile

/-!
# Reading values off the front of a text

A scanner takes a value off the front of a text and gives what is left, or fails. `Reads`
says that this holds of a given text, whatever follows it: `follow` is what the scanner asks
of the rest. It is a statement about failure as well, where the value is `none`, so a writer
and a reader are compared by one equation.

Items between separators (`items`) and pairs (`pair`) are read as their parts are.
-/

namespace AgentProtocol

universe u v

variable {α : Type u} {β : Type v} {ι : Type*}

/-- What is taken off the front, and the rest. -/
abbrev Scan (α : Type u) := List Char → Option (α × List Char)

namespace Scan

/-- The scanner takes `x` off this text, or fails on it where there is none. -/
def Reads (r : Scan α) (follow : List Char → Prop) (text : List Char) (x : Option α) : Prop :=
  ∀ rest, follow rest → r (text ++ rest) = x.map fun a => (a, rest)

/-- What `f` makes of the value. -/
def map (f : α → β) (r : Scan α) : Scan β := fun cs => (r cs).map fun p => (f p.1, p.2)

theorem Reads.map {r : Scan α} {follow : List Char → Prop} {text : List Char} {x : Option α}
    (h : r.Reads follow text x) (f : α → β) : (r.map f).Reads follow text (x.map f) := by
  intro rest hrest
  rw [Scan.map, h rest hrest]
  cases x <;> rfl

/-- A key, a colon, a value. -/
def pair (colon : Char) (key : Scan α) (value : Scan β) : Scan (α × β) := fun cs =>
  match key cs with
  | some (a, c :: cs) => if c = colon then (value cs).map fun p => ((a, p.1), p.2) else none
  | _ => none

theorem Reads.pair {colon : Char} {key : Scan α} {value : Scan β}
    {followKey follow : List Char → Prop} {k v : List Char} {a : α} {x : Option β}
    (hkey : key.Reads followKey k (some a)) (hcolon : ∀ rest, followKey (colon :: rest))
    (hvalue : value.Reads follow v x) :
    (Scan.pair colon key value).Reads follow (k ++ colon :: v) (x.map fun b => (a, b)) := by
  intro rest hrest
  rw [List.append_assoc, List.cons_append, Scan.pair, hkey _ (hcolon _)]
  show (if colon = colon then (value (v ++ rest)).map fun p => ((a, p.1), p.2) else none) = _
  rw [if_pos rfl, hvalue rest hrest]
  cases x <;> rfl

/-- The next character, if there is one, is none of these. -/
def Ahead (p : Char → Bool) (rest : List Char) : Prop := ∀ c ∈ rest.head?, p c = false

theorem ahead_cons {p : Char → Bool} {c : Char} (h : p c = false) (rest : List Char) :
    Ahead p (c :: rest) := by
  simpa [Ahead] using h

theorem Ahead.dropWhile {p : Char → Bool} {rest : List Char} (h : Ahead p rest) :
    rest.dropWhile p = rest := by
  cases rest with
  | nil => rfl
  | cons c rest => simp [h c rfl]

/-- With blanks before it and after it. -/
def token (blank : Char → Bool) (r : Scan α) : Scan α := fun cs =>
  (r (cs.dropWhile blank)).map fun p => (p.1, p.2.dropWhile blank)

theorem Reads.token {blank : Char → Bool} {r : Scan α} {follow : List Char → Prop} {c : Char}
    {text : List Char} {x : Option α} (h : r.Reads follow (c :: text) x) (hc : blank c = false) :
    (Scan.token blank r).Reads (fun rest => follow rest ∧ Ahead blank rest) (c :: text) x := by
  rintro rest ⟨hfollow, hrest⟩
  have hdrop : (c :: text ++ rest).dropWhile blank = c :: text ++ rest := by simp [hc]
  rw [Scan.token, hdrop, h rest hfollow]
  cases x with
  | none => rfl
  | some a => rw [Option.map_some, Option.map_some, hrest.dropWhile]

/-- The characters up to the first that is not one of these. -/
def span (p : Char → Bool) : Scan (List Char) := fun cs => some (cs.takeWhile p, cs.dropWhile p)

theorem reads_span {p : Char → Bool} {text : List Char} (h : ∀ c ∈ text, p c = true) :
    (span p).Reads (Ahead p) text (some text) := by
  intro rest hrest
  have htake : rest.takeWhile p = [] := by
    cases rest with
    | nil => rfl
    | cons c rest => simp [hrest c rfl]
  rw [span, List.takeWhile_append_of_pos h, List.dropWhile_append_of_pos h, htake,
    hrest.dropWhile, List.append_nil]
  rfl

/-! ## Items -/

/-- One item or more, up to the closing character; at most `fuel` of them. -/
def items (r : Scan α) (sep close : Char) : Nat → Scan (List α)
  | 0, _ => none
  | fuel + 1, cs =>
    match r cs with
    | some (a, c :: cs) =>
      if c = sep then (items r sep close fuel cs).map fun p => (a :: p.1, p.2)
      else if c = close then some ([a], cs)
      else none
    | _ => none

/-- The texts of the items with separators between them are read one by one. -/
theorem reads_items {r : Scan α} {sep close : Char} {follow : List Char → Prop}
    (hne : sep ≠ close) (hsep : ∀ rest, follow (sep :: rest))
    (hclose : ∀ rest, follow (close :: rest)) {text : ι → List Char} {read : ι → Option α}
    {is : List ι} (h : ∀ i ∈ is, r.Reads follow (text i) (read i)) {fuel : Nat}
    (hfuel : is.length ≤ fuel) (his : is ≠ []) :
    (items r sep close fuel).Reads (fun _ => True)
      ([sep].intercalate (is.map text) ++ [close]) (is.mapM read) := by
  induction is generalizing fuel with
  | nil => exact absurd rfl his
  | cons i is ih =>
      intro rest _
      obtain ⟨hi, his⟩ := List.forall_mem_cons.mp h
      cases fuel with
      | zero => cases hfuel
      | succ fuel =>
          rw [List.mapM_cons]
          cases is with
          | nil =>
              rw [List.map_cons, List.map_nil, List.intercalate_singleton, List.append_assoc, items,
                List.singleton_append, hi _ (hclose _)]
              cases read i with
              | none => rfl
              | some a =>
                  show (if close = sep then _ else if close = close then _ else _) = _
                  rw [if_neg hne.symm, if_pos rfl]
                  rfl
          | cons j js =>
              have hlen : (j :: js).length ≤ fuel := by simpa using hfuel
              have hrest := ih his hlen (List.cons_ne_nil _ _) rest trivial
              rw [List.map_cons, List.map_cons, List.intercalate_cons_cons, List.append_assoc,
                List.append_assoc, List.append_assoc, items, List.singleton_append, hi _ (hsep _)]
              cases read i with
              | none => rfl
              | some a =>
                  show (if sep = sep then (items r sep close fuel _).map _ else _) = _
                  rw [List.map_cons, List.append_assoc] at hrest
                  rw [if_pos rfl, hrest]
                  cases List.mapM read (j :: js) <;> rfl

theorem length_le_intercalate (sep : Char) {ts : List (List Char)} (h : ∀ t ∈ ts, t ≠ []) :
    ts.length ≤ ([sep].intercalate ts).length := by
  induction ts with
  | nil => exact Nat.le_refl 0
  | cons t ts ih =>
      obtain ⟨ht, hts⟩ := List.forall_mem_cons.mp h
      have hpos := List.length_pos_iff.mpr ht
      cases ts with
      | nil => rwa [List.intercalate_singleton]
      | cons u us =>
          have hrest := ih hts
          rw [List.intercalate_cons_cons, List.length_append, List.length_append,
            List.length_cons, List.length_singleton]
          omega

theorem length_le_of_mem_intercalate (sep : Char) {ts : List (List Char)} {t : List Char}
    (h : t ∈ ts) : t.length ≤ ([sep].intercalate ts).length := by
  induction ts with
  | nil => cases h
  | cons u us ih =>
      cases us with
      | nil =>
          rw [List.mem_singleton.mp h, List.intercalate_singleton]
      | cons v vs =>
          rw [List.intercalate_cons_cons, List.length_append, List.length_append]
          rcases List.mem_cons.mp h with rfl | h
          · omega
          · have hrest := ih h
            omega

/-- What holds of the separator and in each item holds of the whole text. -/
theorem forall_mem_intercalate {p : Char → Prop} {sep : Char} (hsep : p sep)
    {ts : List (List Char)} (h : ∀ t ∈ ts, ∀ c ∈ t, p c) : ∀ c ∈ [sep].intercalate ts, p c := by
  induction ts with
  | nil => exact fun c hc => absurd hc List.not_mem_nil
  | cons t ts ih =>
      obtain ⟨ht, hts⟩ := List.forall_mem_cons.mp h
      cases ts with
      | nil => rwa [List.intercalate_singleton]
      | cons u us =>
          rw [List.intercalate_cons_cons, List.append_assoc]
          refine List.forall_mem_append.mpr ⟨ht, List.forall_mem_append.mpr ⟨?_, ih hts⟩⟩
          exact List.forall_mem_singleton.mpr hsep

/-- Reading all or nothing. -/
theorem mapM_guard {p : α → Bool} {f : α → β} (xs : List α) :
    (xs.mapM fun x => if p x then some (f x) else none) =
      if xs.all p then some (xs.map f) else none := by
  induction xs with
  | nil => rfl
  | cons x xs ih =>
      rw [List.mapM_cons, ih, List.all_cons]
      cases p x <;> cases xs.all p <;> rfl

end Scan

end AgentProtocol

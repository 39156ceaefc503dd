import Mathlib.Data.List.Basic
import Mathlib.Data.List.Nodup
import Mathlib.Data.List.Range

/-!
# Numbered logs and their recent window

A log whose entries carry consecutive numbers from 1 (`Numbered`), and the
bounded buffer that keeps its newest entries.

* `Ring.push` is appending to a deque of capacity `cap`: the oldest entry goes
  once the deque is full. Pushing every entry of a log leaves exactly the log's
  `window` (`push_window`).
* In a numbered log the window is the entries above a number
  (`Numbered.window_eq_filter`), so "was it evicted" is arithmetic on numbers.
* A list of entries in strictly increasing number order (`Ascending`) has no
  duplicates and is determined by its members (`Ascending.ext`): two such lists
  with the same entries are equal. Equality of delivery orders is shown this way.
-/

namespace AgentProtocol

universe u

variable {α : Type u}

/-! ## The bounded buffer -/

namespace Ring

/-- Append to a buffer of capacity `cap`, dropping from the front. -/
def push (cap : Nat) (buf : List α) (x : α) : List α :=
  (buf ++ [x]).drop (buf.length + 1 - cap)

/-- The newest `cap` entries of a log. -/
def window (cap : Nat) (log : List α) : List α :=
  log.drop (log.length - cap)

theorem push_window (cap : Nat) (log : List α) (x : α) :
    push cap (window cap log) x = window cap (log ++ [x]) := by
  rcases Nat.lt_or_ge log.length cap with h | h
  · -- not yet full: the window is the whole log
    have hw : window cap log = log := by
      rw [window, show log.length - cap = 0 by omega, List.drop_zero]
    rw [hw, push, window, List.length_append, List.length_singleton]
  · have hlen : (window cap log).length = cap := by
      rw [window, List.length_drop]; omega
    have happ : window cap log ++ [x] = (log ++ [x]).drop (log.length - cap) := by
      rw [window, List.drop_append_of_le_length (by omega)]
    rw [push, hlen, happ, List.drop_drop, window, List.length_append,
      List.length_singleton]
    congr 1
    omega

theorem window_nil (cap : Nat) : window cap ([] : List α) = [] := List.drop_nil

end Ring

/-! ## Strictly ascending lists -/

variable (num : α → Nat)

/-- Entries in strictly increasing number order. -/
def Ascending (l : List α) : Prop := l.Pairwise fun a b => num a < num b

variable {num}

theorem Ascending.nodup {l : List α} (h : Ascending num l) : l.Nodup :=
  h.imp fun hab heq => by rw [heq] at hab; exact Nat.lt_irrefl _ hab

/-- Numbers identify the entries of an ascending list. -/
theorem Ascending.inj {l : List α} (h : Ascending num l) {a b : α} (ha : a ∈ l)
    (hb : b ∈ l) (hab : num a = num b) : a = b := by
  obtain ⟨i, hi, rfl⟩ := List.getElem_of_mem ha
  obtain ⟨j, hj, rfl⟩ := List.getElem_of_mem hb
  rcases Nat.lt_trichotomy i j with hij | rfl | hij
  · exact absurd hab (Nat.ne_of_lt (List.pairwise_iff_getElem.mp h i j hi hj hij))
  · rfl
  · exact absurd hab (Nat.ne_of_gt (List.pairwise_iff_getElem.mp h j i hj hi hij))

theorem Ascending.filter (p : α → Bool) {l : List α} (h : Ascending num l) :
    Ascending num (l.filter p) :=
  List.Pairwise.filter p h

theorem ascending_append {l l' : List α} :
    Ascending num (l ++ l') ↔ Ascending num l ∧ Ascending num l' ∧
      ∀ a ∈ l, ∀ b ∈ l', num a < num b :=
  List.pairwise_append

theorem ascending_concat {l : List α} {x : α} :
    Ascending num (l ++ [x]) ↔ Ascending num l ∧ ∀ a ∈ l, num a < num x := by
  rw [ascending_append]
  constructor
  · rintro ⟨h, -, hx⟩
    exact ⟨h, fun a ha => hx a ha x (List.mem_singleton_self x)⟩
  · rintro ⟨h, hx⟩
    refine ⟨h, List.pairwise_singleton _ _, fun a ha b hb => ?_⟩
    rw [List.mem_singleton] at hb
    exact hb ▸ hx a ha

/-- What holds of the entries of an ascending list, earlier to later, holds from lower to
higher number. -/
theorem Ascending.rel {l : List α} (h : Ascending num l) {R : α → α → Prop} (hR : l.Pairwise R)
    {a b : α} (ha : a ∈ l) (hb : b ∈ l) (hlt : num a < num b) : R a b := by
  obtain ⟨i, hi, rfl⟩ := List.getElem_of_mem ha
  obtain ⟨j, hj, rfl⟩ := List.getElem_of_mem hb
  rcases Nat.lt_trichotomy i j with hij | rfl | hij
  · exact List.pairwise_iff_getElem.mp hR i j hi hj hij
  · omega
  · have hback := List.pairwise_iff_getElem.mp h j i hj hi hij
    omega

/-- An ascending list is determined by its members. -/
theorem Ascending.ext {l l' : List α} (h : Ascending num l) (h' : Ascending num l')
    (hmem : ∀ a, a ∈ l ↔ a ∈ l') : l = l' := by
  induction l generalizing l' with
  | nil =>
      symm
      exact List.eq_nil_iff_forall_not_mem.mpr fun a ha =>
        absurd ((hmem a).mpr ha) List.not_mem_nil
  | cons x xs ih =>
      cases l' with
      | nil => exact absurd ((hmem x).mp List.mem_cons_self) List.not_mem_nil
      | cons y ys =>
          obtain ⟨hx, hxs⟩ := List.pairwise_cons.mp h
          obtain ⟨hy, hys⟩ := List.pairwise_cons.mp h'
          -- each head is the other list's least entry
          have hxy : x = y := by
            rcases List.mem_cons.mp ((hmem x).mp List.mem_cons_self) with rfl | hxin
            · rfl
            · rcases List.mem_cons.mp ((hmem y).mpr List.mem_cons_self) with rfl | hyin
              · rfl
              · exact absurd (hx y hyin) (Nat.lt_asymm (hy x hxin))
          subst hxy
          refine congrArg (x :: ·) (ih hxs hys fun a => ?_)
          constructor
          · intro ha
            rcases List.mem_cons.mp ((hmem a).mp (List.mem_cons_of_mem _ ha)) with rfl | h1
            · exact absurd (hx a ha) (Nat.lt_irrefl _)
            · exact h1
          · intro ha
            rcases List.mem_cons.mp ((hmem a).mpr (List.mem_cons_of_mem _ ha)) with rfl | h1
            · exact absurd (hy a ha) (Nat.lt_irrefl _)
            · exact h1

/-! ## Numbered logs -/

variable (num)

/-- The entries of the log carry the numbers 1, 2, 3, … in order. -/
def Numbered (log : List α) : Prop := log.map num = List.range' 1 log.length

variable {num}

theorem numbered_nil : Numbered num ([] : List α) := rfl

theorem Numbered.concat {log : List α} (h : Numbered num log) {x : α}
    (hx : num x = log.length + 1) : Numbered num (log ++ [x]) := by
  rw [Numbered, List.map_append, h, List.length_append, List.length_singleton,
    List.range'_concat, List.map_singleton, hx]
  simp only [Nat.one_mul, Nat.add_comm]

/-- In a log numbered from `s + 1`, dropping a prefix keeps the entries above a
number. -/
theorem drop_eq_filter {s k : Nat} {log : List α}
    (h : log.map num = List.range' (s + 1) log.length) :
    log.drop k = log.filter fun e => decide (s + k < num e) := by
  induction log generalizing s k with
  | nil => simp
  | cons e es ih =>
      simp only [List.map_cons, List.length_cons, List.range'_succ, List.cons.injEq] at h
      obtain ⟨he, hes⟩ := h
      cases k with
      | zero =>
          have htail := ih (k := 0) hes
          rw [List.drop_zero] at htail
          rw [List.drop_zero, List.filter_cons_of_pos (by simp [he])]
          refine congrArg (e :: ·) ?_
          conv_lhs => rw [htail]
          refine List.filter_congr fun a ha => ?_
          have ha' : num a ∈ es.map num := List.mem_map_of_mem ha
          rw [hes, List.mem_range'] at ha'
          obtain ⟨i, hi, hai⟩ := ha'
          simp only [decide_eq_decide]
          omega
      | succ k =>
          rw [List.drop_succ_cons, List.filter_cons_of_neg (by simp [he]),
            ih (k := k) hes]
          refine List.filter_congr fun a _ => ?_
          simp only [decide_eq_decide]
          omega

theorem Numbered.window_eq_filter {log : List α} (h : Numbered num log) (cap : Nat) :
    Ring.window cap log = log.filter fun e => decide (log.length < num e + cap) := by
  have hfil := drop_eq_filter (s := 0) (k := log.length - cap) h
  rw [Ring.window, hfil]
  refine List.filter_congr fun a ha => ?_
  have ha' : num a ∈ log.map num := List.mem_map_of_mem ha
  rw [h, List.mem_range'] at ha'
  obtain ⟨i, hi, hai⟩ := ha'
  simp only [decide_eq_decide]
  omega

theorem Numbered.mem_window {log : List α} (h : Numbered num log) {cap : Nat} {e : α} :
    e ∈ Ring.window cap log ↔ e ∈ log ∧ log.length < num e + cap := by
  rw [h.window_eq_filter, List.mem_filter, decide_eq_true_eq]

theorem Numbered.bounds {log : List α} (h : Numbered num log) {e : α} (he : e ∈ log) :
    1 ≤ num e ∧ num e ≤ log.length := by
  have he' : num e ∈ log.map num := List.mem_map_of_mem he
  rw [h, List.mem_range'] at he'
  obtain ⟨i, hi, hei⟩ := he'
  omega

theorem Numbered.ascending {log : List α} (h : Numbered num log) : Ascending num log := by
  have hp : (log.map num).Pairwise (· < ·) := by
    rw [h]; exact List.pairwise_lt_range'
  exact List.pairwise_map.mp hp

end AgentProtocol

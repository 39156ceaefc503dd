import Mathlib.Data.List.Nodup
import Mathlib.Data.List.TakeDrop
import Mathlib.Order.Basic

/-!
# Segments of a list

`segment xs i j` is the part of `xs` at the positions from `i` up to `j`. A
page of a listing is a segment of it, so what two pages share, and what one of
them reaches beyond the other, are segments too (`segment_split`,
`mem_segment_overlap`).
-/

namespace AgentProtocol

universe u

variable {α : Type u} {xs : List α} {i j k : Nat}

/-- The elements at the positions `i ≤ n < j`. -/
def segment (xs : List α) (i j : Nat) : List α := (xs.drop i).take (j - i)

theorem segment_of_le (h : j ≤ i) : segment xs i j = [] := by
  show (xs.drop i).take (j - i) = []
  rw [Nat.sub_eq_zero_of_le h, List.take_zero]

/-- Consecutive segments join. -/
theorem segment_append (hij : i ≤ j) (hjk : j ≤ k) :
    segment xs i j ++ segment xs j k = segment xs i k := by
  show (xs.drop i).take (j - i) ++ (xs.drop j).take (k - j) = (xs.drop i).take (k - i)
  have hj : xs.drop j = (xs.drop i).drop (j - i) := by
    rw [List.drop_drop]
    congr 1
    omega
  have hk : k - i = (j - i) + (k - j) := by omega
  rw [hj, hk, List.take_add]

theorem mem_segment_iff {x : α} :
    x ∈ segment xs i j ↔ ∃ n, i ≤ n ∧ n < j ∧ xs[n]? = some x := by
  show x ∈ (xs.drop i).take (j - i) ↔ _
  rw [List.mem_iff_getElem?]
  constructor
  · rintro ⟨n, hn⟩
    have hlt : n < j - i := by
      by_contra hge
      rw [List.getElem?_take_eq_none (by omega)] at hn
      cases hn
    rw [List.getElem?_take_of_lt hlt, List.getElem?_drop] at hn
    exact ⟨i + n, by omega, by omega, hn⟩
  · rintro ⟨n, hin, hnj, hn⟩
    refine ⟨n - i, ?_⟩
    rw [List.getElem?_take_of_lt (by omega), List.getElem?_drop]
    rwa [show i + (n - i) = n by omega]

/-- A segment cut at two positions inside it. -/
theorem segment_split {a b : Nat} (hia : i ≤ a) (hab : a ≤ b) (hbj : b ≤ j) :
    segment xs i j = segment xs i a ++ segment xs a b ++ segment xs b j := by
  rw [segment_append hia hab, segment_append (Nat.le_trans hia hab) hbj]

/-- A common element of two segments of a list without repetition sits where the
two ranges overlap. -/
theorem mem_segment_overlap (hnd : xs.Nodup) {i' j' : Nat} {x : α}
    (hx : x ∈ segment xs i j) (hx' : x ∈ segment xs i' j') :
    ∃ n, max i i' ≤ n ∧ n < min j j' ∧ xs[n]? = some x := by
  obtain ⟨n, hin, hnj, hn⟩ := mem_segment_iff.mp hx
  obtain ⟨n', hin', hnj', hn'⟩ := mem_segment_iff.mp hx'
  have hlt : n < xs.length := (List.getElem?_eq_some_iff.mp hn).1
  obtain rfl : n = n' := (List.getElem?_inj hlt hnd).mp (hn.trans hn'.symm)
  exact ⟨n, Nat.max_le.mpr ⟨hin, hin'⟩, Nat.lt_min.mpr ⟨hnj, hnj'⟩, hn⟩

/-- Segments over disjoint ranges share no element. -/
theorem not_mem_segment (hnd : xs.Nodup) {i' j' : Nat} {x : α} (h : j ≤ i')
    (hx : x ∈ segment xs i j) : x ∉ segment xs i' j' := by
  intro hx'
  obtain ⟨n, hlo, hhi, -⟩ := mem_segment_overlap hnd hx hx'
  omega

theorem map_segment {β : Type*} (f : α → β) (xs : List α) (i j : Nat) :
    (segment xs i j).map f = segment (xs.map f) i j := by
  show ((xs.drop i).take (j - i)).map f = ((xs.map f).drop i).take (j - i)
  rw [List.map_take, List.map_drop]

theorem segment_all (xs : List α) : segment xs 0 xs.length = xs := List.take_length

theorem segment_drop (xs : List α) (i : Nat) : segment xs i xs.length = xs.drop i := by
  show (xs.drop i).take (xs.length - i) = xs.drop i
  rw [← List.length_drop, List.take_length]

/-- The last element of a segment that ends inside the list. -/
theorem getLast?_segment (hij : i < j) (hj : j ≤ xs.length) :
    (segment xs i j).getLast? = xs[j - 1]? := by
  have hlen : (segment xs i j).length = j - i := by
    show ((xs.drop i).take (j - i)).length = j - i
    rw [List.length_take, List.length_drop]
    omega
  rw [List.getLast?_eq_getElem?, hlen]
  show ((xs.drop i).take (j - i))[j - i - 1]? = _
  rw [List.getElem?_take_of_lt (by omega), List.getElem?_drop]
  congr 1
  omega

section Descending

variable {κ : Type*} [Preorder κ] {f : α → κ}

/-- In a list that descends by `f`, later positions have smaller keys. -/
theorem key_lt_of_descending (hd : xs.Pairwise fun x y => f y < f x) {m n : Nat} {x y : α}
    (hmn : m < n) (hx : xs[m]? = some x) (hy : xs[n]? = some y) : f y < f x := by
  obtain ⟨hm, rfl⟩ := List.getElem?_eq_some_iff.mp hx
  obtain ⟨hn, rfl⟩ := List.getElem?_eq_some_iff.mp hy
  exact List.pairwise_iff_getElem.mp hd m n hm hn hmn

variable [DecidableLT κ]

/-- The elements of a segment below the one at position `n` are those after it. -/
theorem filter_lt_segment (hd : xs.Pairwise fun x y => f y < f x) {n : Nat} {y : α}
    (hy : xs[n]? = some y) (hin : i ≤ n + 1) (hnj : n + 1 ≤ j) :
    ((segment xs i j).filter fun x => f x < f y) = segment xs (n + 1) j := by
  rw [← segment_append hin hnj, List.filter_append]
  have hleft : ((segment xs i (n + 1)).filter fun x => f x < f y) = [] := by
    rw [List.filter_eq_nil_iff]
    intro x hx hlt
    obtain ⟨m, -, hm, hmx⟩ := mem_segment_iff.mp hx
    rcases Nat.lt_or_ge m n with hmn | hmn
    · exact absurd (of_decide_eq_true hlt) (lt_asymm (key_lt_of_descending hd hmn hmx hy))
    · obtain rfl : m = n := by omega
      obtain rfl := Option.some.inj (hmx.symm.trans hy)
      exact absurd (of_decide_eq_true hlt) (lt_irrefl _)
  have hright : ((segment xs (n + 1) j).filter fun x => f x < f y) = segment xs (n + 1) j := by
    rw [List.filter_eq_self]
    intro x hx
    obtain ⟨m, hm, -, hmx⟩ := mem_segment_iff.mp hx
    exact decide_eq_true (key_lt_of_descending hd (by omega) hy hmx)
  rw [hleft, hright, List.nil_append]

/-- The elements below a key are a final segment. -/
theorem exists_filter_lt_eq_drop (hd : xs.Pairwise fun x y => f y < f x) (c : κ) :
    ∃ n, n ≤ xs.length ∧ (xs.filter fun x => f x < c) = xs.drop n := by
  induction xs with
  | nil => exact ⟨0, Nat.le_refl 0, rfl⟩
  | cons x xs ih =>
      rw [List.pairwise_cons] at hd
      by_cases hx : f x < c
      · refine ⟨0, Nat.zero_le _, ?_⟩
        rw [List.drop_zero, List.filter_eq_self]
        intro y hy
        rcases List.mem_cons.mp hy with rfl | hy
        · exact decide_eq_true hx
        · exact decide_eq_true (lt_trans (hd.1 y hy) hx)
      · obtain ⟨n, hn, hf⟩ := ih hd.2
        refine ⟨n + 1, Nat.succ_le_succ hn, ?_⟩
        rw [List.filter_cons_of_neg (by simpa using hx), hf, List.drop_succ_cons]

end Descending

end AgentProtocol

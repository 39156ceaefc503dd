import Mathlib.Data.List.Basic

/-!
# What is ahead in a queue

A queue grows at its end and is served from its front. `Ahead x y q` says that `x` is in the
queue and is served before any `y` there is. It stays so while the queue grows
(`Ahead.append`), and until `x` is served no `y` is (`Ahead.tail`).
-/

namespace AgentProtocol

universe u

variable {α : Type u} {x y z : α} {q : List α}

/-- `x` is in the queue, with no `y` before it. -/
def Ahead (x y : α) (q : List α) : Prop :=
  ∃ front rest, q = front ++ x :: rest ∧ y ∉ front

theorem Ahead.mem (h : Ahead x y q) : x ∈ q := by
  obtain ⟨front, rest, rfl, -⟩ := h
  exact List.mem_append_right _ List.mem_cons_self

theorem Ahead.append (h : Ahead x y q) (l : List α) : Ahead x y (q ++ l) := by
  obtain ⟨front, rest, rfl, hy⟩ := h
  exact ⟨front, rest ++ l, by simp, hy⟩

/-- What is not in the queue yet comes behind all that is. -/
theorem ahead_of_not_mem (hx : x ∈ q) (hy : y ∉ q) : Ahead x y q := by
  obtain ⟨front, rest, rfl⟩ := List.append_of_mem hx
  exact ⟨front, rest, rfl, fun hin => hy (List.mem_append_left _ hin)⟩

/-- Whatever is served before `x` is no `y`. -/
theorem Ahead.tail (h : Ahead x y (z :: q)) (hne : z ≠ x) : z ≠ y ∧ Ahead x y q := by
  obtain ⟨front, rest, hq, hy⟩ := h
  cases front with
  | nil => exact absurd (List.cons.inj hq).1 hne
  | cons z' front =>
      obtain ⟨rfl, rfl⟩ := List.cons.inj hq
      rw [List.mem_cons, not_or] at hy
      exact ⟨Ne.symm hy.1, front, rest, rfl, hy.2⟩

/-- So if a `y` is served, it is the turn of `x` too, or `x` is it. -/
theorem Ahead.head (h : Ahead x y (y :: q)) : y = x := by
  by_contra hne
  exact (h.tail hne).1 rfl

end AgentProtocol

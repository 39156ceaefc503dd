import Mathlib.Data.Nat.Digits.Lemmas
import Mathlib.Data.List.Lex

/-!
# Numerals of a fixed width

The last `w` digits of a number in base `b`, high digit first, and the number that a list of
digits stands for. The digits of a number are those of its parts one after the other
(`numeral_append`), and numerals of one width are ordered as the numbers are (`lt_iff_value`).
-/

namespace AgentProtocol

namespace Numeral

variable {b : Nat}

/-- The last `w` digits of `n`. -/
def numeral (b : Nat) : Nat → Nat → List Nat
  | 0, _ => []
  | w + 1, n => numeral b w (n / b) ++ [n % b]

/-- The number these digits stand for. -/
def value (b : Nat) (ds : List Nat) : Nat := Nat.ofDigits b ds.reverse

@[simp] theorem length_numeral (b w n : Nat) : (numeral b w n).length = w := by
  induction w generalizing n with
  | zero => rfl
  | succ w ih => simp [numeral, ih]

theorem lt_of_mem_numeral (hb : 0 < b) {w n d : Nat} (h : d ∈ numeral b w n) : d < b := by
  induction w generalizing n with
  | zero => cases h
  | succ w ih =>
      simp only [numeral, List.mem_append, List.mem_singleton] at h
      rcases h with h | rfl
      · exact ih h
      · exact Nat.mod_lt _ hb

@[simp] theorem value_nil (b : Nat) : value b [] = 0 := rfl

theorem value_append (xs ys : List Nat) :
    value b (xs ++ ys) = value b xs * b ^ ys.length + value b ys := by
  simp only [value, List.reverse_append, Nat.ofDigits_append, List.length_reverse]
  rw [Nat.add_comm, Nat.mul_comm]

theorem value_singleton (b d : Nat) : value b [d] = d := by simp [value]

theorem value_cons (d : Nat) (ds : List Nat) :
    value b (d :: ds) = d * b ^ ds.length + value b ds := by
  have h := value_append (b := b) [d] ds
  rwa [List.singleton_append, value_singleton] at h

theorem value_lt (hb : 1 < b) {ds : List Nat} (h : ∀ d ∈ ds, d < b) :
    value b ds < b ^ ds.length := by
  have hlt := Nat.ofDigits_lt_base_pow_length hb (l := ds.reverse) (by simpa using h)
  simpa [value] using hlt

/-- Digits cut off a number are lost. -/
theorem value_numeral (b w n : Nat) : value b (numeral b w n) = n % b ^ w := by
  induction w generalizing n with
  | zero => simp [numeral, Nat.mod_one]
  | succ w ih =>
      rw [numeral, value_append, ih, value_singleton, List.length_singleton, Nat.pow_one,
        Nat.pow_succ', Nat.mod_mul, Nat.mul_comm, Nat.add_comm]

/-- The numeral of a number below `b ^ w` stands for it. -/
theorem value_numeral_of_lt {w n : Nat} (h : n < b ^ w) : value b (numeral b w n) = n := by
  rw [value_numeral, Nat.mod_eq_of_lt h]

/-- The digits of a number are those of its high part and those of its low part. -/
theorem numeral_append (b v w n : Nat) :
    numeral b (v + w) n = numeral b v (n / b ^ w) ++ numeral b w n := by
  induction w generalizing n with
  | zero => simp [numeral]
  | succ w ih =>
      rw [← Nat.add_assoc, numeral, ih, numeral, Nat.div_div_eq_div_mul, ← Nat.pow_succ',
        List.append_assoc]

theorem numeral_one (b n : Nat) : numeral b 1 n = [n % b] := rfl

/-- Numerals of one width are ordered as the numbers they stand for. -/
theorem lt_iff_value (hb : 1 < b) {xs ys : List Nat} (hlen : xs.length = ys.length)
    (hx : ∀ d ∈ xs, d < b) (hy : ∀ d ∈ ys, d < b) : xs < ys ↔ value b xs < value b ys := by
  induction xs generalizing ys with
  | nil =>
      obtain rfl := List.length_eq_zero_iff.mp hlen.symm
      simp
  | cons x xs ih =>
      cases ys with
      | nil => cases hlen
      | cons y ys =>
          rw [List.forall_mem_cons] at hx hy
          have hlen : xs.length = ys.length := Nat.succ.inj hlen
          have hvx := value_lt hb hx.2
          have hvy := value_lt hb hy.2
          rw [List.cons_lt_cons_iff, value_cons, value_cons, ih hlen hx.2 hy.2]
          rw [hlen] at hvx ⊢
          -- the first digit decides, unless it is the same
          rcases Nat.lt_trichotomy x y with hlt | rfl | hgt
          · have hmul : (x + 1) * b ^ ys.length ≤ y * b ^ ys.length := Nat.mul_le_mul_right _ hlt
            rw [Nat.succ_mul] at hmul
            exact iff_of_true (.inl hlt) (by omega)
          · simp
          · have hmul : (y + 1) * b ^ ys.length ≤ x * b ^ ys.length := Nat.mul_le_mul_right _ hgt
            rw [Nat.succ_mul] at hmul
            exact iff_of_false (by omega) (by omega)

/-! ## As text -/

theorem numeral_zero (b w : Nat) : numeral b w 0 = List.replicate w 0 := by
  induction w with
  | zero => rfl
  | succ w ih => rw [numeral, Nat.zero_div, ih, Nat.zero_mod, List.replicate_succ']

theorem leftpad_concat {α : Type*} (w : Nat) (a c : α) (l : List α) :
    List.leftpad (w + 1) a (l ++ [c]) = List.leftpad w a l ++ [c] := by
  simp [List.leftpad]

/-- The digits of a number, padded to a width it fits in. -/
theorem leftpad_toDigits (hb : 1 < b) {w n : Nat} (h : n < b ^ w) (hw : 0 < w) :
    List.leftpad w '0' (Nat.toDigits b n) = (numeral b w n).map Nat.digitChar := by
  induction w generalizing n with
  | zero => cases hw
  | succ w ih =>
      rw [numeral, List.map_append, List.map_singleton]
      by_cases hn : n < b
      · have hdiv : n / b = 0 := Nat.div_eq_of_lt hn
        rw [Nat.toDigits_of_lt_base hn, Nat.mod_eq_of_lt hn, hdiv, numeral_zero, List.map_replicate]
        have hpad : List.leftpad w '0' [] = List.replicate w (Nat.digitChar 0) := by
          simp [List.leftpad]
        rw [← hpad]
        exact leftpad_concat w '0' n.digitChar []
      · have hle : b ≤ n := Nat.le_of_not_lt hn
        have hdiv : n / b < b ^ w := by
          rw [Nat.pow_succ] at h
          exact Nat.div_lt_of_lt_mul (by rwa [Nat.mul_comm])
        have hpos : 0 < w := by
          rcases Nat.eq_zero_or_pos w with rfl | hpos
          · rw [Nat.zero_add, Nat.pow_one] at h
            omega
          · exact hpos
        rw [Nat.toDigits_of_base_le hb hle, leftpad_concat, ih hdiv hpos]

end Numeral

end AgentProtocol

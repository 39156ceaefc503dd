import Mathlib.Data.List.Basic

/-!
# Blocks of a text that arrives in pieces

`indexOf` is the place of the first delimiter of a text, and `blocks` the loop that
cuts off one block after the other while there is a delimiter. What is cut off
does not depend on what arrives later (`indexOf_append`), so a text gives the same
blocks at once and in pieces (`blocks_append`).
-/

namespace AgentProtocol

universe u

variable {α : Type u} [DecidableEq α] {pat xs ys : List α} {i : Nat}

/-- Where `pat` first stands in a text. -/
def indexOf (pat : List α) : List α → Option Nat
  | [] => if pat.isEmpty then some 0 else none
  | x :: xs => if pat.isPrefixOf (x :: xs) then some 0 else (indexOf pat xs).map (· + 1)

/-- The blocks that are complete, in at most so many turns, and the rest. -/
def blocksWithin (pat : List α) : Nat → List α → List (List α) × List α
  | 0, buf => ([], buf)
  | n + 1, buf =>
    match indexOf pat buf with
    | none => ([], buf)
    | some i =>
      let r := blocksWithin pat n (buf.drop (i + pat.length))
      (buf.take i :: r.1, r.2)

/-- The blocks that are complete, and the rest: each turn makes the text shorter. -/
def blocks (pat buf : List α) : List (List α) × List α := blocksWithin pat buf.length buf

theorem indexOf_le (h : indexOf pat xs = some i) : i + pat.length ≤ xs.length := by
  induction xs generalizing i with
  | nil =>
      rw [indexOf] at h
      split at h
      · next hpat =>
        obtain rfl := Option.some.inj h
        rw [List.isEmpty_iff.mp hpat]
        exact Nat.le_refl _
      · cases h
  | cons x xs ih =>
      rw [indexOf] at h
      split at h
      · next hpre =>
        obtain rfl := Option.some.inj h
        have := (List.isPrefixOf_iff_prefix.mp hpre).length_le
        omega
      · obtain ⟨j, hj, rfl⟩ := Option.map_eq_some_iff.mp h
        have := ih hj
        rw [List.length_cons]
        show j + 1 + _ ≤ _
        omega

/-- What comes after the first delimiter does not move it. -/
theorem indexOf_append (h : indexOf pat xs = some i) (ys : List α) :
    indexOf pat (xs ++ ys) = some i := by
  induction xs generalizing i with
  | nil =>
      rw [indexOf] at h
      split at h
      · next hpat =>
        obtain rfl := Option.some.inj h
        rw [List.isEmpty_iff.mp hpat]
        cases ys <;> rfl
      · cases h
  | cons x xs ih =>
      have hle := indexOf_le h
      rw [indexOf] at h
      rw [List.cons_append, indexOf]
      split at h
      · next hpre =>
        rw [if_pos]
        · exact h
        · rw [← List.cons_append]
          exact List.isPrefixOf_iff_prefix.mpr
            ((List.isPrefixOf_iff_prefix.mp hpre).trans (List.prefix_append _ ys))
      · next hpre =>
        obtain ⟨j, hj, rfl⟩ := Option.map_eq_some_iff.mp h
        rw [if_neg, ih hj]
        · rfl
        · -- a delimiter up to here would have been seen before
          intro hpre'
          refine hpre (List.isPrefixOf_iff_prefix.mpr ?_)
          refine List.prefix_of_prefix_length_le (List.isPrefixOf_iff_prefix.mp hpre')
            (List.prefix_append (x :: xs) ys) ?_
          omega

/-! ## The loop -/

/-- More turns than characters are never needed. -/
theorem blocksWithin_eq (hpat : pat ≠ []) {n : Nat} {buf : List α} (h : buf.length ≤ n) :
    blocksWithin pat n buf = blocks pat buf := by
  have hpos : 0 < pat.length := List.length_pos_iff.mpr hpat
  have hmono : ∀ {n m : Nat} {buf : List α}, buf.length ≤ n → buf.length ≤ m →
      blocksWithin pat n buf = blocksWithin pat m buf := by
    intro n
    induction n with
    | zero =>
        intro m buf hn _
        obtain rfl := List.length_eq_zero_iff.mp (Nat.le_zero.mp hn)
        have hnone : indexOf pat ([] : List α) = none := by
          rw [indexOf, if_neg (by simpa using hpat)]
        cases m with
        | zero => rfl
        | succ m => rw [blocksWithin, blocksWithin, hnone]
    | succ n ih =>
        intro m buf hn hm
        cases hi : indexOf pat buf with
        | none => cases m <;> simp only [blocksWithin, hi]
        | some i =>
            have hle := indexOf_le hi
            have hlen : (buf.drop (i + pat.length)).length = buf.length - (i + pat.length) :=
              List.length_drop
            cases m with
            | zero => omega
            | succ m =>
                simp only [blocksWithin, hi]
                rw [ih (m := m) (by omega) (by omega)]
  exact hmono h (Nat.le_refl _)

theorem blocks_of_none (h : indexOf pat xs = none) : blocks pat xs = ([], xs) := by
  unfold blocks
  cases xs.length with
  | zero => rfl
  | succ n => rw [blocksWithin, h]

theorem blocks_of_some (hpat : pat ≠ []) (h : indexOf pat xs = some i) :
    blocks pat xs =
      (xs.take i :: (blocks pat (xs.drop (i + pat.length))).1,
        (blocks pat (xs.drop (i + pat.length))).2) := by
  have hpos : 0 < pat.length := List.length_pos_iff.mpr hpat
  have hle := indexOf_le h
  obtain ⟨n, hn⟩ : ∃ n, xs.length = n + 1 := ⟨xs.length - 1, by omega⟩
  have hturn : blocks pat xs = blocksWithin pat (n + 1) xs := by rw [blocks, hn]
  rw [hturn, blocksWithin, h]
  dsimp only
  rw [blocksWithin_eq hpat]
  rw [List.length_drop]
  omega

/-- Cutting a text as it arrives. -/
theorem blocks_append (hpat : pat ≠ []) (xs ys : List α) :
    blocks pat (xs ++ ys) =
      ((blocks pat xs).1 ++ (blocks pat ((blocks pat xs).2 ++ ys)).1,
        (blocks pat ((blocks pat xs).2 ++ ys)).2) := by
  induction hn : xs.length using Nat.strongRecOn generalizing xs with
  | _ n ih =>
      cases hi : indexOf pat xs with
      | none =>
          rw [blocks_of_none hi]
          rfl
      | some i =>
          have hpos : 0 < pat.length := List.length_pos_iff.mpr hpat
          have hle := indexOf_le hi
          have hrest := ih (xs.drop (i + pat.length)).length
            (by rw [List.length_drop]; omega) (xs.drop (i + pat.length)) rfl
          rw [blocks_of_some hpat hi, blocks_of_some hpat (indexOf_append hi ys),
            List.take_append_of_le_length (by omega), List.drop_append_of_le_length hle, hrest]
          rfl

/-- Blocks that are written with their delimiter are read back. -/
theorem blocks_flatMap (hpat : pat ≠ []) {ts : List (List α)}
    (h : ∀ t ∈ ts, indexOf pat (t ++ pat) = some t.length) :
    blocks pat (ts.flatMap (· ++ pat)) = (ts, []) := by
  induction ts with
  | nil =>
      apply blocks_of_none
      rw [List.flatMap_nil, indexOf, if_neg (by simpa using hpat)]
  | cons t ts ih =>
      obtain ⟨ht, hts⟩ := List.forall_mem_cons.mp h
      rw [List.flatMap_cons, blocks_of_some hpat (indexOf_append ht _), List.append_assoc,
        List.take_left, ← List.append_assoc]
      have hdrop : (t ++ pat ++ ts.flatMap (· ++ pat)).drop (t.length + pat.length) =
          ts.flatMap (· ++ pat) := by
        rw [← List.length_append, List.drop_left]
      rw [hdrop, ih hts]

/-! ## Lines -/

variable {d : α}

theorem indexOf_skip {l : List α} (h : d ∉ l) (ys : List α) :
    indexOf [d, d] (l ++ ys) = (indexOf [d, d] ys).map (· + l.length) := by
  induction l with
  | nil => simp
  | cons x l ih =>
      rw [List.mem_cons, not_or] at h
      have hx : (d == x) = false := beq_eq_false_iff_ne.mpr h.1
      rw [List.cons_append, indexOf, if_neg (by simp [List.isPrefixOf, hx]), ih h.2,
        Option.map_map]
      rfl

theorem intercalate_cons_head {β : Type u} (d c : β) (m : List β) (lines : List (List β)) :
    ∃ rest, [d].intercalate ((c :: m) :: lines) = c :: rest := by
  cases lines with
  | nil => exact ⟨m, List.intercalate_singleton⟩
  | cons l lines => exact ⟨_, List.intercalate_cons_cons⟩

/-- A block of lines that are not empty ends at its blank line. -/
theorem indexOf_lines {lines : List (List α)} (hne : lines ≠ [])
    (h : ∀ l ∈ lines, l ≠ [] ∧ d ∉ l) :
    indexOf [d, d] ([d].intercalate lines ++ [d, d]) = some ([d].intercalate lines).length := by
  induction lines with
  | nil => exact absurd rfl hne
  | cons l lines ih =>
      obtain ⟨⟨-, hl⟩, hlines⟩ := List.forall_mem_cons.mp h
      cases lines with
      | nil =>
          rw [List.intercalate_singleton, indexOf_skip hl]
          simp [indexOf, List.isPrefixOf]
      | cons m lines =>
          -- after the line break comes a line that is not empty
          obtain ⟨hm, hdm⟩ := hlines m List.mem_cons_self
          obtain ⟨c, m, rfl⟩ := List.exists_cons_of_ne_nil hm
          obtain ⟨rest, hrest⟩ := intercalate_cons_head d c m lines
          have hcd : (d == c) = false :=
            beq_eq_false_iff_ne.mpr fun hcd => hdm (hcd ▸ List.mem_cons_self)
          have hbreak : indexOf [d, d] (d :: ([d].intercalate ((c :: m) :: lines) ++ [d, d])) =
              some (([d].intercalate ((c :: m) :: lines)).length + 1) := by
            rw [indexOf, ih (List.cons_ne_nil _ _) hlines, if_neg]
            · rfl
            · rw [hrest]
              simp [List.isPrefixOf, hcd]
          rw [List.intercalate_cons_cons, List.append_assoc, List.append_assoc, indexOf_skip hl,
            List.singleton_append, hbreak, Option.map_some, List.length_append, List.length_append,
            List.length_singleton]
          congr 1
          omega

end AgentProtocol

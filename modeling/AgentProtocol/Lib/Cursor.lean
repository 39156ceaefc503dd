import AgentProtocol.Lib.Log

/-!
# Reading a log with a cursor

A reader keeps the largest number it has read as its cursor, and asks for what comes after it.
`stretch p log c c'` is what it should get while its cursor goes from `c` to `c'`: the entries
it asks for, past the one and up to the other. Stretches that follow each other make one
(`stretch_append`), so a reader that is served stretches may stop and come back as often as
it likes. `readTo` is the cursor after a list of entries.
-/

namespace AgentProtocol

universe u

variable {α : Type u}

/-- The cursor after these entries. -/
def readTo (pos : α → Int) (c : Int) (l : List α) : Int := l.foldl (fun m e => max m (pos e)) c

section ReadTo

variable {pos : α → Int} {l : List α} {c : Int} {e : α}

theorem readTo_le_iff {i : Int} : readTo pos c l ≤ i ↔ c ≤ i ∧ ∀ e ∈ l, pos e ≤ i := by
  induction l generalizing c with
  | nil => simp [readTo]
  | cons x l ih =>
      show readTo pos (max c (pos x)) l ≤ i ↔ _
      rw [ih, Int.max_le, List.forall_mem_cons, and_assoc]

theorem le_readTo : c ≤ readTo pos c l := (readTo_le_iff.mp (Int.le_refl _)).1

theorem pos_le_readTo (he : e ∈ l) : pos e ≤ readTo pos c l :=
  (readTo_le_iff.mp (Int.le_refl _)).2 e he

/-- The cursor is where the reader began, or on an entry it has read. -/
theorem readTo_mem (pos : α → Int) (c : Int) (l : List α) :
    readTo pos c l = c ∨ ∃ e ∈ l, readTo pos c l = pos e := by
  induction l generalizing c with
  | nil => exact .inl rfl
  | cons x l ih =>
      have hcons : readTo pos c (x :: l) = readTo pos (max c (pos x)) l := rfl
      rcases ih (c := max c (pos x)) with heq | ⟨e, he, heq⟩
      · rw [hcons, heq]
        rcases Int.le_total c (pos x) with hle | hle
        · exact .inr ⟨x, List.mem_cons_self, Int.max_eq_right hle⟩
        · exact .inl (Int.max_eq_left hle)
      · exact .inr ⟨e, List.mem_cons_of_mem _ he, hcons.trans heq⟩

end ReadTo

variable (num : α → Nat)

/-- The entries that `p` asks for, past `c` and up to `c'`. -/
def stretch (p : α → Bool) (log : List α) (c c' : Int) : List α :=
  log.filter fun e => decide (c < (num e : Int)) && decide ((num e : Int) ≤ c') && p e

variable {num} {p : α → Bool} {log : List α} {c c' c'' : Int} {e : α}

theorem mem_stretch :
    e ∈ stretch num p log c c' ↔
      e ∈ log ∧ c < (num e : Int) ∧ (num e : Int) ≤ c' ∧ p e = true := by
  simp [stretch, and_assoc]

theorem stretch_ascending (h : Ascending num log) : Ascending num (stretch num p log c c') :=
  h.filter _

theorem stretch_self : stretch num p log c c = [] := by
  rw [List.eq_nil_iff_forall_not_mem]
  intro e he
  have hmem := mem_stretch.mp he
  omega

/-- Two stretches, one after the other, are one. -/
theorem stretch_append (h : Ascending num log) (hle : c ≤ c') (hle' : c' ≤ c'') :
    stretch num p log c c' ++ stretch num p log c' c'' = stretch num p log c c'' := by
  refine Ascending.ext ?_ (stretch_ascending h) fun e => ?_
  · refine ascending_append.mpr ⟨stretch_ascending h, stretch_ascending h, ?_⟩
    intro a ha b hb
    have ha := mem_stretch.mp ha
    have hb := mem_stretch.mp hb
    omega
  · rw [List.mem_append, mem_stretch, mem_stretch, mem_stretch]
    constructor
    · rintro (⟨he, hlt, hend, hp⟩ | ⟨he, hlt, hend, hp⟩)
      · exact ⟨he, hlt, by omega, hp⟩
      · exact ⟨he, by omega, hend, hp⟩
    · rintro ⟨he, hlt, hend, hp⟩
      by_cases hmid : (num e : Int) ≤ c'
      · exact .inl ⟨he, hlt, hmid, hp⟩
      · exact .inr ⟨he, by omega, hend, hp⟩

end AgentProtocol

import AgentProtocol.Lib.Dict
import AgentProtocol.Lib.TSys

/-!
# Executing a part of a schedule

`project keep` takes from a schedule the actions that `keep` selects where they occur in
the run. If a relation of states is kept by a selected action on both sides and by another
one on the left side alone, the whole schedule and its part end in related states
(`run_project`).

A state is often kept in dictionaries whose entries belong to several owners.
`Dict.AgreeOn P` relates two that have the same entries among those that satisfy `P`.
-/

namespace AgentProtocol

universe u v

namespace TSys

variable {σ : Type u} {α : Type v} (M : TSys σ α)

/-- The actions of a schedule that `keep` selects. -/
def project (keep : σ → α → Bool) : σ → List α → List α
  | _, [] => []
  | s, a :: as =>
    match M.step s a with
    | none => []
    | some s' => if keep s a then a :: project keep s' as else project keep s' as

variable {M} {keep : σ → α → Bool}

/-- The projection rule. -/
theorem run_project {R : σ → σ → Prop}
    (hkeep : ∀ s t a s', R s t → keep s a = true → M.step s a = some s' →
      ∃ t', M.step t a = some t' ∧ R s' t')
    (hskip : ∀ s t a s', R s t → keep s a = false → M.step s a = some s' → R s' t)
    {s t s' : σ} {as : List α} (hR : R s t) (h : M.run s as = some s') :
    ∃ t', M.run t (M.project keep s as) = some t' ∧ R s' t' := by
  induction as generalizing s t with
  | nil =>
      obtain rfl : s = s' := Option.some.inj h
      exact ⟨t, rfl, hR⟩
  | cons a as ih =>
      cases hs : M.step s a with
      | none =>
          simp only [run, hs, Option.bind_none] at h
          cases h
      | some s₁ =>
          rw [run_cons as hs] at h
          simp only [project, hs]
          cases hk : keep s a with
          | true =>
              obtain ⟨t₁, ht, hR₁⟩ := hkeep s t a s₁ hR hk hs
              obtain ⟨t', hrun, hR'⟩ := ih hR₁ h
              refine ⟨t', ?_, hR'⟩
              rw [if_pos rfl, run_cons _ ht]
              exact hrun
          | false =>
              obtain ⟨t', hrun, hR'⟩ := ih (hskip s t a s₁ hR hk hs) h
              exact ⟨t', hrun, hR'⟩

end TSys

namespace Dict

variable {κ : Type u} {υ : Type v} [DecidableEq κ]

/-- The two have the same entries among those whose value satisfies `P`. -/
def AgreeOn (P : υ → Prop) (d d' : Dict κ υ) : Prop :=
  ∀ k v, P v → (d.get? k = some v ↔ d'.get? k = some v)

variable {P : υ → Prop} {d d' d'' : Dict κ υ} {k : κ} {v : υ}

theorem AgreeOn.refl (P : υ → Prop) (d : Dict κ υ) : AgreeOn P d d := fun _ _ _ => Iff.rfl

theorem AgreeOn.trans (h : AgreeOn P d d') (h' : AgreeOn P d' d'') : AgreeOn P d d'' :=
  fun k v hv => (h k v hv).trans (h' k v hv)

theorem AgreeOn.symm (h : AgreeOn P d d') : AgreeOn P d' d := fun k v hv => (h k v hv).symm

/-- The same entry is written on both sides. -/
theorem AgreeOn.set (h : AgreeOn P d d') (k : κ) (v : υ) :
    AgreeOn P (d.set k v) (d'.set k v) := by
  intro k' v' hv'
  rw [get?_set, get?_set]
  split
  · exact Iff.rfl
  · exact h k' v' hv'

/-- The same entry is erased on both sides. -/
theorem AgreeOn.erase (h : AgreeOn P d d') (k : κ) : AgreeOn P (d.erase k) (d'.erase k) := by
  intro k' v' hv'
  by_cases hk : k = k'
  · rw [hk, get?_erase_self, get?_erase_self]
  · rw [get?_erase_ne _ hk, get?_erase_ne _ hk]
    exact h k' v' hv'

/-- An entry outside `P` is written, over none that is in `P`. -/
theorem agreeOn_set_of_not (hv : ¬P v) (hold : ∀ v₀, d.get? k = some v₀ → ¬P v₀) :
    AgreeOn P (d.set k v) d := by
  intro k' v' hv'
  rw [get?_set]
  split
  · next hk =>
    subst hk
    refine iff_of_false ?_ (fun hget => hold v' hget hv')
    intro heq
    exact hv (Option.some.inj heq ▸ hv')
  · exact Iff.rfl

/-- An entry outside `P` is erased. -/
theorem agreeOn_erase_of_not (hold : ∀ v₀, d.get? k = some v₀ → ¬P v₀) :
    AgreeOn P (d.erase k) d := by
  intro k' v' hv'
  by_cases hk : k = k'
  · subst hk
    rw [get?_erase_self]
    exact iff_of_false (fun h => by cases h) (fun hget => hold v' hget hv')
  · rw [get?_erase_ne _ hk]

end Dict

end AgentProtocol

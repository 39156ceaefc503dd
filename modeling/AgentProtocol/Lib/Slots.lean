import AgentProtocol.Lib.TSys
import Mathlib.Logic.Function.Basic

/-!
# Slots that one job at a time holds

A slot is free, reserved for a job that is being set up, held by it, or it lingers: its job
has ended and nobody has cleaned up. A reservation can be given back, or be lost: then the
slot is stranded. A job has its name for good, and it is used for one slot.

For a slot and a job the `stage` only rises (`stage_mono`). So a job holds a slot without
a break (`held_between`), and a slot that it has left it never gets back (`Gone.mono`).
-/

namespace AgentProtocol

universe u v

variable {κ : Type u} {ι : Type v}

inductive Slot (ι : Type v) where
  | free
  | reserved (i : ι)
  | held (i : ι)
  | lingering (i : ι)
  | stranded (i : ι)

namespace Slot

/-- The job whose name is on the slot. -/
def job : Slot ι → Option ι
  | .free => none
  | .reserved i | .held i | .lingering i | .stranded i => some i

/-- A job can be set up in it. -/
def open? : Slot ι → Bool
  | .free | .lingering _ => true
  | _ => false

/-- How far the job on the slot has come. -/
def stage : Slot ι → Nat
  | .free => 0
  | .reserved _ => 1
  | .held _ => 2
  | .lingering _ | .stranded _ => 3

theorem stage_le (x : Slot ι) : x.stage ≤ 3 := by
  cases x <;> simp [stage]

end Slot

/-- Slots, and the names that were ever used. -/
structure Slots (κ : Type u) (ι : Type v) where
  slot : κ → Slot ι
  used : List ι

inductive SlotAct (κ : Type u) (ι : Type v) where
  | reserve (k : κ) (i : ι)
  | release (k : κ)
  | strand (k : κ)
  | hold (k : κ)
  | finish (k : κ)
  | clear (k : κ)

namespace Slots

/-- A job that has left the slot, or was never for it. -/
def Gone (s : Slots κ ι) (k : κ) (i : ι) : Prop := i ∈ s.used ∧ (s.slot k).job ≠ some i

/-- The names on the slots were used, each for one slot. -/
structure Named (s : Slots κ ι) : Prop where
  used : ∀ k i, (s.slot k).job = some i → i ∈ s.used
  one : ∀ k k' i, (s.slot k).job = some i → (s.slot k').job = some i → k = k'

section Stage

variable [DecidableEq ι]

/-- How far job `i` has come on slot `k`: not begun, on it, or gone from it. -/
def stage (s : Slots κ ι) (k : κ) (i : ι) : Nat :=
  if (s.slot k).job = some i then (s.slot k).stage
  else if i ∈ s.used then 4 else 0

theorem stage_of_job {s : Slots κ ι} {k : κ} {i : ι} (h : (s.slot k).job = some i) :
    s.stage k i = (s.slot k).stage := by rw [stage, if_pos h]

theorem stage_le (s : Slots κ ι) (k : κ) (i : ι) : s.stage k i ≤ 4 := by
  have hslot := (s.slot k).stage_le
  unfold stage
  split
  · omega
  · split <;> omega

theorem gone_iff_stage {s : Slots κ ι} {k : κ} {i : ι} : s.Gone k i ↔ s.stage k i = 4 := by
  have hslot := (s.slot k).stage_le
  unfold stage Gone
  split
  · next hjob =>
    refine iff_of_false (fun h => h.2 hjob) ?_
    omega
  · next hjob => simp [hjob]

theorem held_iff_stage {s : Slots κ ι} {k : κ} {i : ι} :
    s.slot k = .held i ↔ s.stage k i = 2 := by
  constructor
  · intro h
    rw [stage_of_job (by rw [h]; rfl), h]
    rfl
  · intro h
    unfold stage at h
    split at h
    · next hjob =>
      cases hx : s.slot k with
      | held j =>
          rw [hx] at hjob
          rw [Option.some.inj hjob]
      | _ =>
          rw [hx] at h
          cases h
    · split at h <;> cases h

/-- A slot whose name and uses stay keeps the stage of every job. -/
theorem stage_eq {s s' : Slots κ ι} {k : κ} {i : ι} (hslot : s'.slot k = s.slot k)
    (hused : i ∈ s'.used ↔ i ∈ s.used) : s.stage k i = s'.stage k i := by
  simp only [stage, hslot, hused]

/-- So does a slot for the jobs that are not on it. -/
theorem stage_eq_of_ne {s s' : Slots κ ι} {k : κ} {i : ι} (h : (s.slot k).job ≠ some i)
    (h' : (s'.slot k).job ≠ some i) (hused : i ∈ s'.used ↔ i ∈ s.used) :
    s.stage k i = s'.stage k i := by
  simp only [stage, if_neg h, if_neg h', hused]

end Stage

variable [DecidableEq κ]

/-- The slot of `k` becomes `x`. -/
def put (s : Slots κ ι) (k : κ) (x : Slot ι) : Slots κ ι :=
  { s with slot := Function.update s.slot k x }

@[simp] theorem put_used (s : Slots κ ι) (k : κ) (x : Slot ι) : (s.put k x).used = s.used := rfl

@[simp] theorem put_self (s : Slots κ ι) (k : κ) (x : Slot ι) : (s.put k x).slot k = x := by
  simp [put]

theorem put_ne (s : Slots κ ι) {k k' : κ} (h : k' ≠ k) (x : Slot ι) :
    (s.put k x).slot k' = s.slot k' := by
  simp [put, h]

/-- A fresh name goes on a slot. -/
def enter (s : Slots κ ι) (k : κ) (i : ι) : Slots κ ι :=
  { s.put k (.reserved i) with used := i :: s.used }

@[simp] theorem enter_used (s : Slots κ ι) (k : κ) (i : ι) : (s.enter k i).used = i :: s.used := rfl

@[simp] theorem enter_slot (s : Slots κ ι) (k : κ) (i : ι) :
    (s.enter k i).slot = (s.put k (.reserved i)).slot := rfl

/-- What a step does: a fresh job is reserved, or the job on a slot moves on. -/
inductive Moves (s : Slots κ ι) : Slots κ ι → Prop
  | reserve {k i} : (s.slot k).open? = true → i ∉ s.used → Moves s (s.enter k i)
  | advance {k i x} : (s.slot k).job = some i → (s.slot k).stage < x.stage → x.job = some i →
      Moves s (s.put k x)
  | leave {k i} : (s.slot k).job = some i → Moves s (s.put k .free)

variable [DecidableEq ι]

def step (s : Slots κ ι) : SlotAct κ ι → Option (Slots κ ι)
  | .reserve k i => if (s.slot k).open? ∧ i ∉ s.used then some (s.enter k i) else none
  | .release k =>
    match s.slot k with
    | .reserved _ => some (s.put k .free)
    | _ => none
  | .strand k =>
    match s.slot k with
    | .reserved i => some (s.put k (.stranded i))
    | _ => none
  | .hold k =>
    match s.slot k with
    | .reserved i => some (s.put k (.held i))
    | _ => none
  | .finish k =>
    match s.slot k with
    | .held i => some (s.put k (.lingering i))
    | _ => none
  | .clear k =>
    match s.slot k with
    | .lingering _ => some (s.put k .free)
    | _ => none

theorem moves_of_step {s s' : Slots κ ι} {a : SlotAct κ ι} (h : s.step a = some s') :
    s.Moves s' := by
  cases a with
  | reserve k i =>
      rw [step] at h
      split at h
      · next hopen =>
        obtain rfl := Option.some.inj h
        exact .reserve hopen.1 hopen.2
      · cases h
  | release k | clear k =>
      simp only [step] at h
      split at h
      · next heq =>
        obtain rfl := Option.some.inj h
        exact .leave (by rw [heq]; rfl)
      · cases h
  | strand k | hold k | finish k =>
      simp only [step] at h
      split at h
      · next heq =>
        obtain rfl := Option.some.inj h
        exact .advance (by rw [heq]; rfl) (by rw [heq]; simp [Slot.stage]) rfl
      · cases h

end Slots

def slotSys (κ : Type u) (ι : Type v) [DecidableEq κ] [DecidableEq ι] :
    TSys (Slots κ ι) (SlotAct κ ι) where
  init s := s = { slot := fun _ => .free, used := [] }
  step s a := s.step a

namespace Slots

/-! ## Names -/

variable [DecidableEq κ] {s s' t : Slots κ ι} {k : κ} {i : ι}

theorem Named.put (h : s.Named) {x : Slot ι}
    (hx : ∀ i, x.job = some i → (s.slot k).job = some i) : (s.put k x).Named := by
  have hjob : ∀ k' i, ((s.put k x).slot k').job = some i → (s.slot k').job = some i := by
    intro k' i hi
    by_cases hk : k' = k
    · subst hk
      rw [put_self] at hi
      exact hx i hi
    · rwa [put_ne s hk] at hi
  exact ⟨fun k' i hi => h.used k' i (hjob k' i hi),
    fun k₁ k₂ i h₁ h₂ => h.one k₁ k₂ i (hjob k₁ i h₁) (hjob k₂ i h₂)⟩

theorem Named.enter (h : s.Named) (hfresh : i ∉ s.used) : (s.enter k i).Named := by
  have hjob : ∀ k' j, ((s.enter k i).slot k').job = some j →
      (k' = k ∧ j = i) ∨ (s.slot k').job = some j := by
    intro k' j hj
    rw [enter_slot] at hj
    by_cases hk : k' = k
    · subst hk
      rw [put_self] at hj
      exact .inl ⟨rfl, (Option.some.inj hj).symm⟩
    · exact .inr (by rwa [put_ne s hk] at hj)
  constructor
  · intro k' j hj
    rcases hjob k' j hj with ⟨-, rfl⟩ | hj
    · exact List.mem_cons_self
    · exact List.mem_cons_of_mem _ (h.used k' j hj)
  · intro k₁ k₂ j h₁ h₂
    -- a name that was used is not the fresh one
    rcases hjob k₁ j h₁ with ⟨hk₁, hj₁⟩ | hj₁
    · rcases hjob k₂ j h₂ with ⟨hk₂, -⟩ | hj₂
      · rw [hk₁, hk₂]
      · exact absurd (hj₁ ▸ h.used k₂ j hj₂) hfresh
    · rcases hjob k₂ j h₂ with ⟨-, hj₂⟩ | hj₂
      · exact absurd (hj₂ ▸ h.used k₁ j hj₁) hfresh
      · exact h.one k₁ k₂ j hj₁ hj₂

theorem Named.moves (h : s.Named) (hm : s.Moves s') : s'.Named := by
  cases hm with
  | reserve _ hfresh => exact h.enter hfresh
  | advance hjob _ hx => exact h.put fun j hj => by rw [hjob, ← hx, hj]
  | leave => exact h.put fun j hj => by cases hj

variable [DecidableEq ι]

theorem named_of_reachable (h : (slotSys κ ι).Reachable s) : s.Named := by
  refine h.induct ?_ ?_
  · rintro s rfl
    exact ⟨fun k i hi => (by cases hi), fun k k' i hi => (by cases hi)⟩
  · intro s a s' _ hs _ hstep
    exact hs.moves (moves_of_step hstep)

/-! ## Stages -/

theorem stage_moves (h : s.Named) (hm : s.Moves s') (k : κ) (i : ι) :
    s.stage k i ≤ s'.stage k i := by
  cases hm with
  | @reserve k₀ j hopen hfresh =>
      by_cases hi : i = j
      · -- the fresh job is on no slot before
        subst hi
        have hjob : (s.slot k).job ≠ some i := fun hjob => hfresh (h.used k i hjob)
        rw [stage, if_neg hjob, if_neg hfresh]
        omega
      · have hused : i ∈ (s.enter k₀ j).used ↔ i ∈ s.used := by simp [hi]
        by_cases hk : k = k₀
        · subst hk
          have hjob : ((s.enter k j).slot k).job ≠ some i := by
            rw [enter_slot, put_self]
            simpa [Slot.job, eq_comm] using hi
          by_cases hmem : i ∈ s.used
          · have hgone : (s.enter k j).Gone k i := ⟨hused.mpr hmem, hjob⟩
            rw [gone_iff_stage.mp hgone]
            exact s.stage_le k i
          · have hnone : (s.slot k).job ≠ some i := fun hjob => hmem (h.used k i hjob)
            rw [stage, if_neg hnone, if_neg hmem]
            omega
        · exact Nat.le_of_eq (stage_eq (put_ne s hk _) hused)
  | @advance k₀ j x hjob hlt hx =>
      by_cases hk : k = k₀
      · subst hk
        by_cases hi : j = i
        · subst hi
          rw [stage_of_job hjob, stage_of_job (by rwa [put_self]), put_self]
          omega
        · apply Nat.le_of_eq
          apply stage_eq_of_ne
          · simpa [hjob] using hi
          · simpa [hx] using hi
          · exact Iff.rfl
      · exact Nat.le_of_eq (stage_eq (put_ne s hk _) Iff.rfl)
  | @leave k₀ j hjob =>
      by_cases hk : k = k₀
      · subst hk
        by_cases hi : j = i
        · subst hi
          have hgone : (s.put k .free).Gone k j := by
            refine ⟨h.used k j hjob, ?_⟩
            rw [put_self]
            exact Option.some_ne_none j |>.symm
          rw [gone_iff_stage.mp hgone]
          exact s.stage_le k j
        · apply Nat.le_of_eq
          apply stage_eq_of_ne
          · simpa [hjob] using hi
          · simp [Slot.job]
          · exact Iff.rfl
      · exact Nat.le_of_eq (stage_eq (put_ne s hk _) Iff.rfl)

/-- A job gets no further from its end. -/
theorem stage_mono (hs : (slotSys κ ι).Reachable s) (h : (slotSys κ ι).Reaches s t) (k : κ)
    (i : ι) : s.stage k i ≤ t.stage k i := by
  induction h with
  | refl => exact Nat.le_refl _
  | @tail u v a hsu _ hstep ih =>
      have hmoves := stage_moves (named_of_reachable (hs.trans hsu)) (moves_of_step hstep) k i
      omega

/-- A job that holds a slot now and then holds it in between. -/
theorem held_between {u : Slots κ ι} (hs : (slotSys κ ι).Reachable s)
    (hsu : (slotSys κ ι).Reaches s u) (hut : (slotSys κ ι).Reaches u t) (h : s.slot k = .held i)
    (h' : t.slot k = .held i) : u.slot k = .held i := by
  rw [held_iff_stage] at *
  have hbefore := stage_mono hs hsu k i
  have hafter := stage_mono (hs.trans hsu) hut k i
  omega

theorem Gone.mono (hs : (slotSys κ ι).Reachable s) (h : (slotSys κ ι).Reaches s t)
    (hgone : s.Gone k i) : t.Gone k i := by
  rw [gone_iff_stage] at *
  have hmono := stage_mono hs h k i
  have hle := t.stage_le k i
  omega

end Slots

end AgentProtocol

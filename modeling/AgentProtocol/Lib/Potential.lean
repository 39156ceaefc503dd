import AgentProtocol.Lib.Dict
import AgentProtocol.Lib.TSys
import Mathlib.Algebra.GroupWithZero.Nat

/-!
# Potentials

The method of potentials for the runs of a system: what an action costs is paid out of the
load of the state it leaves from, and out of the credit the action brings in. Over a whole
schedule the costs then come to no more than the load at its start and the credit of its
actions (`run_le`).

An action that costs more than it brings in is a working one. A system whose working actions
are all that is taken comes to a state where none of them is enabled (`exists_settled`), and
no schedule puts that off for longer than its credit pays for.

The load of a dictionary is the sum of what its values weigh (`Dict.weigh`).
-/

namespace AgentProtocol

universe u v

/-! ## Potentials of a system -/

/-- A potential: on a step from a reachable state, load and credit cover load and cost. -/
structure TSys.Potential {σ : Type u} {α : Type v} (M : TSys σ α) where
  load : σ → Nat
  credit : α → Nat
  cost : α → Nat
  pays : ∀ {s a s'}, M.Reachable s → M.step s a = some s' → load s' + cost a ≤ load s + credit a

namespace TSys.Potential

variable {σ : Type u} {α : Type v} {M : TSys σ α} (P : M.Potential) {s t : σ} {as : List α}

/-- An action that the load has to pay for. -/
def Works (a : α) : Prop := P.credit a < P.cost a

/-- No working action is enabled. -/
def Settled (s : σ) : Prop := ∀ a, P.Works a → M.step s a = none

/-- The costs of a schedule are paid. -/
theorem run_le (hs : M.Reachable s) (h : M.run s as = some t) :
    P.load t + (as.map P.cost).sum ≤ P.load s + (as.map P.credit).sum := by
  induction as generalizing s with
  | nil =>
      obtain rfl : s = t := Option.some.inj h
      exact Nat.le_refl _
  | cons a as ih =>
      cases hstep : M.step s a with
      | none => simp only [run, hstep, Option.bind_none] at h; cases h
      | some s' =>
          rw [run_cons as hstep] at h
          have hone := P.pays hs hstep
          have hrest := ih (hs.tail trivial hstep) h
          simp only [List.map_cons, List.sum_cons]
          omega

/-- Working actions alone bring the system to rest. -/
theorem exists_settled (hs : M.Reachable s) :
    ∃ as t, M.run s as = some t ∧ (∀ a ∈ as, P.Works a) ∧ P.Settled t := by
  -- induction on the load
  induction hn : P.load s using Nat.strongRecOn generalizing s with
  | ind n ih =>
      by_cases hset : P.Settled s
      · exact ⟨[], s, rfl, fun a ha => (by cases ha), hset⟩
      · unfold Settled at hset
        push Not at hset
        obtain ⟨a, hworks, henabled⟩ := hset
        obtain ⟨s', hstep⟩ := Option.ne_none_iff_exists'.mp henabled
        have hpays := P.pays hs hstep
        unfold Works at hworks
        obtain ⟨as, t, hrun, hall, hsettled⟩ :=
          ih (P.load s') (by omega) (hs.tail trivial hstep) rfl
        refine ⟨a :: as, t, by rwa [run_cons as hstep], ?_, hsettled⟩
        intro b hb
        rcases List.mem_cons.mp hb with rfl | hb
        · exact hworks
        · exact hall b hb

end TSys.Potential

/-- Actions that all cost the same, or nothing. -/
theorem sum_map_ite {α : Type v} (p : α → Bool) (c : Nat) (as : List α) :
    (as.map fun a => if p a then c else 0).sum = c * as.countP p := by
  induction as with
  | nil => simp
  | cons a as ih =>
      rw [List.map_cons, List.sum_cons, ih, List.countP_cons]
      split
      · rw [Nat.mul_add, Nat.mul_one, Nat.add_comm]
      · simp

/-! ## The weight of a dictionary -/

namespace Dict

variable {κ : Type u} {υ : Type v} [DecidableEq κ]

def weigh (f : υ → Nat) (d : Dict κ υ) : Nat := (d.entries.map fun e => f e.2).sum

/-- A key takes its weight with it. -/
theorem weigh_erase (f : υ → Nat) {d : Dict κ υ} {k : κ} {v : υ} (h : d.get? k = some v) :
    (d.erase k).weigh f + f v = d.weigh f := by
  obtain ⟨es, hnd⟩ := d
  show ((es.filter _).map _).sum + f v = (es.map _).sum
  replace h : Entries.get? k es = some v := h
  induction es with
  | nil => cases h
  | cons e es ih =>
      rw [List.map_cons, List.nodup_cons] at hnd
      by_cases he : e.1 = k
      · obtain rfl : e.2 = v := by simpa [Entries.get?, he] using h
        have hrest : es.filter (fun e => decide (e.1 ≠ k)) = es := by
          rw [List.filter_eq_self]
          intro e' he'
          have hne : e'.1 ≠ k := by
            rintro rfl
            exact hnd.1 (he ▸ List.mem_map_of_mem he')
          simpa using hne
        simp only [ne_eq, decide_not] at hrest
        simp [he, hrest]
        omega
      · rw [Entries.get?, if_neg he] at h
        have hrest := ih hnd.2 h
        simp only [ne_eq, decide_not] at hrest
        simp [he]
        omega

theorem weigh_set_of_new (f : υ → Nat) {d : Dict κ υ} {k : κ} (v : υ) (h : d.get? k = none) :
    (d.set k v).weigh f = d.weigh f + f v := by
  simp [weigh, entries_set_of_new d v h]

/-- A value that is written over another weighs instead of it. -/
theorem weigh_set_of_mem (f : υ → Nat) {d : Dict κ υ} {k : κ} {v₀ : υ} (v : υ)
    (h : d.get? k = some v₀) : (d.set k v).weigh f + f v₀ = d.weigh f + f v := by
  obtain ⟨es, hnd⟩ := d
  show ((Entries.set k v es).map _).sum + f v₀ = (es.map _).sum + f v
  replace h : Entries.get? k es = some v₀ := h
  clear hnd
  induction es with
  | nil => cases h
  | cons e es ih =>
      by_cases he : e.1 = k
      · obtain rfl : e.2 = v₀ := by simpa [Entries.get?, he] using h
        simp [Entries.set, he]
        omega
      · rw [Entries.get?, if_neg he] at h
        have hrest := ih h
        simp [Entries.set, he]
        omega

end Dict

end AgentProtocol

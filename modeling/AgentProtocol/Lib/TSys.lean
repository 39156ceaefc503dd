import Mathlib.Data.List.Basic

/-!
# Transition systems with guarded, executable steps

A system is a set of initial states and a step function that says, for each
action, whether it is enabled and what it does. A schedule is a list of
actions, so every interleaving of several actors is one list.

Two notions of reachability are used. `Reaches` and `Reachable` allow every
enabled action. `ReachesVia ok` and `ReachableVia ok` allow only the actions
whose state of departure satisfies `ok`: the runs all of whose steps meet a
condition. The first is the second at the condition that always holds, so
each rule is proved once.

* **invariants** — `ReachableVia.induct`: a property that holds initially and
  that every allowed step keeps holds wherever the run gets to;
* **replay** — `run` executes a schedule; what it returns is reached;
* **simulation** — `TSys.Simulates`: a map of states under which each step of
  one system is a run of another carries every reachable state along.

A component that answers each request at once is a function to replies instead
(`replies`); two of them are compared by a relation that each request keeps
(`replies_eq_map`).
-/

namespace AgentProtocol

universe u v

/-- A transition system: initial states and a guarded step function. -/
structure TSys (σ : Type u) (α : Type v) where
  /-- The states a run may start in. -/
  init : σ → Prop
  /-- The effect of an action, `none` where it is not enabled. -/
  step : σ → α → Option σ

namespace TSys

variable {σ : Type u} {α : Type v} (M : TSys σ α)

/-- Execute a schedule; `none` once an action of it is not enabled. -/
def run : σ → List α → Option σ
  | s, [] => some s
  | s, a :: as => (M.step s a).bind fun s' => run s' as

/-- Runs all of whose steps leave from a state that satisfies `ok`. -/
inductive ReachesVia (ok : σ → α → Prop) (s : σ) : σ → Prop
  | refl : ReachesVia ok s s
  | tail {t u : σ} {a : α} :
      ReachesVia ok s t → ok t a → M.step t a = some u → ReachesVia ok s u

/-- Runs without a condition on their steps. -/
abbrev Reaches : σ → σ → Prop := M.ReachesVia fun _ _ => True

/-- States reached from an initial state by steps that satisfy `ok`. -/
def ReachableVia (ok : σ → α → Prop) (s : σ) : Prop :=
  ∃ s₀, M.init s₀ ∧ M.ReachesVia ok s₀ s

/-- States reached from an initial state. -/
abbrev Reachable : σ → Prop := M.ReachableVia fun _ _ => True

variable {M} {ok ok' : σ → α → Prop}

theorem ReachesVia.mono (hle : ∀ s a, ok s a → ok' s a) {s t : σ}
    (h : M.ReachesVia ok s t) : M.ReachesVia ok' s t := by
  induction h with
  | refl => exact .refl
  | tail _ hok hstep ih => exact .tail ih (hle _ _ hok) hstep

theorem ReachesVia.trans {s t u : σ} (h₁ : M.ReachesVia ok s t)
    (h₂ : M.ReachesVia ok t u) : M.ReachesVia ok s u := by
  induction h₂ with
  | refl => exact h₁
  | tail _ hok hstep ih => exact .tail ih hok hstep

theorem ReachesVia.single {s t : σ} {a : α} (hok : ok s a)
    (h : M.step s a = some t) : M.ReachesVia ok s t :=
  .tail .refl hok h

/-- What every allowed step keeps, a run keeps. -/
theorem ReachesVia.preserves {P : σ → Prop} {s t : σ} (h : M.ReachesVia ok s t)
    (hs : P s) (hstep : ∀ s a s', P s → ok s a → M.step s a = some s' → P s') :
    P t := by
  induction h with
  | refl => exact hs
  | tail _ hok hst ih => exact hstep _ _ _ ih hok hst

theorem ReachableVia.mono (hle : ∀ s a, ok s a → ok' s a) {s : σ}
    (h : M.ReachableVia ok s) : M.ReachableVia ok' s := by
  obtain ⟨s₀, h₀, hr⟩ := h
  exact ⟨s₀, h₀, hr.mono hle⟩

theorem ReachableVia.reachable {s : σ} (h : M.ReachableVia ok s) : M.Reachable s :=
  h.mono fun _ _ _ => trivial

theorem ReachableVia.of_init {s : σ} (h : M.init s) : M.ReachableVia ok s :=
  ⟨s, h, .refl⟩

theorem ReachableVia.tail {s s' : σ} {a : α} (h : M.ReachableVia ok s)
    (hok : ok s a) (hstep : M.step s a = some s') : M.ReachableVia ok s' := by
  obtain ⟨s₀, h₀, hr⟩ := h
  exact ⟨s₀, h₀, hr.tail hok hstep⟩

theorem ReachableVia.trans {s t : σ} (h : M.ReachableVia ok s)
    (hr : M.ReachesVia ok s t) : M.ReachableVia ok t := by
  obtain ⟨s₀, h₀, hr₀⟩ := h
  exact ⟨s₀, h₀, hr₀.trans hr⟩

/-- The invariant rule. The step case may use that the state of departure is
itself reachable, so an invariant proved earlier strengthens a later one. -/
theorem ReachableVia.induct {P : σ → Prop} {s : σ} (h : M.ReachableVia ok s)
    (hinit : ∀ s, M.init s → P s)
    (hstep : ∀ s a s', M.ReachableVia ok s → P s → ok s a →
      M.step s a = some s' → P s') : P s := by
  obtain ⟨s₀, h₀, hr⟩ := h
  induction hr with
  | refl => exact hinit _ h₀
  | tail hr hok hst ih => exact hstep _ _ _ ⟨s₀, h₀, hr⟩ ih hok hst

theorem run_cons {s s' : σ} {a : α} (as : List α) (h : M.step s a = some s') :
    M.run s (a :: as) = M.run s' as := by
  simp only [run, h, Option.bind_some]

/-- A schedule that executes is a run. -/
theorem reaches_of_run {s t : σ} {as : List α} (h : M.run s as = some t) :
    M.Reaches s t := by
  induction as generalizing s with
  | nil =>
      obtain rfl : s = t := Option.some.inj h
      exact .refl
  | cons a as ih =>
      cases hs : M.step s a with
      | none => simp only [run, hs, Option.bind_none] at h; cases h
      | some s' =>
          rw [run_cons as hs] at h
          exact (ReachesVia.single trivial hs).trans (ih h)

theorem reachable_of_run {s t : σ} {as : List α} (h₀ : M.init s)
    (h : M.run s as = some t) : M.Reachable t :=
  ⟨s, h₀, reaches_of_run h⟩

/-- `ok` along a whole schedule: each action leaves from a state that
satisfies it. -/
def RunsVia (M : TSys σ α) (ok : σ → α → Prop) : σ → List α → Prop
  | _, [] => True
  | s, a :: as => ok s a ∧
      match M.step s a with
      | none => True
      | some s' => RunsVia M ok s' as

instance RunsVia.decidable (M : TSys σ α) (ok : σ → α → Prop) [∀ s a, Decidable (ok s a)] :
    ∀ s as, Decidable (M.RunsVia ok s as)
  | _, [] => isTrue trivial
  | s, a :: as =>
      match h : M.step s a with
      | none => decidable_of_iff (ok s a) (by simp only [RunsVia, h, and_true])
      | some s' =>
          have := RunsVia.decidable M ok s' as
          decidable_of_iff (ok s a ∧ M.RunsVia ok s' as) (by simp only [RunsVia, h])

theorem reachesVia_of_run (ok : σ → α → Prop) {s t : σ} {as : List α} (hok : M.RunsVia ok s as)
    (h : M.run s as = some t) : M.ReachesVia ok s t := by
  induction as generalizing s with
  | nil =>
      obtain rfl : s = t := Option.some.inj h
      exact .refl
  | cons a as ih =>
      cases hs : M.step s a with
      | none => simp only [run, hs, Option.bind_none] at h; cases h
      | some s' =>
          rw [run_cons as hs] at h
          have hok' : ok s a ∧ M.RunsVia ok s' as := by
            simpa only [RunsVia, hs] using hok
          exact (ReachesVia.single hok'.1 hs).trans (ih hok'.2 h)

/-- A schedule that does not meet the condition leaves it at some step. -/
theorem exists_step_of_not_runsVia {s t : σ} {as : List α} (h : M.run s as = some t)
    (hnot : ¬M.RunsVia ok s as) :
    ∃ u a v, M.Reaches s u ∧ M.step u a = some v ∧ ¬ok u a ∧ M.Reaches v t := by
  induction as generalizing s with
  | nil => exact absurd trivial hnot
  | cons a as ih =>
      cases hs : M.step s a with
      | none => simp only [run, hs, Option.bind_none] at h; cases h
      | some s' =>
          rw [run_cons as hs] at h
          by_cases hok : ok s a
          · have hrest : ¬M.RunsVia ok s' as := by
              intro hr
              apply hnot
              simp only [RunsVia, hs]
              exact ⟨hok, hr⟩
            obtain ⟨u, b, v, hu, hstep, hb, hv⟩ := ih h hrest
            exact ⟨u, b, v, (ReachesVia.single trivial hs).trans hu, hstep, hb, hv⟩
          · exact ⟨s, a, s', .refl, hs, hok, reaches_of_run h⟩

theorem run_append {s t : σ} {as : List α} (bs : List α) (h : M.run s as = some t) :
    M.run s (as ++ bs) = M.run t bs := by
  induction as generalizing s with
  | nil => rw [Option.some.inj h]; rfl
  | cons a as ih =>
      cases hs : M.step s a with
      | none => simp only [run, hs, Option.bind_none] at h; cases h
      | some s' =>
          rw [run_cons as hs] at h
          rw [List.cons_append, run_cons _ hs]
          exact ih h

/-! ## Simulation -/

/-- `f` maps each run of `M` that meets `ok` to a run of `N` that meets `ok'`:
initial states to initial states, one step to any number of steps. -/
structure Simulates {τ : Type*} {β : Type*} (M : TSys σ α) (N : TSys τ β)
    (ok : σ → α → Prop) (ok' : τ → β → Prop) (f : σ → τ) : Prop where
  init : ∀ s, M.init s → N.init (f s)
  step : ∀ s a s', M.ReachableVia ok s → ok s a → M.step s a = some s' →
    N.ReachesVia ok' (f s) (f s')

theorem Simulates.reachable {τ β : Type*} {N : TSys τ β} {ok' : τ → β → Prop}
    {f : σ → τ} (hsim : M.Simulates N ok ok' f) {s : σ}
    (h : M.ReachableVia ok s) : N.ReachableVia ok' (f s) := by
  refine h.induct (P := fun s => N.ReachableVia ok' (f s)) ?_ ?_
  · intro s h₀
    exact .of_init (hsim.init s h₀)
  · intro s a s' hr ih hok hstep
    exact ih.trans (hsim.step s a s' hr hok hstep)

/-- From a reachable state on, runs go to runs. -/
theorem Simulates.reaches {τ β : Type*} {N : TSys τ β} {ok' : τ → β → Prop}
    {f : σ → τ} (hsim : M.Simulates N ok ok' f) {s t : σ} (hs : M.ReachableVia ok s)
    (h : M.ReachesVia ok s t) : N.ReachesVia ok' (f s) (f t) := by
  induction h with
  | refl => exact .refl
  | tail hst hok hstep ih => exact ih.trans (hsim.step _ _ _ (hs.trans hst) hok hstep)

end TSys

/-! ## Replies -/

section Replies

variable {σ τ ι ο ο' : Type*}

/-- What a component answers to these requests, one after the other. -/
def replies (step : σ → ι → ο × σ) : σ → List ι → List ο
  | _, [] => []
  | s, i :: is => (step s i).1 :: replies step (step s i).2 is

/-- Two components answer alike when each request finds them in related states and leaves
them so. The relation may look at the requests that are still to come. -/
theorem replies_eq_map {step : σ → ι → ο × σ} {step' : τ → ι → ο' × τ} (f : ο → ο')
    {R : List ι → σ → τ → Prop}
    (hstep : ∀ i is s t, R (i :: is) s t →
      (step' t i).1 = f (step s i).1 ∧ R is (step s i).2 (step' t i).2)
    {is : List ι} {s : σ} {t : τ} (h : R is s t) :
    replies step' t is = (replies step s is).map f := by
  induction is generalizing s t with
  | nil => rfl
  | cons i is ih =>
      obtain ⟨hreply, hnext⟩ := hstep i is s t h
      rw [replies, replies, List.map_cons, hreply, ih hnext]

end Replies

end AgentProtocol

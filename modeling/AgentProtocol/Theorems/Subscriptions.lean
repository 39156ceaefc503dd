import AgentProtocol.Hub.Recovery

/-!
# The subscription of an ended response (`_stream`)

The handler registers the subscription and the generator gives it back in its `finally`
block. A generator that was pulled once runs that block however it ends: closed or
cancelled at any of its yields, or by an exception of its own, which leaves the same
state. One that is dropped before its first pull runs nothing, and its subscription stays.
-/

namespace AgentProtocol

universe u

variable {δ : Type u}

namespace StreamHub

/-- The response of `id` is dropped before its first item was pulled. -/
def abandons (id : Nat) (s : StreamHub δ) (a : StreamAct δ) : Bool :=
  match a, s.gens.get? id with
  | .close k, some g =>
    match g.phase with
    | .created => k == id
    | _ => false
  | _, _ => false

variable {s s' : StreamHub δ} {a : StreamAct δ} {id : Nat}

theorem abandons_iff : s.abandons id a = true ↔
    a = .close id ∧ ∃ g, s.gens.get? id = some g ∧ g.phase = .created := by
  cases a with
  | close k =>
      unfold abandons
      cases hg : s.gens.get? id with
      | none => simp
      | some g => cases hp : g.phase <;> simp [hp]
  | _ => simp [abandons]

/-- The generator of an abandoned response is closed, and its subscription stays. -/
theorem closed_of_abandons (h : s.step a = some s') (ha : s.abandons id a = true) :
    ∃ g g', s.gens.get? id = some g ∧ g.phase = .created ∧ s'.gens.get? id = some g' ∧
      g'.phase = .closed ∧ s'.hub.subscribers.get? id = s.hub.subscribers.get? id := by
  obtain ⟨rfl, g, hg, hp⟩ := abandons_iff.mp ha
  refine ⟨g, { g with phase := .closed }, hg, hp, ?_⟩
  simp only [step, close, hg, hp, Option.some.injEq] at h
  subst h
  exact ⟨by simp, rfl, rfl⟩

/-- A closed response has given its subscription back. -/
def Released (id : Nat) (s : StreamHub δ) : Prop :=
  ∀ g, s.gens.get? id = some g → g.phase = .closed → s.hub.subscribers.get? id = none

/-- The step lemma: only an abandoned response keeps its subscription. -/
theorem released_step (hR : s.Released id) (hok : s.abandons id a = false)
    (h : s.step a = some s') : s'.Released id := by
  intro g' hg' hclosed
  have hgs := step_gen h id
  rw [hg'] at hgs
  generalize hgo : some g' = go at hgs
  generalize s'.hub.subscribers.get? id = so at hgs
  cases hgs with
  | publish => rw [hR g' hgo.symm hclosed, Option.map_none]
  | idle => exact hR g' hgo.symm hclosed
  | abandon hg hp =>
      -- the one close that runs no `finally` block
      rw [abandons_iff.mpr ⟨rfl, _, hg, hp⟩] at hok
      cases hok
  | finish => rfl
  | skip hg _ hp =>
      obtain rfl := Option.some.inj hgo
      rw [hp] at hclosed
      cases hclosed
  | _ =>
      obtain rfl := Option.some.inj hgo
      cases hclosed

/-- A closed response keeps what it has. -/
theorem leaked_step (hI : s.Inv) (h : s.step a = some s') {g : Gen δ}
    (hg : s.gens.get? id = some g) (hclosed : g.phase = .closed)
    (hleak : s.hub.subscribers.get? id ≠ none) :
    s'.gens.get? id = some g ∧ s'.hub.subscribers.get? id ≠ none := by
  -- a closed generator makes no move of its own
  have hphase : ∀ {g₁ : Gen δ} {p : GenPhase δ}, s.gens.get? id = some g₁ → g₁.phase = p →
      p = .closed := by
    intro g₁ p hg₁ hp
    obtain rfl := Option.some.inj (hg.symm.trans hg₁)
    exact hp.symm.trans hclosed
  have hgs := step_gen h id
  generalize s'.gens.get? id = go at hgs ⊢
  generalize s'.hub.subscribers.get? id = so at hgs ⊢
  cases hgs with
  | publish => exact ⟨hg, by simpa using hleak⟩
  | opened hnext =>
      have := hI.below id g hg
      omega
  | idle => exact ⟨hg, hleak⟩
  | finish hg₁ _ hne => exact absurd (hphase hg₁ rfl) hne
  | connect hg₁ _ hp => cases hphase hg₁ hp
  | replayNone hg₁ _ hp => cases hphase hg₁ hp
  | replaySome hg₁ _ hp => cases hphase hg₁ hp
  | replayed hg₁ _ hp => cases hphase hg₁ hp
  | replayNext hg₁ _ hp => cases hphase hg₁ hp
  | read hg₁ _ hp => cases hphase hg₁ hp
  | skip hg₁ _ hp => cases hphase hg₁ hp
  | heartbeat hg₁ hp => cases hphase hg₁ hp
  | abandon hg₁ hp => cases hphase hg₁ hp

end StreamHub

section Runs

variable {n id : Nat} {s t : StreamHub δ}

/-- The run lemmas: a run that abandons no response leaves nothing behind, and what one
leaves behind stays. -/
theorem released_of_reachable
    (h : (streamSys δ n).ReachableVia (fun s a => s.abandons id a = false) s) :
    s.Released id := by
  refine h.induct (P := fun s => s.Released id) ?_ ?_
  · rintro _ rfl g hg
    cases hg
  · intro s a s' _ hR hok hstep
    exact StreamHub.released_step hR hok hstep

theorem leaked_of_reaches (ht : (streamSys δ n).Reachable t) (h : (streamSys δ n).Reaches t s)
    {g : Gen δ} (hg : t.gens.get? id = some g) (hclosed : g.phase = .closed)
    (hleak : t.hub.subscribers.get? id ≠ none) : s.hub.subscribers.get? id ≠ none := by
  have hboth : s.gens.get? id = some g ∧ s.hub.subscribers.get? id ≠ none := by
    induction h with
    | refl => exact ⟨hg, hleak⟩
    | tail hr _ hstep ih =>
        exact StreamHub.leaked_step (inv_of_reachable (ht.trans hr)) hstep ih.1 hclosed ih.2
  exact hboth.2

end Runs

/-- After any schedule a response that has ended has no subscription among the hub's
subscribers if and only if it was not dropped before its first item was pulled. -/
theorem subscription_released_iff (δ : Type u) (n : Nat) (acts : List (StreamAct δ)) (id : Nat)
    (s : StreamHub δ) (h : (streamSys δ n).run (.new n) acts = some s) (g : Gen δ)
    (hg : s.gens.get? id = some g) (hclosed : g.phase = .closed) :
    s.hub.subscribers.get? id = none ↔
      (streamSys δ n).RunsVia (fun u a => u.abandons id a = false) (.new n) acts := by
  constructor
  · intro hnone
    by_contra hnot
    -- the response is dropped in the step from `u` to `v`, and leaks from then on
    obtain ⟨u, a, v, hu, hstep, hdrop, hvs⟩ := TSys.exists_step_of_not_runsVia h hnot
    rw [Bool.not_eq_false] at hdrop
    have hu : (streamSys δ n).Reachable u := ⟨_, rfl, hu⟩
    obtain ⟨g₁, g₂, hg₁, hp, hg₂, hclosed₂, hsub⟩ := StreamHub.closed_of_abandons hstep hdrop
    obtain ⟨sub, hs⟩ := registered_of_reachable hu id g₁ hg₁ (by simp [hp])
    have hleak : v.hub.subscribers.get? id ≠ none := by simp [hsub, hs]
    exact leaked_of_reaches (hu.tail trivial hstep) hvs hg₂ hclosed₂ hleak hnone
  · intro hok
    have hvia := TSys.reachesVia_of_run _ hok h
    exact released_of_reachable ⟨_, rfl, hvia⟩ g hg hclosed

/-- A response that ends in its replay, next to one that waits for events. -/
def closedInReplay : List (StreamAct Nat) :=
  [.publish "messages" 10 none none none 0, .publish "messages" 20 none none none 0,
   .subscribe none none none, .subscribe none none none, .pull 0, .pull 0, .pull 1, .close 0]

theorem subscription_released_replay :
    ∃ s g, (streamSys Nat 4).run (.new 4) closedInReplay = some s ∧ s.gens.get? 0 = some g ∧
      g.phase = .closed ∧ s.hub.subscribers.get? 0 = none := by
  refine ⟨_, _, rfl, rfl, rfl, ?_⟩
  exact (subscription_released_iff Nat 4 closedInReplay 0 _ rfl _ rfl rfl).mpr (by decide)

/-- The client goes away between the handler's return and the first pull. -/
theorem subscription_leaked :
    ∃ s g, (streamSys Nat 4).run (.new 4) [.subscribe none none none, .close 0] = some s ∧
      s.gens.get? 0 = some g ∧ g.phase = .closed ∧ s.hub.subscribers.get? 0 ≠ none :=
  ⟨_, _, rfl, rfl, rfl, by decide⟩

end AgentProtocol

import AgentProtocol.Hub.Delivery

/-!
# What a subscription still has coming

`Gen.Kept thr P g sub`: every published envelope past `thr` that the request asks
for is committed, or queued ahead of the cursor. Nothing but two things can break
it: a publish that finds the queue full, and a replay pass that moves the cursor
over an envelope the ring no longer holds. `kept_step` is the statement for every
other move; the replay pass is settled by the results that use it, each under its
own condition.
-/

namespace AgentProtocol

universe u

variable {δ : Type u}

namespace StreamHub

/-- The action is a publish that finds the queue of `id` full: `put_nowait`
raises `QueueFull` and the envelope is dropped for this subscription. -/
def findsFull (id : Nat) (s : StreamHub δ) : StreamAct δ → Bool
  | .publish method data ns ts eid now =>
    match s.hub.subscribers.get? id with
    | some sub => sub.matches (s.hub.stamp method data ns ts eid now) && sub.full
    | none => false
  | _ => false

/-- The action is the replay pass of `id`. -/
def replays (id : Nat) (s : StreamHub δ) : StreamAct δ → Bool
  | .pull k =>
    match s.gens.get? id with
    | some g =>
      match g.phase with
      | .connected => decide (k = id)
      | _ => false
    | none => false
  | _ => false

theorem replays_pull {s : StreamHub δ} {id : Nat} {g : Gen δ} (hg : s.gens.get? id = some g)
    (hp : g.phase = .connected) : s.replays id (.pull id) = true := by
  simp only [replays, hg, hp, decide_true]

/-- Only a connected generator can make its replay pass, by its own pull. -/
theorem connected_of_replays {s : StreamHub δ} {id : Nat} {a : StreamAct δ} {g : Gen δ}
    (hg : s.gens.get? id = some g) (h : s.replays id a = true) :
    g.phase = .connected ∧ a = .pull id := by
  cases a with
  | pull k =>
      cases hp : g.phase with
      | connected =>
          simp only [replays, hg, hp, decide_eq_true_eq] at h
          exact ⟨rfl, by rw [h]⟩
      | created => simp only [replays, hg, hp] at h; cases h
      | replaying => simp only [replays, hg, hp] at h; cases h
      | live => simp only [replays, hg, hp] at h; cases h
      | closed => simp only [replays, hg, hp] at h; cases h
  | publish => cases h
  | subscribe => cases h
  | heartbeat => cases h
  | close => cases h

end StreamHub

namespace Gen

/-- Every published envelope past `thr` that the request asks for is committed or
queued ahead of the cursor. -/
def Kept (thr : Nat) (P : List (Envelope δ)) (g : Gen δ) (sub : Subscription δ) : Prop :=
  ∀ e ∈ P, thr < e.seq → g.wants e = true →
    e ∈ g.committed ∨ (e ∈ sub.queue ∧ sub.lastSeq < (e.seq : Int))

section Kept

variable {thr : Nat} {P : List (Envelope δ)} {g g' : Gen δ} {sub : Subscription δ}
  {e : Envelope δ}

theorem Kept.of_committed (h : g.Kept thr P sub) (hc : g'.committed = g.committed)
    (hw : g'.wants = g.wants) : g'.Kept thr P sub := by
  intro e he hthr hwe
  rw [hw] at hwe
  rw [hc]
  exact h e he hthr hwe

/-- A fan-out to a queue with room. -/
theorem Kept.offer (h : g.Kept thr P sub) (hL : g.Linked P sub)
    (he : e.seq = P.length + 1) (hroom : sub.matches e = true → sub.full = false) :
    g.Kept thr (P ++ [e]) (sub.offer e) := by
  intro e' he' hthr hw
  rw [Subscription.offer_lastSeq, Subscription.offer_queue]
  rcases List.mem_append.mp he' with hmem | hmem
  · rcases h e' hmem hthr hw with hc | ⟨hq, hseq⟩
    · exact .inl hc
    · refine .inr ⟨?_, hseq⟩
      split
      · exact List.mem_append_left _ hq
      · exact hq
  · obtain rfl := List.mem_singleton.mp hmem
    -- a wanted new envelope is past the cursor, so it matches and is queued
    have hseq : sub.lastSeq < (e'.seq : Int) := by
      have := ((g.wants_iff e').mp hw).1
      rcases hL.fresh with hf | hf <;> omega
    have hm : sub.matches e' = true := (hL.matches_iff e').mpr ⟨hseq, hw⟩
    rw [if_pos ⟨hm, hroom hm⟩]
    exact .inr ⟨List.mem_append_right _ hmem, hseq⟩

/-- A read delivers the head of the queue; the queue ascends, so the moved cursor
stays behind the rest. -/
theorem Kept.read (h : g.Kept thr P sub) (hL : g.Linked P sub) (hp : g.phase = .live)
    {q : List (Envelope δ)} (hq : sub.queue = e :: q) :
    (g.yield (.event e) .live).Kept thr P { sub with queue := q, lastSeq := e.seq } := by
  have hasc := hL.ascending
  rw [hq] at hasc
  obtain ⟨hlt, -⟩ := List.pairwise_cons.mp hasc
  intro e' he' hthr hw
  rw [committed_read hp]
  rcases h e' he' hthr hw with hc | ⟨hmem, -⟩
  · exact .inl (List.mem_append_left _ hc)
  · rw [hq] at hmem
    rcases List.mem_cons.mp hmem with rfl | hmem
    · exact .inl (List.mem_append_right _ (List.mem_singleton_self _))
    · exact .inr ⟨hmem, Int.ofNat_lt.mpr (hlt e' hmem)⟩

/-- A skipped head was behind the cursor already. -/
theorem Kept.skip (h : g.Kept thr P sub) (hL : g.Linked P sub)
    {q : List (Envelope δ)} (hq : sub.queue = e :: q) (hm : sub.matches e = false) :
    g.Kept thr P { sub with queue := q } := by
  intro e' he' hthr hw
  rcases h e' he' hthr hw with hc | ⟨hmem, hseq⟩
  · exact .inl hc
  · rw [hq] at hmem
    rcases List.mem_cons.mp hmem with rfl | hmem
    · rw [(hL.matches_iff e').mpr ⟨hseq, hw⟩] at hm
      cases hm
    · exact .inr ⟨hmem, hseq⟩

/-- With nothing queued, kept envelopes are committed. -/
theorem Kept.committed_of_drained (h : g.Kept thr P sub) (hq : sub.queue = [])
    (he : e ∈ P) (hthr : thr < e.seq) (hw : g.wants e = true) : e ∈ g.committed := by
  rcases h e he hthr hw with hc | ⟨hmem, -⟩
  · exact hc
  · rw [hq] at hmem
    exact absurd hmem List.not_mem_nil

end Kept

end Gen

namespace StreamHub

variable {s s' : StreamHub δ} {a : StreamAct δ} {id : Nat}

/-- Where a registered generator of the next state comes from: it was just
opened, or it was registered before, asks for the same, and is past the replay
pass only if it was before or the action is that pass. -/
theorem origin (hI : s.Inv) (h : s.step a = some s') {g' : Gen δ} {sub' : Subscription δ}
    (hg' : s'.gens.get? id = some g') (hs' : s'.hub.subscribers.get? id = some sub') :
    (s.gens.get? id = none ∧ g'.phase = .created ∧ g'.openedAt = s.hub.seq ∧
      s'.published = s.published) ∨
    ∃ g sub, s.gens.get? id = some g ∧ s.hub.subscribers.get? id = some sub ∧
      g'.wants = g.wants ∧ g'.openedAt = g.openedAt ∧
      (g.phase = .closed → g'.phase = .closed) ∧
      (g.phase.Early → g'.phase.Early ∨ g'.phase = .closed ∨ s.replays id a = true) := by
  have hgs := step_gen h id
  rw [hg', hs'] at hgs
  generalize hgo : some g' = go at hgs
  generalize hso : some sub' = so at hgs
  cases hgs with
  | publish =>
      obtain ⟨sub, hsub, -⟩ := Option.map_eq_some_iff.mp hso.symm
      exact .inr ⟨g', sub, hgo.symm, hsub, rfl, rfl, fun h => h, fun h => .inl h⟩
  | opened hk =>
      obtain rfl := Option.some.inj hgo
      refine .inl ⟨?_, rfl, rfl, step_published h rfl⟩
      cases hg : s.gens.get? id with
      | none => rfl
      | some g => exact absurd (hI.below id g hg) (by omega)
  | idle ha hne =>
      exact .inr ⟨g', sub', hgo.symm, hso.symm, rfl, rfl, fun h => h, fun h => .inl h⟩
  | connect hg hs hp =>
      obtain rfl := Option.some.inj hgo
      exact .inr ⟨_, _, hg, hs, rfl, rfl, by rw [hp]; simp, fun _ => .inl trivial⟩
  | replayNone hg hs hp hr =>
      obtain rfl := Option.some.inj hgo
      exact .inr ⟨_, _, hg, hs, rfl, rfl, by rw [hp]; simp,
        fun _ => .inr (.inr (replays_pull hg hp))⟩
  | replaySome hg hs hp hr =>
      obtain rfl := Option.some.inj hgo
      exact .inr ⟨_, _, hg, hs, rfl, rfl, by rw [hp]; simp,
        fun _ => .inr (.inr (replays_pull hg hp))⟩
  | replayed hg hs hp =>
      obtain rfl := Option.some.inj hgo
      exact .inr ⟨_, _, hg, hs, rfl, rfl, by rw [hp]; simp, by rw [hp]; exact False.elim⟩
  | replayNext hg hs hp =>
      obtain rfl := Option.some.inj hgo
      exact .inr ⟨_, _, hg, hs, rfl, rfl, by rw [hp]; simp, by rw [hp]; exact False.elim⟩
  | read hg hs hp hq hseq =>
      obtain rfl := Option.some.inj hgo
      exact .inr ⟨_, _, hg, hs, rfl, rfl, by rw [hp]; simp, by rw [hp]; exact False.elim⟩
  | skip hg hs hp hq hm =>
      obtain rfl := Option.some.inj hgo
      exact .inr ⟨_, _, hg, hs, rfl, rfl, fun h => h, fun h => .inl h⟩
  | heartbeat hg hp =>
      obtain rfl := Option.some.inj hgo
      exact .inr ⟨_, _, hg, hso.symm, rfl, rfl, by rw [hp]; simp, by rw [hp]; exact False.elim⟩
  | abandon hg hp =>
      obtain rfl := Option.some.inj hgo
      exact .inr ⟨_, _, hg, hso.symm, rfl, rfl, fun _ => rfl, fun _ => .inr (.inl rfl)⟩
  | finish hg hp hp' => cases hso

/-- The step lemma: every move but the replay pass keeps what is coming, unless
it is a publish that finds the queue full. -/
theorem kept_step {thr : Nat} (hI : s.Inv) (h : s.step a = some s')
    (hfull : s.findsFull id a = false) (hrep : s.replays id a = false)
    {g g' : Gen δ} {sub sub' : Subscription δ} (hg : s.gens.get? id = some g)
    (hs : s.hub.subscribers.get? id = some sub) (hg' : s'.gens.get? id = some g')
    (hs' : s'.hub.subscribers.get? id = some sub') (hK : g.Kept thr s.published sub) :
    g'.Kept thr s'.published sub' := by
  have hL := hI.linked id g sub hg hs
  have hgs := step_gen h id
  have hpub := step_published h
  rw [hg', hs'] at hgs
  generalize hgo : some g' = go at hgs
  generalize hso : some sub' = so at hgs
  -- what a move of this generator starts from
  have hstart : ∀ {g₀ : Gen δ} {sub₀ : Subscription δ}, s.gens.get? id = some g₀ →
      s.hub.subscribers.get? id = some sub₀ → g₀.Kept thr s.published sub₀ := by
    intro g₀ sub₀ hg₀ hs₀
    obtain rfl := Option.some.inj (hg.symm.trans hg₀)
    obtain rfl := Option.some.inj (hs.symm.trans hs₀)
    exact hK
  cases hgs with
  | @publish method data ns ts eid now =>
      obtain rfl := Option.some.inj h
      rw [hg] at hgo
      rw [hs] at hso
      obtain rfl := Option.some.inj hgo
      obtain rfl := Option.some.inj hso
      refine hK.offer hL ?_ fun hm => ?_
      · show s.hub.seq + 1 = s.published.length + 1
        rw [hI.seq]
      · have hf : (sub.matches (s.hub.stamp method data ns ts eid now) && sub.full) = false := by
          simpa only [findsFull, hs] using hfull
        have hm' : sub.matches (s.hub.stamp method data ns ts eid now) = true := hm
        rwa [hm', Bool.true_and] at hf
  | opened hk => exact absurd (hI.below id g hg) (by omega)
  | idle ha hne =>
      rw [hpub ha]
      exact hstart hgo.symm hso.symm
  | @connect g₀ sub₀ hg₀ hs₀ hp =>
      obtain rfl := Option.some.inj hgo
      obtain rfl := Option.some.inj hso
      rw [hpub rfl]
      refine (hstart hg₀ hs₀).of_committed ?_ rfl
      rw [Gen.committed, Gen.delivered_yield_connected, Gen.committed, hp]
      rfl
  | replayNone hg₀ hs₀ hp hr => rw [replays_pull hg₀ hp] at hrep; cases hrep
  | replaySome hg₀ hs₀ hp hr => rw [replays_pull hg₀ hp] at hrep; cases hrep
  | @replayed g₀ sub₀ hg₀ hs₀ hp =>
      obtain rfl := Option.some.inj hgo
      obtain rfl := Option.some.inj hso
      rw [hpub rfl]
      refine (hstart hg₀ hs₀).of_committed ?_ rfl
      simp only [Gen.committed, Gen.delivered, hp, GenPhase.rest]
  | @replayNext g₀ sub₀ e rest hg₀ hs₀ hp =>
      obtain rfl := Option.some.inj hgo
      obtain rfl := Option.some.inj hso
      rw [hpub rfl]
      exact (hstart hg₀ hs₀).of_committed (Gen.committed_replayNext hp) rfl
  | @read g₀ sub₀ e q hg₀ hs₀ hp hq hseq =>
      obtain rfl := Option.some.inj hgo
      obtain rfl := Option.some.inj hso
      rw [hpub rfl]
      exact (hstart hg₀ hs₀).read (hI.linked id _ _ hg₀ hs₀) hp hq
  | @skip g₀ sub₀ e q hg₀ hs₀ hp hq hm =>
      obtain rfl := Option.some.inj hgo
      obtain rfl := Option.some.inj hso
      rw [hpub rfl]
      exact (hstart hg₀ hs₀).skip (hI.linked id _ _ hg₀ hs₀) hq hm
  | @heartbeat g₀ hg₀ hp =>
      obtain rfl := Option.some.inj hgo
      rw [hpub rfl]
      refine (hstart hg₀ hso.symm).of_committed ?_ rfl
      rw [Gen.committed, Gen.delivered_yield_heartbeat, Gen.committed, hp]
      rfl
  | @abandon g₀ hg₀ hp =>
      obtain rfl := Option.some.inj hgo
      rw [hpub rfl]
      refine (hstart hg₀ hso.symm).of_committed ?_ rfl
      simp only [Gen.committed, Gen.delivered, hp, GenPhase.rest]
  | finish hg₀ hp hp' => cases hso

/-- What the replay pass does: it commits to the matching part of the ring, the
queue stays, and the cursor stays or lands on the last replayed envelope. -/
theorem replay_step (hI : s.Inv) (h : s.step a = some s') (hrep : s.replays id a = true)
    {g g' : Gen δ} {sub sub' : Subscription δ} (hg : s.gens.get? id = some g)
    (hs : s.hub.subscribers.get? id = some sub) (hg' : s'.gens.get? id = some g')
    (hs' : s'.hub.subscribers.get? id = some sub') :
    g.phase = .connected ∧ s'.published = s.published ∧ g'.wants = g.wants ∧
      g'.committed = s.hub.buffer.filter sub.matches ∧ sub'.queue = sub.queue ∧
      (∀ e ∈ g'.committed, (e.seq : Int) ≤ sub'.lastSeq) ∧
      (g'.committed = [] → sub'.lastSeq = sub.lastSeq) := by
  have hcur := (linked_step hI h id g' sub' hg' hs').cursor
  have hgs := step_gen h id
  have hpub := step_published h
  have hd : g.phase.Early → g.delivered = [] := (hI.sound id g hg).early
  rw [hg', hs'] at hgs
  generalize hgo : some g' = go at hgs
  generalize hso : some sub' = so at hgs
  cases hgs with
  | publish => cases hrep
  | opened => cases hrep
  | idle ha hne =>
      -- an idle action is not this generator's replay pass
      obtain ⟨hp, hact⟩ := connected_of_replays hg hrep
      exact absurd hact (hne g hg hp)
  | connect hg₀ hs₀ hp => simp only [replays, hg₀, hp] at hrep; cases hrep
  | @replayNone g₀ sub₀ hg₀ hs₀ hp hr =>
      obtain rfl := Option.some.inj (hg.symm.trans hg₀)
      obtain rfl := Option.some.inj (hs.symm.trans hs₀)
      obtain rfl := Option.some.inj hgo
      obtain rfl := Option.some.inj hso
      have hc : ({ g with phase := .live } : Gen δ).committed = [] := by
        rw [Gen.committed_live rfl]
        exact hd (by rw [hp]; trivial)
      exact ⟨hp, hpub rfl, rfl, by rw [hc, hr], rfl, hcur, fun _ => rfl⟩
  | @replaySome g₀ sub₀ e rest hg₀ hs₀ hp hr =>
      obtain rfl := Option.some.inj (hg.symm.trans hg₀)
      obtain rfl := Option.some.inj (hs.symm.trans hs₀)
      obtain rfl := Option.some.inj hgo
      obtain rfl := Option.some.inj hso
      have hc : (g.yield (.event e) (.replaying rest)).committed = e :: rest :=
        Gen.committed_replay (hd (by rw [hp]; trivial)) e rest
      refine ⟨hp, hpub rfl, rfl, by rw [hc, hr], Subscription.advance_queue _ _, hcur, ?_⟩
      rw [hc]
      exact fun hnil => absurd hnil (List.cons_ne_nil e rest)
  | replayed hg₀ hs₀ hp => simp only [replays, hg₀, hp] at hrep; cases hrep
  | replayNext hg₀ hs₀ hp => simp only [replays, hg₀, hp] at hrep; cases hrep
  | read hg₀ hs₀ hp => simp only [replays, hg₀, hp] at hrep; cases hrep
  | skip hg₀ hs₀ hp => simp only [replays, hg₀, hp] at hrep; cases hrep
  | heartbeat => cases hrep
  | abandon => cases hrep
  | finish => cases hrep

/-- A generator past its replay pass stays past it, and either commits to nothing
new with its cursor where it was, or delivers one envelope from past the cursor and
moves the cursor onto it. -/
theorem late_step (h : s.step a = some s') (hI : s.Inv) {g : Gen δ}
    (hg : s.gens.get? id = some g) (hlate : ¬g.phase.Early) :
    ∃ g', s'.gens.get? id = some g' ∧ ¬g'.phase.Early ∧ g'.wants = g.wants ∧
      g'.openedAt = g.openedAt ∧
      ((g'.committed.Sublist g.committed ∧ ∀ sub', s'.hub.subscribers.get? id = some sub' →
          ∃ sub, s.hub.subscribers.get? id = some sub ∧ sub'.lastSeq = sub.lastSeq) ∨
        ∃ sub x, s.hub.subscribers.get? id = some sub ∧ g'.committed = g.committed ++ [x] ∧
          sub.lastSeq < (x.seq : Int) ∧
          ∀ sub', s'.hub.subscribers.get? id = some sub' → sub'.lastSeq = x.seq) := by
  have hgs := step_gen h id
  generalize s'.gens.get? id = go at hgs ⊢
  generalize s'.hub.subscribers.get? id = so at hgs ⊢
  cases hgs with
  | publish =>
      refine ⟨g, hg, hlate, rfl, rfl, .inl ⟨List.Sublist.refl _, fun sub' hs' => ?_⟩⟩
      obtain ⟨sub, hsub, rfl⟩ := Option.map_eq_some_iff.mp hs'
      exact ⟨sub, hsub, Subscription.offer_lastSeq _ _⟩
  | opened hk => exact absurd (hI.below id g hg) (by omega)
  | idle ha hne =>
      exact ⟨g, hg, hlate, rfl, rfl, .inl ⟨List.Sublist.refl _, fun sub' hs' => ⟨sub', hs', rfl⟩⟩⟩
  | connect hg₀ hs₀ hp =>
      obtain rfl := Option.some.inj (hg.symm.trans hg₀)
      rw [hp] at hlate
      exact absurd trivial hlate
  | replayNone hg₀ hs₀ hp hr =>
      obtain rfl := Option.some.inj (hg.symm.trans hg₀)
      rw [hp] at hlate
      exact absurd trivial hlate
  | replaySome hg₀ hs₀ hp hr =>
      obtain rfl := Option.some.inj (hg.symm.trans hg₀)
      rw [hp] at hlate
      exact absurd trivial hlate
  | @replayed g₀ sub₀ hg₀ hs₀ hp =>
      obtain rfl := Option.some.inj (hg.symm.trans hg₀)
      have hc := Gen.committed_goLive (g := g) (by rw [hp]; rfl)
      refine ⟨_, rfl, fun he => he, rfl, rfl, .inl ⟨by rw [hc], fun sub' hs' => ?_⟩⟩
      obtain rfl := Option.some.inj hs'
      exact ⟨_, hs₀, rfl⟩
  | @replayNext g₀ sub₀ e rest hg₀ hs₀ hp =>
      obtain rfl := Option.some.inj (hg.symm.trans hg₀)
      refine ⟨_, rfl, fun he => he, rfl, rfl,
        .inl ⟨by rw [Gen.committed_replayNext hp], fun sub' hs' => ?_⟩⟩
      obtain rfl := Option.some.inj hs'
      exact ⟨_, hs₀, rfl⟩
  | @read g₀ sub₀ e q hg₀ hs₀ hp hq hseq =>
      obtain rfl := Option.some.inj (hg.symm.trans hg₀)
      refine ⟨_, rfl, fun he => he, rfl, rfl,
        .inr ⟨sub₀, e, hs₀, Gen.committed_read hp, hseq, fun sub' hs' => ?_⟩⟩
      obtain rfl := Option.some.inj hs'
      rfl
  | @skip g₀ sub₀ e q hg₀ hs₀ hp hq hm =>
      obtain rfl := Option.some.inj (hg.symm.trans hg₀)
      refine ⟨_, rfl, hlate, rfl, rfl, .inl ⟨List.Sublist.refl _, fun sub' hs' => ?_⟩⟩
      obtain rfl := Option.some.inj hs'
      exact ⟨_, hs₀, rfl⟩
  | @heartbeat g₀ hg₀ hp =>
      obtain rfl := Option.some.inj (hg.symm.trans hg₀)
      have hc := Gen.committed_heartbeat hp
      exact ⟨_, rfl, fun he => he, rfl, rfl,
        .inl ⟨by rw [hc], fun sub' hs' => ⟨sub', hs', rfl⟩⟩⟩
  | abandon hg₀ hp =>
      obtain rfl := Option.some.inj (hg.symm.trans hg₀)
      rw [hp] at hlate
      exact absurd trivial hlate
  | finish hg₀ hp hp' =>
      obtain rfl := Option.some.inj (hg.symm.trans hg₀)
      refine ⟨_, rfl, fun he => he, rfl, rfl, .inl ⟨?_, fun sub' hs' => by cases hs'⟩⟩
      have hc : ({ g with phase := .closed } : Gen δ).committed = g.delivered :=
        List.append_nil _
      rw [hc]
      exact List.sublist_append_left _ _

/-- Before the replay pass a generator was before it too, and the action was not
the pass. -/
theorem early_step (h : s.step a = some s') {g' : Gen δ}
    (hg' : s'.gens.get? id = some g') (hearly : g'.phase.Early) {g : Gen δ}
    (hg : s.gens.get? id = some g) (hI : s.Inv) :
    g.phase.Early ∧ s.replays id a = false := by
  constructor
  · by_contra hlate
    obtain ⟨g'', hg'', hlate'', -⟩ := late_step h hI hg hlate
    obtain rfl := Option.some.inj (hg'.symm.trans hg'')
    exact hlate'' hearly
  · cases hrep : s.replays id a with
    | false => rfl
    | true =>
        obtain ⟨hp, rfl⟩ := connected_of_replays hg hrep
        have hgs := step_gen h id
        rw [hg'] at hgs
        generalize hgo : some g' = go at hgs
        generalize s'.hub.subscribers.get? id = so at hgs
        cases hgs with
        | idle ha hne => exact absurd rfl (hne g hg hp)
        | connect hg₀ hs₀ hp₀ =>
            obtain rfl := Option.some.inj (hg.symm.trans hg₀)
            rw [hp] at hp₀
            cases hp₀
        | skip hg₀ hs₀ hp₀ =>
            obtain rfl := Option.some.inj (hg.symm.trans hg₀)
            rw [hp] at hp₀
            cases hp₀
        | replayNone => obtain rfl := Option.some.inj hgo; exact hearly.elim
        | replaySome => obtain rfl := Option.some.inj hgo; exact hearly.elim
        | replayed => obtain rfl := Option.some.inj hgo; exact hearly.elim
        | replayNext => obtain rfl := Option.some.inj hgo; exact hearly.elim
        | read => obtain rfl := Option.some.inj hgo; exact hearly.elim

/-- A replay pass leaves the generator registered and past it. -/
theorem exists_after_replay (h : s.step (.pull id) = some s') {g : Gen δ}
    (hg : s.gens.get? id = some g) (hp : g.phase = .connected) :
    ∃ g' sub', s'.gens.get? id = some g' ∧ s'.hub.subscribers.get? id = some sub' ∧
      ¬g'.phase.Early ∧ g'.openedAt = g.openedAt := by
  have hgs := step_gen h id
  generalize s'.gens.get? id = go at hgs ⊢
  generalize s'.hub.subscribers.get? id = so at hgs ⊢
  have hne : ∀ {g₀ : Gen δ}, s.gens.get? id = some g₀ → g₀.phase = .connected := by
    intro g₀ hg₀
    rw [← Option.some.inj (hg.symm.trans hg₀)]
    exact hp
  cases hgs with
  | idle ha hidle => exact absurd rfl (hidle g hg hp)
  | connect hg₀ hs₀ hp₀ => rw [hne hg₀] at hp₀; cases hp₀
  | replayNone hg₀ hs₀ hp₀ hr =>
      obtain rfl := Option.some.inj (hg.symm.trans hg₀)
      exact ⟨_, _, rfl, rfl, fun he => he, rfl⟩
  | replaySome hg₀ hs₀ hp₀ hr =>
      obtain rfl := Option.some.inj (hg.symm.trans hg₀)
      exact ⟨_, _, rfl, rfl, fun he => he, rfl⟩
  | replayed hg₀ hs₀ hp₀ => rw [hne hg₀] at hp₀; cases hp₀
  | replayNext hg₀ hs₀ hp₀ => rw [hne hg₀] at hp₀; cases hp₀
  | read hg₀ hs₀ hp₀ => rw [hne hg₀] at hp₀; cases hp₀
  | skip hg₀ hs₀ hp₀ => rw [hne hg₀] at hp₀; cases hp₀

end StreamHub

end AgentProtocol

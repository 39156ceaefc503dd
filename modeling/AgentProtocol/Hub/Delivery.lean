import AgentProtocol.Hub.Inversion

/-!
# The delivery invariant

Ring, queues, cursors and deliveries of a hub, tied to the history of
publishes. The hub half (`Inv.numbered`, `Inv.buffer`) says that seqs count the
publishes and that the ring is the window of the newest ones. The per-generator
half is split by what survives the end of the response:

* `Gen.Sound` — what was yielded, and what the replay loop is committed to
  yield, ascends in seq and was asked for. It stays true after the generator
  ends.
* `Gen.Linked` — the registered subscription agrees with its generator: the
  cursor is at or past everything committed, and the queue holds published
  envelopes that the request asks for, in order.

Each move of a generator has its lemma for the two of them; the inversion lemmas put them
together, once, over every step.
-/

namespace AgentProtocol

universe u

variable {δ : Type u}

namespace Gen

/-- Yielded, or on the replay list and still to be yielded. -/
def committed (g : Gen δ) : List (Envelope δ) := g.delivered ++ g.phase.rest

@[simp] theorem wants_yield (g : Gen δ) (b : Block δ) (p : GenPhase δ) :
    (g.yield b p).wants = g.wants := rfl

@[simp] theorem wants_phase (g : Gen δ) (p : GenPhase δ) :
    ({ g with phase := p } : Gen δ).wants = g.wants := rfl

theorem delivered_yield_event (g : Gen δ) (e : Envelope δ) (p : GenPhase δ) :
    (g.yield (.event e) p).delivered = g.delivered ++ [e] := by
  simp only [delivered, yield, List.filterMap_append]
  rfl

theorem delivered_yield_connected (g : Gen δ) (p : GenPhase δ) :
    (g.yield .connected p).delivered = g.delivered := by
  simp only [delivered, yield, List.filterMap_append]
  exact List.append_nil _

theorem delivered_yield_heartbeat (g : Gen δ) (p : GenPhase δ) :
    (g.yield .heartbeat p).delivered = g.delivered := by
  simp only [delivered, yield, List.filterMap_append]
  exact List.append_nil _

/-- A yield of the replay loop moves the head of the list over. -/
theorem committed_replayNext {g : Gen δ} {e : Envelope δ} {rest : List (Envelope δ)}
    (hp : g.phase = .replaying (e :: rest)) :
    (g.yield (.event e) (.replaying rest)).committed = g.committed := by
  rw [committed, delivered_yield_event, committed, hp]
  simp only [yield, GenPhase.rest, List.append_assoc, List.cons_append, List.nil_append]

/-- A delivery from the queue. -/
theorem committed_read {g : Gen δ} {e : Envelope δ} (hp : g.phase = .live) :
    (g.yield (.event e) .live).committed = g.committed ++ [e] := by
  rw [committed, delivered_yield_event, committed, hp]
  simp only [yield, GenPhase.rest, List.append_nil]

theorem committed_live {g : Gen δ} (hp : g.phase = .live) : g.committed = g.delivered := by
  rw [committed, hp]
  exact List.append_nil _

/-- Nothing is left to replay. -/
theorem committed_goLive {g : Gen δ} (hp : g.phase.rest = []) :
    ({ g with phase := .live } : Gen δ).committed = g.committed := by
  show g.delivered ++ [] = g.delivered ++ g.phase.rest
  rw [hp]

/-- The first yields. -/
theorem committed_connect {g : Gen δ} (hd : g.delivered = []) :
    (g.yield .connected .connected).committed = [] := by
  rw [committed, delivered_yield_connected, hd]
  rfl

theorem committed_replay {g : Gen δ} (hd : g.delivered = []) (e : Envelope δ)
    (rest : List (Envelope δ)) : (g.yield (.event e) (.replaying rest)).committed = e :: rest := by
  rw [committed, delivered_yield_event, hd]
  rfl

theorem committed_heartbeat {g : Gen δ} (hp : g.phase = .live) :
    (g.yield .heartbeat .live).committed = g.committed := by
  rw [committed, delivered_yield_heartbeat, committed, hp]
  rfl

/-- A generator that is closed before its first step. -/
theorem committed_abandon {g : Gen δ} (hp : g.phase = .created) :
    ({ g with phase := .closed } : Gen δ).committed = g.committed := by
  show g.delivered ++ [] = g.delivered ++ g.phase.rest
  rw [hp]
  rfl

/-- The yields of a generator are sound for the publish history `P`. -/
structure Sound (P : List (Envelope δ)) (g : Gen δ) : Prop where
  ascending : Ascending Envelope.seq g.committed
  wanted : ∀ e ∈ g.committed, e ∈ P ∧ g.wants e = true
  early : g.phase.Early → g.delivered = []

/-- A move that commits to nothing new keeps soundness. -/
theorem Sound.of_sublist {P : List (Envelope δ)} {g g' : Gen δ} (h : g.Sound P)
    (hc : g'.committed.Sublist g.committed) (hw : g'.wants = g.wants)
    (hlate : ¬g'.phase.Early) : g'.Sound P where
  ascending := h.ascending.sublist hc
  wanted := fun e he => by rw [hw]; exact h.wanted e (hc.subset he)
  early := fun he => absurd he hlate

/-- A registered subscription agrees with its generator. -/
structure Linked (P : List (Envelope δ)) (g : Gen δ) (sub : Subscription δ) : Prop where
  filter : ∀ e, Subscription.passes sub.channels sub.namespaces e = g.passes e
  start_le : g.start ≤ sub.lastSeq
  cursor : ∀ e ∈ g.committed, (e.seq : Int) ≤ sub.lastSeq
  fresh : sub.lastSeq = g.start ∨ sub.lastSeq ≤ (P.length : Int)
  early : g.phase.Early → sub.lastSeq = g.start
  ascending : Ascending Envelope.seq sub.queue
  wanted : ∀ e ∈ sub.queue, e ∈ P ∧ g.wants e = true
  recent : ∀ e ∈ sub.queue, g.openedAt < e.seq

/-- A move that commits to the same envelopes and leaves the subscription alone
keeps the link. -/
theorem Linked.of_committed {P : List (Envelope δ)} {g g' : Gen δ} {sub : Subscription δ}
    (h : g.Linked P sub) (hc : g'.committed = g.committed) (hpass : g'.passes = g.passes)
    (hstart : g'.start = g.start) (hopen : g'.openedAt = g.openedAt)
    (hlate : ¬g'.phase.Early) : g'.Linked P sub where
  filter := fun e => by rw [hpass]; exact h.filter e
  start_le := by rw [hstart]; exact h.start_le
  cursor := fun e he => h.cursor e (hc ▸ he)
  fresh := by rw [hstart]; exact h.fresh
  early := fun he => absurd he hlate
  ascending := h.ascending
  wanted := fun e he => by
    have hw : g'.wants e = g.wants e := by rw [wants, wants, hpass, hstart]
    rw [hw]
    exact h.wanted e he
  recent := by rw [hopen]; exact h.recent

/-- Past the cursor, matching is passing the request's filter. -/
theorem Linked.matches_iff {P : List (Envelope δ)} {g : Gen δ} {sub : Subscription δ}
    (h : g.Linked P sub) (e : Envelope δ) :
    sub.matches e = true ↔ sub.lastSeq < (e.seq : Int) ∧ g.wants e = true := by
  rw [Subscription.matches_iff, h.filter, g.wants_iff]
  have := h.start_le
  constructor
  · rintro ⟨hseq, hp⟩
    exact ⟨hseq, by omega, hp⟩
  · rintro ⟨hseq, -, hp⟩
    exact ⟨hseq, hp⟩

end Gen

namespace StreamHub

/-- The delivery invariant of one hub. -/
structure Inv (s : StreamHub δ) : Prop where
  seq : s.hub.seq = s.published.length
  numbered : Numbered Envelope.seq s.published
  buffer : s.hub.buffer = Ring.window s.hub.replaySize s.published
  sound : ∀ k g, s.gens.get? k = some g → g.Sound s.published
  linked : ∀ k g sub, s.gens.get? k = some g → s.hub.subscribers.get? k = some sub →
    g.Linked s.published sub
  owned : ∀ k sub, s.hub.subscribers.get? k = some sub → ∃ g, s.gens.get? k = some g
  below : ∀ k g, s.gens.get? k = some g → k < s.nextSub
  opened : ∀ k g, s.gens.get? k = some g → g.openedAt ≤ s.hub.seq

theorem Inv.init (n : Nat) : (StreamHub.new n : StreamHub δ).Inv where
  seq := rfl
  numbered := numbered_nil
  buffer := (Ring.window_nil n).symm
  sound := fun _ _ h => by cases h
  linked := fun _ _ _ h => by cases h
  owned := fun _ _ h => by cases h
  below := fun _ _ h => by cases h
  opened := fun _ _ h => by cases h

section Growth

variable {P : List (Envelope δ)} {g : Gen δ} {sub : Subscription δ} {e : Envelope δ}

theorem sound_grow (h : g.Sound P) (e : Envelope δ) : g.Sound (P ++ [e]) where
  ascending := h.ascending
  wanted := fun e' he' => ⟨List.mem_append_left _ (h.wanted e' he').1, (h.wanted e' he').2⟩
  early := h.early

/-- The fan-out keeps the link: the newest envelope goes to the back of the
queue, and only when the request asks for it. -/
theorem linked_offer (h : g.Linked P sub) (hP : Numbered Envelope.seq P)
    (he : e.seq = P.length + 1) (ho : g.openedAt ≤ P.length) :
    g.Linked (P ++ [e]) (sub.offer e) where
  filter := fun e' => by
    rw [Subscription.offer_channels, Subscription.offer_namespaces, h.filter]
  start_le := by rw [Subscription.offer_lastSeq]; exact h.start_le
  cursor := fun e' he' => by rw [Subscription.offer_lastSeq]; exact h.cursor e' he'
  fresh := by
    rw [Subscription.offer_lastSeq]
    rcases h.fresh with hf | hf
    · exact .inl hf
    · refine .inr ?_
      rw [List.length_append, List.length_singleton]
      push_cast
      omega
  early := fun hp => by rw [Subscription.offer_lastSeq]; exact h.early hp
  ascending := by
    rw [Subscription.offer_queue]
    split
    · refine ascending_concat.mpr ⟨h.ascending, fun a ha => ?_⟩
      have := (hP.bounds (h.wanted a ha).1).2
      omega
    · exact h.ascending
  wanted := by
    intro e' he'
    have hold : e' ∈ sub.queue → e' ∈ P ++ [e] ∧ g.wants e' = true := fun hmem =>
      ⟨List.mem_append_left _ (h.wanted e' hmem).1, (h.wanted e' hmem).2⟩
    rw [Subscription.offer_queue] at he'
    split at he'
    · next hm =>
      rcases List.mem_append.mp he' with hmem | hmem
      · exact hold hmem
      · obtain rfl := List.mem_singleton.mp hmem
        exact ⟨List.mem_append_right _ hmem, ((h.matches_iff e').mp hm.1).2⟩
    · exact hold he'
  recent := by
    intro e' he'
    rw [Subscription.offer_queue] at he'
    split at he'
    · rcases List.mem_append.mp he' with hmem | hmem
      · exact h.recent e' hmem
      · rw [List.mem_singleton.mp hmem]
        omega
    · exact h.recent e' he'

end Growth

/-- In an ascending list nothing lies past the last entry. -/
theorem le_getLast_of_ascending {l : List (Envelope δ)} (h : Ascending Envelope.seq l)
    {last : Envelope δ} (hl : l.getLast? = some last) : ∀ e ∈ l, e.seq ≤ last.seq := by
  intro e he
  obtain ⟨init, rfl⟩ := List.getLast?_eq_some_iff.mp hl
  rcases List.mem_append.mp he with h1 | h1
  · exact Nat.le_of_lt ((ascending_concat.mp h).2 e h1)
  · rw [List.mem_singleton.mp h1]

section Moves

variable {P : List (Envelope δ)} {g : Gen δ} {sub : Subscription δ} {e : Envelope δ}
  {q rest : List (Envelope δ)}

theorem sound_connect (h : g.Sound P) (hp : g.phase = .created) :
    (g.yield .connected .connected).Sound P := by
  have hd : g.delivered = [] := h.early (by rw [hp]; trivial)
  have hc := Gen.committed_connect hd
  refine ⟨by rw [hc]; exact List.Pairwise.nil, fun e he => ?_, fun _ => ?_⟩
  · rw [hc] at he
    exact absurd he List.not_mem_nil
  · rw [Gen.delivered_yield_connected, hd]

/-- The replay list is committed to as a whole. -/
theorem sound_replaySome (h : g.Sound P) (hp : g.phase = .connected)
    (hasc : Ascending Envelope.seq (e :: rest))
    (hmem : ∀ e' ∈ e :: rest, e' ∈ P ∧ g.wants e' = true) :
    (g.yield (.event e) (.replaying rest)).Sound P := by
  have hd : g.delivered = [] := h.early (by rw [hp]; trivial)
  have hc := Gen.committed_replay hd e rest
  refine ⟨by rw [hc]; exact hasc, fun e' he' => ?_, fun he => he.elim⟩
  rw [hc] at he'
  exact hmem e' he'

/-- What is read off the queue lies past all that was yielded. -/
theorem sound_read (h : g.Sound P) (hL : g.Linked P sub) (hp : g.phase = .live)
    (hq : sub.queue = e :: q) (hseq : sub.lastSeq < (e.seq : Int)) :
    (g.yield (.event e) .live).Sound P := by
  have hc := Gen.committed_read (e := e) hp
  refine ⟨?_, fun e' he' => ?_, fun he => he.elim⟩
  · rw [hc]
    refine ascending_concat.mpr ⟨h.ascending, fun a ha => ?_⟩
    have := hL.cursor a ha
    omega
  · rw [hc] at he'
    rcases List.mem_append.mp he' with h1 | h1
    · exact h.wanted e' h1
    · obtain rfl := List.mem_singleton.mp h1
      exact hL.wanted e' (by rw [hq]; exact List.mem_cons_self)

theorem sound_finish (h : g.Sound P) : ({ g with phase := .closed } : Gen δ).Sound P := by
  -- the replay list that was still to be yielded is dropped
  have hc : ({ g with phase := .closed } : Gen δ).committed = g.delivered := List.append_nil _
  have hsub : ({ g with phase := .closed } : Gen δ).committed.Sublist g.committed := by
    rw [hc]
    exact List.sublist_append_left _ _
  exact h.of_sublist hsub rfl fun he => he

theorem linked_opened (P : List (Envelope δ)) (channels : Option (List String))
    (namespaces : Option (List (List String))) (since : Option Int) (openedAt : Nat) :
    ({ channels, namespaces, since, phase := .created, openedAt, sent := [] } : Gen δ).Linked P
      (ThreadEventHub.newSubscription channels namespaces since) := by
  refine ⟨fun e => ?_, Int.le_refl _, fun e he => absurd he List.not_mem_nil, .inl rfl,
    fun _ => rfl, List.Pairwise.nil, fun e he => absurd he List.not_mem_nil,
    fun e he => absurd he List.not_mem_nil⟩
  rcases channels with _ | (_ | ⟨c, cs⟩) <;> rfl

theorem linked_connect (hL : g.Linked P sub) (hS : g.Sound P) (hp : g.phase = .created) :
    (g.yield .connected .connected).Linked P sub := by
  have hc := Gen.committed_connect (hS.early (by rw [hp]; trivial))
  refine ⟨hL.filter, hL.start_le, fun e he => ?_, hL.fresh,
    fun _ => hL.early (by rw [hp]; trivial), hL.ascending, hL.wanted, hL.recent⟩
  rw [hc] at he
  exact absurd he List.not_mem_nil

/-- The replay moves the cursor to the last envelope it is committed to. -/
theorem linked_replaySome (hL : g.Linked P sub) (hS : g.Sound P) (hP : Numbered Envelope.seq P)
    (hp : g.phase = .connected) (hasc : Ascending Envelope.seq (e :: rest))
    (hmem : ∀ e' ∈ e :: rest, e' ∈ P ∧ sub.lastSeq < (e'.seq : Int)) :
    (g.yield (.event e) (.replaying rest)).Linked P (sub.advance (e :: rest)) := by
  have hc := Gen.committed_replay (hS.early (by rw [hp]; trivial)) e rest
  obtain ⟨last, hlast⟩ : ∃ last, (e :: rest).getLast? = some last :=
    ⟨_, List.getLast?_eq_some_getLast (List.cons_ne_nil e rest)⟩
  obtain ⟨hlastP, hpast⟩ := hmem last (List.mem_of_getLast? hlast)
  have hseq : (sub.advance (e :: rest)).lastSeq = (last.seq : Int) := by
    unfold Subscription.advance
    rw [hlast]
  refine ⟨fun e' => ?_, ?_, fun e' he' => ?_, ?_, fun he => he.elim, ?_, fun e' he' => ?_,
    fun e' he' => ?_⟩
  · rw [Subscription.advance_channels, Subscription.advance_namespaces]
    exact hL.filter e'
  · rw [hseq]
    have := hL.start_le
    show g.start ≤ (last.seq : Int)
    omega
  · rw [hc] at he'
    rw [hseq]
    exact_mod_cast le_getLast_of_ascending hasc hlast e' he'
  · rw [hseq]
    exact .inr (Int.ofNat_le.mpr (hP.bounds hlastP).2)
  · rw [Subscription.advance_queue]
    exact hL.ascending
  · rw [Subscription.advance_queue] at he'
    exact hL.wanted e' he'
  · rw [Subscription.advance_queue] at he'
    exact hL.recent e' he'

/-- A delivery from the queue moves the cursor onto it. -/
theorem linked_read (hL : g.Linked P sub) (hP : Numbered Envelope.seq P) (hp : g.phase = .live)
    (hq : sub.queue = e :: q) (hseq : sub.lastSeq < (e.seq : Int)) :
    (g.yield (.event e) .live).Linked P { sub with queue := q, lastSeq := e.seq } := by
  have hc := Gen.committed_read (e := e) hp
  have hin : ∀ e' ∈ q, e' ∈ sub.queue := fun e' he' => by
    rw [hq]
    exact List.mem_cons_of_mem _ he'
  have hqe : e ∈ sub.queue := by
    rw [hq]
    exact List.mem_cons_self
  have hasc := hL.ascending
  rw [hq] at hasc
  refine ⟨hL.filter, ?_, fun e' he' => ?_, ?_, fun he => he.elim, (List.pairwise_cons.mp hasc).2,
    fun e' he' => hL.wanted e' (hin e' he'), fun e' he' => hL.recent e' (hin e' he')⟩
  · show g.start ≤ (e.seq : Int)
    have := hL.start_le
    omega
  · show (e'.seq : Int) ≤ e.seq
    rw [hc] at he'
    rcases List.mem_append.mp he' with h1 | h1
    · have := hL.cursor e' h1
      omega
    · exact Int.le_of_eq (by rw [List.mem_singleton.mp h1])
  · exact .inr (Int.ofNat_le.mpr (hP.bounds (hL.wanted e hqe).1).2)

/-- An envelope that is passed over only leaves the queue. -/
theorem linked_skip (hL : g.Linked P sub) (hq : sub.queue = e :: q) :
    g.Linked P { sub with queue := q } := by
  have hasc := hL.ascending
  rw [hq] at hasc
  have hin : ∀ e' ∈ q, e' ∈ sub.queue := fun e' he' => by
    rw [hq]
    exact List.mem_cons_of_mem _ he'
  exact ⟨hL.filter, hL.start_le, hL.cursor, hL.fresh, hL.early, (List.pairwise_cons.mp hasc).2,
    fun e' he' => hL.wanted e' (hin e' he'), fun e' he' => hL.recent e' (hin e' he')⟩

end Moves

/-- The replay list: buffered envelopes past the cursor that the request asks
for, in order. -/
theorem Inv.replay_sound {s : StreamHub δ} {k : Nat} {g : Gen δ} {sub : Subscription δ}
    (hI : s.Inv) (hg : s.gens.get? k = some g) (hs : s.hub.subscribers.get? k = some sub) :
    Ascending Envelope.seq (s.hub.buffer.filter sub.matches) ∧
      ∀ e ∈ s.hub.buffer.filter sub.matches,
        e ∈ s.published ∧ g.wants e = true ∧ sub.lastSeq < (e.seq : Int) := by
  have hL := hI.linked k g sub hg hs
  have hbuf : Ascending Envelope.seq s.hub.buffer := by
    rw [hI.buffer, hI.numbered.window_eq_filter]
    exact hI.numbered.ascending.filter _
  refine ⟨hbuf.filter _, fun e he => ?_⟩
  obtain ⟨hmem, hm⟩ := List.mem_filter.mp he
  obtain ⟨hseq, hw⟩ := (hL.matches_iff e).mp hm
  rw [hI.buffer, hI.numbered.mem_window] at hmem
  exact ⟨hmem.1, hw, hseq⟩

theorem sound_step {s s' : StreamHub δ} {a : StreamAct δ} (hI : s.Inv)
    (h : s.step a = some s') (k : Nat) (g' : Gen δ) (hg' : s'.gens.get? k = some g') :
    g'.Sound s'.published := by
  have hgs := step_gen h k
  have hpub := step_published h
  rw [hg'] at hgs
  generalize hgo : some g' = go at hgs
  generalize s'.hub.subscribers.get? k = so at hgs
  cases hgs with
  | publish =>
      obtain rfl := Option.some.inj h
      exact sound_grow (hI.sound k g' hgo.symm) _
  | opened hk =>
      obtain rfl := Option.some.inj hgo
      refine ⟨List.Pairwise.nil, fun e he => ?_, fun _ => rfl⟩
      exact absurd he List.not_mem_nil
  | idle ha hne =>
      rw [hpub ha]
      exact hI.sound k g' hgo.symm
  | @connect g sub hg hs hp =>
      obtain rfl := Option.some.inj hgo
      rw [hpub rfl]
      exact sound_connect (hI.sound k g hg) hp
  | @replayNone g sub hg hs hp hr =>
      obtain rfl := Option.some.inj hgo
      rw [hpub rfl]
      have hc := Gen.committed_goLive (g := g) (by rw [hp]; rfl)
      exact (hI.sound k g hg).of_sublist (by rw [hc]) rfl fun he => he
  | @replaySome g sub e rest hg hs hp hr =>
      obtain rfl := Option.some.inj hgo
      rw [hpub rfl]
      obtain ⟨hasc, hmem⟩ := hI.replay_sound hg hs
      rw [hr] at hasc hmem
      exact sound_replaySome (hI.sound k g hg) hp hasc
        fun e' he' => ⟨(hmem e' he').1, (hmem e' he').2.1⟩
  | @replayed g sub hg hs hp =>
      obtain rfl := Option.some.inj hgo
      rw [hpub rfl]
      have hc := Gen.committed_goLive (g := g) (by rw [hp]; rfl)
      exact (hI.sound k g hg).of_sublist (by rw [hc]) rfl fun he => he
  | @replayNext g sub e rest hg hs hp =>
      obtain rfl := Option.some.inj hgo
      rw [hpub rfl]
      have hc := Gen.committed_replayNext hp
      exact (hI.sound k g hg).of_sublist (by rw [hc]) rfl fun he => he
  | @read g sub e q hg hs hp hq hseq =>
      obtain rfl := Option.some.inj hgo
      rw [hpub rfl]
      exact sound_read (hI.sound k g hg) (hI.linked k g sub hg hs) hp hq hseq
  | @skip g sub e q hg hs hp hq hm =>
      obtain rfl := Option.some.inj hgo
      rw [hpub rfl]
      exact hI.sound k _ hg
  | @heartbeat g hg hp =>
      obtain rfl := Option.some.inj hgo
      rw [hpub rfl]
      have hc := Gen.committed_heartbeat hp
      exact (hI.sound k g hg).of_sublist (by rw [hc]) rfl fun he => he
  | @abandon g hg hp =>
      obtain rfl := Option.some.inj hgo
      rw [hpub rfl]
      exact sound_finish (hI.sound k g hg)
  | @finish g hg hp hp' =>
      obtain rfl := Option.some.inj hgo
      rw [hpub rfl]
      exact sound_finish (hI.sound k g hg)

theorem linked_step {s s' : StreamHub δ} {a : StreamAct δ} (hI : s.Inv)
    (h : s.step a = some s') (k : Nat) (g' : Gen δ) (sub' : Subscription δ)
    (hg' : s'.gens.get? k = some g') (hs' : s'.hub.subscribers.get? k = some sub') :
    g'.Linked s'.published sub' := by
  have hgs := step_gen h k
  have hpub := step_published h
  rw [hg', hs'] at hgs
  generalize hgo : some g' = go at hgs
  generalize hso : some sub' = so at hgs
  cases hgs with
  | publish =>
      obtain rfl := Option.some.inj h
      obtain ⟨sub, hsub, rfl⟩ := Option.map_eq_some_iff.mp hso.symm
      refine linked_offer (hI.linked k g' sub hgo.symm hsub) hI.numbered ?_ ?_
      · show s.hub.seq + 1 = s.published.length + 1
        rw [hI.seq]
      · rw [← hI.seq]
        exact hI.opened k g' hgo.symm
  | opened hk =>
      obtain rfl := Option.some.inj hgo
      obtain rfl := Option.some.inj hso
      exact linked_opened _ _ _ _ _
  | idle ha hne =>
      rw [hpub ha]
      exact hI.linked k g' sub' hgo.symm hso.symm
  | @connect g sub hg hs hp =>
      obtain rfl := Option.some.inj hgo
      obtain rfl := Option.some.inj hso
      rw [hpub rfl]
      exact linked_connect (hI.linked k g _ hg hs) (hI.sound k g hg) hp
  | @replayNone g sub hg hs hp hr =>
      obtain rfl := Option.some.inj hgo
      obtain rfl := Option.some.inj hso
      rw [hpub rfl]
      have hc := Gen.committed_goLive (g := g) (by rw [hp]; rfl)
      exact (hI.linked k g _ hg hs).of_committed hc rfl rfl rfl fun he => he
  | @replaySome g sub e rest hg hs hp hr =>
      obtain rfl := Option.some.inj hgo
      obtain rfl := Option.some.inj hso
      rw [hpub rfl]
      obtain ⟨hasc, hmem⟩ := hI.replay_sound hg hs
      rw [hr] at hasc hmem
      exact linked_replaySome (hI.linked k g sub hg hs) (hI.sound k g hg) hI.numbered hp hasc
        fun e' he' => ⟨(hmem e' he').1, (hmem e' he').2.2⟩
  | @replayed g sub hg hs hp =>
      obtain rfl := Option.some.inj hgo
      obtain rfl := Option.some.inj hso
      rw [hpub rfl]
      have hc := Gen.committed_goLive (g := g) (by rw [hp]; rfl)
      exact (hI.linked k g _ hg hs).of_committed hc rfl rfl rfl fun he => he
  | @replayNext g sub e rest hg hs hp =>
      obtain rfl := Option.some.inj hgo
      obtain rfl := Option.some.inj hso
      rw [hpub rfl]
      have hc := Gen.committed_replayNext hp
      exact (hI.linked k g _ hg hs).of_committed hc rfl rfl rfl fun he => he
  | @read g sub e q hg hs hp hq hseq =>
      obtain rfl := Option.some.inj hgo
      obtain rfl := Option.some.inj hso
      rw [hpub rfl]
      exact linked_read (hI.linked k g sub hg hs) hI.numbered hp hq hseq
  | @skip g sub e q hg hs hp hq hm =>
      obtain rfl := Option.some.inj hgo
      obtain rfl := Option.some.inj hso
      rw [hpub rfl]
      exact linked_skip (hI.linked k _ sub hg hs) hq
  | @heartbeat g hg hp =>
      obtain rfl := Option.some.inj hgo
      rw [hpub rfl]
      have hc := Gen.committed_heartbeat hp
      exact (hI.linked k g _ hg hso.symm).of_committed hc rfl rfl rfl fun he => he
  | @abandon g hg hp =>
      obtain rfl := Option.some.inj hgo
      rw [hpub rfl]
      have hc := Gen.committed_abandon hp
      exact (hI.linked k g _ hg hso.symm).of_committed hc rfl rfl rfl fun he => he
  | @finish g hg hp hp' => cases hso

/-- Identities in use stay below the counter, and no generator was opened in
the future. -/
theorem below_step {s s' : StreamHub δ} {a : StreamAct δ} (hI : s.Inv)
    (h : s.step a = some s') (k : Nat) (g' : Gen δ) (hg' : s'.gens.get? k = some g') :
    k < s'.nextSub ∧ g'.openedAt ≤ s'.hub.seq := by
  have hgs := step_gen h k
  rw [hg'] at hgs
  -- every move but the opening keeps the generator's identity and birth
  have hold : ∀ g, s.gens.get? k = some g → g'.openedAt = g.openedAt →
      k < s'.nextSub ∧ g'.openedAt ≤ s'.hub.seq := by
    intro g hg hop
    have h1 := hI.below k g hg
    have h2 := hI.opened k g hg
    rcases step_log h with ⟨_, _, _, _, _, _, rfl, rfl⟩ | ⟨_, _, _, rfl, rfl⟩ | ⟨-, hlog⟩
    · exact ⟨h1, hop ▸ Nat.le_succ_of_le h2⟩
    · exact ⟨Nat.lt_succ_of_lt h1, hop ▸ h2⟩
    · rw [hlog.2.2.2.2, hlog.2.1, hop]
      exact ⟨h1, h2⟩
  generalize hgo : some g' = go at hgs
  generalize s'.hub.subscribers.get? k = so at hgs
  cases hgs with
  | publish => exact hold g' hgo.symm rfl
  | opened hk =>
      obtain rfl := Option.some.inj h
      obtain rfl := Option.some.inj hgo
      exact ⟨hk ▸ Nat.lt_succ_self _, Nat.le_refl _⟩
  | idle ha hne => exact hold g' hgo.symm rfl
  | connect hg => obtain rfl := Option.some.inj hgo; exact hold _ hg rfl
  | replayNone hg => obtain rfl := Option.some.inj hgo; exact hold _ hg rfl
  | replaySome hg => obtain rfl := Option.some.inj hgo; exact hold _ hg rfl
  | replayed hg => obtain rfl := Option.some.inj hgo; exact hold _ hg rfl
  | replayNext hg => obtain rfl := Option.some.inj hgo; exact hold _ hg rfl
  | read hg => obtain rfl := Option.some.inj hgo; exact hold _ hg rfl
  | skip hg => obtain rfl := Option.some.inj hgo; exact hold _ hg rfl
  | heartbeat hg => obtain rfl := Option.some.inj hgo; exact hold _ hg rfl
  | abandon hg => obtain rfl := Option.some.inj hgo; exact hold _ hg rfl
  | finish hg => obtain rfl := Option.some.inj hgo; exact hold _ hg rfl

theorem Inv.step {s s' : StreamHub δ} {a : StreamAct δ} (hI : s.Inv)
    (h : s.step a = some s') : s'.Inv := by
  have hhub : s'.hub.seq = s'.published.length ∧ Numbered Envelope.seq s'.published ∧
      s'.hub.buffer = Ring.window s'.hub.replaySize s'.published := by
    have hsub : s.hub.seq = s.published.length ∧ Numbered Envelope.seq s.published ∧
        s.hub.buffer = Ring.window s.hub.replaySize s.published :=
      ⟨hI.seq, hI.numbered, hI.buffer⟩
    rcases step_log h with ⟨m, d, ns, ts, eid, now, -, rfl⟩ | ⟨_, _, _, -, rfl⟩ | ⟨-, hlog⟩
    · refine ⟨?_, hI.numbered.concat ?_, ?_⟩
      · show s.hub.seq + 1 = (s.published ++ [_]).length
        rw [List.length_append, hI.seq]; rfl
      · show s.hub.seq + 1 = s.published.length + 1
        rw [hI.seq]
      · show Ring.push s.hub.replaySize s.hub.buffer _ = _
        rw [hI.buffer, Ring.push_window]
        rfl
    · exact hsub
    · obtain ⟨hsize, hseq, hbuf, hpub, -⟩ := hlog
      rw [hsize, hseq, hbuf, hpub]
      exact hsub
  refine ⟨hhub.1, hhub.2.1, hhub.2.2, sound_step hI h, linked_step hI h, ?_,
    fun k g hg => (below_step hI h k g hg).1, fun k g hg => (below_step hI h k g hg).2⟩
  intro k sub' hs'
  have hgs := step_gen h k
  rw [hs'] at hgs
  generalize s'.gens.get? k = go at hgs
  generalize hso : some sub' = so at hgs
  cases hgs with
  | publish =>
      obtain ⟨sub, hsub, -⟩ := Option.map_eq_some_iff.mp hso.symm
      exact hI.owned k sub hsub
  | idle => exact hI.owned k sub' hso.symm
  | finish => cases hso
  | opened => exact ⟨_, rfl⟩
  | connect => exact ⟨_, rfl⟩
  | replayNone => exact ⟨_, rfl⟩
  | replaySome => exact ⟨_, rfl⟩
  | replayed => exact ⟨_, rfl⟩
  | replayNext => exact ⟨_, rfl⟩
  | read => exact ⟨_, rfl⟩
  | skip => exact ⟨_, rfl⟩
  | heartbeat => exact ⟨_, rfl⟩
  | abandon => exact ⟨_, rfl⟩

end StreamHub

/-- The invariant holds wherever the hub gets to. -/
theorem inv_of_reachable {n : Nat} {ok : StreamHub δ → StreamAct δ → Prop} {s : StreamHub δ}
    (h : (streamSys δ n).ReachableVia ok s) : s.Inv := by
  refine h.induct ?_ ?_
  · rintro _ rfl
    exact StreamHub.Inv.init n
  · intro s a s' _ hI _ hstep
    exact hI.step hstep

theorem replaySize_of_reachable {n : Nat} {ok : StreamHub δ → StreamAct δ → Prop}
    {s : StreamHub δ} (h : (streamSys δ n).ReachableVia ok s) : s.hub.replaySize = n := by
  refine h.induct (P := fun s => s.hub.replaySize = n) ?_ ?_
  · rintro _ rfl
    rfl
  · intro s a s' _ hs _ hstep
    rcases StreamHub.step_log hstep with ⟨_, _, _, _, _, _, -, rfl⟩ | ⟨_, _, _, -, rfl⟩ | ⟨-, hlog⟩
    · exact hs
    · exact hs
    · rw [hlog.1]; exact hs

/-- Nothing is taken out of the log. -/
theorem published_mono {n : Nat} {s t : StreamHub δ} (h : (streamSys δ n).Reaches t s)
    {e : Envelope δ} (he : e ∈ t.published) : e ∈ s.published := by
  refine h.preserves (P := fun s => e ∈ s.published) he fun s a s' hs _ hstep => ?_
  rcases StreamHub.step_log hstep with ⟨_, _, _, _, _, _, -, rfl⟩ | ⟨_, _, _, -, rfl⟩ | ⟨-, hlog⟩
  · exact List.mem_append_left _ hs
  · exact hs
  · rw [hlog.2.2.2.1]; exact hs

end AgentProtocol

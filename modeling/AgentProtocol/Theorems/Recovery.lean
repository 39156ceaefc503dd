import AgentProtocol.Hub.Recovery

/-!
# Reconnecting after a slow read

A client that reads too slowly loses what is published while its queue is full. It
reconnects with the seq of the last event it was delivered, and the replay gives it back
everything past that seq which the ring still holds. An event that was dropped while later
ones were queued lies behind that seq and is not given back.

`punctures` is the publish that leaves such a hole, and `recovered_iff` says that the
client gets back everything the ring still holds exactly when there was none.
-/

namespace AgentProtocol

universe u

variable {δ : Type u}

namespace StreamHub

/-- Generator `id` is past its replay pass. -/
def late (id : Nat) (s : StreamHub δ) : Bool :=
  match s.gens.get? id with
  | some g =>
    match g.phase with
    | .created => false
    | .connected => false
    | _ => true
  | none => false

/-- The publish is dropped for `id` past its replay pass, at a seq up to `c` that is in the
ring of a hub that has stamped `N` envelopes. -/
def punctures (id : Nat) (c : Int) (N : Nat) (s : StreamHub δ) (a : StreamAct δ) : Bool :=
  s.late id && s.findsFull id a && decide ((s.hub.seq + 1 : Int) ≤ c) &&
    decide (N < s.hub.seq + 1 + s.hub.replaySize)

variable {s s' : StreamHub δ} {a : StreamAct δ} {id N : Nat} {c : Int}

theorem late_iff {g : Gen δ} (hg : s.gens.get? id = some g) :
    s.late id = true ↔ ¬g.phase.Early := by
  unfold late
  rw [hg]
  cases hp : g.phase <;> simp [GenPhase.Early, hp]

/-- Up to `c`, and as far as the ring reaches at `N`, what the request asks for is safe. -/
def Covered (id : Nat) (c : Int) (N : Nat) (s : StreamHub δ) : Prop :=
  s.hub.seq ≤ N → ∀ g, s.gens.get? id = some g → ¬g.phase.Early →
    ∀ e ∈ s.published, N < e.seq + s.hub.replaySize → (e.seq : Int) ≤ c → g.wants e = true →
      g.Held e (s.hub.subscribers.get? id)

/-- A generator past its replay pass was so before, or makes the pass, or ends without it. -/
theorem late_origin (h : s.step a = some s') {g' : Gen δ} (hg' : s'.gens.get? id = some g')
    (hlate : ¬g'.phase.Early) :
    ∃ g, s.gens.get? id = some g ∧ (¬g.phase.Early ∨ s.replays id a = true ∨
      (g.phase.Early ∧ a.isPublish = false ∧ g'.phase = .closed ∧ g'.delivered = g.delivered ∧
        g'.start = g.start)) := by
  have hgs := step_gen h id
  rw [hg'] at hgs
  generalize hgo : some g' = go at hgs
  generalize s'.hub.subscribers.get? id = so at hgs
  cases hgs with
  | publish => exact ⟨g', hgo.symm, .inl hlate⟩
  | opened =>
      rw [Option.some.inj hgo] at hlate
      exact absurd trivial hlate
  | idle => exact ⟨g', hgo.symm, .inl hlate⟩
  | connect =>
      rw [Option.some.inj hgo] at hlate
      exact absurd trivial hlate
  | replayNone hg _ hp => exact ⟨_, hg, .inr (.inl (replays_pull hg hp))⟩
  | replaySome hg _ hp => exact ⟨_, hg, .inr (.inl (replays_pull hg hp))⟩
  | replayed hg _ hp => exact ⟨_, hg, .inl (by rw [hp]; exact fun he => he)⟩
  | replayNext hg _ hp => exact ⟨_, hg, .inl (by rw [hp]; exact fun he => he)⟩
  | read hg _ hp => exact ⟨_, hg, .inl (by rw [hp]; exact fun he => he)⟩
  | skip hg _ hp => exact ⟨_, hg, .inl (by rw [hp]; exact fun he => he)⟩
  | heartbeat hg hp => exact ⟨_, hg, .inl (by rw [hp]; exact fun he => he)⟩
  | abandon hg hp =>
      obtain rfl := Option.some.inj hgo
      exact ⟨_, hg, .inr (.inr ⟨by rw [hp]; trivial, rfl, rfl, rfl, rfl⟩)⟩
  | @finish g hg _ _ =>
      obtain rfl := Option.some.inj hgo
      by_cases hearly : g.phase.Early
      · exact ⟨g, hg, .inr (.inr ⟨hearly, rfl, rfl, rfl, rfl⟩)⟩
      · exact ⟨g, hg, .inl hearly⟩

/-- The replay pass commits to everything the ring still holds. -/
theorem held_of_replay (hI : s.Inv) (h : s.step a = some s') (hrep : s.replays id a = true)
    {g g' : Gen δ} (hg : s.gens.get? id = some g) (hg' : s'.gens.get? id = some g')
    {e : Envelope δ} (he : e ∈ s'.published) (hring : s.hub.seq < e.seq + s.hub.replaySize)
    (hw : g'.wants e = true) : e ∈ g'.committed ∧ g'.wants = g.wants := by
  obtain ⟨hp, rfl⟩ := connected_of_replays hg hrep
  obtain ⟨g'', sub', hg'', hs', -, -⟩ := exists_after_replay h hg hp
  obtain rfl := Option.some.inj (hg'.symm.trans hg'')
  obtain ⟨sub, hs⟩ : ∃ sub, s.hub.subscribers.get? id = some sub := by
    have hpull : s.pull id = some s' := h
    unfold pull at hpull
    split at hpull
    · next g₀ sub _ hs => exact ⟨sub, hs⟩
    · cases hpull
  obtain ⟨-, hpub, hwants, hc, -⟩ := replay_step hI h hrep hg hs hg' hs'
  have hL := hI.linked id g sub hg hs
  have hstart := ((g'.wants_iff e).mp hw).1
  rw [hwants] at hw
  rw [hpub] at he
  have hcursor : sub.lastSeq = g.start := hL.early (by rw [hp]; trivial)
  have hseq := hI.seq
  refine ⟨?_, hwants⟩
  rw [hc, List.mem_filter, hL.matches_iff, hI.buffer, hI.numbered.mem_window, hcursor]
  exact ⟨⟨he, by omega⟩, ((g.wants_iff e).mp hw).1, hw⟩

/-- A publish that leaves no hole is queued, or comes after the end of the response. -/
theorem held_of_publish (hI : s.Inv) (hR : s.Registered) {method : String} {data : δ}
    {ns : Option (List String)} {ts : Option Int} {eid : Option String} {now : Int}
    (hok : s.punctures id c N (.publish method data ns ts eid now) = false) {g : Gen δ}
    (hg : s.gens.get? id = some g) (hlate : ¬g.phase.Early)
    (hring : N < s.hub.seq + 1 + s.hub.replaySize) (hc : (s.hub.seq + 1 : Int) ≤ c)
    (hw : g.wants (s.hub.stamp method data ns ts eid now) = true) :
    g.Held (s.hub.stamp method data ns ts eid now) ((s.hub.subscribers.get? id).map
      (Subscription.offer (s.hub.stamp method data ns ts eid now))) := by
  have hstart := ((g.wants_iff _).mp hw).1
  have hseq := hI.seq
  by_cases hclosed : g.phase = .closed
  · refine .beyond hclosed ?_
    rcases (hI.sound id g hg).reached_bound hI.numbered with hr | hr
    · rwa [hr]
    · show g.reached < ((s.hub.seq + 1 : Nat) : Int)
      omega
  · obtain ⟨sub, hs⟩ := hR id g hg hclosed
    have hL := hI.linked id g sub hg hs
    have hlt : sub.lastSeq < ((s.hub.stamp method data ns ts eid now).seq : Int) := by
      have : (s.hub.stamp method data ns ts eid now).seq = s.hub.seq + 1 := rfl
      rcases hL.fresh with hf | hf <;> omega
    have hm := (hL.matches_iff _).mpr ⟨hlt, hw⟩
    have hroom : sub.full = false := by
      simpa only [punctures, (late_iff hg).mpr hlate, findsFull, hs, hm, hc, hring, decide_true,
        Bool.true_and, Bool.and_true] using hok
    rw [hs]
    refine .queued rfl ?_ (by rwa [Subscription.offer_lastSeq])
    rw [Subscription.offer_queue, if_pos ⟨hm, hroom⟩]
    exact List.mem_append_right _ (List.mem_singleton_self _)

/-- The step lemma. -/
theorem covered_step (hI : s.Inv) (hR : s.Registered) (hC : s.Covered id c N)
    (hok : s.punctures id c N a = false) (h : s.step a = some s') : s'.Covered id c N := by
  intro hN g' hg' hlate' e he hring hc hw
  have hlog : s.hub.seq ≤ s'.hub.seq ∧ s'.hub.replaySize = s.hub.replaySize := by
    rcases step_log h with ⟨_, _, _, _, _, _, -, rfl⟩ | ⟨_, _, _, -, rfl⟩ | ⟨-, hlog⟩
    · exact ⟨Nat.le_succ _, rfl⟩
    · exact ⟨Nat.le_refl _, rfl⟩
    · exact ⟨Nat.le_of_eq hlog.2.1.symm, hlog.1⟩
  obtain ⟨hle, hsize⟩ := hlog
  rw [hsize] at hring
  obtain ⟨g, hg, hlate | hrep | ⟨hearly, hpub, hclosed, hdel, hstart⟩⟩ := late_origin h hg' hlate'
  · obtain ⟨g'', hg'', -, hwants, hmove⟩ := lateMove_of_step hI h hg hlate
    obtain rfl := Option.some.inj (hg'.symm.trans hg'')
    by_cases hold : e ∈ s.published
    · exact held_of_lateMove hI hg hmove
        (hC (by omega) g hg hlate e hold hring hc (hwants ▸ hw))
    · -- the envelope is the one this step publishes
      rcases step_log h with ⟨m, d, ns, ts, eid, now, rfl, rfl⟩ | ⟨_, _, _, -, rfl⟩ | ⟨-, hlog⟩
      · obtain rfl := Option.some.inj (hg.symm.trans hg')
        rcases List.mem_append.mp he with hmem | hmem
        · exact absurd hmem hold
        · obtain rfl := List.mem_singleton.mp hmem
          have hsub : (s.publish m d ns ts eid now).hub.subscribers.get? id =
              (s.hub.subscribers.get? id).map
                (Subscription.offer (s.hub.stamp m d ns ts eid now)) :=
            Dict.get?_mapVals _ s.hub.subscribers id
          rw [hsub]
          exact held_of_publish hI hR hok hg hlate hring hc hw
      · exact absurd he hold
      · rw [hlog.2.2.2.1] at he
        exact absurd he hold
  · exact .committed (held_of_replay hI h hrep hg hg' he (by omega) hw).1
  · -- it ended before its replay pass, with nothing delivered
    refine .beyond hclosed ?_
    rw [Gen.reached_of_nil (hdel.trans ((hI.sound id g hg).early hearly))]
    exact ((g'.wants_iff e).mp hw).1

/-- A hole: the envelope is in the log and asked for, and gone for the client. -/
theorem missed_of_punctures (hI : s.Inv) (h : s.step a = some s')
    (hok : s.punctures id c N a = true) :
    ∃ e g, e ∈ s'.published ∧ (e.seq : Int) ≤ c ∧ N < e.seq + s.hub.replaySize ∧
      s'.gens.get? id = some g ∧ ¬g.phase.Early ∧ g.wants e = true ∧
      g.Missed e (s'.hub.subscribers.get? id) := by
  simp only [punctures, Bool.and_eq_true, decide_eq_true_eq] at hok
  obtain ⟨⟨⟨hlate, hfull⟩, hc⟩, hring⟩ := hok
  cases a with
  | publish m d ns ts eid now =>
      obtain rfl := Option.some.inj h
      obtain ⟨g, hg⟩ : ∃ g, s.gens.get? id = some g := by
        unfold late at hlate
        split at hlate
        · next g hg => exact ⟨g, hg⟩
        · cases hlate
      obtain ⟨sub, hs⟩ : ∃ sub, s.hub.subscribers.get? id = some sub := by
        unfold findsFull at hfull
        dsimp only at hfull
        split at hfull
        · next sub hs => exact ⟨sub, hs⟩
        · cases hfull
      simp only [findsFull, hs, Bool.and_eq_true] at hfull
      have hL := hI.linked id g sub hg hs
      have hnew : ∀ e ∈ s.published, e.seq ≠ s.hub.seq + 1 := by
        intro e he
        have := (hI.numbered.bounds he).2
        have := hI.seq
        omega
      have hsub : (s.publish m d ns ts eid now).hub.subscribers.get? id =
          some (sub.offer (s.hub.stamp m d ns ts eid now)) := by
        refine (Dict.get?_mapVals _ s.hub.subscribers id).trans ?_
        rw [hs]
        rfl
      refine ⟨s.hub.stamp m d ns ts eid now, g, List.mem_append_right _ (List.mem_singleton_self _),
        hc, hring, hg, (late_iff hg).mp hlate, ((hL.matches_iff _).mp hfull.1).2, ?_, ?_⟩
      · intro hin
        exact hnew _ ((hI.sound id g hg).wanted _ hin).1 rfl
      · intro sub' hs' hin
        rw [hsub] at hs'
        rw [← Option.some.inj hs', Subscription.offer_queue, hfull.2] at hin
        simp only [Bool.true_eq_false, and_false, if_false] at hin
        exact hnew _ (hL.wanted _ hin).1 rfl
  | subscribe => cases hfull
  | pull => cases hfull
  | heartbeat => cases hfull
  | close => cases hfull

end StreamHub

section Runs

variable {n id N : Nat} {c : Int} {s t : StreamHub δ}

/-- The run lemma: without a hole everything up to the client's cursor is safe. -/
theorem covered_of_reachable
    (h : (streamSys δ n).ReachableVia (fun s a => s.punctures id c N a = false) s) :
    s.Covered id c N := by
  refine h.induct (P := fun s => s.Covered id c N) ?_ ?_
  · rintro _ rfl _ g hg
    cases hg
  · intro s a s' hr hC hok hstep
    exact StreamHub.covered_step (inv_of_reachable hr) (registered_of_reachable hr) hC hok hstep

/-- What is gone stays gone. -/
theorem missed_of_reaches (ht : (streamSys δ n).Reachable t) (h : (streamSys δ n).Reaches t s)
    {e : Envelope δ} (he : e ∈ t.published) {g : Gen δ} (hg : t.gens.get? id = some g)
    (hlate : ¬g.phase.Early) (hmiss : g.Missed e (t.hub.subscribers.get? id)) :
    ∃ g', s.gens.get? id = some g' ∧ ¬g'.phase.Early ∧ g'.wants = g.wants ∧
      g'.Missed e (s.hub.subscribers.get? id) := by
  induction h with
  | refl => exact ⟨g, hg, hlate, rfl, hmiss⟩
  | @tail u v a hr _ hstep ih =>
      obtain ⟨g₁, hg₁, hlate₁, hw₁, hmiss₁⟩ := ih
      have hI : u.Inv := inv_of_reachable (ht.trans hr)
      obtain ⟨g₂, hg₂, hlate₂, hw₂, hmove⟩ := StreamHub.lateMove_of_step hI hstep hg₁ hlate₁
      exact ⟨g₂, hg₂, hlate₂, hw₂.trans hw₁,
        StreamHub.missed_of_lateMove hI hmove (published_mono hr he) hmiss₁⟩

/-- What is committed is delivered in time, if the response stays open. -/
theorem committed_of_reaches (ht : (streamSys δ n).Reachable t)
    (h : (streamSys δ n).Reaches t s) {g : Gen δ} (hg : t.gens.get? id = some g)
    (hlate : ¬g.phase.Early) :
    ∃ g', s.gens.get? id = some g' ∧ ¬g'.phase.Early ∧ g'.wants = g.wants ∧
      (g'.phase = .closed ∨ ∀ e ∈ g.committed, e ∈ g'.committed) := by
  induction h with
  | refl => exact ⟨g, hg, hlate, rfl, .inr fun _ he => he⟩
  | @tail u v a hr _ hstep ih =>
      obtain ⟨g₁, hg₁, hlate₁, hw₁, hc₁⟩ := ih
      have hI : u.Inv := inv_of_reachable (ht.trans hr)
      obtain ⟨g₂, hg₂, hlate₂, hw₂, hmove⟩ := StreamHub.lateMove_of_step hI hstep hg₁ hlate₁
      refine ⟨g₂, hg₂, hlate₂, hw₂.trans hw₁, ?_⟩
      by_cases hclosed : g₂.phase = .closed
      · exact .inl hclosed
      · right
        intro e he
        have hbefore : g₁.phase = .closed ∨ e ∈ g₁.committed := hc₁.imp_right fun hc => hc e he
        exact (StreamHub.committed_of_lateMove hmove hbefore).resolve_left hclosed

end Runs

/-- A client of the response `id` comes back: after the schedule `acts`, in state `s`, the
response `id'` it has opened with the same filter and its cursor is about to replay, and in
state `t` it has replayed and waits for new events. -/
structure Reconnects (n : Nat) (acts : List (StreamAct δ)) (id id' : Nat) (s t : StreamHub δ)
    (g g' : Gen δ) : Prop where
  run : (streamSys δ n).run (.new n) acts = some s
  first : s.gens.get? id = some g
  second : ∃ g₀, s.gens.get? id' = some g₀ ∧ g₀.phase = .connected ∧
    g₀.channels = g.channels ∧ g₀.namespaces = g.namespaces ∧ g₀.start = g.reached
  replayed : ∃ u, s.step (.pull id') = some u ∧ (streamSys δ n).Reaches u t
  live : t.gens.get? id' = some g' ∧ g'.phase = .live

/-- What the ring held at the second replay, and the client asked for at first, was
delivered by one of the two responses. -/
def Recovered (s : StreamHub δ) (g g' : Gen δ) : Prop :=
  ∀ e ∈ s.hub.buffer, g.wants e = true → e ∈ g.delivered ∨ e ∈ g'.delivered

section Reconnects

variable {n id id' : Nat} {acts : List (StreamAct δ)} {s t : StreamHub δ} {g g' : Gen δ}

/-- The second response delivers what the ring holds past the client's cursor, and nothing
up to it. -/
theorem Reconnects.second_delivered (h : Reconnects n acts id id' s t g g') {e : Envelope δ} :
    (e ∈ s.hub.buffer → g.passes e = true → g.reached < (e.seq : Int) → e ∈ g'.delivered) ∧
      (e ∈ g'.delivered → g.reached < (e.seq : Int)) := by
  obtain ⟨g₀, hg₀, hp, hchannels, hnamespaces, hstart⟩ := h.second
  obtain ⟨u, hstep, hut⟩ := h.replayed
  have hs : (streamSys δ n).Reachable s := TSys.reachable_of_run rfl h.run
  have hu : (streamSys δ n).Reachable u := hs.tail (a := .pull id') trivial hstep
  have hI : s.Inv := inv_of_reachable hs
  have hrep := StreamHub.replays_pull hg₀ hp
  obtain ⟨g₁, sub₁, hg₁, hs₁, hlate, -⟩ := StreamHub.exists_after_replay hstep hg₀ hp
  obtain ⟨sub₀, hs₀⟩ := registered_of_reachable hs id' g₀ hg₀ (by rw [hp]; simp)
  obtain ⟨-, -, hw₁, hcommitted, -⟩ := StreamHub.replay_step hI hstep hrep hg₀ hs₀ hg₁ hs₁
  obtain ⟨g₂, hg₂, -, hw₂, hkeeps⟩ := committed_of_reaches hu hut hg₁ hlate
  obtain rfl := Option.some.inj (hg₂.symm.trans h.live.1)
  have hwants : ∀ e, g₂.wants e = true ↔ g.reached < (e.seq : Int) ∧ g.passes e = true := by
    intro e
    rw [hw₂, hw₁, g₀.wants_iff, hstart, Gen.passes, Gen.passes, hchannels, hnamespaces]
  constructor
  · intro hbuf hpass hlt
    rw [← Gen.committed_live h.live.2]
    apply hkeeps.resolve_left (by rw [h.live.2]; simp) e
    have hL := hI.linked id' g₀ sub₀ hg₀ hs₀
    have hcursor : sub₀.lastSeq = g₀.start := hL.early (by rw [hp]; trivial)
    rw [hcommitted, List.mem_filter, hL.matches_iff, hcursor, hstart, ← hw₁, ← hw₂, hwants]
    exact ⟨hbuf, hlt, hlt, hpass⟩
  · intro hdel
    have hS := (inv_of_reachable (hu.trans hut)).sound id' g₂ hg₂
    exact ((hwants e).mp (hS.wanted e (List.mem_append_left _ hdel)).2).1

/-- A hole is in neither response. -/
theorem Reconnects.not_recovered (h : Reconnects n acts id id' s t g g') {u v : StreamHub δ}
    {a : StreamAct δ} (hu : (streamSys δ n).Reachable u) (hstep : u.step a = some v)
    (hvs : (streamSys δ n).Reaches v s) (hhole : u.punctures id g.reached s.hub.seq a = true) :
    ¬Recovered s g g' := by
  have hs : (streamSys δ n).Reachable s := TSys.reachable_of_run rfl h.run
  have hv : (streamSys δ n).Reachable v := hu.tail trivial hstep
  obtain ⟨e, g₁, he, hc, hring, hg₁, hlate, hw, hmiss⟩ :=
    StreamHub.missed_of_punctures (inv_of_reachable hu) hstep hhole
  obtain ⟨g₂, hg₂, -, hw₂, hmiss₂⟩ := missed_of_reaches hv hvs he hg₁ hlate hmiss
  obtain rfl := Option.some.inj (hg₂.symm.trans h.first)
  have hI : s.Inv := inv_of_reachable hs
  have hbuf : e ∈ s.hub.buffer := by
    rw [hI.buffer, hI.numbered.mem_window, replaySize_of_reachable hs, ← hI.seq]
    rw [replaySize_of_reachable hu] at hring
    exact ⟨published_mono hvs he, hring⟩
  intro hall
  rcases hall e hbuf (hw₂ ▸ hw) with hdel | hdel
  · exact hmiss₂.committed (List.mem_append_left _ hdel)
  · have := h.second_delivered.2 hdel
    omega

end Reconnects

/-- A client that reconnects from the last event it was delivered gets back everything it
asked for at first and the ring still holds, if and only if no publish was dropped for it,
past its first replay pass, at a seq up to its cursor that the ring still holds. -/
theorem recovered_iff (δ : Type u) (n : Nat) (acts : List (StreamAct δ)) (id id' : Nat)
    (s t : StreamHub δ) (g g' : Gen δ) (h : Reconnects n acts id id' s t g g') :
    Recovered s g g' ↔ (streamSys δ n).RunsVia
      (fun u a => u.punctures id g.reached s.hub.seq a = false) (.new n) acts := by
  have hs : (streamSys δ n).Reachable s := TSys.reachable_of_run rfl h.run
  have hI : s.Inv := inv_of_reachable hs
  constructor
  · intro hall
    by_contra hnot
    obtain ⟨u, a, v, hu, hstep, hhole, hvs⟩ := TSys.exists_step_of_not_runsVia h.run hnot
    rw [Bool.not_eq_false] at hhole
    exact h.not_recovered ⟨_, rfl, hu⟩ hstep hvs hhole hall
  · intro hok e hbuf hw
    obtain ⟨hstart, hpass⟩ := (g.wants_iff e).mp hw
    by_cases hlt : g.reached < (e.seq : Int)
    · exact .inr (h.second_delivered.1 hbuf hpass hlt)
    · left
      have hvia := TSys.reachesVia_of_run _ hok h.run
      have hcov := covered_of_reachable (N := s.hub.seq) (c := g.reached) ⟨_, rfl, hvia⟩
      have hS := hI.sound id g h.first
      rw [hI.buffer, hI.numbered.mem_window, ← hI.seq] at hbuf
      -- before its replay pass the client has been delivered nothing to be past
      have hlate : ¬g.phase.Early := by
        intro hearly
        rw [Gen.reached_of_nil (hS.early hearly)] at hlt
        exact hlt hstart
      have hheld := hcov (Nat.le_refl _) g h.first hlate e hbuf.1 hbuf.2 (by omega) hw
      exact hheld.delivered hS (fun sub hsub => hI.linked id g sub h.first hsub) (by omega)

/-- A client reads two of three events, disconnects, and comes back with cursor 2. -/
def reconnectSchedule : List (StreamAct Nat) :=
  [.publish "messages" 10 none none none 0, .subscribe none none none, .pull 0, .pull 0,
   .publish "messages" 20 none none none 0, .publish "messages" 30 none none none 0, .pull 0,
   .pull 0, .close 0, .subscribe none none (some 2), .pull 1]

def reconnectStart : StreamHub Nat :=
  ((streamSys Nat 4).run (.new 4) reconnectSchedule).getD (.new 4)

def reconnectEnd : StreamHub Nat :=
  ((streamSys Nat 4).run reconnectStart [.pull 1, .pull 1]).getD (.new 4)

theorem recovered_schedule :
    ∃ g g', reconnectStart.gens.get? 0 = some g ∧ reconnectEnd.gens.get? 1 = some g' ∧
      g.delivered.map Envelope.seq = [1, 2] ∧ g'.delivered.map Envelope.seq = [3] ∧
      Recovered reconnectStart g g' := by
  refine ⟨_, _, rfl, rfl, rfl, rfl, ?_⟩
  refine (recovered_iff Nat 4 reconnectSchedule 0 1 reconnectStart reconnectEnd _ _ ?_).mpr
    (by decide)
  refine ⟨rfl, rfl, ⟨_, rfl, rfl, rfl, rfl, rfl⟩, ⟨_, rfl, ?_⟩, rfl, rfl⟩
  exact TSys.reaches_of_run (show (streamSys Nat 4).run _ [.pull 1] = some _ from rfl)

/-! ## A queue that overflows -/

/-- The envelope `k` of a hub on which the same event is published over and over. -/
def tick (k : Nat) : Envelope Unit :=
  { eventId := "tick", seq := k, method := "messages", ns := [], timestamp := 0, data := () }

def tickAct : StreamAct Unit := .publish "messages" () none (some 0) (some "tick") 0

def ticks (N : Nat) : List (Envelope Unit) := (List.range' 1 N).map tick

/-- A subscription to everything, with this queue and cursor. -/
def slowSub (queue : List (Envelope Unit)) (lastSeq : Int) : Subscription Unit :=
  { queue, channels := none, namespaces := [], lastSeq }

/-- A hub of ring size `n` that has stamped `N` ticks, and one live response on it. -/
def ticking (n N : Nat) (queue : List (Envelope Unit)) (lastSeq : Int)
    (sent : List (Block Unit)) : StreamHub Unit :=
  { hub :=
      { replaySize := n
        seq := N
        buffer := Ring.window n (ticks N)
        subscribers := (∅ : Dict Nat (Subscription Unit)).set 0 (slowSub queue lastSeq) }
    gens := (∅ : Dict Nat (Gen Unit)).set 0
      { channels := none, namespaces := none, since := none, phase := .live, openedAt := 0, sent }
    nextSub := 1
    published := ticks N }

/-- The last block of a response is an event. -/
theorem Gen.reached_of_concat {g : Gen δ} {sent : List (Block δ)} {e : Envelope δ}
    (h : g.sent = sent ++ [.event e]) : g.reached = e.seq := by
  have hdel : g.delivered = sent.filterMap Gen.envelope? ++ [e] := by
    rw [Gen.delivered, h, List.filterMap_append]
    rfl
  rw [Gen.reached, hdel, List.getLast?_concat]
  rfl

section Ticking

variable {n N k : Nat} {queue : List (Envelope Unit)} {lastSeq : Int} {sent : List (Block Unit)}

theorem ticks_succ (N : Nat) : ticks (N + 1) = ticks N ++ [tick (N + 1)] := by
  rw [ticks, List.range'_concat, List.map_append, Nat.one_mul, Nat.add_comm 1 N]
  rfl

theorem mem_ticks {e : Envelope Unit} (h : e ∈ ticks N) : e.seq ≤ N := by
  obtain ⟨k, hk, rfl⟩ := List.mem_map.mp h
  rw [List.mem_range'] at hk
  obtain ⟨i, hi, rfl⟩ := hk
  show 1 + 1 * i ≤ N
  omega

theorem slowSub_matches {e : Envelope Unit} (h : lastSeq < (e.seq : Int)) :
    (slowSub queue lastSeq).matches e = true := by
  rw [Subscription.matches_iff]
  exact ⟨h, rfl⟩

theorem slowSub_offer {e : Envelope Unit} (h : lastSeq < (e.seq : Int)) :
    (slowSub queue lastSeq).offer e =
      slowSub (if queue.length < maxQueue then queue ++ [e] else queue) lastSeq := by
  have hfull : (slowSub queue lastSeq).full = true ↔ ¬queue.length < maxQueue := by
    rw [Nat.not_lt]
    exact decide_eq_true_iff
  unfold Subscription.offer Subscription.putNowait
  rw [slowSub_matches h, if_pos rfl]
  by_cases hroom : queue.length < maxQueue
  · rw [if_pos hroom, if_neg fun hf => hfull.mp hf hroom]
    rfl
  · rw [if_neg hroom, if_pos (hfull.mpr hroom)]

theorem ticking_publish (hlast : lastSeq ≤ N) :
    (ticking n N queue lastSeq sent).step tickAct = some (ticking n (N + 1)
      (if queue.length < maxQueue then queue ++ [tick (N + 1)] else queue) lastSeq sent) := by
  have hoffer : (slowSub queue lastSeq).offer (tick (N + 1)) = _ :=
    slowSub_offer (Int.lt_add_one_of_le hlast)
  have hring : Ring.push n (Ring.window n (ticks N)) (tick (N + 1)) =
      Ring.window n (ticks (N + 1)) := by
    rw [Ring.push_window, ticks_succ]
  unfold ticking
  rw [← hoffer, ← hring, ticks_succ]
  rfl

theorem ticking_pull {e : Envelope Unit} (h : lastSeq < (e.seq : Int)) :
    (ticking n N (e :: queue) lastSeq sent).step (.pull 0) =
      some (ticking n N queue e.seq (sent ++ [.event e])) :=
  congrArg some ((if_pos (slowSub_matches h)).trans rfl)

/-- Publishes into a queue with room for them. -/
theorem ticking_fill (hroom : queue.length + k ≤ maxQueue) (hlast : lastSeq ≤ N) :
    (streamSys Unit n).run (ticking n N queue lastSeq sent) (List.replicate k tickAct) =
      some (ticking n (N + k) (queue ++ (List.range' (N + 1) k).map tick) lastSeq sent) := by
  induction k generalizing N queue with
  | zero =>
      rw [List.range'_zero, List.map_nil, List.append_nil]
      rfl
  | succ k ih =>
      have hstep := @ticking_publish n N queue lastSeq sent hlast
      rw [if_pos (show queue.length < maxQueue by omega)] at hstep
      rw [List.replicate_succ, TSys.run_cons _ hstep, ih]
      · rw [List.range'_succ, List.map_cons, List.append_assoc, List.singleton_append,
          Nat.add_right_comm, Nat.add_assoc N k 1]
      · rw [List.length_append, List.length_singleton]
        omega
      · push_cast
        omega

/-- The whole queue is read. -/
theorem ticking_drain (hasc : Ascending Envelope.seq queue)
    (hahead : ∀ e ∈ queue, lastSeq < (e.seq : Int) ∧ e.seq ≤ N) (hlast : lastSeq ≤ N) :
    ∃ lastSeq' : Int, lastSeq' ≤ N ∧
      (streamSys Unit n).run (ticking n N queue lastSeq sent)
        (List.replicate queue.length (.pull 0)) =
      some (ticking n N [] lastSeq' (sent ++ queue.map .event)) := by
  induction queue generalizing lastSeq sent with
  | nil =>
      refine ⟨lastSeq, hlast, ?_⟩
      rw [List.map_nil, List.append_nil]
      rfl
  | cons e queue ih =>
      obtain ⟨hlt, hbound⟩ := hahead e List.mem_cons_self
      obtain ⟨hfirst, htail⟩ := List.pairwise_cons.mp hasc
      obtain ⟨lastSeq', hlast', hrun⟩ := @ih e.seq (sent ++ [.event e]) htail
        (fun e' he' => ⟨Int.ofNat_lt.mpr (hfirst e' he'),
          (hahead e' (List.mem_cons_of_mem _ he')).2⟩) (Int.ofNat_le.mpr hbound)
      refine ⟨lastSeq', hlast', ?_⟩
      rw [List.length_cons, List.replicate_succ, TSys.run_cons _ (ticking_pull hlt), hrun,
        List.map_cons, List.append_assoc, List.singleton_append]

end Ticking

/-- The client disconnects and comes back from tick `N`. -/
def comeBack (N : Nat) : List (StreamAct Unit) :=
  [.close 0, .subscribe none none (some (N : Int)), .pull 1]

/-- The state it comes back to, with everything it was sent. -/
def cameBack (n N : Nat) (sent : List (Block Unit)) : StreamHub Unit :=
  ((streamSys Unit n).run (ticking n N [] N sent) (comeBack N)).getD (.new n)

/-- A replay pass that finds nothing goes live at once. -/
theorem StreamHub.pull_of_replayed {s : StreamHub δ} {id : Nat} {g : Gen δ} {sub : Subscription δ}
    (hg : s.gens.get? id = some g) (hs : s.hub.subscribers.get? id = some sub)
    (hp : g.phase = .connected) (hnone : s.hub.buffer.filter sub.matches = []) :
    s.step (.pull id) = some ((s.setSub id sub).setGen id { g with phase := .live }) := by
  show s.pull id = _
  unfold StreamHub.pull
  simp only [hg, hs, hp, StreamHub.replayPass, ThreadEventHub.replay, hnone, Subscription.advance,
    List.getLast?_nil]

section ComeBack

variable {n N : Nat} {sent : List (Block Unit)}

theorem run_comeBack : (streamSys Unit n).run (ticking n N [] N sent) (comeBack N) =
    some (cameBack n N sent) := rfl

/-- The ring holds nothing past tick `N`. -/
theorem cameBack_pull : ∃ t g', (cameBack n N sent).step (.pull 1) = some t ∧
    t.gens.get? 1 = some g' ∧ g'.phase = .live := by
  have hnone : (Ring.window n (ticks N)).filter (slowSub [] (max (N : Int) 0)).matches = [] := by
    apply List.filter_eq_nil_iff.mpr
    intro e he hm
    have hle := mem_ticks (List.mem_of_mem_drop he)
    have hlt : max (N : Int) 0 < (e.seq : Int) := ((Subscription.matches_iff _ e).mp hm).1
    omega
  exact ⟨_, _, StreamHub.pull_of_replayed rfl rfl rfl hnone, Dict.get?_set_self _ _ _, rfl⟩

end ComeBack

theorem ticks_length (N : Nat) : (ticks N).length = N := by
  rw [ticks, List.length_map, List.length_range']

theorem ticks_ascending (N : Nat) : Ascending Envelope.seq (ticks N) := by
  apply List.pairwise_map.mpr
  exact List.pairwise_lt_range'

/-- The queue is full. -/
theorem overflow_fill (n : Nat) : (streamSys Unit n).run (.new n)
    ([.subscribe none none none, .pull 0, .pull 0] ++ List.replicate maxQueue tickAct) =
      some (ticking n maxQueue (ticks maxQueue) 0 [.connected]) := by
  have hstart : (streamSys Unit n).run (.new n) [.subscribe none none none, .pull 0, .pull 0] =
      some (ticking n 0 [] 0 [.connected]) := by
    have hempty : Ring.window n (ticks 0) = [] := Ring.window_nil n
    unfold ticking
    rw [hempty]
    rfl
  rw [TSys.run_append _ hstart, ticking_fill (by simp) (by simp), Nat.zero_add, List.nil_append]
  rfl

/-- One more tick is dropped. -/
theorem overflow_drop (n : Nat) :
    (ticking n maxQueue (ticks maxQueue) 0 [.connected]).step tickAct =
      some (ticking n (maxQueue + 1) (ticks maxQueue) 0 [.connected]) := by
  rw [ticking_publish (Int.natCast_nonneg _), ticks_length, if_neg (Nat.lt_irrefl _)]

/-- It leaves a hole in a ring of 500. -/
theorem overflow_hole : (ticking 500 maxQueue (ticks maxQueue) 0 [.connected]).punctures 0
    ((maxQueue + 2 : Nat) : Int) (maxQueue + 2) tickAct = true := by
  have hfull :
      (ticking 500 maxQueue (ticks maxQueue) 0 [.connected]).findsFull 0 tickAct = true := by
    show ((slowSub (ticks maxQueue) 0).matches (tick (maxQueue + 1)) &&
      decide (maxQueue ≤ (ticks maxQueue).length)) = true
    rw [ticks_length, slowSub_matches (Int.natCast_pos.mpr (Nat.succ_pos _)), Bool.true_and]
    exact decide_eq_true (Nat.le_refl _)
  have hlate : (ticking 500 maxQueue (ticks maxQueue) 0 [.connected]).late 0 = true := rfl
  unfold StreamHub.punctures
  rw [hfull, hlate]
  decide

/-- The client reads on, past the hole, and comes back. -/
theorem overflow_read (n : Nat) : ∃ sent, (streamSys Unit n).run
    (ticking n (maxQueue + 1) (ticks maxQueue) 0 [.connected])
    (List.replicate maxQueue (.pull 0) ++ (tickAct :: .pull 0 :: comeBack (maxQueue + 2))) =
      some (cameBack n (maxQueue + 2) (sent ++ [.event (tick (maxQueue + 2))])) := by
  obtain ⟨lastSeq, hlast, hdrain⟩ := @ticking_drain n (maxQueue + 1) (ticks maxQueue) 0
    [.connected] (ticks_ascending maxQueue)
    (fun e he => by
      obtain ⟨k, hk, rfl⟩ := List.mem_map.mp he
      rw [List.mem_range'] at hk
      obtain ⟨i, hi, rfl⟩ := hk
      show (0 : Int) < ((1 + 1 * i : Nat) : Int) ∧ 1 + 1 * i ≤ maxQueue + 1
      omega) (by omega)
  rw [ticks_length] at hdrain
  refine ⟨[.connected] ++ (ticks maxQueue).map .event, ?_⟩
  rw [TSys.run_append _ hdrain, TSys.run_cons _ (ticking_publish hlast),
    if_pos (show ([] : List (Envelope Unit)).length < maxQueue by decide), List.nil_append,
    TSys.run_cons _ (ticking_pull (Int.lt_add_one_of_le hlast))]
  exact run_comeBack

def overflowSchedule : List (StreamAct Unit) :=
  ([.subscribe none none none, .pull 0, .pull 0] ++ List.replicate maxQueue tickAct) ++
    (tickAct ::
      (List.replicate maxQueue (.pull 0) ++ (tickAct :: .pull 0 :: comeBack (maxQueue + 2))))

/-- The dropped tick is in neither response, and still in the ring. -/
theorem overflowed_event_lost :
    ¬∀ acts s t g g', Reconnects (δ := Unit) 500 acts 0 1 s t g g' → Recovered s g g' := by
  intro hall
  obtain ⟨sent, hread⟩ := overflow_read 500
  obtain ⟨t, g', ht, hg', hlive⟩ := @cameBack_pull 500 (maxQueue + 2)
    (sent ++ [.event (tick (maxQueue + 2))])
  have hreached : ∀ g : Gen Unit, g.sent = sent ++ [.event (tick (maxQueue + 2))] →
      g.reached = ((maxQueue + 2 : Nat) : Int) := fun g hg => Gen.reached_of_concat hg
  have hback : Reconnects 500 overflowSchedule 0 1
      (cameBack 500 (maxQueue + 2) (sent ++ [.event (tick (maxQueue + 2))])) t _ g' :=
    { run := by
        rw [overflowSchedule, TSys.run_append _ (overflow_fill 500),
          TSys.run_cons _ (overflow_drop 500), hread]
      first := rfl
      second := by
        refine ⟨_, rfl, rfl, rfl, rfl, ?_⟩
        rw [hreached _ rfl]
        exact Int.max_eq_left (Int.natCast_nonneg _)
      replayed := ⟨t, ht, .refl⟩
      live := ⟨hg', hlive⟩ }
  refine hback.not_recovered (TSys.reachable_of_run rfl (overflow_fill 500)) (overflow_drop 500)
    (TSys.reaches_of_run hread) ?_ (hall _ _ _ _ _ hback)
  rw [hreached _ rfl]
  exact overflow_hole

end AgentProtocol

import AgentProtocol.Hub.Retention

/-!
# Exact-once handoff from replay to live delivery

A subscription's events sit in the ring, in its queue, or in both, and two code
paths move its cursor. Whatever the interleaving, what is delivered ascends in
seq and is asked for; when no publish found the queue full and the ring still
reached back to the starting point at the replay pass, a drained subscription has
been delivered exactly what it asked for.
-/

namespace AgentProtocol

universe u

variable {δ : Type u}

namespace StreamHub

variable {s s' : StreamHub δ} {a : StreamAct δ} {id : Nat}

/-- If the action is the replay pass of `id`, the hub has stamped no more than
`replaySize` envelopes past the cursor the request starts from. -/
def ringReaches (id : Nat) (s : StreamHub δ) (a : StreamAct δ) : Bool :=
  !s.replays id a ||
    match s.gens.get? id with
    | some g => decide ((s.hub.seq : Int) - g.start ≤ s.hub.replaySize)
    | none => true

/-- When the ring reaches back to the starting cursor, the replay pass commits to
everything published so far that the request asks for. -/
theorem kept_of_ringReaches (hI : s.Inv) (h : s.step a = some s')
    (hrep : s.replays id a = true) (hok : s.ringReaches id a = true)
    {g g' : Gen δ} {sub sub' : Subscription δ} (hg : s.gens.get? id = some g)
    (hs : s.hub.subscribers.get? id = some sub) (hg' : s'.gens.get? id = some g')
    (hs' : s'.hub.subscribers.get? id = some sub') : g'.Kept 0 s'.published sub' := by
  obtain ⟨hp, hpub, hw, hc, -⟩ := replay_step hI h hrep hg hs hg' hs'
  have hL := hI.linked id g sub hg hs
  have hlast : sub.lastSeq = g.start := hL.early (by rw [hp]; trivial)
  have hreach : (s.hub.seq : Int) - g.start ≤ s.hub.replaySize := by
    simpa only [ringReaches, hrep, hg, Bool.not_true, Bool.false_or, decide_eq_true_eq]
      using hok
  intro e he _ hwe
  rw [hw] at hwe
  rw [hpub] at he
  have hstart := ((g.wants_iff e).mp hwe).1
  have hseq := hI.seq
  left
  rw [hc, List.mem_filter, hL.matches_iff, hI.buffer, hI.numbered.mem_window]
  exact ⟨⟨he, by omega⟩, by omega, hwe⟩

end StreamHub

/-- The run lemma: once past its replay pass, a subscription keeps everything it
asks for. -/
theorem kept_of_handoff {n id : Nat} {s : StreamHub δ}
    (h : (streamSys δ n).ReachableVia
      (fun s a => s.findsFull id a = false ∧ s.ringReaches id a = true) s) :
    ∀ g sub, s.gens.get? id = some g → s.hub.subscribers.get? id = some sub →
      ¬g.phase.Early → g.phase ≠ .closed → g.Kept 0 s.published sub := by
  refine h.induct (P := fun s => ∀ g sub, s.gens.get? id = some g →
    s.hub.subscribers.get? id = some sub → ¬g.phase.Early → g.phase ≠ .closed →
      g.Kept 0 s.published sub) ?_ ?_
  · rintro _ rfl g sub hg
    cases hg
  · intro s a s' hr hK hok hstep g' sub' hg' hs' hlate hopen
    have hI := inv_of_reachable hr
    rcases StreamHub.origin hI hstep hg' hs' with ⟨-, hp, -⟩ | ⟨g, sub, hg, hs, -, -, hcl, hearly⟩
    · rw [hp] at hlate
      exact absurd trivial hlate
    · cases hrep : s.replays id a with
      | true => exact StreamHub.kept_of_ringReaches hI hstep hrep hok.2 hg hs hg' hs'
      | false =>
          have hlate' : ¬g.phase.Early := by
            intro he
            rcases hearly he with h1 | h1 | h1
            · exact hlate h1
            · exact hopen h1
            · rw [hrep] at h1; cases h1
          have hopen' : g.phase ≠ .closed := fun h1 => hopen (hcl h1)
          exact StreamHub.kept_step hI hstep hok.1 hrep hg hs hg' hs'
            (hK g sub hg hs hlate' hopen')

/-- Exact-once handoff. First half: in every reachable state the delivered
envelopes of every response ascend strictly in seq, none twice, and each is a
published one that passes the filter with a seq past `max(since, 0)`. Second
half: in every run where no publish finds this subscription's queue full and its
replay pass finds at most `replay_size` envelopes past `max(since, 0)`, a live
response whose queue is drained has been delivered exactly the published envelopes
it asks for. -/
theorem handoff_exactly_once (δ : Type u) (n : Nat) :
    (∀ s, (streamSys δ n).Reachable s → ∀ id g, s.gens.get? id = some g →
      g.delivered.Pairwise (fun e e' => e.seq < e'.seq) ∧ g.delivered.Nodup ∧
        ∀ e ∈ g.delivered, e ∈ s.published ∧ g.passes e = true ∧
          max (g.since.getD 0) 0 < (e.seq : Int)) ∧
    (∀ id s, (streamSys δ n).ReachableVia
        (fun s a => s.findsFull id a = false ∧ s.ringReaches id a = true) s →
      ∀ g sub, s.gens.get? id = some g → s.hub.subscribers.get? id = some sub →
        g.phase = .live → sub.queue = [] →
        g.delivered = s.published.filter fun e =>
          decide (max (g.since.getD 0) 0 < (e.seq : Int)) && g.passes e) := by
  refine ⟨fun s hr id g hg => ?_, fun id s hr g sub hg hs hp hq => ?_⟩
  · have hS := (inv_of_reachable hr).sound id g hg
    have hasc : Ascending Envelope.seq g.delivered :=
      hS.ascending.sublist (List.sublist_append_left _ _)
    refine ⟨hasc, hasc.nodup, fun e he => ?_⟩
    obtain ⟨hmem, hw⟩ := hS.wanted e (List.mem_append_left _ he)
    obtain ⟨hseq, hpass⟩ := (g.wants_iff e).mp hw
    exact ⟨hmem, hpass, hseq⟩
  · have hI := inv_of_reachable hr
    have hS := hI.sound id g hg
    have hK := kept_of_handoff hr g sub hg hs (by rw [hp]; exact fun he => he)
      (by rw [hp]; simp)
    -- both sides ascend, so it is enough that they have the same members
    have hall : g.committed = s.published.filter g.wants := by
      refine Ascending.ext hS.ascending (hI.numbered.ascending.filter _) fun e => ?_
      rw [List.mem_filter]
      constructor
      · exact hS.wanted e
      · rintro ⟨hmem, hw⟩
        exact hK.committed_of_drained hq hmem (hI.numbered.bounds hmem).1 hw
    rw [Gen.committed_live hp] at hall
    exact hall

/-- A hub on which one response is opened between publishes,
pulled through its replay pass, and drained. -/
def handoffSchedule : List (StreamAct Nat) :=
  [.publish "messages" 10 none none none 0, .publish "values" 20 none none none 0,
   .subscribe (some ["messages"]) none (some 0), .pull 0,
   .publish "messages" 30 none none none 0, .publish "lifecycle" 40 none none none 0,
   .pull 0, .pull 0, .publish "messages" 50 none none none 0, .pull 0, .pull 0, .pull 0]

def handoffEnd (n : Nat) : StreamHub Nat :=
  ((streamSys Nat n).run (.new n) handoffSchedule).getD (.new n)

/-- On a hub of replay size 4 the schedule meets both conditions, and the response
is delivered the three `messages` envelopes. -/
theorem handoff_exactly_once_schedule :
    ∃ g, (handoffEnd 4).gens.get? 0 = some g ∧ g.delivered.map Envelope.seq = [1, 3, 5] ∧
      g.delivered = (handoffEnd 4).published.filter fun e =>
        decide (max (g.since.getD 0) 0 < (e.seq : Int)) && g.passes e := by
  have hrun : (streamSys Nat 4).run (.new 4) handoffSchedule = some (handoffEnd 4) := rfl
  have hr := TSys.reachesVia_of_run
    (fun s a => s.findsFull 0 a = false ∧ s.ringReaches 0 a = true) (by decide) hrun
  exact ⟨_, rfl, rfl,
    (handoff_exactly_once Nat 4).2 0 _ ⟨_, rfl, hr⟩ _ _ rfl rfl rfl rfl⟩

end AgentProtocol

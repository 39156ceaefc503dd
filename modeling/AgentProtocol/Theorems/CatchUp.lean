import AgentProtocol.Lib.Potential
import AgentProtocol.Theorems.Sessions

/-!
# A response catches up

How often a response can be pulled before it waits: its connected block, its replay pass, one pull
for each event it replays, and one for each event on its queue (`StreamHub.toPull`). A pull
takes one off, whether or not it yields an event, and a publish puts at most two on: one in
the ring and one on the queue. So no schedule keeps a response busy for longer than it
publishes, and where it waits, it has sent whatever it was to send.
-/

namespace AgentProtocol

universe u

variable {δ : Type u}

namespace GenPhase

/-- The pulls up to the queue loop, over a ring of this length. -/
def toPull (ring : Nat) : GenPhase δ → Nat
  | .created => ring + 2
  | .connected => ring + 1
  | .replaying rest => rest.length + 1
  | .live => 0
  | .closed => 0

/-- One more event in the ring is one more pull at most. -/
theorem toPull_le {ring ring' : Nat} (h : ring' ≤ ring + 1) (phase : GenPhase δ) :
    phase.toPull ring' ≤ phase.toPull ring + 1 := by
  cases phase <;> simp only [toPull] <;> omega

end GenPhase

/-- The action pulls this response. -/
def StreamAct.pulls (id : Nat) : StreamAct δ → Bool
  | .pull id' => id' == id
  | _ => false

theorem StreamAct.pulls_iff {id : Nat} {a : StreamAct δ} :
    a.pulls id = true ↔ a = .pull id := by
  cases a <;> simp [pulls]

namespace StreamHub

/-- The pulls of a response with its subscription. -/
def pairToPull (ring : Nat) : Option (Gen δ) → Option (Subscription δ) → Nat
  | some g, some sub => g.phase.toPull ring + sub.queue.length
  | _, _ => 0

/-- The pulls response `id` can take. One that is still to be opened takes those of its ring, of
at most `n` events. -/
def toPull (n id : Nat) (s : StreamHub δ) : Nat :=
  if s.nextSub ≤ id then n + 2
  else pairToPull s.hub.buffer.length (s.gens.get? id) (s.hub.subscribers.get? id)

variable {s s' : StreamHub δ} {a : StreamAct δ} {n id : Nat}

theorem length_buffer_le (hI : s.Inv) : s.hub.buffer.length ≤ s.hub.replaySize := by
  rw [hI.buffer, Ring.window, List.length_drop]
  omega

theorem length_offer (sub : Subscription δ) (e : Envelope δ) :
    (sub.offer e).queue.length ≤ sub.queue.length + 1 := by
  rw [Subscription.offer_queue]
  split
  · rw [List.length_append, List.length_singleton]
  · omega

theorem length_push {α : Type*} (cap : Nat) (buf : List α) (x : α) :
    (Ring.push cap buf x).length ≤ buf.length + 1 := by
  rw [Ring.push, List.length_drop, List.length_append, List.length_singleton]
  omega

/-- What happens to a response outside its pulls adds nothing, save a publish. -/
theorem pairToPull_le {g' : Option (Gen δ)} {sub' : Option (Subscription δ)} (ring : Nat)
    (hgs : GenStep s id a g' sub') (hpull : a.pulls id = false) (hpublish : a.isPublish = false)
    (hopen : id < s.nextSub) :
    pairToPull ring g' sub' ≤ pairToPull ring (s.gens.get? id) (s.hub.subscribers.get? id) := by
  have hnot : ¬((StreamAct.pull id : StreamAct δ).pulls id = false) := by simp [StreamAct.pulls]
  cases hgs with
  | publish => cases hpublish
  | opened hid => omega
  | idle => exact Nat.le_refl _
  | connect => exact absurd hpull hnot
  | replayNone => exact absurd hpull hnot
  | replaySome => exact absurd hpull hnot
  | replayed => exact absurd hpull hnot
  | replayNext => exact absurd hpull hnot
  | read => exact absurd hpull hnot
  | skip => exact absurd hpull hnot
  | heartbeat hg hphase =>
      rw [hg]
      cases s.hub.subscribers.get? id with
      | none => exact Nat.le_refl _
      | some sub => simp [pairToPull, Gen.yield, hphase, GenPhase.toPull]
  | abandon hg hphase =>
      rw [hg]
      cases s.hub.subscribers.get? id with
      | none => exact Nat.le_refl _
      | some sub =>
          simp only [pairToPull, hphase, GenPhase.toPull]
          omega
  | finish => exact Nat.zero_le _

/-- A pull takes one off. -/
theorem pairToPull_pull (h : s.pull id = some s') :
    pairToPull s'.hub.buffer.length (s'.gens.get? id) (s'.hub.subscribers.get? id) + 1 ≤
      pairToPull s.hub.buffer.length (s.gens.get? id) (s.hub.subscribers.get? id) := by
  unfold pull at h
  split at h
  · next g sub hg hs =>
    rw [hg, hs]
    split at h
    · next hphase =>
      obtain rfl := Option.some.inj h
      simp only [setGen_gens, setGen_hub, if_true, hs, pairToPull, Gen.yield, hphase,
        GenPhase.toPull]
      omega
    · next hphase =>
      obtain rfl := Option.some.inj h
      -- at most the ring is replayed
      have hle := List.length_filter_le sub.matches s.hub.buffer
      cases hr : s.hub.buffer.filter sub.matches with
      | nil =>
          simp only [replayPass, ThreadEventHub.replay, hr, setGen_gens, setGen_hub, if_true,
            setSub_subscribers, pairToPull, hphase, GenPhase.toPull, Subscription.advance,
            List.getLast?_nil]
          omega
      | cons e rest =>
          rw [hr, List.length_cons] at hle
          have hqueue : (sub.advance (e :: rest)).queue = sub.queue := by
            unfold Subscription.advance
            split <;> rfl
          simp only [replayPass, ThreadEventHub.replay, hr, setGen_gens, setGen_hub, if_true,
            setSub_subscribers, pairToPull, Gen.yield, hphase, GenPhase.toPull, hqueue]
          omega
    · next hphase =>
      obtain rfl := Option.some.inj h
      simp only [setGen_gens, setGen_hub, if_true, hs, pairToPull, hphase, GenPhase.toPull,
        List.length_nil]
      omega
    · next e rest hphase =>
      obtain rfl := Option.some.inj h
      simp only [setGen_gens, setGen_hub, if_true, hs, pairToPull, Gen.yield, hphase,
        GenPhase.toPull, List.length_cons]
      omega
    · next hphase =>
      split at h
      · cases h
      · next e q hq =>
        obtain rfl := Option.some.inj h
        simp only [readQueue]
        split
        · simp only [setGen_gens, setGen_hub, if_true, setSub_subscribers, pairToPull, Gen.yield,
            hphase, GenPhase.toPull, hq, List.length_cons]
          omega
        · simp only [setSub_gens, setSub_subscribers, if_true, hg, pairToPull, hphase,
            GenPhase.toPull, hq, List.length_cons]
          omega
    · cases h
  · cases h

/-- A publish puts at most two on: one in the ring, and one on the queue. -/
theorem pairToPull_publish (cap : Nat) (buf : List (Envelope δ)) (e : Envelope δ)
    (g : Option (Gen δ)) (sub : Option (Subscription δ)) :
    pairToPull (Ring.push cap buf e).length g (sub.map (Subscription.offer e)) ≤
      pairToPull buf.length g sub + 2 := by
  cases g with
  | none => exact Nat.zero_le _
  | some g =>
      cases sub with
      | none => exact Nat.zero_le _
      | some sub =>
          have hring := g.phase.toPull_le (length_push cap buf e)
          have hqueue := length_offer sub e
          simp only [Option.map_some, pairToPull]
          omega

/-- The step lemma: a pull takes one off, a publish puts at most two on. -/
theorem toPull_step (hI : s.Inv) (hn : s.hub.replaySize = n) (h : s.step a = some s') :
    s'.toPull n id + (if a.pulls id then 1 else 0) ≤
      s.toPull n id + (if a.isPublish then 2 else 0) := by
  have hring := length_buffer_le hI
  by_cases hpull : a.pulls id = true
  · -- the response exists, since it is pulled
    obtain rfl := StreamAct.pulls_iff.mp hpull
    have h : s.pull id = some s' := h
    have hopen : id < s.nextSub := by
      cases hg : s.gens.get? id with
      | none => simp [pull, hg] at h
      | some g => exact hI.below id g hg
    have hstep := pairToPull_pull h
    have hsame : s'.nextSub = s.nextSub := by
      rcases step_log (a := .pull id) h with ⟨_, _, _, _, _, _, hact, -⟩ | ⟨_, _, _, hact, -⟩ |
        ⟨-, hlog⟩
      · cases hact
      · cases hact
      · exact hlog.2.2.2.2
    rw [if_pos hpull, toPull, toPull, hsame, if_neg (Nat.not_le.mpr hopen),
      if_neg (Nat.not_le.mpr hopen)]
    exact Nat.le_trans hstep (Nat.le_add_right _ _)
  rw [if_neg hpull]
  rw [Bool.not_eq_true] at hpull
  have hgs := step_gen h id
  rcases step_log h with ⟨m, d, ns, ts, eid, now, rfl, rfl⟩ |
    ⟨channels, namespaces, since, rfl, rfl⟩ | ⟨hpublish, hlog⟩
  · have hsub : (s.publish m d ns ts eid now).hub.subscribers.get? id =
        (s.hub.subscribers.get? id).map
          (Subscription.offer (s.hub.stamp m d ns ts eid now)) :=
      Dict.get?_mapVals _ s.hub.subscribers id
    show (if s.nextSub ≤ id then n + 2 else pairToPull (Ring.push _ _ _).length _ _) + 0 ≤ _ + 2
    rw [hsub, toPull]
    split
    · omega
    · exact pairToPull_publish _ _ _ _ _
  · show (if s.nextSub + 1 ≤ id then n + 2 else pairToPull s.hub.buffer.length _ _) + 0 ≤ _
    rw [toPull]
    by_cases hopen : id < s.nextSub
    · rw [if_neg (by omega), if_neg (by omega)]
      exact Nat.le_trans (pairToPull_le _ hgs hpull rfl hopen) (Nat.le_add_right _ _)
    · rw [if_pos (by omega : s.nextSub ≤ id)]
      split
      · omega
      · -- it is opened by this step, over the ring as it is
        have hid : s.nextSub = id := by omega
        subst hid
        have hg : (s.subscribe channels namespaces since).gens.get? s.nextSub = some _ :=
          Dict.get?_set_self _ _ _
        have hs : (s.subscribe channels namespaces since).hub.subscribers.get? s.nextSub = some _ :=
          Dict.get?_set_self _ _ _
        rw [hg, hs]
        simp only [pairToPull, GenPhase.toPull, ThreadEventHub.newSubscription, List.length_nil]
        omega
  · rw [toPull, toPull, hlog.2.2.2.2]
    split
    · omega
    · rw [hlog.2.2.1]
      exact Nat.le_trans (pairToPull_le _ hgs hpull hpublish (by omega)) (Nat.le_add_right _ _)

/-- A response that cannot be pulled waits at its queue. -/
theorem waits_of_pull_none {g : Gen δ} {sub : Subscription δ} (h : s.pull id = none)
    (hg : s.gens.get? id = some g) (hs : s.hub.subscribers.get? id = some sub)
    (hopen : g.phase ≠ .closed) : g.phase = .live ∧ sub.queue = [] := by
  simp only [pull, hg, hs] at h
  cases hphase : g.phase with
  | created => simp [hphase] at h
  | connected => simp [hphase] at h
  | replaying rest => cases rest <;> simp [hphase] at h
  | live =>
      cases hq : sub.queue with
      | nil => exact ⟨rfl, rfl⟩
      | cons e q => simp [hphase, hq] at h
  | closed => exact absurd hphase hopen

/-- What waits at its queue, and has all it asks for, has sent it. -/
theorem delivered_eq_of_waits {g : Gen δ} {sub : Subscription δ} (hI : s.Inv) (hA : s.HasAll id)
    (hg : s.gens.get? id = some g) (hs : s.hub.subscribers.get? id = some sub)
    (hlive : g.phase = .live) (hqueue : sub.queue = []) :
    g.delivered = s.published.filter g.wants := by
  have hS := hI.sound id g hg
  have hcommitted : g.committed = g.delivered := by
    rw [Gen.committed, hlive]
    exact List.append_nil _
  have hasc : Ascending Envelope.seq g.delivered :=
    hS.ascending.sublist (List.sublist_append_left _ _)
  refine Ascending.ext hasc (hI.numbered.ascending.filter _) fun e => ?_
  rw [List.mem_filter]
  constructor
  · intro he
    exact hS.wanted e (List.mem_append_left _ he)
  · rintro ⟨he, hw⟩
    have hlate : ¬g.phase.Early := by
      rw [hlive]
      exact fun h => h
    have hheld := hA g hg hlate e he hw
    rw [hs] at hheld
    cases hheld with
    | committed hc => rwa [hcommitted] at hc
    | queued heq hmem =>
        obtain rfl := Option.some.inj heq
        rw [hqueue] at hmem
        cases hmem
    | beyond hclosed =>
        rw [hlive] at hclosed
        cases hclosed

end StreamHub

/-- Pulls are paid for by what is published. -/
def pullPotential (δ : Type u) (n id : Nat) : (streamSys δ n).Potential where
  load := StreamHub.toPull n id
  credit a := if a.isPublish then 2 else 0
  cost a := if a.pulls id then 1 else 0
  pays hs hstep :=
    StreamHub.toPull_step (inv_of_reachable hs) (replaySize_of_reachable hs) hstep

/-- A response takes no more pulls than it has coming, and two for each event that is published
meanwhile. Where it can take none, it waits at its queue with the queue empty, and unless an
event was lost to it, it has sent everything that was published and that it asks for. Pulled
alone, it gets there. -/
theorem response_catches_up (δ : Type u) (n id : Nat) (s : StreamHub δ)
    (hs : (streamSys δ n).Reachable s) :
    (∀ as t, (streamSys δ n).run s as = some t →
      as.countP (StreamAct.pulls id) ≤ s.toPull n id + 2 * as.countP StreamAct.isPublish ∧
      (t.step (.pull id) = none → ∀ g, t.gens.get? id = some g → g.phase ≠ .closed →
        g.phase = .live ∧
        (∃ sub, t.hub.subscribers.get? id = some sub ∧ sub.queue = []) ∧
        ((streamSys δ n).ReachableVia (StreamHub.Lossless id) t →
          g.delivered = t.published.filter g.wants))) ∧
      ∃ k t, k ≤ s.toPull n id ∧
        (streamSys δ n).run s (List.replicate k (.pull id)) = some t ∧
        t.step (.pull id) = none := by
  let P := pullPotential δ n id
  have hworks : ∀ a : StreamAct δ, P.Works a ↔ a = .pull id := by
    intro a
    rw [← StreamAct.pulls_iff]
    show (if a.isPublish then 2 else 0) < (if a.pulls id then 1 else 0) ↔ _
    cases a with
    | pull id' => by_cases hid : id' = id <;> simp [StreamAct.isPublish, StreamAct.pulls, hid]
    | _ => simp [StreamAct.isPublish, StreamAct.pulls]
  have hbound : ∀ as t, (streamSys δ n).run s as = some t →
      as.countP (StreamAct.pulls id) ≤ s.toPull n id + 2 * as.countP StreamAct.isPublish := by
    intro as t hrun
    have hle := P.run_le hs hrun
    have hcost : (as.map P.cost).sum = as.countP (StreamAct.pulls id) :=
      (sum_map_ite (StreamAct.pulls id) 1 as).trans (Nat.one_mul _)
    have hcredit : (as.map P.credit).sum = 2 * as.countP StreamAct.isPublish :=
      sum_map_ite StreamAct.isPublish 2 as
    rw [hcost, hcredit] at hle
    exact Nat.le_trans (Nat.le_add_left _ _) hle
  refine ⟨fun as t hrun => ⟨hbound as t hrun, fun hnone g hg hopen => ?_⟩, ?_⟩
  · have ht := hs.trans (TSys.reaches_of_run hrun)
    obtain ⟨sub, hsub⟩ := registered_of_reachable ht id g hg hopen
    obtain ⟨hlive, hqueue⟩ := StreamHub.waits_of_pull_none hnone hg hsub hopen
    refine ⟨hlive, ⟨sub, hsub, hqueue⟩, fun hlossless => ?_⟩
    exact StreamHub.delivered_eq_of_waits (inv_of_reachable ht)
      (StreamHub.hasAll_of_reachable hlossless) hg hsub hlive hqueue
  · obtain ⟨as, t, hrun, hall, hsettled⟩ := P.exists_settled hs
    have hpulls : ∀ a ∈ as, a = .pull id := fun a ha => (hworks a).mp (hall a ha)
    have has : as = List.replicate as.length (.pull id) :=
      List.eq_replicate_iff.mpr ⟨rfl, hpulls⟩
    refine ⟨as.length, t, ?_, has ▸ hrun, hsettled (.pull id) ((hworks _).mpr rfl)⟩
    have hle := hbound as t hrun
    have hcount : as.countP (StreamAct.pulls id) = as.length :=
      List.countP_eq_length.mpr fun a ha => StreamAct.pulls_iff.mpr (hpulls a ha)
    have hpublish : as.countP StreamAct.isPublish = 0 := by
      rw [List.countP_eq_zero]
      intro a ha
      rw [hpulls a ha]
      exact Bool.false_ne_true
    omega

/-- One event before the request and one after it, and nothing pulled yet. -/
def opened : List (StreamAct Nat) :=
  [.publish "messages" 10 none none none 0, .subscribe none none none,
   .publish "values" 20 none none none 0]

def openedEnd : StreamHub Nat := ((streamSys Nat 4).run (.new 4) opened).getD (.new 4)

/-- Both are sent out of the ring, and the copy on the queue is skipped. -/
def pulledEnd : StreamHub Nat :=
  ((streamSys Nat 4).run openedEnd (List.replicate 5 (.pull 0))).getD (.new 4)

theorem response_catches_up_opened :
    openedEnd.toPull 4 0 = 5 ∧
      ∃ g, pulledEnd.gens.get? 0 = some g ∧ g.phase = .live ∧
        g.delivered = pulledEnd.published.filter g.wants := by
  have hopened : (streamSys Nat 4).run (.new 4) opened = some openedEnd := rfl
  have hpulled : (streamSys Nat 4).run openedEnd (List.replicate 5 (.pull 0)) =
      some pulledEnd := rfl
  have hwhole : (streamSys Nat 4).run (.new 4) (opened ++ List.replicate 5 (.pull 0)) =
      some pulledEnd := rfl
  have hok : (streamSys Nat 4).RunsVia (StreamHub.Lossless 0) (.new 4)
      (opened ++ List.replicate 5 (.pull 0)) := by decide
  obtain ⟨hall, -⟩ := response_catches_up Nat 4 0 openedEnd (TSys.reachable_of_run rfl hopened)
  obtain ⟨-, hwaits⟩ := hall _ pulledEnd hpulled
  have hg : ∃ g, pulledEnd.gens.get? 0 = some g ∧ g.phase ≠ .closed :=
    ⟨_, rfl, fun h => by cases h⟩
  obtain ⟨g, hg, hopen⟩ := hg
  obtain ⟨hlive, -, hsent⟩ := hwaits rfl g hg hopen
  refine ⟨by decide, g, hg, hlive, hsent ⟨_, rfl, TSys.reachesVia_of_run _ hok hwhole⟩⟩

end AgentProtocol

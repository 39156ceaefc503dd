import AgentProtocol.Hub.Retention

/-!
# What a client can still get back

A client knows the seq of the last event it was delivered (`Gen.reached`) and opens its
next subscription from there. So an envelope is safe when it is committed, when it is
queued ahead of the cursor, or when the response ended before it got that far
(`Gen.Held`). Past the replay pass nothing but a full queue takes an envelope out of
these three (`held_of_lateMove`), and an envelope that is in none of them, and behind the last
delivery, is gone for the client (`missed_of_lateMove`).
-/

namespace AgentProtocol

universe u

variable {δ : Type u}

namespace Gen

/-- The cursor of a client: the seq of the last event it was delivered, or the one its
request started from. -/
def reached (g : Gen δ) : Int :=
  (g.delivered.getLast?.map fun e => (e.seq : Int)).getD g.start

/-- The envelope is committed, or still to come, or ahead of where the response ended. -/
inductive Held (e : Envelope δ) (g : Gen δ) (sub : Option (Subscription δ)) : Prop
  | committed : e ∈ g.committed → Held e g sub
  | queued {s : Subscription δ} : sub = some s → e ∈ s.queue → s.lastSeq < (e.seq : Int) →
      Held e g sub
  | beyond : g.phase = .closed → g.reached < (e.seq : Int) → Held e g sub

/-- The envelope is neither committed nor queued. -/
structure Missed (e : Envelope δ) (g : Gen δ) (sub : Option (Subscription δ)) : Prop where
  committed : e ∉ g.committed
  queued : ∀ s, sub = some s → e ∉ s.queue

section Reached

variable {P : List (Envelope δ)} {g : Gen δ} {sub : Subscription δ} {e : Envelope δ}

theorem reached_of_nil (h : g.delivered = []) : g.reached = g.start := by
  rw [reached, h]
  rfl

/-- What is still to be replayed is past the client's cursor. -/
theorem Sound.reached_lt_of_rest (h : g.Sound P) (he : e ∈ g.phase.rest) :
    g.reached < (e.seq : Int) := by
  have hw := (h.wanted e (List.mem_append_right _ he)).2
  cases hlast : g.delivered.getLast? with
  | none =>
      rw [reached, hlast]
      exact ((g.wants_iff e).mp hw).1
  | some last =>
      rw [reached, hlast]
      have hasc := (ascending_append.mp h.ascending).2.2
      exact Int.ofNat_lt.mpr (hasc last (List.mem_of_getLast? hlast) e he)

/-- The cursor of the subscription is at the client's or ahead of it. -/
theorem Linked.reached_le (h : g.Linked P sub) : g.reached ≤ sub.lastSeq := by
  cases hlast : g.delivered.getLast? with
  | none =>
      rw [reached, hlast]
      exact h.start_le
  | some last =>
      rw [reached, hlast]
      exact h.cursor last (List.mem_append_left _ (List.mem_of_getLast? hlast))

/-- The client's cursor lies in the log, or is where it started. -/
theorem Sound.reached_bound (h : g.Sound P) (hP : Numbered Envelope.seq P) :
    g.reached = g.start ∨ g.reached ≤ (P.length : Int) := by
  cases hlast : g.delivered.getLast? with
  | none =>
      rw [reached, hlast]
      exact .inl rfl
  | some last =>
      rw [reached, hlast]
      have hmem := (h.wanted last (List.mem_append_left _ (List.mem_of_getLast? hlast))).1
      exact .inr (Int.ofNat_le.mpr (hP.bounds hmem).2)

/-- A held envelope that the client's cursor has passed was delivered. -/
theorem Held.delivered {so : Option (Subscription δ)} (hheld : Held e g so) (h : g.Sound P)
    (hL : ∀ sub, so = some sub → g.Linked P sub) (hle : (e.seq : Int) ≤ g.reached) :
    e ∈ g.delivered := by
  cases hheld with
  | committed he =>
      rcases List.mem_append.mp he with hd | hrest
      · exact hd
      · have := h.reached_lt_of_rest hrest
        omega
  | queued hs _ hlt =>
      have := (hL _ hs).reached_le
      omega
  | beyond _ hlt => omega

end Reached

end Gen

namespace StreamHub

variable {s s' : StreamHub δ} {a : StreamAct δ} {id : Nat} {e : Envelope δ} {g : Gen δ}

/-- Generator and subscription after a step of a generator that is past its replay pass. -/
inductive LateMove (s : StreamHub δ) (id : Nat) (g : Gen δ) :
    Gen δ → Option (Subscription δ) → Prop
  | offer {x : Envelope δ} : x.seq = s.hub.seq + 1 →
      LateMove s id g g ((s.hub.subscribers.get? id).map (Subscription.offer x))
  /-- nothing new is committed -/
  | stay {g' : Gen δ} : g'.committed = g.committed → (g.phase = .closed → g' = g) →
      LateMove s id g g' (s.hub.subscribers.get? id)
  | read {sub : Subscription δ} {x : Envelope δ} {q : List (Envelope δ)} :
      s.hub.subscribers.get? id = some sub → g.phase = .live → sub.queue = x :: q →
      LateMove s id g (g.yield (.event x) .live) (some { sub with queue := q, lastSeq := x.seq })
  | skip {sub : Subscription δ} {x : Envelope δ} {q : List (Envelope δ)} :
      s.hub.subscribers.get? id = some sub → sub.queue = x :: q → sub.matches x = false →
      LateMove s id g g (some { sub with queue := q })
  | finish : g.phase ≠ .closed → LateMove s id g { g with phase := .closed } none

theorem lateMove_of_step (hI : s.Inv) (h : s.step a = some s') (hg : s.gens.get? id = some g)
    (hlate : ¬g.phase.Early) :
    ∃ g', s'.gens.get? id = some g' ∧ ¬g'.phase.Early ∧ g'.wants = g.wants ∧
      s.LateMove id g g' (s'.hub.subscribers.get? id) := by
  have hgs := step_gen h id
  generalize s'.gens.get? id = go at hgs ⊢
  generalize s'.hub.subscribers.get? id = so at hgs ⊢
  -- the moves that lead up to the replay pass are not this generator's
  have hearly : ∀ {g₀ : Gen δ}, s.gens.get? id = some g₀ → ¬g₀.phase.Early := by
    intro g₀ hg₀
    rwa [← Option.some.inj (hg.symm.trans hg₀)]
  cases hgs with
  | publish => exact ⟨g, hg, hlate, rfl, .offer rfl⟩
  | opened hk => exact absurd (hI.below id g hg) (by omega)
  | idle => exact ⟨g, hg, hlate, rfl, .stay rfl fun _ => rfl⟩
  | connect hg₀ _ hp => exact absurd (by rw [hp]; trivial) (hearly hg₀)
  | replayNone hg₀ _ hp => exact absurd (by rw [hp]; trivial) (hearly hg₀)
  | replaySome hg₀ _ hp => exact absurd (by rw [hp]; trivial) (hearly hg₀)
  | abandon hg₀ hp => exact absurd (by rw [hp]; trivial) (hearly hg₀)
  | replayed hg₀ hs₀ hp =>
      obtain rfl := Option.some.inj (hg.symm.trans hg₀)
      refine ⟨_, rfl, fun he => he, rfl, ?_⟩
      rw [← hs₀]
      refine .stay (Gen.committed_goLive (by rw [hp]; rfl)) ?_
      rw [hp]
      simp
  | replayNext hg₀ hs₀ hp =>
      obtain rfl := Option.some.inj (hg.symm.trans hg₀)
      refine ⟨_, rfl, fun he => he, rfl, ?_⟩
      rw [← hs₀]
      refine .stay (Gen.committed_replayNext hp) ?_
      rw [hp]
      simp
  | heartbeat hg₀ hp =>
      obtain rfl := Option.some.inj (hg.symm.trans hg₀)
      refine ⟨_, rfl, fun he => he, rfl, .stay (Gen.committed_heartbeat hp) ?_⟩
      rw [hp]
      simp
  | read hg₀ hs₀ hp hq _ =>
      obtain rfl := Option.some.inj (hg.symm.trans hg₀)
      exact ⟨_, rfl, fun he => he, rfl, .read hs₀ hp hq⟩
  | skip hg₀ hs₀ _ hq hm =>
      obtain rfl := Option.some.inj (hg.symm.trans hg₀)
      exact ⟨_, rfl, hlate, rfl, .skip hs₀ hq hm⟩
  | finish hg₀ _ hp' =>
      obtain rfl := Option.some.inj (hg.symm.trans hg₀)
      exact ⟨_, rfl, fun he => he, rfl, .finish hp'⟩

/-- The step lemma of what is safe. -/
theorem held_of_lateMove (hI : s.Inv) (hg : s.gens.get? id = some g) {g' : Gen δ}
    {so : Option (Subscription δ)} (hmove : s.LateMove id g g' so)
    (hheld : g.Held e (s.hub.subscribers.get? id)) : g'.Held e so := by
  cases hmove with
  | offer hx =>
      cases hheld with
      | committed he => exact .committed he
      | beyond hp hlt => exact .beyond hp hlt
      | queued hs he hlt =>
          refine .queued (by rw [hs]; rfl) ?_ (by rwa [Subscription.offer_lastSeq])
          rw [Subscription.offer_queue]
          split
          · exact List.mem_append_left _ he
          · exact he
  | stay hc hclosed =>
      cases hheld with
      | committed he => exact .committed (hc ▸ he)
      | queued hs he hlt => exact .queued hs he hlt
      | beyond hp hlt =>
          rw [hclosed hp]
          exact .beyond hp hlt
  | @read sub x q hs₀ hp hq =>
      have hasc := (hI.linked id g sub hg hs₀).ascending
      rw [hq] at hasc
      cases hheld with
      | committed he =>
          refine .committed ?_
          rw [Gen.committed_read hp]
          exact List.mem_append_left _ he
      | queued hs he hlt =>
          obtain rfl := Option.some.inj (hs₀.symm.trans hs)
          rw [hq] at he
          rcases List.mem_cons.mp he with rfl | he
          · refine .committed ?_
            rw [Gen.committed_read hp]
            exact List.mem_append_right _ (List.mem_singleton_self _)
          · exact .queued rfl he (Int.ofNat_lt.mpr ((List.pairwise_cons.mp hasc).1 e he))
      | beyond hp' _ =>
          rw [hp] at hp'
          cases hp'
  | @skip sub x q hs₀ hq hm =>
      have hL := hI.linked id g sub hg hs₀
      cases hheld with
      | committed he => exact .committed he
      | beyond hp hlt => exact .beyond hp hlt
      | queued hs he hlt =>
          obtain rfl := Option.some.inj (hs₀.symm.trans hs)
          have hw := (hL.wanted e he).2
          rw [hq] at he
          rcases List.mem_cons.mp he with rfl | he
          · -- what is skipped is behind the cursor
            rw [(hL.matches_iff e).mpr ⟨hlt, hw⟩] at hm
            cases hm
          · exact .queued rfl he hlt
  | finish hopen =>
      have hS := hI.sound id g hg
      cases hheld with
      | committed he =>
          rcases List.mem_append.mp he with hd | hrest
          · exact .committed (List.mem_append_left _ hd)
          · exact .beyond rfl (hS.reached_lt_of_rest hrest)
      | @queued sub hs he hlt =>
          have hle := (hI.linked id g sub hg hs).reached_le
          exact .beyond rfl (show g.reached < _ by omega)
      | beyond hp _ => exact absurd hp hopen

/-- The step lemma of what is gone: the log has it, so no later publish brings it back. -/
theorem missed_of_lateMove (hI : s.Inv) {g' : Gen δ} {so : Option (Subscription δ)}
    (hmove : s.LateMove id g g' so) (hpub : e ∈ s.published)
    (hmiss : g.Missed e (s.hub.subscribers.get? id)) : g'.Missed e so := by
  cases hmove with
  | @offer x hx =>
      refine ⟨hmiss.committed, fun sub' hs' hin => ?_⟩
      obtain ⟨sub, hs, rfl⟩ := Option.map_eq_some_iff.mp hs'
      rw [Subscription.offer_queue] at hin
      split at hin
      · rcases List.mem_append.mp hin with hin | hin
        · exact hmiss.queued sub hs hin
        · have hbound := (hI.numbered.bounds hpub).2
          have hseq := hI.seq
          rw [List.mem_singleton.mp hin] at hbound
          omega
      · exact hmiss.queued sub hs hin
  | stay hc _ => exact ⟨hc ▸ hmiss.committed, hmiss.queued⟩
  | @read sub x q hs hp hq =>
      have hnot := hmiss.queued sub hs
      rw [hq, List.mem_cons, not_or] at hnot
      refine ⟨?_, ?_⟩
      · rw [Gen.committed_read hp, List.mem_append, List.mem_singleton, not_or]
        exact ⟨hmiss.committed, hnot.1⟩
      · intro sub' hs'
        rw [← Option.some.inj hs']
        exact hnot.2
  | @skip sub x q hs hq _ =>
      have hnot := hmiss.queued sub hs
      rw [hq, List.mem_cons, not_or] at hnot
      refine ⟨hmiss.committed, fun sub' hs' => ?_⟩
      rw [← Option.some.inj hs']
      exact hnot.2
  | finish _ =>
      refine ⟨fun hin => hmiss.committed ?_, fun _ hs => by cases hs⟩
      rw [Gen.committed, show GenPhase.rest GenPhase.closed = ([] : List (Envelope δ)) from rfl,
        List.append_nil] at hin
      exact List.mem_append_left _ hin

/-- While the response is open, what is committed stays committed. -/
theorem committed_of_lateMove {g' : Gen δ} {so : Option (Subscription δ)}
    (hmove : s.LateMove id g g' so) (h : g.phase = .closed ∨ e ∈ g.committed) :
    g'.phase = .closed ∨ e ∈ g'.committed := by
  cases hmove with
  | offer => exact h
  | stay hc hclosed =>
      rcases h with hp | he
      · rw [hclosed hp]
        exact .inl hp
      · exact .inr (hc ▸ he)
  | read _ hp _ =>
      rcases h with hp' | he
      · rw [hp] at hp'
        cases hp'
      · rw [Gen.committed_read hp]
        exact .inr (List.mem_append_left _ he)
  | skip => exact h
  | finish => exact .inl rfl

/-- An open response is registered. -/
def Registered (s : StreamHub δ) : Prop :=
  ∀ id g, s.gens.get? id = some g → g.phase ≠ .closed →
    ∃ sub, s.hub.subscribers.get? id = some sub

theorem registered_step (hR : s.Registered) (h : s.step a = some s') : s'.Registered := by
  intro id g' hg' hopen
  have hgs := step_gen h id
  rw [hg'] at hgs
  generalize hgo : some g' = go at hgs
  generalize s'.hub.subscribers.get? id = so at hgs ⊢
  cases hgs with
  | publish =>
      obtain ⟨sub, hs⟩ := hR id g' hgo.symm hopen
      exact ⟨_, by rw [hs]; rfl⟩
  | idle => exact hR id g' hgo.symm hopen
  | heartbeat hg hp => exact hR id _ hg (by rw [hp]; simp)
  | abandon => rw [Option.some.inj hgo] at hopen; exact absurd rfl hopen
  | finish => rw [Option.some.inj hgo] at hopen; exact absurd rfl hopen
  | opened => exact ⟨_, rfl⟩
  | connect => exact ⟨_, rfl⟩
  | replayNone => exact ⟨_, rfl⟩
  | replaySome => exact ⟨_, rfl⟩
  | replayed => exact ⟨_, rfl⟩
  | replayNext => exact ⟨_, rfl⟩
  | read => exact ⟨_, rfl⟩
  | skip => exact ⟨_, rfl⟩

end StreamHub

theorem registered_of_reachable {n : Nat} {ok : StreamHub δ → StreamAct δ → Prop}
    {s : StreamHub δ} (h : (streamSys δ n).ReachableVia ok s) : s.Registered := by
  refine h.induct ?_ ?_
  · rintro _ rfl id g hg
    cases hg
  · intro s a s' _ hR _ hstep
    exact StreamHub.registered_step hR hstep

end AgentProtocol

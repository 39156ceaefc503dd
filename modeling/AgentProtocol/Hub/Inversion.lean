import AgentProtocol.Hub.Stream

/-!
# What one step can do to one generator

`GenStep s id a g' sub'` lists everything an action can do to generator `id` and
its subscription: nothing, a fan-out, the opening of the subscription, or one of
the generator's own moves. Every invariant about a subscription's life is a case
analysis on it (`step_gen`), together with `step_log` for the hub's own fields;
no later proof unfolds the step function.
-/

namespace AgentProtocol

universe u

variable {δ : Type u}

namespace StreamHub

/-- Generator `id` and its subscription after action `a` in state `s`. -/
inductive GenStep (s : StreamHub δ) (id : Nat) :
    StreamAct δ → Option (Gen δ) → Option (Subscription δ) → Prop
  | publish {method data ns ts eid now} :
      GenStep s id (.publish method data ns ts eid now) (s.gens.get? id)
        ((s.hub.subscribers.get? id).map
          (Subscription.offer (s.hub.stamp method data ns ts eid now)))
  | opened {channels namespaces since} : s.nextSub = id →
      GenStep s id (.subscribe channels namespaces since)
        (some { channels, namespaces, since, phase := .created,
                openedAt := s.hub.seq, sent := [] })
        (some (ThreadEventHub.newSubscription channels namespaces since))
  | idle {a} : a.isPublish = false →
      (∀ g, s.gens.get? id = some g → g.phase = .connected → a ≠ .pull id) →
      GenStep s id a (s.gens.get? id) (s.hub.subscribers.get? id)
  | connect {g sub} : s.gens.get? id = some g → s.hub.subscribers.get? id = some sub →
      g.phase = .created →
      GenStep s id (.pull id) (some (g.yield .connected .connected)) (some sub)
  | replayNone {g sub} : s.gens.get? id = some g → s.hub.subscribers.get? id = some sub →
      g.phase = .connected → s.hub.buffer.filter sub.matches = [] →
      GenStep s id (.pull id) (some { g with phase := .live }) (some sub)
  | replaySome {g sub e rest} : s.gens.get? id = some g →
      s.hub.subscribers.get? id = some sub → g.phase = .connected →
      s.hub.buffer.filter sub.matches = e :: rest →
      GenStep s id (.pull id) (some (g.yield (.event e) (.replaying rest)))
        (some (sub.advance (e :: rest)))
  | replayed {g sub} : s.gens.get? id = some g → s.hub.subscribers.get? id = some sub →
      g.phase = .replaying [] →
      GenStep s id (.pull id) (some { g with phase := .live }) (some sub)
  | replayNext {g sub e rest} : s.gens.get? id = some g →
      s.hub.subscribers.get? id = some sub → g.phase = .replaying (e :: rest) →
      GenStep s id (.pull id) (some (g.yield (.event e) (.replaying rest))) (some sub)
  | read {g sub e q} : s.gens.get? id = some g → s.hub.subscribers.get? id = some sub →
      g.phase = .live → sub.queue = e :: q → sub.lastSeq < (e.seq : Int) →
      GenStep s id (.pull id) (some (g.yield (.event e) .live))
        (some { sub with queue := q, lastSeq := e.seq })
  | skip {g sub e q} : s.gens.get? id = some g → s.hub.subscribers.get? id = some sub →
      g.phase = .live → sub.queue = e :: q → sub.matches e = false →
      GenStep s id (.pull id) (some g) (some { sub with queue := q })
  | heartbeat {g} : s.gens.get? id = some g → g.phase = .live →
      GenStep s id (.heartbeat id) (some (g.yield .heartbeat .live))
        (s.hub.subscribers.get? id)
  | abandon {g} : s.gens.get? id = some g → g.phase = .created →
      GenStep s id (.close id) (some { g with phase := .closed })
        (s.hub.subscribers.get? id)
  | finish {g} : s.gens.get? id = some g → g.phase ≠ .created → g.phase ≠ .closed →
      GenStep s id (.close id) (some { g with phase := .closed }) none

section Frames

variable (s : StreamHub δ) (id k : Nat)

@[simp] theorem setGen_gens (g : Gen δ) :
    (s.setGen id g).gens.get? k = if id = k then some g else s.gens.get? k :=
  Dict.get?_set s.gens id k g

@[simp] theorem setGen_hub (g : Gen δ) : (s.setGen id g).hub = s.hub := rfl

@[simp] theorem setGen_published (g : Gen δ) : (s.setGen id g).published = s.published := rfl

@[simp] theorem setGen_nextSub (g : Gen δ) : (s.setGen id g).nextSub = s.nextSub := rfl

@[simp] theorem setSub_subscribers (sub : Subscription δ) :
    (s.setSub id sub).hub.subscribers.get? k =
      if id = k then some sub else s.hub.subscribers.get? k :=
  Dict.get?_set s.hub.subscribers id k sub

@[simp] theorem setSub_gens (sub : Subscription δ) : (s.setSub id sub).gens = s.gens := rfl

@[simp] theorem setSub_published (sub : Subscription δ) :
    (s.setSub id sub).published = s.published := rfl

@[simp] theorem setSub_nextSub (sub : Subscription δ) :
    (s.setSub id sub).nextSub = s.nextSub := rfl

end Frames

/-- An own move of generator `id`, seen from any generator `k`: `id` gets the
new pair, every other one keeps its own. -/
private theorem genStep_of_pull {s s' : StreamHub δ} {id : Nat} (h : s.pull id = some s')
    (k : Nat) : GenStep s k (.pull id) (s'.gens.get? k) (s'.hub.subscribers.get? k) := by
  unfold pull at h
  cases hg : s.gens.get? id with
  | none => simp only [hg] at h; cases h
  | some g =>
  cases hs : s.hub.subscribers.get? id with
  | none => simp only [hg, hs] at h; cases h
  | some sub =>
  simp only [hg, hs] at h
  -- a pull of another generator leaves `k` alone
  have hidle : id ≠ k → s'.gens.get? k = s.gens.get? k →
      s'.hub.subscribers.get? k = s.hub.subscribers.get? k →
      GenStep s k (.pull id) (s'.gens.get? k) (s'.hub.subscribers.get? k) := by
    intro hne h1 h2
    rw [h1, h2]
    refine .idle ?_ ?_
    · rfl
    · intro _ _ _ hact
      injection hact with hact
      exact hne hact
  cases hp : g.phase with
  | created =>
      simp only [hp] at h
      obtain rfl := Option.some.inj h
      by_cases hk : id = k
      · subst hk
        simpa [hs] using GenStep.connect hg hs hp
      · exact hidle hk (by simp [hk]) (by simp)
  | connected =>
      simp only [hp] at h
      obtain rfl := Option.some.inj h
      cases hr : s.hub.buffer.filter sub.matches with
      | nil =>
          have hrep : s.replayPass id g sub =
              (s.setSub id sub).setGen id { g with phase := .live } := by
            simp only [replayPass, ThreadEventHub.replay, hr, Subscription.advance,
              List.getLast?_nil]
          rw [hrep] at hidle ⊢
          by_cases hk : id = k
          · subst hk
            simpa using GenStep.replayNone hg hs hp hr
          · exact hidle hk (by simp [hk]) (by simp [hk])
      | cons e rest =>
          have hrep : s.replayPass id g sub =
              (s.setSub id (sub.advance (e :: rest))).setGen id
                (g.yield (.event e) (.replaying rest)) := by
            simp only [replayPass, ThreadEventHub.replay, hr]
          rw [hrep] at hidle ⊢
          by_cases hk : id = k
          · subst hk
            simpa using GenStep.replaySome hg hs hp hr
          · exact hidle hk (by simp [hk]) (by simp [hk])
  | replaying rest =>
      cases rest with
      | nil =>
          simp only [hp] at h
          obtain rfl := Option.some.inj h
          by_cases hk : id = k
          · subst hk
            simpa [hs] using GenStep.replayed hg hs hp
          · exact hidle hk (by simp [hk]) (by simp)
      | cons e rest =>
          simp only [hp] at h
          obtain rfl := Option.some.inj h
          by_cases hk : id = k
          · subst hk
            simpa [hs] using GenStep.replayNext hg hs hp
          · exact hidle hk (by simp [hk]) (by simp)
  | live =>
      cases hq : sub.queue with
      | nil => simp only [hp, hq] at h; cases h
      | cons e q =>
          simp only [hp, hq] at h
          obtain rfl := Option.some.inj h
          have hm : ({ sub with queue := q } : Subscription δ).matches e = sub.matches e := rfl
          cases hme : sub.matches e with
          | true =>
              have hrd : s.readQueue id g sub e q =
                  (s.setSub id { sub with queue := q, lastSeq := e.seq }).setGen id
                    (g.yield (.event e) .live) := by
                simp only [readQueue, hm, hme, if_true]
              rw [hrd] at hidle ⊢
              by_cases hk : id = k
              · subst hk
                simpa using GenStep.read hg hs hp hq ((sub.matches_iff e).mp hme).1
              · exact hidle hk (by simp [hk]) (by simp [hk])
          | false =>
              have hrd : s.readQueue id g sub e q = s.setSub id { sub with queue := q } := by
                simp only [readQueue, hm, hme, Bool.false_eq_true, if_false]
              rw [hrd] at hidle ⊢
              by_cases hk : id = k
              · subst hk
                simpa [hg] using GenStep.skip hg hs hp hq hme
              · exact hidle hk (by simp) (by simp [hk])
  | closed => simp only [hp] at h; cases h

private theorem genStep_of_close {s s' : StreamHub δ} {id : Nat} (h : s.close id = some s')
    (k : Nat) : GenStep s k (.close id) (s'.gens.get? k) (s'.hub.subscribers.get? k) := by
  have hidle : ∀ g', s'.gens.get? k = g' → g' = s.gens.get? k →
      s'.hub.subscribers.get? k = s.hub.subscribers.get? k →
      GenStep s k (.close id) (s'.gens.get? k) (s'.hub.subscribers.get? k) := by
    intro g' h1 h2 h3
    rw [h1, h2, h3]
    exact .idle rfl (fun _ _ _ hact => by cases hact)
  unfold close at h
  cases hg : s.gens.get? id with
  | none => simp only [hg] at h; cases h
  | some g =>
  simp only [hg] at h
  by_cases hk : id = k
  · subst hk
    cases hp : g.phase with
    | created =>
        simp only [hp] at h
        obtain rfl := Option.some.inj h
        simpa using GenStep.abandon hg hp
    | closed => simp only [hp] at h; cases h
    | connected =>
        simp only [hp] at h
        obtain rfl := Option.some.inj h
        simpa [ThreadEventHub.unsubscribe] using
          GenStep.finish hg (by simp [hp]) (by simp [hp])
    | replaying rest =>
        simp only [hp] at h
        obtain rfl := Option.some.inj h
        simpa [ThreadEventHub.unsubscribe] using
          GenStep.finish hg (by simp [hp]) (by simp [hp])
    | live =>
        simp only [hp] at h
        obtain rfl := Option.some.inj h
        simpa [ThreadEventHub.unsubscribe] using
          GenStep.finish hg (by simp [hp]) (by simp [hp])
  · have hsub : ∀ g : Gen δ,
        ({ s.setGen id g with hub := s.hub.unsubscribe id } : StreamHub δ).hub.subscribers.get? k =
          s.hub.subscribers.get? k := fun g => Dict.get?_erase_ne s.hub.subscribers hk
    have hgen : ∀ g : Gen δ, (s.setGen id g).gens.get? k = s.gens.get? k := by
      intro g
      rw [setGen_gens, if_neg hk]
    cases hp : g.phase with
    | created =>
        simp only [hp] at h
        obtain rfl := Option.some.inj h
        exact hidle _ rfl (hgen _) rfl
    | closed => simp only [hp] at h; cases h
    | connected =>
        simp only [hp] at h
        obtain rfl := Option.some.inj h
        exact hidle _ rfl (hgen _) (hsub g)
    | replaying rest =>
        simp only [hp] at h
        obtain rfl := Option.some.inj h
        exact hidle _ rfl (hgen _) (hsub g)
    | live =>
        simp only [hp] at h
        obtain rfl := Option.some.inj h
        exact hidle _ rfl (hgen _) (hsub g)

/-- The inversion lemma for one generator. -/
theorem step_gen {s s' : StreamHub δ} {a : StreamAct δ} (h : s.step a = some s') (k : Nat) :
    GenStep s k a (s'.gens.get? k) (s'.hub.subscribers.get? k) := by
  cases a with
  | publish method data ns ts eid now =>
      obtain rfl := Option.some.inj h
      have hsub : (s.publish method data ns ts eid now).hub.subscribers.get? k =
          (s.hub.subscribers.get? k).map
            (Subscription.offer (s.hub.stamp method data ns ts eid now)) :=
        Dict.get?_mapVals _ s.hub.subscribers k
      rw [hsub]
      exact .publish
  | subscribe channels namespaces since =>
      obtain rfl := Option.some.inj h
      by_cases hk : s.nextSub = k
      · have hopen : GenStep s k (.subscribe channels namespaces since) _ _ := .opened hk
        simpa [subscribe, ThreadEventHub.subscribe, Dict.get?_set, hk] using hopen
      · have hg : (s.subscribe channels namespaces since).gens.get? k = s.gens.get? k :=
          Dict.get?_set_ne s.gens _ hk
        have hs : (s.subscribe channels namespaces since).hub.subscribers.get? k =
            s.hub.subscribers.get? k := Dict.get?_set_ne s.hub.subscribers _ hk
        rw [hg, hs]
        exact .idle rfl
          (fun _ _ _ hact => by cases hact)
  | pull id => exact genStep_of_pull h k
  | heartbeat id =>
      have h : s.heartbeat id = some s' := h
      unfold heartbeat at h
      cases hg : s.gens.get? id with
      | none => simp only [hg] at h; cases h
      | some g =>
      simp only [hg] at h
      cases hp : g.phase with
      | live =>
          simp only [hp] at h
          obtain rfl := Option.some.inj h
          by_cases hk : id = k
          · subst hk
            simpa using GenStep.heartbeat hg hp
          · have hgen : (s.setGen id (g.yield .heartbeat .live)).gens.get? k =
                s.gens.get? k := by rw [setGen_gens, if_neg hk]
            rw [hgen]
            exact .idle rfl
              (fun _ _ _ hact => by cases hact)
      | created => simp only [hp] at h; cases h
      | connected => simp only [hp] at h; cases h
      | replaying rest => simp only [hp] at h; cases h
      | closed => simp only [hp] at h; cases h
  | close id => exact genStep_of_close h k

/-- The hub's own fields, the publish history and the identity counter are those
of `s`. -/
def SameLog (s s' : StreamHub δ) : Prop :=
  s'.hub.replaySize = s.hub.replaySize ∧ s'.hub.seq = s.hub.seq ∧
    s'.hub.buffer = s.hub.buffer ∧ s'.published = s.published ∧ s'.nextSub = s.nextSub

private theorem sameLog_pull {s s' : StreamHub δ} {id : Nat} (h : s.pull id = some s') :
    s.SameLog s' := by
  have hrep : ∀ g sub, s.SameLog (s.replayPass id g sub) := by
    intro g sub
    unfold replayPass
    cases hr : (s.hub.replay sub).1 <;> simp only [hr] <;> exact ⟨rfl, rfl, rfl, rfl, rfl⟩
  have hread : ∀ g sub e q, s.SameLog (s.readQueue id g sub e q) := by
    intro g sub e q
    simp only [readQueue]
    split <;> exact ⟨rfl, rfl, rfl, rfl, rfl⟩
  unfold pull at h
  split at h
  · next g sub hg hs =>
    split at h
    · obtain rfl := Option.some.inj h
      exact ⟨rfl, rfl, rfl, rfl, rfl⟩
    · obtain rfl := Option.some.inj h
      exact hrep g sub
    · obtain rfl := Option.some.inj h
      exact ⟨rfl, rfl, rfl, rfl, rfl⟩
    · obtain rfl := Option.some.inj h
      exact ⟨rfl, rfl, rfl, rfl, rfl⟩
    · split at h
      · cases h
      · obtain rfl := Option.some.inj h
        exact hread g sub _ _
    · cases h
  · cases h

private theorem sameLog_close {s s' : StreamHub δ} {id : Nat} (h : s.close id = some s') :
    s.SameLog s' := by
  unfold close at h
  split at h
  · split at h
    · obtain rfl := Option.some.inj h
      exact ⟨rfl, rfl, rfl, rfl, rfl⟩
    · cases h
    · obtain rfl := Option.some.inj h
      exact ⟨rfl, rfl, rfl, rfl, rfl⟩
  · cases h

private theorem sameLog_heartbeat {s s' : StreamHub δ} {id : Nat}
    (h : s.heartbeat id = some s') : s.SameLog s' := by
  unfold heartbeat at h
  split at h
  · split at h
    · obtain rfl := Option.some.inj h
      exact ⟨rfl, rfl, rfl, rfl, rfl⟩
    · cases h
  · cases h

/-- The inversion lemma for the hub: a publish stamps the next envelope, a
subscribe takes the next identity, no other action touches either. -/
theorem step_log {s s' : StreamHub δ} {a : StreamAct δ} (h : s.step a = some s') :
    (∃ method data ns ts eid now, a = .publish method data ns ts eid now ∧
      s' = s.publish method data ns ts eid now) ∨
    (∃ channels namespaces since, a = .subscribe channels namespaces since ∧
      s' = s.subscribe channels namespaces since) ∨
    (a.isPublish = false ∧ s.SameLog s') := by
  cases a with
  | publish method data ns ts eid now =>
      exact .inl ⟨method, data, ns, ts, eid, now, rfl, (Option.some.inj h).symm⟩
  | subscribe channels namespaces since =>
      exact .inr (.inl ⟨channels, namespaces, since, rfl, (Option.some.inj h).symm⟩)
  | pull id => exact .inr (.inr ⟨rfl, sameLog_pull h⟩)
  | heartbeat id => exact .inr (.inr ⟨rfl, sameLog_heartbeat h⟩)
  | close id => exact .inr (.inr ⟨rfl, sameLog_close h⟩)

theorem step_published {s s' : StreamHub δ} {a : StreamAct δ} (h : s.step a = some s')
    (ha : a.isPublish = false) : s'.published = s.published := by
  rcases step_log h with ⟨_, _, _, _, _, _, rfl, -⟩ | ⟨_, _, _, -, rfl⟩ | ⟨-, hlog⟩
  · cases ha
  · rfl
  · exact hlog.2.2.2.1

end StreamHub

end AgentProtocol

import AgentProtocol.Hub.Retention

/-!
# Events published between subscribe and the replay pass

The handler registers the subscription; the replay pass runs when the response is
first iterated. An event published in between is queued and, for a while, also in
the ring. The replay pass moves the cursor to the newest buffered match, over
everything older that is still queued: what the ring has evicted by then is
skipped when it is read from the queue.

`replayKeeps` is the condition under which that does not happen, and
`delivered_since_subscribe_iff` shows that it is exactly the condition: at the
replay pass either every queued envelope is still in the ring, or the ring holds
nothing for the subscription and the cursor stays.
-/

namespace AgentProtocol

universe u

variable {δ : Type u}

namespace StreamHub

variable {s s' t : StreamHub δ} {a : StreamAct δ} {id : Nat}

/-- If the action is the replay pass of `id`: every envelope queued so far is
still in the ring, or the ring holds no match. -/
def replayKeeps (id : Nat) (s : StreamHub δ) (a : StreamAct δ) : Bool :=
  !s.replays id a ||
    match s.hub.subscribers.get? id with
    | some sub =>
      (sub.queue.all fun e => decide (s.hub.seq < e.seq + s.hub.replaySize)) ||
        s.hub.buffer.all fun e => !sub.matches e
    | none => true

/-- A replay pass under the condition keeps what is coming. -/
theorem kept_of_replayKeeps {thr : Nat} (hI : s.Inv) (h : s.step a = some s')
    (hrep : s.replays id a = true) (hok : s.replayKeeps id a = true)
    {g g' : Gen δ} {sub sub' : Subscription δ} (hg : s.gens.get? id = some g)
    (hs : s.hub.subscribers.get? id = some sub) (hg' : s'.gens.get? id = some g')
    (hs' : s'.hub.subscribers.get? id = some sub') (hK : g.Kept thr s.published sub) :
    g'.Kept thr s'.published sub' := by
  obtain ⟨hp, hpub, hw, hc, hq, -, hsame⟩ := replay_step hI h hrep hg hs hg' hs'
  have hL := hI.linked id g sub hg hs
  have hd : g.committed = [] := by
    rw [Gen.committed, (hI.sound id g hg).early (by rw [hp]; trivial), hp]
    rfl
  simp only [replayKeeps, hrep, hs, Bool.not_true, Bool.false_or, Bool.or_eq_true,
    List.all_eq_true, decide_eq_true_eq, Bool.not_eq_true'] at hok
  intro e he hthr hwe
  rw [hpub] at he
  rw [hw] at hwe
  -- nothing was committed before the pass, so `e` is in the queue
  rcases hK e he hthr hwe with hcom | ⟨hmem, hseq⟩
  · rw [hd] at hcom
    exact absurd hcom List.not_mem_nil
  · rcases hok with hring | hnone
    · left
      have := hring e hmem
      have hN := hI.seq
      rw [hc, List.mem_filter, hL.matches_iff, hI.buffer, hI.numbered.mem_window]
      exact ⟨⟨he, by omega⟩, hseq, hwe⟩
    · right
      have hnil : g'.committed = [] := by
        rw [hc]
        exact List.filter_eq_nil_iff.mpr fun e he => by rw [hnone e he]; simp
      rw [hq, hsame hnil]
      exact ⟨hmem, hseq⟩

/-- The step lemma: what was published since registration stays kept. -/
theorem keptSinceOpen_step (hI : s.Inv) (h : s.step a = some s')
    (hfull : s.findsFull id a = false) (hkeep : s.replayKeeps id a = true)
    (hK : ∀ g sub, s.gens.get? id = some g → s.hub.subscribers.get? id = some sub →
      g.phase ≠ .closed → g.Kept g.openedAt s.published sub)
    {g' : Gen δ} {sub' : Subscription δ} (hg' : s'.gens.get? id = some g')
    (hs' : s'.hub.subscribers.get? id = some sub') (hopen : g'.phase ≠ .closed) :
    g'.Kept g'.openedAt s'.published sub' := by
  rcases origin hI h hg' hs' with ⟨-, -, ho, hpub⟩ | ⟨g, sub, hg, hs, -, ho, hcl, -⟩
  · -- just registered: nothing published so far is newer
    intro e he hthr _
    rw [hpub] at he
    have := (hI.numbered.bounds he).2
    have := hI.seq
    omega
  · have hK' := hK g sub hg hs fun h1 => hopen (hcl h1)
    rw [ho]
    cases hrep : s.replays id a with
    | true => exact kept_of_replayKeeps hI h hrep hkeep hg hs hg' hs' hK'
    | false => exact kept_step hI h hfull hrep hg hs hg' hs' hK'

end StreamHub

/-- The run lemma. -/
theorem keptSinceOpen {n id : Nat} {s : StreamHub δ}
    (h : (streamSys δ n).ReachableVia
      (fun s a => s.findsFull id a = false ∧ s.replayKeeps id a = true) s) :
    ∀ g sub, s.gens.get? id = some g → s.hub.subscribers.get? id = some sub →
      g.phase ≠ .closed → g.Kept g.openedAt s.published sub := by
  refine h.induct (P := fun s => ∀ g sub, s.gens.get? id = some g →
    s.hub.subscribers.get? id = some sub → g.phase ≠ .closed →
      g.Kept g.openedAt s.published sub) ?_ ?_
  · rintro _ rfl g sub hg
    cases hg
  · intro s a s' hr hK hok hstep g' sub' hg' hs' hopen
    exact StreamHub.keptSinceOpen_step (inv_of_reachable hr) hstep hok.1 hok.2 hK hg' hs' hopen

/-- Up to the replay pass no condition on it is needed. -/
theorem keptSinceOpen_early {n id : Nat} {s : StreamHub δ}
    (h : (streamSys δ n).ReachableVia (fun s a => s.findsFull id a = false) s) :
    ∀ g sub, s.gens.get? id = some g → s.hub.subscribers.get? id = some sub →
      g.phase.Early → g.Kept g.openedAt s.published sub := by
  refine h.induct (P := fun s => ∀ g sub, s.gens.get? id = some g →
    s.hub.subscribers.get? id = some sub → g.phase.Early →
      g.Kept g.openedAt s.published sub) ?_ ?_
  · rintro _ rfl g sub hg
    cases hg
  · intro s a s' hr hK hok hstep g' sub' hg' hs' hearly
    have hI := inv_of_reachable hr
    rcases StreamHub.origin hI hstep hg' hs' with ⟨-, -, ho, hpub⟩ | ⟨g, sub, hg, hs, -, ho, -⟩
    · intro e he hthr _
      rw [hpub] at he
      have := (hI.numbered.bounds he).2
      have := hI.seq
      omega
    · obtain ⟨he, hrep⟩ := StreamHub.early_step hstep hg' hearly hg hI
      rw [ho]
      exact StreamHub.kept_step hI hstep hok hrep hg hs hg' hs' (hK g sub hg hs he)

section Late

variable {n id thr : Nat} {t s : StreamHub δ}

/-- Past the replay pass no condition on it is needed either. -/
theorem kept_late (ht : (streamSys δ n).Reachable t)
    (h : (streamSys δ n).ReachesVia (fun s a => s.findsFull id a = false) t s)
    {g : Gen δ} (hg : t.gens.get? id = some g) (hlate : ¬g.phase.Early)
    (hK : ∀ sub, t.hub.subscribers.get? id = some sub → g.Kept thr t.published sub) :
    ∃ g', s.gens.get? id = some g' ∧ ¬g'.phase.Early ∧ g'.wants = g.wants ∧
      g'.openedAt = g.openedAt ∧
      ∀ sub, s.hub.subscribers.get? id = some sub → g'.Kept thr s.published sub := by
  induction h with
  | refl => exact ⟨g, hg, hlate, rfl, rfl, hK⟩
  | @tail u v a hr hok hstep ih =>
      obtain ⟨g₁, hg₁, hlate₁, hw₁, ho₁, hK₁⟩ := ih
      have hI : u.Inv := inv_of_reachable (ht.trans (hr.mono fun _ _ _ => trivial))
      obtain ⟨g₂, hg₂, hlate₂, hw₂, ho₂, -⟩ := StreamHub.late_step hstep hI hg₁ hlate₁
      refine ⟨g₂, hg₂, hlate₂, hw₂.trans hw₁, ho₂.trans ho₁, fun sub hs => ?_⟩
      rcases StreamHub.origin hI hstep hg₂ hs with ⟨hnone, -⟩ | ⟨g₀, sub₀, hg₀, hs₀, -⟩
      · rw [hg₁] at hnone
        cases hnone
      · obtain rfl := Option.some.inj (hg₁.symm.trans hg₀)
        have hrep : u.replays id a = false := by
          cases hrep : u.replays id a with
          | false => rfl
          | true =>
              obtain ⟨hp, -⟩ := StreamHub.connected_of_replays hg₁ hrep
              rw [hp] at hlate₁
              exact absurd trivial hlate₁
        exact StreamHub.kept_step hI hstep hok hrep hg₁ hs₀ hg₂ hs (hK₁ sub₀ hs₀)

/-- An envelope the cursor has passed without committing to it is never
delivered: whatever is committed later lies past the cursor. -/
theorem lost_late (ht : (streamSys δ n).Reachable t)
    (h : (streamSys δ n).Reaches t s) {e : Envelope δ}
    {g : Gen δ} (hg : t.gens.get? id = some g) (hlate : ¬g.phase.Early)
    (hnot : e ∉ g.committed)
    (hcur : ∀ sub, t.hub.subscribers.get? id = some sub → (e.seq : Int) ≤ sub.lastSeq) :
    ∃ g', s.gens.get? id = some g' ∧ ¬g'.phase.Early ∧ g'.wants = g.wants ∧
      g'.openedAt = g.openedAt ∧ e ∉ g'.committed ∧
      ∀ sub, s.hub.subscribers.get? id = some sub → (e.seq : Int) ≤ sub.lastSeq := by
  induction h with
  | refl => exact ⟨g, hg, hlate, rfl, rfl, hnot, hcur⟩
  | @tail u v a hr _ hstep ih =>
      obtain ⟨g₁, hg₁, hlate₁, hw₁, ho₁, hnot₁, hcur₁⟩ := ih
      have hI : u.Inv := inv_of_reachable (ht.trans hr)
      obtain ⟨g₂, hg₂, hlate₂, hw₂, ho₂, hmove⟩ := StreamHub.late_step hstep hI hg₁ hlate₁
      refine ⟨g₂, hg₂, hlate₂, hw₂.trans hw₁, ho₂.trans ho₁, ?_⟩
      rcases hmove with ⟨hsub, hlast⟩ | ⟨sub, x, hs, hc, hseq, hlast⟩
      · refine ⟨fun hin => hnot₁ (hsub.subset hin), fun sub' hs' => ?_⟩
        obtain ⟨sub, hs, heq⟩ := hlast sub' hs'
        rw [heq]
        exact hcur₁ sub hs
      · have hle := hcur₁ sub hs
        refine ⟨fun hin => ?_, fun sub' hs' => ?_⟩
        · rw [hc] at hin
          rcases List.mem_append.mp hin with h1 | h1
          · exact hnot₁ h1
          · rw [List.mem_singleton.mp h1] at hle
            omega
        · rw [hlast sub' hs']
          omega

end Late

/-- `e` was delivered, and once. -/
def Gen.DeliveredOnce (g : Gen δ) (e : Envelope δ) : Prop :=
  g.delivered.filter (fun e' => decide (e'.seq = e.seq)) = [e]

/-- Delivered seqs are distinct, so an envelope that was delivered was delivered
once. -/
theorem deliveredOnce_iff {s : StreamHub δ} (hI : s.Inv) {id : Nat} {g : Gen δ}
    (hg : s.gens.get? id = some g) {e : Envelope δ} (he : e ∈ s.published) :
    g.DeliveredOnce e ↔ e ∈ g.delivered := by
  have hasc : Ascending Envelope.seq g.delivered :=
    (hI.sound id g hg).ascending.sublist (List.sublist_append_left _ _)
  constructor
  · intro h
    have : e ∈ g.delivered.filter fun e' => decide (e'.seq = e.seq) := by
      rw [h]; exact List.mem_singleton_self e
    exact (List.mem_filter.mp this).1
  · intro hmem
    refine Ascending.ext (hasc.filter _) (List.pairwise_singleton _ _) fun e' => ?_
    rw [List.mem_filter, List.mem_singleton, decide_eq_true_eq]
    constructor
    · rintro ⟨hmem', hseq⟩
      have hpub' := ((hI.sound id g hg).wanted e' (List.mem_append_left _ hmem')).1
      exact hI.numbered.ascending.inj hpub' he hseq
    · rintro rfl
      exact ⟨hmem, rfl⟩

/-- Events between subscribe and replay. First half: in every run where no publish
finds the queue of `id` full and its replay pass meets `replayKeeps`, a live
response with a drained queue has been delivered, exactly once, every event
published since the subscription was registered that passes its filter with a seq
past `since`. Second half: on every run without a full queue, that property of the
drained response holds if and only if `replayKeeps` held at the replay pass. -/
theorem delivered_since_subscribe_iff (δ : Type u) (n : Nat) (id : Nat) :
    (∀ s, (streamSys δ n).ReachableVia
        (fun s a => s.findsFull id a = false ∧ s.replayKeeps id a = true) s →
      ∀ g sub, s.gens.get? id = some g → s.hub.subscribers.get? id = some sub →
        g.phase = .live → sub.queue = [] →
        ∀ e ∈ s.published, g.openedAt < e.seq → g.wants e = true → g.DeliveredOnce e) ∧
    (∀ s₁ s₂ s₃, (streamSys δ n).ReachableVia (fun s a => s.findsFull id a = false) s₁ →
      s₁.replays id (.pull id) = true → s₁.step (.pull id) = some s₂ →
      (streamSys δ n).ReachesVia (fun s a => s.findsFull id a = false) s₂ s₃ →
      ∀ g sub, s₃.gens.get? id = some g → s₃.hub.subscribers.get? id = some sub →
        g.phase = .live → sub.queue = [] →
        ((∀ e ∈ s₃.published, g.openedAt < e.seq → g.wants e = true → g.DeliveredOnce e) ↔
          s₁.replayKeeps id (.pull id) = true)) := by
  constructor
  · intro s hr g sub hg hs hp hq e he hthr hw
    have hK := keptSinceOpen hr g sub hg hs (by rw [hp]; simp)
    rw [deliveredOnce_iff (inv_of_reachable hr) hg he, ← Gen.committed_live hp]
    exact hK.committed_of_drained hq he hthr hw
  · intro s₁ s₂ s₃ hr₁ hrep hstep hr₂₃ g₃ sub₃ hg₃ hs₃ hp hq
    have hI₁ : s₁.Inv := inv_of_reachable hr₁
    have hr₂ : (streamSys δ n).Reachable s₂ :=
      hr₁.reachable.tail (a := StreamAct.pull id) trivial hstep
    have hI₃ : s₃.Inv := inv_of_reachable (hr₂.trans (hr₂₃.mono fun _ _ _ => trivial))
    -- the pass acts on a generator and a subscription that both exist
    obtain ⟨g₁, sub₁, hg₁, hs₁⟩ : ∃ g sub, s₁.gens.get? id = some g ∧
        s₁.hub.subscribers.get? id = some sub := by
      have hpull : s₁.pull id = some s₂ := hstep
      unfold StreamHub.pull at hpull
      split at hpull
      · next g sub hg hs => exact ⟨g, sub, hg, hs⟩
      · cases hpull
    have hp₁ := (StreamHub.connected_of_replays hg₁ hrep).1
    obtain ⟨g₂, sub₂, hg₂, hs₂, hlate₂, hop₂⟩ := StreamHub.exists_after_replay hstep hg₁ hp₁
    obtain ⟨-, hpub, hw₂, hc₂, hq₂, hcur₂, -⟩ :=
      StreamHub.replay_step hI₁ hstep hrep hg₁ hs₁ hg₂ hs₂
    constructor
    · -- necessity: an evicted envelope behind a buffered match is lost
      intro hall
      by_contra hkeep
      simp only [StreamHub.replayKeeps, hrep, hs₁, Bool.not_true, Bool.false_or,
        Bool.or_eq_true, List.all_eq_true, decide_eq_true_eq, Bool.not_eq_true', not_or,
        not_forall, Bool.not_eq_false] at hkeep
      obtain ⟨⟨e, heq, hev⟩, m, hmb, hmm⟩ := hkeep
      have hL₁ := hI₁.linked id g₁ sub₁ hg₁ hs₁
      obtain ⟨hmem, hwe⟩ := hL₁.wanted e heq
      have hmw := (Numbered.mem_window hI₁.numbered).mp (hI₁.buffer ▸ hmb)
      have hN := hI₁.seq
      have hmc : m ∈ g₂.committed := by rw [hc₂]; exact List.mem_filter.mpr ⟨hmb, hmm⟩
      have hnot : e ∉ g₂.committed := by
        rw [hc₂, List.mem_filter, hI₁.buffer, hI₁.numbered.mem_window]
        rintro ⟨⟨-, hwin⟩, -⟩
        omega
      have hbehind : (e.seq : Int) ≤ sub₂.lastSeq := by
        have := hcur₂ m hmc
        omega
      obtain ⟨g, hg, -, hw, ho, hlost, -⟩ :=
        lost_late hr₂ (hr₂₃.mono fun _ _ _ => trivial) hg₂ hlate₂ hnot
          fun sub hs => by rwa [Option.some.inj (hs.symm.trans hs₂)]
      obtain rfl := Option.some.inj (hg₃.symm.trans hg)
      have he₃ : e ∈ s₃.published :=
        published_mono (hr₂₃.mono fun _ _ _ => trivial) (hpub ▸ hmem)
      apply hlost
      rw [Gen.committed_live hp, ← deliveredOnce_iff hI₃ hg₃ he₃]
      refine hall e he₃ ?_ ?_
      · rw [ho, hop₂]; exact hL₁.recent e heq
      · rw [hw, hw₂]; exact hwe
    · -- sufficiency: kept up to the pass, through it, and after it
      intro hkeep e he hthr hwe
      have hK₁ := keptSinceOpen_early hr₁ g₁ sub₁ hg₁ hs₁ (by rw [hp₁]; trivial)
      obtain ⟨g, hg, -, -, ho, hK₃⟩ := kept_late hr₂ hr₂₃ hg₂ hlate₂
        fun sub hs => show g₂.Kept g₁.openedAt s₂.published sub by
          obtain rfl := Option.some.inj (hs.symm.trans hs₂)
          exact StreamHub.kept_of_replayKeeps hI₁ hstep hrep hkeep hg₁ hs₁ hg₂ hs₂ hK₁
      obtain rfl := Option.some.inj (hg₃.symm.trans hg)
      rw [deliveredOnce_iff hI₃ hg₃ he, ← Gen.committed_live hp]
      refine (hK₃ sub₃ hs₃).committed_of_drained hq he ?_ hwe
      rwa [ho, hop₂] at hthr

/-- A hub of replay size 1: two events between subscribe and the replay pass. -/
def wrapSchedule : List (StreamAct Nat) :=
  [.subscribe none none none, .publish "messages" 10 none none none 0,
   .publish "messages" 20 none none none 0, .pull 0, .pull 0, .pull 0, .pull 0, .pull 0]

def wrapEnd : StreamHub Nat := ((streamSys Nat 1).run (.new 1) wrapSchedule).getD (.new 1)

/-- The first of the two events is lost: the queue was never full, it is drained,
and event 1 was published after registration and is asked for, but it was not
delivered. -/
theorem wrapped_event_lost :
    ¬∀ s, (streamSys Nat 1).ReachableVia (fun s a => s.findsFull 0 a = false) s →
      ∀ g sub, s.gens.get? 0 = some g → s.hub.subscribers.get? 0 = some sub →
        g.phase = .live → sub.queue = [] →
        ∀ e ∈ s.published, g.openedAt < e.seq → g.wants e = true → g.DeliveredOnce e := by
  intro hall
  have hrun : (streamSys Nat 1).run (.new 1) wrapSchedule = some wrapEnd := rfl
  have hr := TSys.reachesVia_of_run (fun s a => s.findsFull 0 a = false) (by decide) hrun
  have hlost := hall _ ⟨_, rfl, hr⟩ _ _ rfl rfl rfl rfl _ (List.mem_cons_self) (by decide)
    (by decide)
  have hcount := congrArg List.length hlost
  revert hcount
  decide

/-- The same schedule against a ring of two slots, pulled once more: both queued
copies are read and skipped. -/
def drainSchedule : List (StreamAct Nat) := wrapSchedule ++ [.pull 0]

def drainEnd : StreamHub Nat := ((streamSys Nat 2).run (.new 2) drainSchedule).getD (.new 2)

/-- With replay size 2 the condition is met, and both events are delivered once. -/
theorem delivered_since_subscribe_schedule :
    ∃ g, drainEnd.gens.get? 0 = some g ∧ g.delivered.map Envelope.seq = [1, 2] ∧
      ∀ e ∈ drainEnd.published, g.openedAt < e.seq → g.wants e = true →
        g.DeliveredOnce e := by
  have hrun : (streamSys Nat 2).run (.new 2) drainSchedule = some drainEnd := rfl
  have hr := TSys.reachesVia_of_run
    (fun s a => s.findsFull 0 a = false ∧ s.replayKeeps 0 a = true) (by decide) hrun
  exact ⟨_, rfl, rfl, (delivered_since_subscribe_iff Nat 2 0).1 _ ⟨_, rfl, hr⟩ _ _ rfl rfl rfl rfl⟩

end AgentProtocol

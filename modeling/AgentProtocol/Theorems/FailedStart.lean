import AgentProtocol.Runner.Config
import AgentProtocol.Runner.Slot

/-!
# Failed starts (`RunManager.start`)

A `start` that reserved the slot can end by raising in three places: the registry
lookup, the awaited resolution, the merge of the config. The handler around the
resolution releases the slot for an `Exception`; a `CancelledError`, of the starting
coroutine or out of the factory, passes it by, and the merge comes after it. In all
three the pending interrupts and the last assistant are as before the call.

`endsCleanly` is the condition on the end of the resolution under which the
slot is released, and `failed_start_releases_iff` says that it is exact.
-/

namespace AgentProtocol

/-- The resolution raised an `Exception`, or it returned and the merge meets only mappings. -/
def endsCleanly (config : Option (Dict String Json)) (metadata : Json) : Resolution → Bool
  | .raised .. => true
  | .cancelled => false
  | .graph _ => mergeable config metadata

namespace World

variable {rt : Runtime} {n : Nat} {w w' : World} {r : String} {s : Starting}

/-! ## The end of a start -/

/-- The run `r` holds no reservation on thread `t`. -/
def Released (w : World) (t r : String) : Prop :=
  ∀ a, w.active.get? t = some a → a.runId = r → a.task ≠ none

/-- Once it is released, no start is refused because of it. -/
theorem Released.start {t : String} (h : w.Released t r) (hnone : w.tasks.get? r = none)
    (v : Value) (input : GraphInput) (config : Option (Dict String Json)) (metadata : Json)
    (runId : String) (hI : w.SlotInv) :
    (w.start t v input config metadata runId).2 ≠ some (.runActive t r) := by
  rcases w.start_cases t v input config metadata runId with ⟨a, ha, -, heq⟩ | ⟨-, heq⟩
  · rw [heq]
    intro hexc
    have hrun : a.runId = r := by
      injection hexc with hexc
      injection hexc
    cases htask : a.task with
    | none => exact h a ha hrun htask
    | some id =>
        obtain ⟨rfl, task, hg, -⟩ := (hI.slot t a ha).real id htask
        rw [hrun, hnone] at hg
        cases hg
  · rw [heq]
    unfold reserve
    dsimp only
    split
    · next exc hf =>
      intro hexc
      obtain rfl := Option.some.inj hexc
      unfold findFactory at hf
      repeat' split at hf
      all_goals cases hf
    · intro hexc
      cases hexc

/-- A start that ends by raising after its resolution has released the slot exactly
when the resolution is what raised. -/
theorem released_iff_of_resolved (hI : w.SlotInv) {outcome : Resolution} {exc : RunExc}
    (hs : w.starting.get? r = some s) (h : w.resolved r outcome = some (w', some exc)) :
    (w'.Released s.threadId r ↔ endsCleanly s.config s.metadata outcome = true) ∧
      w'.tasks = w.tasks ∧ w'.pendingInputs = w.pendingInputs ∧
      w'.lastAssistant = w.lastAssistant := by
  obtain ⟨b, hb, hbr, hbtask⟩ := hI.starting r s hs
  have hkept : ¬({ w with starting := w.starting.erase r } : World).Released s.threadId r :=
    fun hrel => hrel b hb hbr hbtask
  unfold resolved at h
  rw [hs] at h
  cases outcome with
  | raised e _ =>
      simp only [Option.some.injEq, Prod.mk.injEq] at h
      obtain ⟨rfl, -⟩ := h
      refine ⟨⟨fun _ => rfl, fun _ => ?_⟩, rfl, rfl, rfl⟩
      intro a ha
      have hgone := get?_popIf_self hb
      rw [hbr, hbtask] at hgone
      rw [hgone] at ha
      cases ha
  | cancelled =>
      simp only [Option.some.injEq, Prod.mk.injEq] at h
      obtain ⟨rfl, -⟩ := h
      exact ⟨⟨fun hrel => absurd hrel hkept, fun hc => by cases hc⟩, rfl, rfl, rfl⟩
  | graph graph =>
      simp only at h
      split at h
      · next e hcfg =>
        simp only [Option.some.injEq, Prod.mk.injEq] at h
        obtain ⟨rfl, -⟩ := h
        refine ⟨⟨fun hrel => absurd hrel hkept, fun hc => ?_⟩, rfl, rfl, rfl⟩
        obtain ⟨cfg, hok⟩ := (runConfig_ok_iff s.threadId s.config s.metadata).mpr hc
        rw [hcfg] at hok
        cases hok
      · simp only [Option.some.injEq, Prod.mk.injEq, reduceCtorEq, and_false] at h

/-- Every start whose resolution ends meets `endsCleanly`. -/
def cleanEnd (w : World) : Act → Bool
  | .resolved r outcome =>
    match w.starting.get? r with
    | some s => endsCleanly s.config s.metadata outcome
    | none => true
  | _ => true

/-- In runs in which every start ends cleanly, a reservation without a task is that
of a start still suspended. -/
theorem reserved_starting (h : (runSys rt n).ReachableVia (fun w a => w.cleanEnd a = true) w) :
    ∀ t a, w.active.get? t = some a → a.task = none →
      ∃ s, w.starting.get? a.runId = some s ∧ s.threadId = t := by
  refine h.induct (P := fun w => ∀ t a, w.active.get? t = some a → a.task = none →
    ∃ s, w.starting.get? a.runId = some s ∧ s.threadId = t) ?_ ?_
  · rintro w rfl t a ha
    cases ha
  · intro w a w' hreach ih hok hstep t b hb htask
    have hI := slotInv_of_reachable hreach.reachable
    cases worldStep_of_step hstep with
    | rejected => exact ih t b hb htask
    | register => exact ih t b hb htask
    | stream => exact ih t b hb htask
    | cancel => exact ih t b hb htask
    | skip => exact ih t b hb htask
    | begin => exact ih t b hb htask
    | resume => exact ih t b hb htask
    | callback => exact ih t b (get?_of_get?_popIf hb) htask
    | @refuse _ t' runId reserved hfree hfresh _ hthread hrun hres =>
        by_cases ht : t' = t
        · subst ht hrun
          have hgone := get?_popIf_self (Dict.get?_set_self w.active t' reserved)
          rw [hres] at hgone
          rw [hgone] at hb
          cases hb
        · simp only [get?_popIf_ne _ _ _ ht, Dict.get?_set_ne _ _ ht] at hb
          exact ih t b hb htask
    | @reserve _ t' runId s hfree hfresh _ hthread _ _ =>
        simp only [Dict.get?_set] at hb
        split at hb
        · next ht =>
          obtain rfl := Option.some.inj hb
          exact ⟨s, Dict.get?_set_self _ _ _, hthread.trans ht⟩
        · obtain ⟨s', hs', ht'⟩ := ih t b hb htask
          have hne : runId ≠ b.runId := by
            rintro rfl
            exact hfresh (hI.slot t b hb).drawn
          exact ⟨s', by simp only [Dict.get?_set_ne _ _ hne]; exact hs', ht'⟩
    | @release runId _ _ s hs =>
        have hb' := get?_of_get?_popIf hb
        obtain ⟨s', hs', ht'⟩ := ih t b hb' htask
        have hne : runId ≠ b.runId := by
          intro heq
          rw [← heq, hs] at hs'
          obtain rfl := Option.some.inj hs'
          have hgone := get?_popIf_self (ht' ▸ hb')
          rw [← heq, htask] at hgone
          rw [ht', ← ht', hgone] at hb
          cases hb
        exact ⟨s', by simp only [Dict.get?_erase_ne _ hne]; exact hs', ht'⟩
    | @abandon runId outcome s hs hout =>
        -- excluded by the condition on the step
        have hclean : endsCleanly s.config s.metadata outcome = true := by
          have hok : cleanEnd w (.resolved runId outcome) = true := hok
          unfold cleanEnd at hok
          simpa only [hs] using hok
        rcases hout with rfl | ⟨graph, exc, rfl, hcfg⟩
        · cases hclean
        · obtain ⟨cfg, hcfg'⟩ := (runConfig_ok_iff s.threadId s.config s.metadata).mpr hclean
          rw [hcfg] at hcfg'
          cases hcfg'
    | @launch runId graph s config hs _ =>
        simp only [World.launch, Dict.get?_set] at hb
        split at hb
        · obtain rfl := Option.some.inj hb
          cases htask
        · next ht =>
          obtain ⟨s', hs', ht'⟩ := ih t b hb htask
          have hne : runId ≠ b.runId := by
            intro heq
            rw [← heq, hs] at hs'
            rw [Option.some.inj hs', ht'] at ht
            exact ht rfl
          exact ⟨s', by simp only [World.launch, Dict.get?_erase_ne _ hne]; exact hs', ht'⟩

/-- The reservation of `r` is gone, and no later start is refused because of it. -/
def Unblocked (w : World) (t r : String) : Prop :=
  w.Released t r ∧ ∀ v input config metadata runId,
    (w.start t v input config metadata runId).2 ≠ some (.runActive t r)

/-- What a thread keeps of its earlier runs is as it was. -/
def SameThread (w w' : World) (t : String) : Prop :=
  w'.pendingInputs.get? t = w.pendingInputs.get? t ∧
    w'.lastAssistant.get? t = w.lastAssistant.get? t

/-- The call that drew the id of a suspended start is the one it came from. -/
theorem starting_of_draws (hI : w.SlotInv) {a : Act} (h : WorldStep rt w a w')
    (hfresh : r ∉ w.drawn) (hs : w'.starting.get? r = some s) :
    s.config = a.config ∧ s.metadata = a.metadata ∧ w.SameThread w' s.threadId := by
  have hnot : ∀ s, w.starting.get? r ≠ some s := fun s hs =>
    hfresh (hI.starting_fresh hs).1
  have herase : ∀ {r'}, (w.starting.erase r').get? r ≠ some s :=
    fun h => hnot s (starting_of_erase h)
  cases h with
  | reserve _ _ _ _ hconfig hmetadata =>
      simp only [Dict.get?_set] at hs
      split at hs
      · obtain rfl := Option.some.inj hs
        exact ⟨hconfig, hmetadata, rfl, rfl⟩
      · exact absurd hs (hnot s)
  | release => exact absurd hs herase
  | abandon => exact absurd hs herase
  | launch => exact absurd hs herase
  | _ => exact absurd hs (hnot s)

/-- A start that raises before it is suspended, and not because the thread is busy, has
released the slot. -/
theorem start_releases (hI : w.SlotInv) {t : String} {v : Value} {input : GraphInput}
    {config : Option (Dict String Json)} {metadata : Json} {exc : RunExc} (hfresh : r ∉ w.drawn)
    (h : w.start t v input config metadata r = (w', some exc))
    (hexc : ∀ r, exc ≠ .runActive t r) : w'.Unblocked t r ∧ w.SameThread w' t := by
  rcases w.start_cases t v input config metadata r with ⟨b, -, -, heq⟩ | ⟨hfree, heq⟩
  · rw [heq] at h
    simp only [Prod.mk.injEq, Option.some.injEq] at h
    exact absurd h.2.symm (hexc b.runId)
  · rw [heq, World.reserve] at h
    dsimp only at h
    split at h
    · next e hf =>
      simp only [Prod.mk.injEq, Option.some.injEq] at h
      obtain ⟨rfl, rfl⟩ := h
      have hws : WorldStep .inert w (.start t v .null config metadata r)
          { w with
            active := popIf (w.active.set t
              { runId := r, threadId := t, assistantId := v, task := none }) t r none
            drawn := r :: w.drawn } :=
        .refuse hfree hfresh ⟨rfl, rfl⟩ rfl rfl rfl
      have hgone := get?_popIf_self (Dict.get?_set_self w.active t
        { runId := r, threadId := t, assistantId := v, task := none })
      have hrel : Released { w with
          active := popIf (w.active.set t
            { runId := r, threadId := t, assistantId := v, task := none }) t r none
          drawn := r :: w.drawn } t r := by
        intro a ha
        rw [hgone] at ha
        cases ha
      have hnone : w.tasks.get? r = none := by
        cases hg : w.tasks.get? r with
        | none => rfl
        | some task => exact absurd (hI.drawn r task hg) hfresh
      exact ⟨⟨hrel, fun v' i' c' m' r' => hrel.start hnone v' i' c' m' r' (hI.step hws)⟩, rfl, rfl⟩
    · simp only [Prod.mk.injEq, reduceCtorEq, and_false] at h

/-- A start that was accepted and ends by raising has released the slot exactly when its
resolution raised an `Exception`; the thread is as before the call either way. -/
theorem start_ends_iff {w₀ w₁ w₂ w₃ : World} {a : Act} {outcome : Resolution} {exc : RunExc}
    (hw₀ : (runSys rt n).Reachable w₀) (hfresh : r ∉ w₀.drawn) (hstep : w₀.step rt a = some w₁)
    (hs : w₁.starting.get? r = some s) (h₁₂ : (runSys rt n).Reaches w₁ w₂)
    (hend : w₂.resolved r outcome = some (w₃, some exc)) :
    (w₃.Unblocked s.threadId r ↔ endsCleanly a.config a.metadata outcome = true) ∧
      w₀.SameThread w₃ s.threadId := by
  obtain ⟨hconfig, hmetadata, hsame₀₁⟩ :=
    starting_of_draws (slotInv_of_reachable hw₀) (worldStep_of_step hstep) hfresh hs
  have hw₁ : (runSys rt n).Reachable w₁ := hw₀.tail trivial hstep
  have hI₂ : w₂.SlotInv := slotInv_of_reachable (hw₁.trans h₁₂)
  have hdrawn : r ∈ w₁.drawn := ((slotInv_of_reachable hw₁).starting_fresh hs).1
  -- the start that ends is the one that was accepted
  obtain ⟨s₂, hs₂⟩ : ∃ s₂, w₂.starting.get? r = some s₂ := by
    unfold resolved at hend
    split at hend
    · cases hend
    · next s₂ hs₂ => exact ⟨s₂, hs₂⟩
  obtain ⟨hs', hpend, hlast⟩ := frame_of_reaches hw₁ hdrawn h₁₂ hs₂
  obtain rfl := Option.some.inj (hs.symm.trans hs')
  obtain ⟨hiff, htasks, hpend₃, hlast₃⟩ := released_iff_of_resolved hI₂ hs₂ hend
  have hI₃ : w₃.SlotInv := by
    have hstep₂ : w₂.step rt (.resolved r outcome) = some w₃ := by
      show (w₂.resolved r outcome).map Prod.fst = some w₃
      rw [hend]
      rfl
    exact hI₂.step (worldStep_of_step hstep₂)
  refine ⟨?_, ?_, ?_⟩
  · rw [← hconfig, ← hmetadata, ← hiff]
    refine ⟨And.left, fun hrel => ⟨hrel, fun v input config metadata runId => ?_⟩⟩
    exact hrel.start (htasks ▸ (hI₂.starting_fresh hs₂).2) v input config metadata runId hI₃
  · rw [hpend₃, hpend, hsame₀₁.1]
  · rw [hlast₃, hlast, hsame₀₁.2]

end World

/-- Failed starts. First part: a start that raises before it is suspended, other
than by `RunActiveError`, has released the slot. Second part: for a start that was
accepted and ends by raising after any other steps, the slot is released and the
thread is as before the call if and only if the resolution raised an `Exception`
(no `CancelledError`, and no merge failed after it); the pending interrupts and
the last assistant are as before in every case. Third part: in every run whose
starts all end so, a slot is reserved only while its start is suspended. -/
theorem failed_start_releases_iff (rt : Runtime) (n : Nat) :
    (∀ w, (runSys rt n).Reachable w →
      ∀ t v input config metadata runId w' exc, runId ∉ w.drawn →
        w.start t v input config metadata runId = (w', some exc) →
        (∀ r, exc ≠ .runActive t r) → w'.Unblocked t runId ∧ w.SameThread w' t) ∧
    (∀ w₀ w₁ w₂ w₃ a runId s outcome exc, (runSys rt n).Reachable w₀ → runId ∉ w₀.drawn →
      a.Starts s.threadId runId → w₀.step rt a = some w₁ → w₁.starting.get? runId = some s →
      (runSys rt n).Reaches w₁ w₂ → w₂.resolved runId outcome = some (w₃, some exc) →
      (w₃.Unblocked s.threadId runId ∧ w₀.SameThread w₃ s.threadId ↔
        endsCleanly a.config a.metadata outcome = true) ∧
      w₀.SameThread w₃ s.threadId) ∧
    (∀ w, (runSys rt n).ReachableVia (fun w a => w.cleanEnd a = true) w →
      ∀ t a, w.active.get? t = some a → a.task = none →
        ∃ s, w.starting.get? a.runId = some s ∧ s.threadId = t) := by
  refine ⟨?_, ?_, fun w hw => World.reserved_starting hw⟩
  · intro w hw t v input config metadata runId w' exc hfresh hstart hexc
    exact World.start_releases (World.slotInv_of_reachable hw) hfresh hstart hexc
  · intro w₀ w₁ w₂ w₃ a runId s outcome exc hw₀ hfresh _ hstep hs h₁₂ hend
    obtain ⟨hiff, hsame⟩ := World.start_ends_iff hw₀ hfresh hstep hs h₁₂ hend
    exact ⟨⟨fun h => hiff.mp h.1, fun h => ⟨hiff.mpr h, hsame⟩⟩, hsame⟩

/-- A client sends a string as the metadata of its run. -/
def stringMetadata : List Act :=
  [.register "agent", .start "t" (.str "agent") .null none (.str "nightly") "1"]

def stringMetadataEnd : World :=
  ((runSys .inert 500).run (.new 500) stringMetadata).getD (.new 500)

/-- The graph is built, the merge of the metadata raises `TypeError`, and the next
start is refused because of the reservation that is left. -/
theorem unmergeable_start_blocks :
    ¬∀ w₂ w₃ runId s outcome exc, (runSys .inert 500).Reachable w₂ →
      w₂.starting.get? runId = some s → w₂.resolved runId outcome = some (w₃, some exc) →
      w₃.Unblocked s.threadId runId := by
  intro hall
  have hrun : (runSys .inert 500).run (.new 500) stringMetadata = some stringMetadataEnd := rfl
  have hreach := TSys.reachable_of_run (M := runSys .inert 500) rfl hrun
  have hun := hall stringMetadataEnd _ "1" _ (.graph ⟨true⟩) _ hreach rfl rfl
  exact hun.2 (.str "agent") (.input .null) none .null "2" rfl

/-- The same start, ended by an exception out of the factory. -/
theorem failed_start_releases_schedule :
    ∃ w₃, stringMetadataEnd.resolved "1" (.raised (.other ⟨"RuntimeError", "no model"⟩) nofun) =
        some (w₃, some (.other ⟨"RuntimeError", "no model"⟩)) ∧
      w₃.Unblocked "t" "1" := by
  have hrun : (runSys .inert 500).run (.new 500) [.register "agent"] =
      some ((World.new 500).register "agent") := rfl
  have hreach := TSys.reachable_of_run (M := runSys .inert 500) rfl hrun
  refine ⟨_, rfl, ?_⟩
  have hend := (failed_start_releases_iff .inert 500).2.1 ((World.new 500).register "agent")
    stringMetadataEnd stringMetadataEnd _
    (.start "t" (.str "agent") .null none (.str "nightly") "1") "1" _
    (.raised (.other ⟨"RuntimeError", "no model"⟩) nofun) _ hreach (by decide) ⟨rfl, rfl⟩ rfl rfl
    .refl rfl
  exact (hend.1.mpr rfl).1

end AgentProtocol

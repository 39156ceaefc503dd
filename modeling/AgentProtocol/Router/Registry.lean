import AgentProtocol.Router.Origins

/-!
# The registered assistants (`registry.py`)

A factory is added, or put in the place of another of the same id, and never taken away. So
the assistant of a start under way and of a run is registered for as long as the process lasts
(`World.KnownInv`).
-/

namespace AgentProtocol

/-- `assistant_ids` -/
def assistantIds (factories : List String) : List String := factories.insertionSort (· ≤ ·)

theorem mem_assistantIds {factories : List String} {assistantId : String} :
    assistantId ∈ assistantIds factories ↔ assistantId ∈ factories :=
  (List.perm_insertionSort _ _).mem_iff

namespace World

variable {rt : Runtime} {n : Nat} {w w' : World} {r : String}

/-- No step takes a factory away. -/
theorem factories_of_step {act : Act} (h : w.step rt act = some w') :
    w.factories ⊆ w'.factories := by
  cases act with
  | register assistantId =>
      obtain rfl := Option.some.inj h
      intro a ha
      show a ∈ if assistantId ∈ w.factories then w.factories else w.factories ++ [assistantId]
      split
      · exact ha
      · exact List.mem_append_left _ ha
  | _ => cases worldStep_of_step h <;> exact fun _ ha => ha

/-- A call of `start` reserves for a registered assistant. -/
theorem starting_of_start {t runId : String} {v : Value} {input : GraphInput}
    {config : Option (Dict String Json)} {metadata : Json} {s : Starting}
    (hs : (w.start t v input config metadata runId).1.starting.get? r = some s) :
    w.starting.get? r = some s ∨ s.assistantId ∈ w.factories := by
  have hstart := w.startStep t v input config metadata runId
  generalize w.start t v input config metadata runId = res at hstart hs
  cases hstart with
  | busy => exact .inl hs
  | unknown => exact .inl hs
  | held _ _ hmem =>
      refine (starting_of_hold hs).imp_right ?_
      rintro rfl
      exact hmem

theorem starting_of_step {act : Act} {s : Starting} (h : w.step rt act = some w')
    (hs : w'.starting.get? r = some s) :
    w.starting.get? r = some s ∨ s.assistantId ∈ w.factories := by
  cases act with
  | start t v input config metadata runId =>
      simp only [step] at h
      split at h
      · cases h
      · rw [← Option.some.inj h] at hs
        exact starting_of_start hs
  | respond t i response assistantId runId =>
      simp only [step] at h
      split at h
      · cases h
      · rw [← Option.some.inj h] at hs
        rcases w.respond_cases t i response assistantId runId with heq | ⟨v, -, heq⟩
        · rw [heq] at hs
          exact .inl hs
        · rw [heq] at hs
          exact starting_of_start hs
  | resolved runId outcome =>
      obtain ⟨⟨w₁, res⟩, hres, rfl⟩ := Option.map_eq_some_iff.mp h
      exact .inl (starting_of_resolved hres hs)
  | cancel t runId => exact .inl (starting_of_internal h (.inr ⟨t, runId, rfl⟩) ▸ hs)
  | _ => exact .inl (starting_of_internal h (.inl rfl) ▸ hs)

/-- A run there was before, or it is of a start under way. -/
theorem run_of_step {act : Act} {task' : Task} (h : w.step rt act = some w')
    (hg : w'.tasks.get? r = some task') :
    (∃ task, w.tasks.get? r = some task ∧ task.SameRun task') ∨
      ∃ s, w.starting.get? r = some s ∧ s.Creates task' := by
  cases hact : act.isResolved with
  | false => exact .inl (same_run_of_step h hact hg)
  | true =>
      cases act with
      | resolved runId outcome =>
          obtain ⟨⟨w₁, res⟩, hres, rfl⟩ := Option.map_eq_some_iff.mp h
          exact (created_of_resolved hres hg).imp_left fun hg => ⟨task', hg, .refl _⟩
      | _ => cases hact

/-- The assistants the process runs are registered. -/
structure KnownInv (w : World) : Prop where
  starting : ∀ r s, w.starting.get? r = some s → s.assistantId ∈ w.factories
  tasks : ∀ r task, w.tasks.get? r = some task → task.assistantId ∈ w.factories

theorem KnownInv.step {act : Act} (hK : w.KnownInv) (h : w.step rt act = some w') :
    w'.KnownInv := by
  have hsub := factories_of_step h
  constructor
  · intro r s hs
    rcases starting_of_step h hs with hs | hmem
    · exact hsub (hK.starting r s hs)
    · exact hsub hmem
  · intro r task' hg
    rcases run_of_step h hg with ⟨task, hg, hsame⟩ | ⟨s, hs, hcreates⟩
    · rw [hsame.assistantId]
      exact hsub (hK.tasks r task hg)
    · rw [hcreates.assistantId]
      exact hsub (hK.starting r s hs)

theorem knownInv_of_reachable {ok : World → Act → Prop} (h : (runSys rt n).ReachableVia ok w) :
    w.KnownInv := by
  refine h.induct ?_ ?_
  · rintro w rfl
    exact ⟨fun r s hs => (by cases hs), fun r task hg => (by cases hg)⟩
  · intro w act w' _ ih _ hstep
    exact ih.step hstep

end World

end AgentProtocol

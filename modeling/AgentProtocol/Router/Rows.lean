import AgentProtocol.Router.Frames

/-!
# The rows of the store

A row is never removed and keeps its metadata (`ServiceStep.metadata_kept`), so a request
that has found its thread finds it at every later await, and what its handler has of the
metadata is what the row holds (`App.RowInv`).
-/

namespace AgentProtocol

namespace MemoryThreadStore

/-- The metadata of a thread. -/
def metadata (s : MemoryThreadStore) (threadId : String) : Option (Dict String Json) :=
  (s.get threadId).map ThreadRecord.metadata

variable {s : MemoryThreadStore} {t now : String}

theorem metadata_create (s : MemoryThreadStore) (t now : String) (m : Dict String Json)
    (t' : String) :
    (s.create t now m).2.metadata t' = if t = t' then some m else s.metadata t' := by
  unfold metadata get create
  simp only [Dict.get?_set]
  split <;> rfl

theorem assistant_create (h : s.get t = none) (m : Dict String Json) (t' : String) :
    (s.create t now m).2.assistant t' = s.assistant t' := by
  unfold assistant get create at *
  simp only [Dict.get?_set]
  split
  · next ht =>
    rw [← ht, h]
    rfl
  · rfl

theorem metadata_setAssistant (s : MemoryThreadStore) (t assistantId now t' : String) :
    (s.setAssistant t assistantId now).metadata t' = s.metadata t' := by
  unfold setAssistant
  split
  · next record hrecord =>
    unfold metadata get
    simp only [Dict.get?_set]
    split
    · next ht =>
      rw [← ht, hrecord]
      rfl
    · rfl
  · rfl

theorem assistant_setAssistant {m : Dict String Json} (h : s.metadata t = some m)
    (assistantId now t' : String) :
    (s.setAssistant t assistantId now).assistant t' =
      if t = t' then some assistantId else s.assistant t' := by
  obtain ⟨record, hrecord, -⟩ := Option.map_eq_some_iff.mp h
  have hget : s.threads.get? t = some record := hrecord
  unfold setAssistant assistant get
  simp only [hget, Dict.get?_set]
  split <;> rfl

end MemoryThreadStore

variable {rt : Runtime} {n : Nat} {a a' : App}

namespace App

@[simp] theorem bind_world (a : App) (t : String) (v : Json) (now : String) :
    (a.bind t v now).world = a.world := by
  unfold bind
  split <;> rfl

@[simp] theorem bind_requests (a : App) (t : String) (v : Json) (now : String) :
    (a.bind t v now).requests = a.requests := by
  unfold bind
  split <;> rfl

theorem bind_metadata (a : App) (t : String) (v : Json) (now t' : String) :
    (a.bind t v now).store.metadata t' = a.store.metadata t' := by
  unfold bind
  split
  · exact a.store.metadata_setAssistant t _ now t'
  · rfl

end App

/-- No step removes a row or changes its metadata. -/
theorem ServiceStep.metadata_kept {act : AppAct} {t : String}
    {m : Dict String Json} (h : ServiceStep rt a act a') (hm : a.store.metadata t = some m) :
    a'.store.metadata t = some m := by
  cases h with
  | @create t' now m' hnone =>
      show (a.store.create t' now m').2.metadata t = some m
      rw [MemoryThreadStore.metadata_create]
      split
      · next ht =>
        rw [← ht, MemoryThreadStore.metadata, hnone] at hm
        cases hm
      · exact hm
  | start => exact (App.bind_metadata _ _ _ _ _).trans hm
  | _ => exact hm

/-- The request of a handler that is at an await or comes to one. -/
theorem RequestStep.under_way {w w' : World} {store : MemoryThreadStore} {id : Nat}
    {act : AppAct} {req req' : Request} (h : RequestStep rt w store id act req w' req') :
    req.handler.isAnswered = false ∧ req'.threadId = req.threadId ∧
      ∀ record, req'.handler ≠ .body record := by
  have hopen : req.handler.isOpen = true → req.handler.isAnswered = false :=
    fun h => ((App.isOpen_iff _).mp h).1
  cases h with
  | quiet ho ht hpassive _ =>
      refine ⟨hopen ho, ht, ?_⟩
      intro record heq
      rw [heq] at hpassive
      cases hpassive
  | cancel => exact ⟨rfl, rfl, fun record heq => by cases heq⟩
  | refuse ho ht hans _ _ _ =>
      refine ⟨hopen ho, ht, ?_⟩
      intro record heq
      rw [hans] at heq
      cases heq
  | start => exact ⟨rfl, rfl, fun record heq => by cases heq⟩
  | resume => exact ⟨rfl, rfl, fun record heq => by cases heq⟩
  | fail hrun _ _ =>
      exact ⟨Handler.isAnswered_of_runId? hrun, rfl, fun record heq => by cases heq⟩

/-- An answer is final. -/
theorem ServiceStep.answered_kept {act : AppAct} {id : Nat} {req : Request}
    (h : ServiceStep rt a act a') (hg : a.requests.get? id = some req)
    (hans : req.handler.isAnswered = true) : a'.requests.get? id = some req := by
  -- the request that is touched is another one
  have hset : ∀ {id₀ req₀}, (∀ req, a.requests.get? id₀ = some req → req.handler.isAnswered = false) →
      (a.requests.set id₀ req₀).get? id = some req := by
    intro id₀ req₀ hnot
    rw [Dict.get?_set_ne]
    · exact hg
    · rintro rfl
      rw [hnot req hg] at hans
      cases hans
  have hsome : ∀ {id₀ req₁}, a.requests.get? id₀ = some req₁ → req₁.handler.isAnswered = false →
      ∀ req, a.requests.get? id₀ = some req → req.handler.isAnswered = false := by
    intro id₀ req₁ h₁ hnot req h₂
    rwa [← Option.some.inj (h₁.symm.trans h₂)]
  have hnone : ∀ {id₀}, a.requests.get? id₀ = none →
      ∀ req, a.requests.get? id₀ = some req → req.handler.isAnswered = false := by
    intro id₀ h₁ req h₂
    rw [h₁] at h₂
    cases h₂
  cases h with
  | notFound hnew _ => exact hset (hnone hnew)
  | accept hnew _ => exact hset (hnone hnew)
  | handler _ h₁ hreq => exact hset (hsome h₁ hreq.under_way.1)
  | start h₁ _ =>
      rw [App.bind_requests]
      exact hset (hsome h₁ rfl)
  | resume h₁ _ => exact hset (hsome h₁ rfl)
  | _ => exact hg

namespace App

/-- The thread of every request under way has a row, and a handler that waits for its
body holds the metadata of the row. -/
def RowInv (a : App) : Prop :=
  ∀ id req, a.requests.get? id = some req → req.handler.isAnswered = false →
    ∃ m, a.store.metadata req.threadId = some m ∧
      ∀ record, req.handler = .body record → record.metadata = m

theorem RowInv.step {act : AppAct} (hR : a.RowInv) (h : ServiceStep rt a act a') : a'.RowInv := by
  -- the requests that are not touched
  have hkeep : ∀ {id req}, a.requests.get? id = some req → req.handler.isAnswered = false →
      ∃ m, a'.store.metadata req.threadId = some m ∧
        ∀ record, req.handler = .body record → record.metadata = m := by
    intro id req hg hnot
    obtain ⟨m, hm, hbody⟩ := hR id req hg hnot
    exact ⟨m, h.metadata_kept hm, hbody⟩
  have hset : ∀ {id req'}, a'.requests = a.requests.set id req' →
      (req'.handler.isAnswered = false → ∃ m, a'.store.metadata req'.threadId = some m ∧
        ∀ record, req'.handler = .body record → record.metadata = m) → a'.RowInv := by
    intro id req' hreq hnew id' req hg hnot
    rw [hreq, Dict.get?_set] at hg
    split at hg
    · obtain rfl := Option.some.inj hg
      exact hnew hnot
    · exact hkeep hg hnot
  cases h with
  | notFound => exact hset rfl fun hnot => by cases hnot
  | @accept id t record _ hrecord =>
      refine hset rfl fun _ => ⟨record.metadata, ?_, ?_⟩
      · exact Option.map_eq_some_iff.mpr ⟨record, hrecord, rfl⟩
      · rintro record' ⟨⟩
        rfl
  | @handler _ id req req' w' _ hg hreq =>
      obtain ⟨hnot, ht, hbody⟩ := hreq.under_way
      refine hset rfl fun _ => ?_
      obtain ⟨m, hm, -⟩ := hkeep hg hnot
      rw [ht]
      exact ⟨m, hm, fun record heq => absurd heq (hbody record)⟩
  | start => exact hset (bind_requests _ _ _ _) fun hnot => by cases hnot
  | resume => exact hset rfl fun hnot => by cases hnot
  | _ => exact fun id req hg hnot => hkeep hg hnot

theorem rowInv_of_reachable {ok : App → AppAct → Prop} (h : (appSys rt n).ReachableVia ok a) :
    a.RowInv := by
  refine h.induct ?_ ?_
  · rintro a ⟨-, hreq, -⟩ id req hg
    rw [hreq] at hg
    cases hg
  · intro a act a' _ ih _ hstep
    exact ih.step (serviceStep_of_step hstep)

end App

end AgentProtocol

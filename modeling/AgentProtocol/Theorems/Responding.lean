import AgentProtocol.Theorems.PendingInterrupts

/-!
# Responses to pending interrupts (`RunManager.respond`)

`respond` looks an interrupt up among the keys of the pending map. One of these keys is
`"assistant_id"`, under which the map keeps the assistant of its run, and the lookup takes
it for an interrupt (`responds_exactly_iff`).

An accepted response becomes the input `Command(resume=...)` of a new run. The input does
not name the interrupt, and the new run takes the whole map away once it is created
(`response_supersedes_map`).
-/

namespace AgentProtocol

namespace World

/-- The last run of thread `t` has announced an interrupt of this id. -/
def AnnouncedTo (w : World) (t id : String) : Prop :=
  ∃ older r task, w.runsOf t = older ++ [(r, task)] ∧
    id ∈ (requestsOf (w.eventsOf t r)).map Prod.fst

/-- The response gets as far as `start`, which has drawn the id of its run. -/
def Proceeds (w : World) (t id : String) (response : Json) (asst : Option String)
    (runId : String) : Prop :=
  (w.respond t id response asst runId).1.drawn = runId :: w.drawn

/-- The response is accepted just for an announced interrupt, and refused without a trace
for any other. -/
structure RespondsExactly (w : World) (t id : String) (response : Json) (asst : Option String)
    (runId : String) : Prop where
  accepts : w.Proceeds t id response asst runId ↔ w.AnnouncedTo t id
  refuses : ¬w.AnnouncedTo t id →
    w.respond t id response asst runId = (w, some (.unknownInterrupt t id))

variable {rt : Runtime} {n : Nat} {w : World} {t id runId : String} {response : Json}
  {asst : Option String} {pending : Dict String Value}

theorem mem_pendingOf {assistantId : String} {interrupts : List (String × Value)} {id : String} :
    (pendingOf assistantId interrupts).contains id = true ↔
      id = "assistant_id" ∨ id ∈ interrupts.map Prod.fst := by
  constructor
  · intro h
    apply (contains_pendingOf h).imp_right
    rintro ⟨p, hp, rfl⟩
    exact List.mem_map_of_mem hp
  · intro h
    unfold pendingOf Dict.contains
    rw [Dict.get?_update]
    cases hget : Entries.get? id interrupts.reverse with
    | some v => rfl
    | none =>
        have hno : id ∉ interrupts.map Prod.fst := by
          rw [Entries.get?_eq_none_iff, List.map_reverse, List.mem_reverse] at hget
          exact hget
        obtain rfl := h.resolve_right hno
        rfl

theorem announcedTo_iff {older : List (String × Task)} {r : String} {task : Task}
    (hruns : w.runsOf t = older ++ [(r, task)]) :
    w.AnnouncedTo t id ↔ id ∈ (requestsOf (w.eventsOf t r)).map Prod.fst := by
  constructor
  · rintro ⟨older', r', task', hruns', hmem⟩
    rw [hruns] at hruns'
    obtain ⟨-, heq⟩ := List.append_inj' hruns' rfl
    obtain ⟨rfl, -⟩ := Prod.mk.inj (List.head_eq_of_cons_eq heq)
    exact hmem
  · intro hmem
    exact ⟨older, r, task, hruns, hmem⟩

/-- The keys of a pending map are the key of its assistant and the announced ids. -/
theorem contains_pending (h : (runSys rt n).Reachable w)
    (hp : w.pendingInputs.get? t = some pending) :
    pending.contains id = true ↔ id = "assistant_id" ∨ w.AnnouncedTo t id := by
  have hP : w.PendingInv rt := pendingInv_of_reachable h
  have hL : w.LogInv := logInv_of_reachable h
  rw [hP.pending t, Option.bind_eq_some_iff] at hp
  obtain ⟨⟨r, task⟩, hlast, hpending⟩ := hp
  obtain ⟨older, hruns⟩ := List.getLast?_eq_some_iff.mp hlast
  obtain ⟨hg, ht⟩ := mem_runsOf.mp (List.mem_of_getLast? hlast)
  have hrequests : requestsOf (w.eventsOf t r) = task.interrupts rt := by
    rw [← ht, hL.eventsOf_eq hg]
    exact hP.announced r task hg
  unfold Task.pending at hpending
  split at hpending
  · cases hpending
  · rw [← Option.some.inj hpending, mem_pendingOf, announcedTo_iff hruns, hrequests]

/-- On a free thread `start` draws the id of its run. -/
theorem start_drawn (hfree : w.Free t) (v : Value) (input : GraphInput)
    (config : Option (Dict String Json)) (metadata : Json) (runId : String) :
    (w.start t v input config metadata runId).1.drawn = runId :: w.drawn := by
  have hstep := w.startStep t v input config metadata runId
  generalize w.start t v input config metadata runId = res at hstep
  cases hstep with
  | busy ha hb =>
      rw [hfree _ ha] at hb
      cases hb
  | unknown => rfl
  | held => rfl

/-- A response proceeds when its id is a key of the map, and is refused otherwise. -/
theorem respond_of_contains (hp : w.pendingInputs.get? t = some pending)
    (hc : pending.contains id = true) : w.respond t id response asst runId =
      w.start t (resumeAssistant pending asst) (.resume response) none .null runId := by
  unfold respond
  rw [hp]
  exact if_pos hc

theorem respond_of_not_contains (hp : w.pendingInputs.get? t = some pending)
    (hc : ¬pending.contains id = true) :
    w.respond t id response asst runId = (w, some (.unknownInterrupt t id)) := by
  unfold respond
  rw [hp]
  exact if_neg hc

end World

/-- On a thread with a pending map and a free slot, a response is accepted just for an
interrupt its last run has announced, and refused without a trace otherwise, if and only if
the id is not the bookkeeping key of the map, or was announced itself. -/
theorem responds_exactly_iff (rt : Runtime) (n : Nat) (w : World) (h : (runSys rt n).Reachable w)
    (t : String) (pending : Dict String Value) (hp : w.pendingInputs.get? t = some pending)
    (hfree : w.Free t) (id : String) (response : Json) (asst : Option String) (runId : String) :
    w.RespondsExactly t id response asst runId ↔
      (id = "assistant_id" → w.AnnouncedTo t id) := by
  have hkeys : pending.contains id = true ↔ _ := World.contains_pending h hp
  have hproceeds : w.Proceeds t id response asst runId ↔ pending.contains id = true := by
    unfold World.Proceeds
    by_cases hc : pending.contains id = true
    · rw [World.respond_of_contains hp hc]
      exact iff_of_true (World.start_drawn hfree _ _ _ _ _) hc
    · rw [World.respond_of_not_contains hp hc]
      refine iff_of_false ?_ hc
      -- no list is its own tail
      intro heq
      exact absurd (congrArg List.length heq) (by simp)
  constructor
  · intro hexact hid
    exact hexact.accepts.mp (hproceeds.mpr (hkeys.mpr (.inl hid)))
  · intro hcond
    have hiff : pending.contains id = true ↔ w.AnnouncedTo t id := by
      rw [hkeys]
      exact or_iff_right_of_imp hcond
    refine ⟨hproceeds.trans hiff, fun hno => ?_⟩
    exact World.respond_of_not_contains hp (mt hiff.mp hno)

theorem streamedEnd_asking_reachable : (runSys .inert 500).Reachable (streamedEnd asking) :=
  TSys.reachable_of_run rfl
    (show (runSys .inert 500).run (.new 500) (streamed asking) = some _ from rfl)

theorem streamedEnd_asking_free : (streamedEnd asking).Free "t" := by
  intro a ha
  rw [← Option.some.inj ha]
  rfl

theorem responds_exactly_asking :
    (streamedEnd asking).RespondsExactly "t" "i" .null none "2" := by
  obtain ⟨pending, hp⟩ : ∃ pending, (streamedEnd asking).pendingInputs.get? "t" = some pending :=
    ⟨_, rfl⟩
  refine (responds_exactly_iff .inert 500 _ streamedEnd_asking_reachable "t" pending hp
    streamedEnd_asking_free "i" .null none "2").mpr ?_
  intro hid
  exact absurd hid (by decide)

/-- The run has asked with the id `"i"` alone, and a response to `"assistant_id"` is
accepted. -/
theorem bookkeeping_key_answered :
    ¬(streamedEnd asking).RespondsExactly "t" "assistant_id" .null none "2" := by
  intro hexact
  have hproceeds : (streamedEnd asking).Proceeds "t" "assistant_id" .null none "2" := by
    show (_ : List String) = _
    rfl
  have hruns : ∃ task, (streamedEnd asking).runsOf "t" = [] ++ [("1", task)] := ⟨_, rfl⟩
  obtain ⟨task, hruns⟩ := hruns
  have hmem := (World.announcedTo_iff hruns).mp (hexact.accepts.mp hproceeds)
  exact absurd hmem (by decide)

/-! ## What becomes of the other interrupts -/

/-- The input of the run that is starting under this id. -/
def World.inputOf (w : World) (runId : String) : Option GraphInput :=
  (w.starting.get? runId).map Starting.input

/-- A response to `i` gives the graph an input of its own, and leaves the other interrupts
of the thread pending when its run is created. -/
structure World.AnswersOnly (w : World) (t i : String) (response : Json) (asst : Option String)
    (runId : String) : Prop where
  addressed : ∀ j response', j ≠ i → w.AnnouncedTo t j →
    (w.respond t i response asst runId).1.inputOf runId ≠
      (w.respond t j response' asst runId).1.inputOf runId
  others : ∀ graph v, (w.respond t i response asst runId).1.resolved runId (.graph graph) =
      some (v, none) →
    ∀ j, j ≠ i → w.AnnouncedTo t j → ∃ pending, v.pendingInputs.get? t = some pending ∧
      pending.contains j = true

/-- What an accepted response `respond t i response` comes to, from the state `w` it met to
the state `v` its resolution is resumed in. -/
structure World.Supersedes (w v : World) (t : String) (response : Json) (asst : Option String)
    (runId : String) (s : Starting) : Prop where
  /-- the input is the response, for whichever interrupt -/
  input : s.threadId = t ∧ s.input = .resume response
  unaddressed : ∀ i j pending, w.pendingInputs.get? t = some pending →
    pending.contains i = true → pending.contains j = true →
    w.respond t i response asst runId = w.respond t j response asst runId
  /-- the map is whole until the run is created -/
  kept : v.pendingInputs.get? t = w.pendingInputs.get? t
  /-- a resolution that fails leaves it so -/
  failed : ∀ outcome v' exc, v.resolved runId outcome = some (v', some exc) →
    v'.pendingInputs = v.pendingInputs
  /-- the run takes all of it away, with the input for its graph -/
  created : ∀ outcome v', v.resolved runId outcome = some (v', none) →
    v'.pendingInputs = v.pendingInputs.erase t ∧
      ∃ task, v'.tasks.get? runId = some task ∧ task.threadId = t ∧ task.input = .resume response

namespace World

variable {rt : Runtime} {n : Nat} {w v : World} {t i runId : String} {response : Json}
  {asst : Option String} {pending : Dict String Value}

/-- An accepted start suspends with its arguments. -/
theorem start_suspends {v : Value} {input : GraphInput} {config : Option (Dict String Json)}
    {metadata : Json} {w' : World} (h : w.start t v input config metadata runId = (w', none)) :
    ∃ assistantId, w' = w.hold runId { threadId := t, assistantId, input, config, metadata } := by
  have hstep := w.startStep t v input config metadata runId
  rw [h] at hstep
  cases hstep with
  | held _ hv _ => exact ⟨_, rfl⟩

/-- What a resolution without an exception comes to. -/
theorem resolved_created {outcome : Resolution} {v' : World} {s : Starting}
    (hs : v.starting.get? runId = some s) (h : v.resolved runId outcome = some (v', none)) :
    ∃ graph config, v' = v.launch runId s graph config := by
  unfold resolved at h
  rw [hs] at h
  cases outcome with
  | raised exc => cases h
  | cancelled => cases h
  | graph graph =>
      dsimp only at h
      split at h
      · cases h
      · next config _ =>
        obtain ⟨rfl, -⟩ := Prod.mk.inj (Option.some.inj h)
        exact ⟨graph, config, rfl⟩

end World

/-- An accepted response reaches the graph as `Command(resume=...)`, the same for every
interrupt of the map. The map is whole until the run is created, whatever happens in between,
and after a resolution that fails; the run that is created takes all of it away. -/
theorem response_supersedes_map (rt : Runtime) (n : Nat) (w : World)
    (h : (runSys rt n).Reachable w) (t i : String) (pending : Dict String Value)
    (hp : w.pendingInputs.get? t = some pending) (hi : pending.contains i = true)
    (response : Json) (asst : Option String) (runId : String) (hfresh : runId ∉ w.drawn)
    (w' : World) (hr : w.respond t i response asst runId = (w', none)) (v : World)
    (hv : (runSys rt n).Reaches w' v) (s : Starting) (hs : v.starting.get? runId = some s) :
    w.Supersedes v t response asst runId s := by
  have hw' : (runSys rt n).Reachable w' := by
    apply h.tail (a := .respond t i response asst runId) trivial
    show (if runId ∈ w.drawn then none else some _) = some w'
    rw [if_neg hfresh, hr]
  have hstart := hr
  rw [World.respond_of_contains hp hi] at hstart
  obtain ⟨assistantId, rfl⟩ := World.start_suspends hstart
  -- the start that is resumed is the one of this response
  obtain ⟨hs', hpending, -⟩ := World.frame_of_reaches hw' (List.mem_cons_self ..) hv hs
  obtain rfl := Option.some.inj ((Dict.get?_set_self w.starting runId _).symm.trans hs')
  constructor
  · exact ⟨rfl, rfl⟩
  · intro i' j' pending' hp' hi' hj'
    rw [World.respond_of_contains hp' hi', World.respond_of_contains hp' hj']
  · exact hpending
  · intro outcome v' exc hfail
    exact v.refusalsKeepPending.resolved runId outcome v' exc hfail
  · intro outcome v' hcreated
    obtain ⟨graph, config, rfl⟩ := World.resolved_created hs hcreated
    exact ⟨rfl, _, Dict.get?_set_self _ _ _, rfl, rfl⟩

/-- A run that stops at two interrupts. -/
def askingTwo : List StreamItem :=
  [.values (.ofList [("__interrupt__",
    .list [.dict [(.str "id", .str "i"), (.str "value", .str "go?")],
      .dict [(.str "id", .str "j"), (.str "value", .str "where?")]])])]

theorem response_supersedes_map_two :
    ∃ s, (streamedEnd askingTwo).Supersedes
      ((streamedEnd askingTwo).respond "t" "i" (.bool true) none "2").1 "t" (.bool true) none
      "2" s := by
  have hrun : (runSys .inert 500).run (.new 500) (streamed askingTwo) =
      some (streamedEnd askingTwo) := rfl
  have hreach := TSys.reachable_of_run (M := runSys .inert 500) rfl hrun
  exact ⟨_, response_supersedes_map .inert 500 _ hreach "t" "i" _ rfl rfl (.bool true) none "2"
    (by decide) _ rfl _ .refl _ rfl⟩

/-- With two interrupts pending, the input does not tell which one is answered, and the
other one is gone when the run is created. -/
theorem second_interrupt_dropped :
    (streamedEnd askingTwo).AnnouncedTo "t" "i" ∧ (streamedEnd askingTwo).AnnouncedTo "t" "j" ∧
      ((streamedEnd askingTwo).respond "t" "i" (.bool true) none "2").2 = none ∧
      ((streamedEnd askingTwo).respond "t" "i" (.bool true) none "2").1.inputOf "2" =
        ((streamedEnd askingTwo).respond "t" "j" (.bool true) none "2").1.inputOf "2" ∧
      ¬(streamedEnd askingTwo).AnswersOnly "t" "i" (.bool true) none "2" := by
  have hruns : ∃ task, (streamedEnd askingTwo).runsOf "t" = [] ++ [("1", task)] := ⟨_, rfl⟩
  obtain ⟨task, hruns⟩ := hruns
  have hi : (streamedEnd askingTwo).AnnouncedTo "t" "i" :=
    (World.announcedTo_iff hruns).mpr (by decide)
  have hj : (streamedEnd askingTwo).AnnouncedTo "t" "j" :=
    (World.announcedTo_iff hruns).mpr (by decide)
  refine ⟨hi, hj, rfl, rfl, fun honly => ?_⟩
  obtain ⟨pending, hpending, -⟩ := honly.others ⟨false⟩ _ rfl "j" (by decide) hj
  cases hpending

end AgentProtocol

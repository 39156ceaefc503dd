import AgentProtocol.Runner.HubRuns
import AgentProtocol.Runner.Trace
import AgentProtocol.Theorems.Sessions
import AgentProtocol.Theorems.Tenure

/-!
# The terminal event of a run is the last one a client waits for

A client of a thread reads until it sees the terminal event of a run and then leaves
(`hasTerminal`, `e2e.mjs`). If no connection of its session lost an event it has by then
everything the run has published and it has asked for, but for the requests for input that
follow an `interrupted`; and the run is over, so there is no more to come.
-/

namespace AgentProtocol

/-! ## After a terminal event -/

/-- Nothing but requests for input comes after a terminal event. -/
def ClosesWith (e e' : EventData) : Prop := e.isTerminal = true → e'.isRequest = true

/-- The events of a task, or of a stretch of it, that leaves it in this phase: it reports no
end while it is under way. -/
structure Closing (phase : Phase) (events : List EventData) : Prop where
  last : events.Pairwise ClosesWith
  under_way : phase.isDone = false → ∀ e ∈ events, e.isTerminal = false

theorem pairwise_closesWith {es es' : List EventData} (h : ∀ e ∈ es, e.isTerminal = false)
    (h' : es'.Pairwise ClosesWith) : (es ++ es').Pairwise ClosesWith := by
  rw [List.pairwise_append]
  refine ⟨?_, h', ?_⟩
  · refine List.Pairwise.imp_of_mem ?_ (List.pairwise_of_forall fun _ _ => trivial)
    intro e e' he _ _ hterm
    rw [h e he] at hterm
    cases hterm
  · intro e he e' _ hterm
    rw [h e he] at hterm
    cases hterm

theorem frameEvents_open (frames : List Frame) :
    ∀ e ∈ frameEvents frames, e.isTerminal = false :=
  fun e he => EventData.isTerminal_of_isBody (frameEvents_body frames e he)

section Steps

variable {rt : Runtime} {assistantId : String}

/-- More events, after some that report no end. -/
theorem Closing.after {phase : Phase} {es es' : List EventData} (h : Closing phase es')
    (hes : ∀ e ∈ es, e.isTerminal = false) : Closing phase (es ++ es') where
  last := pairwise_closesWith hes h.last
  under_way hnd e he := by
    rcases List.mem_append.mp he with he | he
    · exact hes e he
    · exact h.under_way hnd e he

theorem Closing.quiet (phase : Phase) : Closing phase [] :=
  ⟨List.Pairwise.nil, fun _ e he => by cases he⟩

theorem closing_handle (tr : MessagesTranslator) (terminal : EventData) :
    Closing .done (handle rt tr terminal).events where
  last := by
    refine pairwise_closesWith (frameEvents_open _) ?_
    split
    · exact List.pairwise_singleton _ _
    · exact List.Pairwise.nil
  under_way hnd := by cases hnd

theorem closing_orFail (r : Emission MessagesTranslator) {next : MessagesTranslator → TaskStep}
    (h : ∀ tr, Closing (next tr).phase (next tr).events) :
    Closing (orFail rt assistantId r next).phase (orFail rt assistantId r next).events := by
  unfold orFail
  refine Closing.after ?_ (frameEvents_open _)
  cases r.raised with
  | some exc => exact closing_handle _ _
  | none => exact h _

theorem closing_settle (tr : MessagesTranslator) (values : Dict String Value) :
    Closing .done (settle rt assistantId tr values).events := by
  unfold settle
  split
  · exact closing_handle _ _
  · have hone : Closing .done [EventData.lifecycle "completed" assistantId none] :=
      ⟨List.pairwise_singleton _ _, fun hnd => by cases hnd⟩
    have hcall : Closing (orFail rt assistantId (tr.finish rt none) fun _ =>
        { phase := .done, events := [_], pending := none }).phase _ :=
      closing_orFail _ fun _ => hone
    exact ⟨hcall.last, fun hnd => by cases hnd⟩
  · next interrupts _ _ =>
    refine ⟨?_, fun hnd => by cases hnd⟩
    have hreq : ∀ e ∈ interrupts.map fun p => EventData.inputRequested p.1 p.2,
        e.isRequest = true := by
      intro e he
      obtain ⟨p, -, rfl⟩ := List.mem_map.mp he
      rfl
    refine List.pairwise_cons.mpr ⟨fun e he _ => hreq e he, ?_⟩
    refine List.Pairwise.imp_of_mem ?_ (List.pairwise_of_forall fun _ _ => trivial)
    exact fun _ he' _ _ => hreq _ he'

theorem closing_onItem (tr : MessagesTranslator) (last : Option (Dict String Value))
    (item : StreamItem) :
    Closing (onItem rt assistantId tr last item).phase
      (onItem rt assistantId tr last item).events := by
  cases item with
  | messages chunk =>
      apply closing_orFail
      intro tr
      split
      · exact .quiet _
      · exact closing_orFail _ fun _ => .quiet _
  | values chunk =>
      refine ⟨List.pairwise_singleton _ _, fun _ e he => ?_⟩
      rw [List.mem_singleton.mp he]
      rfl
  | other => exact .quiet _
  | malformed exc => exact closing_handle _ _

theorem closing_resume {graph : Graph} {phase : Phase} {awaited : Awaited} {s : TaskStep}
    (h : resume rt assistantId graph phase awaited = some s) : Closing s.phase s.events := by
  have hsettle : ∀ tr values, Closing (settle rt assistantId tr values).phase
      (settle rt assistantId tr values).events := by
    intro tr values
    rw [settle_phase]
    exact closing_settle tr values
  cases phase with
  | created => cases awaited <;> cases h
  | done => cases awaited <;> cases h
  | streaming tr last =>
      cases awaited with
      | item item =>
          obtain rfl := Option.some.inj h
          exact closing_onItem tr last item
      | stop =>
          obtain rfl := Option.some.inj h
          unfold onStop
          split
          · exact hsettle tr _
          · split
            · exact .quiet _
            · exact hsettle tr ∅
      | snapshot values => cases h
      | raised exc | cancelled =>
          obtain rfl := Option.some.inj h
          exact closing_handle tr _
  | snapshot tr =>
      cases awaited with
      | item item => cases h
      | stop => cases h
      | snapshot values =>
          obtain rfl := Option.some.inj h
          exact hsettle tr values
      | raised exc =>
          obtain rfl := Option.some.inj h
          exact hsettle tr ∅
      | cancelled =>
          obtain rfl := Option.some.inj h
          exact closing_handle tr _

end Steps

section Runs

variable {rt : Runtime} {n : Nat} {w : World}

theorem closing_of_reachable (h : (runSys rt n).Reachable w) {r : String} {task : Task}
    (hg : w.tasks.get? r = some task) : Closing task.phase task.events := by
  refine World.tasks_induct (P := fun task => Closing task.phase task.events) h ?_ ?_ ?_ ?_ ?_ ?_ r
    task hg
  · intro w runId s graph config task hg
    rw [World.launch, Dict.get?_set_self] at hg
    obtain rfl := Option.some.inj hg
    exact .quiet _
  · exact fun _ h => h
  · intro w id task _ _ h _ _
    exact ⟨h.last, fun hnd => by cases hnd⟩
  · intro task h hphase
    refine Closing.after ?_ (h.under_way (by rw [hphase]; rfl))
    have hopen : ∀ e ∈ (onStart task.assistantId).events, e.isTerminal = false := by
      intro e he
      simp only [onStart, List.mem_cons, List.not_mem_nil, or_false] at he
      rcases he with rfl | rfl <;> rfl
    refine ⟨?_, fun _ => hopen⟩
    rw [← List.append_nil (onStart task.assistantId).events]
    exact pairwise_closesWith hopen List.Pairwise.nil
  · intro w id task awaited s _ _ h hs
    exact (closing_resume hs).after (h.under_way (World.resume_not_done hs))
  · exact fun _ h => h

/-- A run that has published a terminal event is over. -/
theorem done_of_terminal (h : (runSys rt n).Reachable w) {r : String} {task : Task}
    (hg : w.tasks.get? r = some task) {e : EventData} (he : e ∈ task.events)
    (hterm : e.isTerminal = true) : task.phase = .done := by
  have hclosing := closing_of_reachable h hg
  cases hphase : task.phase with
  | done => rfl
  | _ =>
      have hopen := hclosing.under_way (by rw [hphase]; rfl) e he
      rw [hterm] at hopen
      cases hopen

/-- On a thread nothing but requests for input follows the terminal event of a run. -/
theorem request_of_later (h : (runSys rt n).Reachable w) {t : String} {e x : Envelope Published}
    (he : e ∈ (w.hub t).published) (hx : x ∈ (w.hub t).published)
    (hrun : x.data.runId = e.data.runId) (hlt : e.seq < x.seq)
    (hterm : e.data.data.isTerminal = true) : x.data.data.isRequest = true := by
  have hL := World.logInv_of_reachable h
  obtain ⟨task, hg, rfl, -⟩ := hL.task_of_mem he
  have hlast := (closing_of_reachable h hg).last
  rw [← hL.eventsOf_eq hg, World.eventsOf, List.filter_map, List.map_map,
    List.pairwise_map] at hlast
  have hasc : Ascending Envelope.seq (w.hub task.threadId).published :=
    (inv_of_reachable (World.hub_reachable h _)).numbered.ascending
  refine (hasc.filter _).rel hlast (List.mem_filter.mpr ⟨he, ?_⟩)
    (List.mem_filter.mpr ⟨hx, ?_⟩) hlt hterm
  · exact beq_self_eq_true _
  · exact beq_iff_eq.mpr hrun

/-- Without a loss a session of a thread of the process has read a stretch of its log. -/
theorem Session.complete_of_lossless {t : String} {asks : Envelope Published → Bool} {c c' : Int}
    {conns : List Connection} {l : List (Envelope Published)} (hw : (runSys rt n).Reachable w)
    (hread : Session (w.hub t) asks c conns l c')
    (hall : ∀ conn ∈ conns,
      (runSys rt n).ReachableVia (World.OnHub rt n t (StreamHub.Lossless conn.id)) w) :
    l = stretch Envelope.seq asks (w.hub t).published c c' := by
  refine hread.complete (inv_of_reachable (World.hub_reachable hw t)) fun conn hconn => ?_
  exact StreamHub.hasAll_of_reachable
    ((World.onHub_simulates rt n t (StreamHub.Lossless conn.id)).reachable (hall conn hconn))

end Runs

/-- A client that has read the terminal event of a run knows that the run is over, and if no
connection of it lost an event it has read everything that the run has published past its
first cursor and ever will, of what it asks for, but for the requests for input. -/
theorem terminal_read_last (rt : Runtime) (n : Nat) (w : World) (hw : (runSys rt n).Reachable w)
    (t : String) (asks : Envelope Published → Bool) (c c' : Int) (conns : List Connection)
    (l : List (Envelope Published)) (hread : Session (w.hub t) asks c conns l c')
    (e : Envelope Published) (he : e ∈ l) (hterm : e.data.data.isTerminal = true) :
    (∃ task, w.tasks.get? e.data.runId = some task ∧ task.threadId = t ∧
        task.phase.isDone = true) ∧
      ((∀ conn ∈ conns,
          (runSys rt n).ReachableVia (World.OnHub rt n t (StreamHub.Lossless conn.id)) w) →
        ∀ v, (runSys rt n).Reaches w v → ∀ x ∈ (v.hub t).published,
          x.data.runId = e.data.runId → asks x = true → c < (x.seq : Int) →
            x ∈ l ∨ x.data.data.isRequest = true) := by
  have hI := inv_of_reachable (World.hub_reachable hw t)
  obtain ⟨hpub, -, -, hle⟩ := (hread.sound hI).2 e he
  constructor
  · obtain ⟨task, hg, ht, hmem⟩ := (World.logInv_of_reachable hw).task_of_mem hpub
    refine ⟨task, hg, ht, ?_⟩
    rw [done_of_terminal hw hg hmem hterm]
    rfl
  · intro hall v hwv x hx hrun hasks hlt
    obtain ⟨new, hnew, -⟩ := World.run_by_holder hw hwv t
    have hpub' : e ∈ (v.hub t).published := by
      rw [hnew]
      exact List.mem_append_left _ hpub
    rcases Nat.lt_or_ge e.seq x.seq with hlater | hearlier
    · exact .inr (request_of_later (hw.trans hwv) hpub' hx hrun hlater hterm)
    · -- it was published before the client read the terminal event
      have hold : x ∈ (w.hub t).published := by
        rw [hnew] at hx
        refine (List.mem_append.mp hx).resolve_right fun hx => ?_
        have hnum := (inv_of_reachable (World.hub_reachable (hw.trans hwv) t)).numbered.ascending
        rw [hnew] at hnum
        have hlate := (ascending_append.mp hnum).2.2 e hpub x hx
        omega
      left
      rw [hread.complete_of_lossless hw hall, mem_stretch]
      exact ⟨hold, hlt, by omega, hasks⟩

/-- A client is connected while a run streams nothing and completes. -/
def followed : List Act :=
  .stream "t" (.subscribe none none none) :: streamed [] ++
    List.replicate 5 (.stream "t" (.pull 0))

def followedEnd : World := ((runSys .inert 500).run (.new 500) followed).getD (.new 500)

theorem terminal_read_last_followed :
    ∃ l, Session (followedEnd.hub "t") (fun _ => true) 0 [⟨0, 3⟩] l 3 ∧
      ∀ v, (runSys .inert 500).Reaches followedEnd v → ∀ x ∈ (v.hub "t").published,
        x.data.runId = "1" → x ∈ l ∨ x.data.data.isRequest = true := by
  have hrun : (runSys .inert 500).run (.new 500) followed = some followedEnd := rfl
  have hok : (runSys .inert 500).RunsVia (World.OnHub .inert 500 "t" (StreamHub.Lossless 0))
      (.new 500) followed := by
    decide
  obtain ⟨l, hsession, e, he, hterm, hid⟩ : ∃ l,
      Session (followedEnd.hub "t") (fun _ => true) 0 [⟨0, 3⟩] l 3 ∧
        ∃ e ∈ l, e.data.data.isTerminal = true ∧ e.data.runId = "1" :=
    ⟨_, .connect (k := ⟨0, 3⟩) rfl rfl rfl .nil, _, List.mem_cons_of_mem _
      (List.mem_cons_of_mem _ List.mem_cons_self), rfl, rfl⟩
  have hlast := (terminal_read_last .inert 500 followedEnd (TSys.reachable_of_run rfl hrun) "t"
    (fun _ => true) 0 3 [⟨0, 3⟩] l hsession e he hterm).2 fun conn hconn => by
      rw [List.mem_singleton.mp hconn]
      exact ⟨_, rfl, TSys.reachesVia_of_run _ hok hrun⟩
  refine ⟨l, hsession, fun v hwv x hx hxid => ?_⟩
  have hpos := (inv_of_reachable (World.hub_reachable
    ((TSys.reachable_of_run (M := runSys .inert 500) rfl hrun).trans hwv) "t")).numbered.bounds hx
  exact hlast v hwv x hx (hxid.trans hid.symm) rfl (by omega)

end AgentProtocol

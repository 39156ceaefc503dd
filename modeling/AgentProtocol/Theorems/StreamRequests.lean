import AgentProtocol.Router.Frames
import AgentProtocol.Router.Streams
import AgentProtocol.Runner.HubRuns
import AgentProtocol.Theorems.CatchUp
import AgentProtocol.Theorems.RunReports

/-!
# What a stream request is served

A body is read field by field, and a field of the wrong type asks for nothing. What is left is
the filter of the response for good: from the request on, whatever the service does, the
response sends nothing but what the body asks for, and where it waits, and nothing was lost to
it, all of that (`stream_request_served`).
-/

namespace AgentProtocol

universe u

variable {δ : Type u}

/-! ## The filter of a body -/

namespace Json

theorem wireName_eq {s : String} (hs : s ≠ "") (x : Json) : x.wireName = s ↔ x.isStr s = true := by
  cases x with
  | str s' => simp [wireName, isStr]
  | _ => simpa [wireName, isStr] using hs.symm

end Json

theorem channelForMethod_ne (d : EventData) : channelForMethod d.method ≠ "" := by
  cases d <;> simp only [EventData.method] <;> decide

/-- The subscription stands for the filter of the body, on the events of the process. -/
theorem passes_eq (q : StreamQuery) (e : Envelope δ) (hchannel : channelForMethod e.method ≠ "")
    (hns : e.ns = []) :
    Subscription.passes (q.channels.map (List.map Json.wireName))
      ((q.namespaces.map (List.map (List.map Json.wireName))).getD []) e = q.passes e := by
  rw [Subscription.passes, StreamQuery.passes]
  congr 1
  · cases q.channels with
    | none => rfl
    | some cs =>
        cases cs with
        | nil => rfl
        | cons c cs =>
            show (List.map Json.wireName (c :: cs)).contains _ = _
            rw [Bool.eq_iff_iff, List.contains_iff_mem, List.mem_map, List.any_eq_true]
            simp only [Json.wireName_eq hchannel]
  · cases q.namespaces with
    | none => rfl
    | some ps =>
        cases ps with
        | nil => rfl
        | cons p ps =>
            simp only [Option.map_some, Option.getD_some, List.map_cons,
              Subscription.namespacePasses]
            rw [← List.map_cons, List.any_map, hns]
            congr 1
            funext p
            -- no event has a namespace, so that a path of any length is none of it
            cases p with
            | nil => rfl
            | cons x xs => simp [Json.isPath]

/-! ## The request of a response -/

namespace StreamHub

variable {s s' : StreamHub δ} {a : StreamAct δ} {id n : Nat}

/-- A response keeps the filter and the cursor of its request. -/
theorem request_step (hI : s.Inv) (h : s.step a = some s') {g : Gen δ}
    (hg : s.gens.get? id = some g) :
    ∃ g', s'.gens.get? id = some g' ∧ g'.channels = g.channels ∧ g'.namespaces = g.namespaces ∧
      g'.since = g.since := by
  have hgs := step_gen h id
  have hsame : ∀ {g₀ : Gen δ}, s.gens.get? id = some g₀ → g₀ = g :=
    fun hg₀ => Option.some.inj (hg₀.symm.trans hg)
  generalize s'.gens.get? id = go at hgs ⊢
  generalize s'.hub.subscribers.get? id = so at hgs
  cases hgs
  case publish => exact ⟨g, hg, rfl, rfl, rfl⟩
  case opened hid =>
    have hlt := hI.below id g hg
    omega
  case idle => exact ⟨g, hg, rfl, rfl, rfl⟩
  all_goals
    -- a move of its own
    obtain rfl := hsame (by assumption)
    exact ⟨_, rfl, rfl, rfl, rfl⟩

theorem request_of_reaches {t : StreamHub δ} (hs : (streamSys δ n).Reachable s)
    (h : (streamSys δ n).Reaches s t) {g : Gen δ} (hg : s.gens.get? id = some g) :
    ∃ g', t.gens.get? id = some g' ∧ g'.channels = g.channels ∧ g'.namespaces = g.namespaces ∧
      g'.since = g.since := by
  induction h with
  | refl => exact ⟨g, hg, rfl, rfl, rfl⟩
  | tail hr _ hstep ih =>
      obtain ⟨g₁, hg₁, hc₁, hn₁, hs₁⟩ := ih
      obtain ⟨g₂, hg₂, hc₂, hn₂, hs₂⟩ :=
        request_step (inv_of_reachable (hs.trans hr)) hstep hg₁
      exact ⟨g₂, hg₂, hc₂.trans hc₁, hn₂.trans hn₁, hs₂.trans hs₁⟩

end StreamHub

/-! ## The handler -/

namespace App

variable {a : App} {t : String} {payload : Option Json} {id : Nat}

/-- The handler has subscribed, and nothing else. -/
theorem openStream_inv (rt : Runtime) (h : (a.openStream t payload).2 = .streaming id) :
    id = (a.world.hub t).nextSub ∧
      a.step rt (.world (.stream t (.subscribe
        ((streamQuery payload).channels.map (List.map Json.wireName))
        ((streamQuery payload).namespaces.map (List.map (List.map Json.wireName)))
        (streamQuery payload).since))) = some (a.openStream t payload).1 ∧
      ∃ g, ((a.openStream t payload).1.world.hub t).gens.get? id = some g ∧
        g.channels = (streamQuery payload).channels.map (List.map Json.wireName) ∧
        g.namespaces = (streamQuery payload).namespaces.map (List.map (List.map Json.wireName)) ∧
        g.since = (streamQuery payload).since := by
  cases hrow : a.store.get t with
  | none => simp [openStream, hrow] at h
  | some row =>
      cases hhash : ((streamQuery payload).channels.getD []).forM Json.hash with
      | error exc => simp [openStream, hrow, hhash] at h
      | ok =>
          simp only [openStream, hrow, hhash, StreamAnswer.streaming.injEq] at h ⊢
          obtain rfl := h
          refine ⟨rfl, rfl, ?_⟩
          rw [World.hub_set, if_pos rfl]
          exact ⟨_, Dict.get?_set_self _ _ _, rfl, rfl, rfl⟩

/-- A request that is turned away leaves everything as it was. -/
theorem openStream_turned_away (h : ∀ id, (a.openStream t payload).2 ≠ .streaming id) :
    (a.openStream t payload).1 = a := by
  cases hrow : a.store.get t with
  | none => simp only [openStream, hrow]
  | some row =>
      cases hhash : ((streamQuery payload).channels.getD []).forM Json.hash with
      | error exc => simp only [openStream, hrow, hhash]
      | ok =>
          simp only [openStream, hrow, hhash] at h
          exact absurd rfl (h _)

end App

/-- A request that is turned away changes nothing. One that is served has a response of its own,
which sends, in order, nothing but what the body asks for; where it waits, and no event was
lost to it, it has sent all of that. -/
theorem stream_request_served (rt : Runtime) (n : Nat) (a : App) (ha : (appSys rt n).Reachable a)
    (t : String) (payload : Option Json) :
    ((∀ id, (a.openStream t payload).2 ≠ .streaming id) → (a.openStream t payload).1 = a) ∧
      ∀ id, (a.openStream t payload).2 = .streaming id →
        (a.world.hub t).gens.get? id = none ∧
        ∀ b, (appSys rt n).Reaches (a.openStream t payload).1 b →
          ∃ g, (b.world.hub t).gens.get? id = some g ∧
            g.delivered.Pairwise (fun e e' => e.seq < e'.seq) ∧
            (∀ e ∈ g.delivered, e ∈ (b.world.hub t).published ∧
              (streamQuery payload).asks e = true) ∧
            (g.phase ≠ .closed → (b.world.hub t).pull id = none →
              (streamSys Published n).ReachableVia (StreamHub.Lossless id) (b.world.hub t) →
              g.delivered = (b.world.hub t).published.filter (streamQuery payload).asks) := by
  refine ⟨App.openStream_turned_away, fun id hopen => ?_⟩
  obtain ⟨rfl, hstep, g₀, hg₀, hc₀, hn₀, hs₀⟩ := App.openStream_inv rt hopen
  generalize (a.openStream t payload).1 = a' at hstep hg₀ ⊢
  have hact : (appSys rt n).step a (.world (.stream t (.subscribe _ _ _))) = some a' := hstep
  have ha' : (appSys rt n).Reachable a' := ha.tail trivial hact
  have hI := inv_of_reachable (World.hub_reachable (App.world_reachable ha) t)
  constructor
  · cases hg : (a.world.hub t).gens.get? (a.world.hub t).nextSub with
    | none => rfl
    | some g => exact absurd (hI.below _ g hg) (Nat.lt_irrefl _)
  intro b hab
  have hb := App.world_reachable (ha'.trans hab)
  -- the response is there from the request on, with what it asked for
  obtain ⟨g, hg, hc, hn, hs⟩ := StreamHub.request_of_reaches
    (World.hub_reachable (App.world_reachable ha') t)
    (World.hub_reaches ((appSys_simulates rt n).reaches ha' hab) t) hg₀
  have hIb := inv_of_reachable (World.hub_reachable hb t)
  have hS := hIb.sound _ g hg
  -- on the events of the process that is the filter of the body
  have hwants : ∀ e ∈ (b.world.hub t).published, g.wants e = (streamQuery payload).asks e := by
    intro e he
    obtain ⟨hmethod, hns, -⟩ := World.envelope_of_reachable hb t e he
    have hpasses := passes_eq (streamQuery payload) e (hmethod ▸ channelForMethod_ne _) hns
    rw [Gen.wants, Gen.start, Gen.passes, hc, hn, hs, hc₀, hn₀, hs₀, hpasses]
    rfl
  refine ⟨g, hg, ?_, fun e he => ?_, fun hopen hnone hlossless => ?_⟩
  · exact hS.ascending.sublist (List.sublist_append_left _ _)
  · obtain ⟨hpub, hw⟩ := hS.wanted e (List.mem_append_left _ he)
    exact ⟨hpub, hwants e hpub ▸ hw⟩
  · obtain ⟨sub, hsub⟩ := registered_of_reachable hlossless _ g hg hopen
    obtain ⟨hlive, hqueue⟩ := StreamHub.waits_of_pull_none hnone hg hsub hopen
    rw [StreamHub.delivered_eq_of_waits hIb (StreamHub.hasAll_of_reachable hlossless) hg hsub hlive
      hqueue]
    exact List.filter_congr hwants

/-- A request whose cursor is `true`, which counts as 1. -/
def sinceTrue : Option Json :=
  some (.obj [("channels", .arr [.str "lifecycle", .int 7]), ("namespaces", .str "x"),
    ("since", .bool true)])

example : (streamQuery sinceTrue).since = some 1 := rfl

/-- The response is pulled until it waits. -/
def sinceTrueEnd : App :=
  ((appSys .inert 500).run (oneStartedEnd.openStream "t" sinceTrue).1
    (List.replicate 3 (.world (.stream "t" (.pull 0))))).getD service

theorem stream_request_served_since :
    ∃ g, (sinceTrueEnd.world.hub "t").gens.get? 0 = some g ∧
      g.delivered = (sinceTrueEnd.world.hub "t").published.filter (streamQuery sinceTrue).asks ∧
      (sinceTrueEnd.world.hub "t").published.length = 2 := by
  have hrun : (appSys .inert 500).run service oneStarted = some oneStartedEnd := rfl
  have hpulls : (appSys .inert 500).run (oneStartedEnd.openStream "t" sinceTrue).1
      (List.replicate 3 (.world (.stream "t" (.pull 0)))) = some sinceTrueEnd := rfl
  have hreach := TSys.reachable_of_run (M := appSys .inert 500) ⟨rfl, rfl, rfl⟩ hrun
  obtain ⟨-, hserved⟩ := stream_request_served .inert 500 oneStartedEnd hreach "t" sinceTrue
  obtain ⟨-, hlater⟩ := hserved 0 rfl
  obtain ⟨g, hg, -, -, hall⟩ := hlater sinceTrueEnd (TSys.reaches_of_run hpulls)
  have hlive : ((sinceTrueEnd.world.hub "t").gens.get? 0).map Gen.phase = some .live := rfl
  rw [hg, Option.map_some, Option.some.injEq] at hlive
  -- the run of the hub under the service
  let acts : List (StreamAct Published) :=
    publishActs .inert "t" "r1" 0 (onStart "agent").events ++
      .subscribe (some ["lifecycle", ""]) none (some 1) :: List.replicate 3 (.pull 0)
  have hhub : (streamSys Published 500).run (.new 500) acts =
      some (sinceTrueEnd.world.hub "t") := rfl
  have hok : (streamSys Published 500).RunsVia (StreamHub.Lossless 0) (.new 500) acts := by decide
  refine ⟨g, hg, hall ?_ rfl ⟨_, rfl, TSys.reachesVia_of_run _ hok hhub⟩, rfl⟩
  simp [hlive]

end AgentProtocol

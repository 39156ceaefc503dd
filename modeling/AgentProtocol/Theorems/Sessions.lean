import AgentProtocol.Lib.Cursor
import AgentProtocol.Theorems.Handoff
import AgentProtocol.Theorems.Recovery

/-!
# The sessions of a client

A client reads a response as far as it likes, drops it, and opens the next one with its cursor,
the largest seq it has read. What it reads over all its connections ascends in seq, whatever
happens on the hub (`Session.sound`). It is everything it asked for up to its cursor if no
connection lost an event: no publish found its queue full, and the ring reached back to its
cursor at its replay pass (`Session.complete`).
-/

namespace AgentProtocol

universe u

variable {δ : Type u}

namespace StreamHub

/-- The action takes nothing from the response `id`. -/
def Lossless (id : Nat) (s : StreamHub δ) (a : StreamAct δ) : Prop :=
  s.findsFull id a = false ∧ s.ringReaches id a = true

instance (id : Nat) (s : StreamHub δ) (a : StreamAct δ) : Decidable (s.Lossless id a) :=
  inferInstanceAs (Decidable (_ ∧ _))

/-- Past its replay pass a response has, or has coming, everything it asks for. -/
def HasAll (id : Nat) (s : StreamHub δ) : Prop :=
  ∀ g, s.gens.get? id = some g → ¬g.phase.Early → ∀ e ∈ s.published, g.wants e = true →
    g.Held e (s.hub.subscribers.get? id)

variable {s s' : StreamHub δ} {a : StreamAct δ} {id n : Nat}

theorem hasAll_step (hI : s.Inv) (hR : s.Registered) (hA : s.HasAll id) (hok : s.Lossless id a)
    (h : s.step a = some s') : s'.HasAll id := by
  intro g' hg' hlate' e he hw
  obtain ⟨g, hg, hlate | hrep | ⟨hearly, -, hclosed, hdel, hstart⟩⟩ := late_origin h hg' hlate'
  · obtain ⟨g'', hg'', -, hwants, hmove⟩ := lateMove_of_step hI h hg hlate
    obtain rfl := Option.some.inj (hg'.symm.trans hg'')
    by_cases hold : e ∈ s.published
    · exact held_of_lateMove hI hg hmove (hA g hg hlate e hold (hwants ▸ hw))
    · -- the envelope is the one this step publishes
      rcases step_log h with ⟨m, d, ns, ts, eid, now, rfl, rfl⟩ | ⟨_, _, _, -, rfl⟩ | ⟨-, hlog⟩
      · obtain rfl := Option.some.inj (hg.symm.trans hg')
        obtain rfl := List.mem_singleton.mp ((List.mem_append.mp he).resolve_left hold)
        have hnone : s.punctures id (s.hub.seq + 1) s.hub.seq (.publish m d ns ts eid now) =
            false := by
          simp [punctures, hok.1]
        have hsub : (s.publish m d ns ts eid now).hub.subscribers.get? id =
            (s.hub.subscribers.get? id).map
              (Subscription.offer (s.hub.stamp m d ns ts eid now)) :=
          Dict.get?_mapVals _ s.hub.subscribers id
        rw [hsub]
        exact held_of_publish hI hR hnone hg hlate (by omega) (Int.le_refl _) hw
      · exact absurd he hold
      · rw [hlog.2.2.2.1] at he
        exact absurd he hold
  · -- the replay pass: the ring still holds what the request asks for
    have hreach := hok.2
    simp only [ringReaches, hrep, hg, Bool.not_true, Bool.false_or, decide_eq_true_eq] at hreach
    have hwants : g'.wants = g.wants := by
      obtain ⟨hp, rfl⟩ := connected_of_replays hg hrep
      obtain ⟨g'', sub', hg'', hs', -⟩ := exists_after_replay h hg hp
      rcases origin hI h hg'' hs' with ⟨hnone, -⟩ | ⟨g₀, sub, hg₀, -, hwants, -⟩
      · rw [hg] at hnone
        cases hnone
      · obtain rfl := Option.some.inj (hg.symm.trans hg₀)
        rwa [← Option.some.inj (hg'.symm.trans hg'')] at hwants
    have hlt := ((g.wants_iff e).mp (hwants ▸ hw)).1
    exact .committed (held_of_replay hI h hrep hg hg' he (by omega) hw).1
  · -- it ended before its replay pass, with nothing delivered
    refine .beyond hclosed ?_
    rw [Gen.reached_of_nil (hdel.trans ((hI.sound id g hg).early hearly))]
    exact ((g'.wants_iff e).mp hw).1

theorem hasAll_of_reachable (h : (streamSys δ n).ReachableVia (Lossless id) s) :
    s.HasAll id := by
  refine h.induct (P := fun s => s.HasAll id) ?_ ?_
  · rintro _ rfl g hg
    cases hg
  · intro s a s' hr hA hok hstep
    exact hasAll_step (inv_of_reachable hr) (registered_of_reachable hr) hA hok hstep

end StreamHub

namespace Gen

variable {g : Gen δ} {P : List (Envelope δ)} {k : Nat}

/-- The client's cursor after the first events of a response. -/
def cursor (g : Gen δ) (k : Nat) : Int :=
  readTo (fun e => (e.seq : Int)) g.start (g.delivered.take k)

theorem Sound.take_ascending (h : g.Sound P) (k : Nat) :
    Ascending Envelope.seq (g.delivered.take k) :=
  h.ascending.sublist ((List.take_sublist k _).trans (List.sublist_append_left _ _))

theorem Sound.wanted_of_take (h : g.Sound P) {e : Envelope δ} (he : e ∈ g.delivered.take k) :
    e ∈ P ∧ g.wants e = true :=
  h.wanted e (List.mem_append_left _ (List.mem_of_mem_take he))

theorem Sound.le_reached (h : g.Sound P) {e : Envelope δ} (he : e ∈ g.delivered) :
    (e.seq : Int) ≤ g.reached := by
  cases hlast : g.delivered.getLast? with
  | none =>
      rw [List.getLast?_eq_none_iff.mp hlast] at he
      cases he
  | some last =>
      have hasc : Ascending Envelope.seq g.delivered :=
        h.ascending.sublist (List.sublist_append_left _ _)
      rw [reached, hlast]
      exact Int.ofNat_le.mpr (StreamHub.le_getLast_of_ascending hasc hlast e he)

/-- The first events of a response that has all it asks for are a stretch of the log. -/
theorem take_eq_stretch (hS : g.Sound P) (hP : Numbered Envelope.seq P)
    (hall : ∀ e ∈ P, g.wants e = true → (e.seq : Int) ≤ g.reached → e ∈ g.delivered) :
    g.delivered.take k = stretch Envelope.seq g.passes P g.start (g.cursor k) := by
  refine Ascending.ext (hS.take_ascending k) (stretch_ascending hP.ascending) fun e => ?_
  rw [mem_stretch]
  constructor
  · intro he
    obtain ⟨hmem, hw⟩ := hS.wanted_of_take he
    obtain ⟨hlt, hpass⟩ := (g.wants_iff e).mp hw
    exact ⟨hmem, hlt, pos_le_readTo he, hpass⟩
  · rintro ⟨hmem, hlt, hle, hpass⟩
    have hasc : Ascending Envelope.seq (g.delivered.take k ++ g.delivered.drop k) := by
      rw [List.take_append_drop]
      exact hS.ascending.sublist (List.sublist_append_left _ _)
    -- the cursor is on an event that was read
    rcases readTo_mem (fun e : Envelope δ => (e.seq : Int)) g.start (g.delivered.take k) with
      hstart | ⟨x, hx, hcursor⟩
    · rw [cursor, hstart] at hle
      omega
    · rw [cursor, hcursor] at hle
      have hreached := hS.le_reached (List.mem_of_mem_take hx)
      have hin := hall e hmem ((g.wants_iff e).mpr ⟨hlt, hpass⟩) (by omega)
      rw [← List.take_append_drop k g.delivered] at hin
      rcases List.mem_append.mp hin with htake | hdrop
      · exact htake
      · have hlater := (ascending_append.mp hasc).2.2 x hx e hdrop
        omega

end Gen

/-- A response of a client, and how many of its events the client has read. -/
structure Connection where
  id : Nat
  count : Nat

/-- What a client reads over its connections, each opened with the cursor it has then: from
cursor `c` to the last one. -/
inductive Session (s : StreamHub δ) (asks : Envelope δ → Bool) :
    Int → List Connection → List (Envelope δ) → Int → Prop
  | nil {c : Int} : Session s asks c [] [] c
  | connect {c c' : Int} {k : Connection} {conns : List Connection} {l : List (Envelope δ)}
      {g : Gen δ} : s.gens.get? k.id = some g → g.start = c → g.passes = asks →
      Session s asks (g.cursor k.count) conns l c' →
      Session s asks c (k :: conns) (g.delivered.take k.count ++ l) c'

namespace Session

variable {s : StreamHub δ} {asks : Envelope δ → Bool} {c c' : Int} {conns : List Connection}
  {l : List (Envelope δ)}

theorem le (h : Session s asks c conns l c') : c ≤ c' := by
  induction h with
  | nil => exact Int.le_refl _
  | connect _ hstart _ _ ih => exact Int.le_trans (hstart ▸ le_readTo) ih

theorem sound (hI : s.Inv) (h : Session s asks c conns l c') :
    Ascending Envelope.seq l ∧ ∀ e ∈ l, e ∈ s.published ∧ asks e = true ∧ c < (e.seq : Int) ∧
      (e.seq : Int) ≤ c' := by
  induction h with
  | nil => exact ⟨List.Pairwise.nil, fun e he => by cases he⟩
  | @connect c c' conn conns l g hg hstart hasks hrest ih =>
      have hS := hI.sound conn.id g hg
      have hcursor : c ≤ g.cursor conn.count := hstart ▸ le_readTo
      obtain ⟨hasc, hmem⟩ := ih
      constructor
      · refine ascending_append.mpr ⟨hS.take_ascending _, hasc, fun a ha b hb => ?_⟩
        have hle : (a.seq : Int) ≤ g.cursor conn.count := pos_le_readTo ha
        have hlt := (hmem b hb).2.2.1
        omega
      · intro e he
        rcases List.mem_append.mp he with he | he
        · obtain ⟨hpub, hw⟩ := hS.wanted_of_take he
          obtain ⟨hlt, hpass⟩ := (g.wants_iff e).mp hw
          have hle : (e.seq : Int) ≤ g.cursor conn.count := pos_le_readTo he
          have hend := hrest.le
          exact ⟨hpub, hasks ▸ hpass, hstart ▸ hlt, by omega⟩
        · obtain ⟨hpub, hpass, hlt, hle⟩ := hmem e he
          exact ⟨hpub, hpass, by omega, hle⟩

/-- Without a loss the session has read a stretch of the log. -/
theorem complete (hI : s.Inv) (hall : ∀ conn ∈ conns, s.HasAll conn.id)
    (h : Session s asks c conns l c') : l = stretch Envelope.seq asks s.published c c' := by
  induction h with
  | nil => exact stretch_self.symm
  | @connect c c' conn conns l g hg hstart hasks hrest ih =>
      obtain ⟨hmine, hothers⟩ := List.forall_mem_cons.mp hall
      have hS := hI.sound conn.id g hg
      have htake : g.delivered.take conn.count =
          stretch Envelope.seq g.passes s.published g.start (g.cursor conn.count) := by
        refine Gen.take_eq_stretch hS hI.numbered fun e he hw hle => ?_
        by_cases hearly : g.phase.Early
        · -- nothing was delivered yet, so the cursor is where the request started
          rw [Gen.reached_of_nil (hS.early hearly)] at hle
          have hlt := ((g.wants_iff e).mp hw).1
          omega
        · exact (hmine g hg hearly e he hw).delivered hS
            (fun sub hs => hI.linked conn.id g sub hg hs) hle
      rw [ih hothers, htake, hstart, hasks]
      exact stretch_append hI.numbered.ascending (hstart ▸ le_readTo) hrest.le

end Session

/-- Whatever happens on the hub, what a client reads over all its connections ascends in seq, and
is published, asked for and past the cursor it came with. If no connection lost an event, it
is everything of that kind up to its last cursor, however often it stopped and came back. -/
theorem session_reads (δ : Type u) (n : Nat) (s : StreamHub δ) (hs : (streamSys δ n).Reachable s)
    (asks : Envelope δ → Bool) (c c' : Int) (conns : List Connection) (l : List (Envelope δ))
    (h : Session s asks c conns l c') :
    l.Pairwise (fun e e' => e.seq < e'.seq) ∧
      (∀ e ∈ l, e ∈ s.published ∧ asks e = true ∧ c < (e.seq : Int) ∧ (e.seq : Int) ≤ c') ∧
      ((∀ conn ∈ conns, (streamSys δ n).ReachableVia (StreamHub.Lossless conn.id) s) →
        l = s.published.filter fun e =>
          decide (c < (e.seq : Int)) && decide ((e.seq : Int) ≤ c') && asks e) := by
  have hI := inv_of_reachable hs
  obtain ⟨hasc, hmem⟩ := h.sound hI
  refine ⟨hasc, hmem, fun hall => ?_⟩
  exact h.complete hI fun conn hconn => StreamHub.hasAll_of_reachable (hall conn hconn)

/-- A client reads the first of two events, comes back with cursor 1, and reads the rest. -/
def comesBack : List (StreamAct Nat) :=
  [.publish "messages" 10 none none none 0, .subscribe none none none, .pull 0, .pull 0,
   .publish "values" 20 none none none 0, .pull 0, .pull 0, .close 0,
   .subscribe none none (some 1), .pull 1, .pull 1, .publish "messages" 30 none none none 0,
   .pull 1, .pull 1]

def comesBackEnd : StreamHub Nat := ((streamSys Nat 4).run (.new 4) comesBack).getD (.new 4)

theorem session_reads_twice :
    ∃ l, Session comesBackEnd (fun _ => true) 0 [⟨0, 1⟩, ⟨1, 2⟩] l 3 ∧
      l.map Envelope.seq = [1, 2, 3] := by
  have hrun : (streamSys Nat 4).run (.new 4) comesBack = some comesBackEnd := rfl
  have hok : ∀ conn ∈ [(⟨0, 1⟩ : Connection), ⟨1, 2⟩],
      (streamSys Nat 4).RunsVia (StreamHub.Lossless conn.id) (.new 4) comesBack := by
    intro conn hconn
    rcases List.mem_cons.mp hconn with rfl | hconn
    · decide
    · rw [List.mem_singleton.mp hconn]
      decide
  obtain ⟨l, hsession⟩ : ∃ l, Session comesBackEnd (fun _ => true) 0 [⟨0, 1⟩, ⟨1, 2⟩] l 3 :=
    ⟨_, .connect (k := ⟨0, 1⟩) rfl rfl rfl (.connect (k := ⟨1, 2⟩) rfl rfl rfl .nil)⟩
  obtain ⟨-, -, hall⟩ := session_reads Nat 4 comesBackEnd (TSys.reachable_of_run rfl hrun) _ _ _ _ l
    hsession
  refine ⟨l, hsession, ?_⟩
  rw [hall fun conn hconn => ⟨_, rfl, TSys.reachesVia_of_run _ (hok conn hconn) hrun⟩]
  decide

end AgentProtocol

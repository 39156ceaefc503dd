import AgentProtocol.Hub.Delivery
import AgentProtocol.Runner.HubRuns
import AgentProtocol.State.JsonText

/-!
# Event ids

`publish` names an event after the clock and its seq, `f"{ts}-{seq}"`. Whatever the clock does, a
hub gives no id twice, since the seq is what follows the last dash: ids are equal just where
both the clock and the seq are. So an id names one event of a thread, within one process.
Events of two threads, or of two processes, may share theirs.
-/

namespace AgentProtocol

/-- Two texts cut at their last separator. -/
theorem append_cons_inj {α : Type*} {c : α} {xs xs' ys ys' : List α} (hys : c ∉ ys) (hys' : c ∉ ys')
    (h : xs ++ c :: ys = xs' ++ c :: ys') : xs = xs' ∧ ys = ys' := by
  rcases List.append_eq_append_iff.mp h with ⟨mid, rfl, hmid⟩ | ⟨mid, rfl, hmid⟩
  · cases mid with
    | nil => exact ⟨(List.append_nil xs).symm, (List.cons.inj hmid).2⟩
    | cons d mid =>
        -- the second separator would stand behind the first
        obtain ⟨-, rfl⟩ := List.cons.inj hmid
        exact absurd (List.mem_append_right _ List.mem_cons_self) hys
  · cases mid with
    | nil => exact ⟨List.append_nil xs', (List.cons.inj hmid).2.symm⟩
    | cons d mid =>
        obtain ⟨-, rfl⟩ := List.cons.inj hmid
        exact absurd (List.mem_append_right _ List.mem_cons_self) hys'

theorem not_mem_toString {c : Char} (hc : c.isDigit = false) (n : Nat) :
    c ∉ (toString n).toList := by
  intro h
  have hdigit : c.isDigit = true := by
    refine Nat.isDigit_of_mem_toDigits (b := 10) (n := n) (by decide) (by decide) ?_
    rwa [← Nat.toList_repr]
  rw [hc] at hdigit
  cases hdigit

/-- A decimal is read back. -/
theorem int_of_toList {i j : Int} (h : (toString i).toList = (toString j).toList) : i = j := by
  have hend : Scan.Ahead isNumberChar [] := by
    intro c hc
    cases hc
  have hi := reads_int i [] hend
  rw [h, reads_int j [] hend] at hi
  exact (Json.int.inj (Prod.ext_iff.mp (Option.some.inj hi)).1).symm

theorem stampedId_inj {a b : Int} {i j : Nat} : s!"{a}-{i}" = s!"{b}-{j}" ↔ a = b ∧ i = j := by
  constructor
  · intro h
    have hlist := congrArg String.toList h
    have htext : ∀ (ts : Int) (seq : Nat), s!"{ts}-{seq}".toList =
        (toString ts).toList ++ '-' :: (toString seq).toList := by
      intro ts seq
      show (toString ts ++ "-" ++ toString seq).toList = _
      simp [String.toList_append]
    rw [htext, htext] at hlist
    obtain ⟨hts, hseq⟩ :=
      append_cons_inj (not_mem_toString (by decide) i) (not_mem_toString (by decide) j) hlist
    exact ⟨int_of_toList hts, Int.ofNat.inj (int_of_toList (i := i) (j := j) hseq)⟩
  · rintro ⟨rfl, rfl⟩
    rfl

/-- An id stands for one event of its thread, and two events of any threads or processes share
theirs just where they share both the clock and the seq. -/
theorem event_ids (rt rt' : Runtime) (n n' : Nat) (w w' : World)
    (hw : (runSys rt n).Reachable w) (hw' : (runSys rt' n').Reachable w') :
    (∀ t, (w.hub t).published.Pairwise fun e e' => e.eventId ≠ e'.eventId) ∧
      ∀ t t' e e', e ∈ (w.hub t).published → e' ∈ (w'.hub t').published →
        (e.eventId = e'.eventId ↔ e.timestamp = e'.timestamp ∧ e.seq = e'.seq) := by
  have hid := fun t e he => (World.envelope_of_reachable hw t e he).2.2
  constructor
  · intro t
    have hasc := (inv_of_reachable (World.hub_reachable hw t)).numbered.ascending
    refine hasc.imp_of_mem fun {e e'} he he' hlt heq => ?_
    rw [hid t e he, hid t e' he', stampedId_inj] at heq
    omega
  · intro t t' e e' he he'
    rw [hid t e he, (World.envelope_of_reachable hw' t' e' he').2.2, stampedId_inj]

/-- A run on each of two threads, begun at the same time. -/
def begunTwice : World :=
  ((runSys .inert 500).run (.new 500)
    [.register "agent", .start "t" (.str "agent") .null none .null "1",
      .resolved "1" (.graph ⟨true⟩), .begin "1", .start "u" (.str "agent") .null none .null "2",
      .resolved "2" (.graph ⟨true⟩), .begin "2"]).getD (.new 500)

/-- Each thread gives its two events two ids, and both threads give the same two. -/
theorem event_ids_shared :
    ((begunTwice.hub "t").published.Pairwise fun e e' => e.eventId ≠ e'.eventId) ∧
      (begunTwice.hub "t").published.map Envelope.seq = [1, 2] ∧
      ∃ e ∈ (begunTwice.hub "t").published, ∃ e' ∈ (begunTwice.hub "u").published,
        e.eventId = e'.eventId := by
  have hrun : (runSys .inert 500).run (.new 500)
      [.register "agent", .start "t" (.str "agent") .null none .null "1",
        .resolved "1" (.graph ⟨true⟩), .begin "1", .start "u" (.str "agent") .null none .null "2",
        .resolved "2" (.graph ⟨true⟩), .begin "2"] = some begunTwice := rfl
  have hw : (runSys .inert 500).Reachable begunTwice := TSys.reachable_of_run rfl hrun
  obtain ⟨hdistinct, hiff⟩ := event_ids .inert .inert 500 500 begunTwice begunTwice hw hw
  refine ⟨hdistinct "t", by decide, ?_⟩
  have ht : ∃ e ∈ (begunTwice.hub "t").published, e.timestamp = 0 ∧ e.seq = 1 :=
    ⟨_, List.mem_cons_self, rfl, rfl⟩
  have hu : ∃ e ∈ (begunTwice.hub "u").published, e.timestamp = 0 ∧ e.seq = 1 :=
    ⟨_, List.mem_cons_self, rfl, rfl⟩
  obtain ⟨e, he, hts, hseq⟩ := ht
  obtain ⟨e', he', hts', hseq'⟩ := hu
  refine ⟨e, he, e', he', (hiff "t" "u" e e' he he').mpr ⟨?_, ?_⟩⟩
  · rw [hts, hts']
  · rw [hseq, hseq']

end AgentProtocol

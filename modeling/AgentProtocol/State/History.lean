import AgentProtocol.Lib.Segment
import AgentProtocol.State.Serialize
import Mathlib.Data.String.Basic

/-!
# Thread history (`state.py`, `read_thread_history`)

The saver lists the checkpoint tuples of a thread newest first. The reader walks
the tuples it fetched oldest first, accumulates their pending writes into one
dict of channels, and snapshots that dict at every tuple. A list extends what is
in its channel, which is a list, or an object with an `extend` of its own.

`get?_accumulate` says what a run of writes leaves in one channel, from what was
there before; the facts about windows of the history are consequences of it.
-/

namespace AgentProtocol

structure Write where
  taskId : String
  channel : String
  value : Value

structure CheckpointTuple where
  checkpointId : String
  pendingWrites : List Write
  metadata : Option Value

/-- The checkpoints a saver stores for one thread, newest first. -/
structure Saver where
  tuples : List CheckpointTuple
  sorted : tuples.Pairwise fun t u => u.checkpointId < t.checkpointId
  named : ∀ t ∈ tuples, t.checkpointId ≠ ""

/-- `alist`: newest first, at most `limit`, strictly older than `before`. -/
def Saver.alist (saver : Saver) (before : Option String) (limit : Nat) :
    List CheckpointTuple :=
  (saver.tuples.filter fun t =>
    match before with
    | none => true
    | some id => decide (t.checkpointId < id)).take limit

/-- Channels that carry no state. -/
def reservedChannel (channel : String) : Bool :=
  channel == "__interrupt__" || channel == "__error__" || channel == "__resume__" ||
    startsWith "branch:" channel

def noExtend (v : Value) : PyExc :=
  ⟨"AttributeError", s!"'{v.typeName}' object has no attribute 'extend'"⟩

/-- `v.extend(xs)` -/
def Value.extend (rt : Runtime) (v : Value) (xs : List Value) : Except PyExc Value :=
  match v with
  | .list ys => .ok (.list (ys ++ xs))
  | .obj .. | .bare .. => (rt.objects.extend v xs).getD (.error (noExtend v))
  | v => .error (noExtend v)

/-- `copy.deepcopy` does not raise on the value. -/
def Value.copies (rt : Runtime) (v : Value) : Bool := (v.copyRaises rt.objects.copyRaises).isNone

/-- One turn of the write loop: a list extends what its channel holds, anything
else replaces it. -/
def accumulateWrite (rt : Runtime) (cumulative : Dict String Value) (w : Write) :
    Except PyExc (Dict String Value) :=
  if reservedChannel w.channel then .ok cumulative
  else
    match w.value with
    | .list xs =>
      match ((cumulative.get? w.channel).getD (.list [])).extend rt xs with
      | .ok v => .ok (cumulative.set w.channel v)
      | .error exc => .error exc
    | v => .ok (cumulative.set w.channel v)

def accumulate (rt : Runtime) :
    Dict String Value → List Write → Except PyExc (Dict String Value)
  | cumulative, [] => .ok cumulative
  | cumulative, w :: ws =>
    match accumulateWrite rt cumulative w with
    | .ok cumulative => accumulate rt cumulative ws
    | .error exc => .error exc

/-- One history entry; `values` are raw until the result is assembled. -/
structure Entry where
  checkpointId : String
  values : Dict String Value
  metadata : Option Value

/-- The reconstruction loop over tuples given oldest first. -/
def reconstruct (rt : Runtime) :
    Dict String Value → List CheckpointTuple → Except PyExc (List Entry)
  | _, [] => .ok []
  | cumulative, t :: ts =>
    match accumulate rt cumulative t.pendingWrites with
    | .error exc => .error exc
    | .ok cumulative =>
      match (Value.ofDict cumulative).copyRaises rt.objects.copyRaises with
      | some exc => .error exc
      | none =>
        match reconstruct rt cumulative ts with
        | .error exc => .error exc
        | .ok entries =>
          .ok ({ checkpointId := t.checkpointId, values := cumulative, metadata := t.metadata }
            :: entries)

def Entry.serialize (rt : Runtime) (e : Entry) : Entry :=
  { e with values := serializeValues rt e.values }

/-- The entries of a window given newest first, newest first. -/
def readWindow (rt : Runtime) (tuples : List CheckpointTuple) : Except PyExc (List Entry) :=
  match reconstruct rt ∅ tuples.reverse with
  | .ok entries => .ok (entries.reverse.map (Entry.serialize rt))
  | .error exc => .error exc

/-- An empty cursor is no cursor. -/
def cursor (before : Option String) : Option String := before.filter fun id => id != ""

/-- Past states of a thread, newest first. -/
def readThreadHistory (rt : Runtime) (checkpointer : Option Saver) (limit : Nat)
    (before : Option String) : Except PyExc (List Entry) :=
  match checkpointer with
  | none => .error ⟨"ValueError", "No checkpointer set"⟩
  | some saver => readWindow rt (saver.alist (cursor before) limit)

/-! ## Extending and copying -/

section Extend

variable {rt : Runtime}

theorem extend_list (rt : Runtime) (ys xs : List Value) :
    (Value.list ys).extend rt xs = .ok (.list (ys ++ xs)) := rfl

theorem copyRaisesList_eq_none_iff (object : Value → Option PyExc) (xs : List Value) :
    Value.copyRaisesList object xs = none ↔ ∀ x ∈ xs, x.copyRaises object = none := by
  induction xs with
  | nil => exact iff_of_true rfl fun _ h => absurd h List.not_mem_nil
  | cons x xs ih => simp only [Value.copyRaisesList, Option.or_eq_none_iff, ih, List.forall_mem_cons]

theorem copies_list_iff {xs : List Value} :
    (Value.list xs).copies rt = true ↔ ∀ x ∈ xs, x.copies rt = true := by
  simp only [Value.copies, Value.copyRaises, Option.isNone_iff_eq_none,
    copyRaisesList_eq_none_iff]

/-- A dict of channels is copied when each of its values is. -/
theorem copyRaises_ofDict_iff {d : Dict String Value} :
    (Value.ofDict d).copyRaises rt.objects.copyRaises = none ↔
      ∀ c v, d.get? c = some v → v.copies rt = true := by
  have hitems : ∀ es : List (String × Value),
      Value.copyRaisesItems rt.objects.copyRaises (es.map fun e => (.str e.1, e.2)) = none ↔
        ∀ e ∈ es, e.2.copies rt = true := by
    intro es
    induction es with
    | nil => exact iff_of_true rfl fun _ h => absurd h List.not_mem_nil
    | cons e es ih =>
        rw [List.forall_mem_cons, ← ih, List.map_cons, Value.copyRaisesItems,
          Option.or_eq_none_iff, Value.copies, Option.isNone_iff_eq_none]
        rfl
  show Value.copyRaisesItems _ (d.entries.map _) = none ↔ _
  rw [hitems]
  constructor
  · intro h c v hv
    exact h (c, v) ((d.mem_entries_iff c v).mpr hv)
  · rintro h ⟨c, v⟩ hmem
    exact h c v ((d.mem_entries_iff c v).mp hmem)

theorem isList_of_isObject {v : Value} (h : v.isObject = true) : v.isList = false := by
  cases v with
  | list xs => cases h
  | _ => rfl

/-- A list that is extended is a list, an object an object, and a copy of either copies what it
was and what was added. -/
theorem extend_ok {v v' : Value} {xs : List Value} (h : v.extend rt xs = .ok v') :
    v'.isList = v.isList ∧ v'.isObject = v.isObject ∧ (v.isList = true ∨ v.isObject = true) ∧
      (v'.copies rt = true → v.copies rt = true ∧ ∀ x ∈ xs, x.copies rt = true) := by
  have hobject : ∀ v : Value, v.isObject = true →
      (rt.objects.extend v xs).getD (.error (noExtend v)) = .ok v' →
      v'.isList = v.isList ∧ v'.isObject = v.isObject ∧ (v.isList = true ∨ v.isObject = true) ∧
        (v'.copies rt = true → v.copies rt = true ∧ ∀ x ∈ xs, x.copies rt = true) := by
    intro v hv h
    cases hext : rt.objects.extend v xs with
    | none =>
        rw [hext] at h
        cases h
    | some result =>
        rw [hext, Option.getD_some] at h
        subst h
        have hv' := rt.objects.extend_isObject v xs v' hext
        refine ⟨(isList_of_isObject hv').trans (isList_of_isObject hv).symm, hv'.trans hv.symm,
          .inr hv, fun hcopies => ?_⟩
        rw [Value.copies, Option.isNone_iff_eq_none] at hcopies
        obtain ⟨hold, hnew⟩ := rt.objects.extend_copies v xs v' hext hcopies
        refine ⟨Option.isNone_iff_eq_none.mpr hold, copies_list_iff.mp ?_⟩
        exact Option.isNone_iff_eq_none.mpr hnew
  cases v with
  | list ys =>
      obtain rfl := Except.ok.inj h
      refine ⟨rfl, rfl, .inl rfl, fun hcopies => ?_⟩
      rw [copies_list_iff] at hcopies ⊢
      exact ⟨fun y hy => hcopies y (List.mem_append_left _ hy),
        fun x hx => hcopies x (List.mem_append_right _ hx)⟩
  | obj cls attrs text => exact hobject _ rfl h
  | bare cls slots text => exact hobject _ rfl h
  | _ => cases h

end Extend

/-! ## What the writes leave in a channel -/

/-- The values written to a channel, in order; nothing is written to a reserved
one. -/
def writesTo (channel : String) (ws : List Write) : List Value :=
  if reservedChannel channel then []
  else (ws.filter fun w => w.channel = channel).map Write.value

theorem writesTo_cons_self {w : Write} {c : String} (hr : reservedChannel c = false)
    (hc : w.channel = c) (ws : List Write) : writesTo c (w :: ws) = w.value :: writesTo c ws := by
  simp [writesTo, hr, hc]

theorem writesTo_cons_ne {w : Write} {c : String} (h : reservedChannel c = true ∨ w.channel ≠ c)
    (ws : List Write) : writesTo c (w :: ws) = writesTo c ws := by
  unfold writesTo
  rcases h with hr | hc
  · rw [if_pos hr, if_pos hr]
  · rw [List.filter_cons_of_neg (by simpa using hc)]

/-- One write seen from its own channel. -/
def writeChannel (rt : Runtime) : Option Value → Value → Except PyExc (Option Value)
  | v, .list xs =>
    match (v.getD (.list [])).extend rt xs with
    | .ok v => .ok (some v)
    | .error exc => .error exc
  | _, v => .ok (some v)

def writeChannelAll (rt : Runtime) : Option Value → List Value → Except PyExc (Option Value)
  | v, [] => .ok v
  | v, w :: ws =>
    match writeChannel rt v w with
    | .ok v => writeChannelAll rt v ws
    | .error exc => .error exc

variable {rt : Runtime}

/-- A write that is accepted sets its own channel and leaves the others. -/
theorem accumulateWrite_cases {d d' : Dict String Value} {w : Write}
    (h : accumulateWrite rt d w = .ok d') :
    (reservedChannel w.channel = true ∧ d' = d) ∨
    (reservedChannel w.channel = false ∧ ∃ v, d' = d.set w.channel v ∧
      writeChannel rt (d.get? w.channel) w.value = .ok (some v)) := by
  unfold accumulateWrite at h
  split at h
  · next hr =>
    rw [Except.ok.injEq] at h
    exact .inl ⟨hr, h.symm⟩
  · next hr =>
    refine .inr ⟨Bool.eq_false_iff.mpr hr, ?_⟩
    split at h
    · next xs hw =>
      cases hext : ((d.get? w.channel).getD (.list [])).extend rt xs with
      | error exc =>
          rw [hext] at h
          cases h
      | ok v =>
          rw [hext] at h
          refine ⟨v, (Except.ok.inj h).symm, ?_⟩
          simp only [hw, writeChannel, hext]
    · next hw =>
      rw [Except.ok.injEq] at h
      refine ⟨_, h.symm, ?_⟩
      cases hv : w.value with
      | list xs => exact absurd hv (hw xs)
      | _ => rfl

/-- A write is accepted when its own channel accepts it. -/
theorem accumulateWrite_ok {d : Dict String Value} {w : Write} {v : Option Value}
    (h : writeChannel rt (d.get? w.channel) w.value = .ok v) :
    ∃ d', accumulateWrite rt d w = .ok d' := by
  unfold accumulateWrite
  split
  · exact ⟨d, rfl⟩
  · cases hw : w.value with
    | list xs =>
        rw [hw, writeChannel] at h
        dsimp only
        cases hext : ((d.get? w.channel).getD (.list [])).extend rt xs with
        | ok v => exact ⟨_, rfl⟩
        | error exc =>
            rw [hext] at h
            cases h
    | _ => exact ⟨_, rfl⟩

/-- The channel view of a run of writes. -/
theorem get?_accumulate {d d' : Dict String Value} {ws : List Write}
    (h : accumulate rt d ws = .ok d') (c : String) :
    writeChannelAll rt (d.get? c) (writesTo c ws) = .ok (d'.get? c) := by
  induction ws generalizing d with
  | nil =>
      rw [accumulate, Except.ok.injEq] at h
      subst h
      unfold writesTo
      split <;> rfl
  | cons w ws ih =>
      rw [accumulate] at h
      split at h
      · next d₁ h₁ =>
        have ih := ih h
        rcases accumulateWrite_cases h₁ with ⟨hr, rfl⟩ | ⟨hr, v, rfl, hv⟩
        · -- a reserved channel: `w` is not among the writes to `c`
          have hne : reservedChannel c = true ∨ w.channel ≠ c := by
            by_cases hc : w.channel = c
            · exact .inl (hc ▸ hr)
            · exact .inr hc
          rw [writesTo_cons_ne hne]
          exact ih
        · by_cases hc : w.channel = c
          · subst hc
            rw [writesTo_cons_self hr rfl, writeChannelAll, hv]
            rwa [Dict.get?_set_self] at ih
          · rw [writesTo_cons_ne (.inr hc)]
            rwa [Dict.get?_set_ne _ _ hc] at ih
      · cases h

end AgentProtocol

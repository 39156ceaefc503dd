import AgentProtocol.State.Accumulation
import Mathlib.Data.List.Chain

/-!
# Reads of the history (`read_thread_history`)

A list extends what its channel holds, and that need not be a list. So a read returns
exactly when every value that is none takes, by an `extend` of its own, the lists written
directly after it, and the values held at each tuple can be copied (`history_read_iff`); of
values without an `extend` that is: no list directly after one (`taken_iff_of_no_extend`). A
read that returns is a fold from the oldest tuple on: newer tuples add entries and leave the
older ones as they are (`history_grows`).
-/

namespace AgentProtocol

/-- One entry for each tuple, in the order of the tuples. -/
def OneEach (ts : List CheckpointTuple) (es : List Entry) : Prop :=
  List.Forall₂ (fun t e => e.checkpointId = t.checkpointId ∧ e.metadata = t.metadata) ts es

/-- The values these tuples, given newest first, have written to a channel, oldest first. -/
def writtenTo (channel : String) (tuples : List CheckpointTuple) : List Value :=
  writesTo channel (allWrites tuples.reverse)

/-- The value takes the lists that are written directly after it. -/
def takes (rt : Runtime) : Value → List Value → Bool
  | v, .list xs :: ws =>
    match v.extend rt xs with
    | .ok v => takes rt v ws
    | .error _ => false
  | _, _ => true

/-- What comes of a value under these writes: of the last one that is no list, or else of the
value itself, with the lists after it added. -/
def held (rt : Runtime) : Value → List Value → Value
  | v, [] => v
  | v, .list xs :: ws =>
    match v.extend rt xs with
    | .ok v => held rt v ws
    | .error _ => v
  | _, w :: ws => held rt w ws

/-- The condition on the writes of these tuples, given newest first. -/
structure Reconstructible (rt : Runtime) (ts : List CheckpointTuple) : Prop where
  /-- a value that is no list takes the lists after it -/
  taken : ∀ channel before w after, writtenTo channel ts = before ++ w :: after →
    w.isList = false → takes rt w after = true
  /-- what a channel holds at a tuple can be copied -/
  copied : ∀ older, older <:+ ts → ∀ channel,
    (held rt (.list []) (writtenTo channel older)).copies rt = true

/-! ## Writes that are accepted -/

section Writes

variable {rt : Runtime}

theorem takes_of_not_list (v : Value) {w : Value} (hw : w.isList = false) (ws : List Value) :
    takes rt v (w :: ws) = true := by
  cases w with
  | list xs => cases hw
  | _ => rfl

theorem takes_list (ys ws : List Value) : takes rt (.list ys) ws = true := by
  induction ws generalizing ys with
  | nil => rfl
  | cons w ws ih =>
      cases w with
      | list xs => exact ih (ys ++ xs)
      | _ => rfl

/-- The cuts of a list in front of an element are that before its head, and those of its tail. -/
theorem forall_cut_cons {P : Value → List Value → Prop} {w : Value} {ws : List Value} :
    (∀ before x after, w :: ws = before ++ x :: after → P x after) ↔
      P w ws ∧ ∀ before x after, ws = before ++ x :: after → P x after := by
  constructor
  · intro h
    refine ⟨h [] w ws rfl, fun before x after heq => ?_⟩
    exact h (w :: before) x after (by rw [heq, List.cons_append])
  · rintro ⟨hhead, htail⟩ before x after heq
    cases before with
    | nil =>
        obtain ⟨rfl, rfl⟩ := List.cons.inj heq
        exact hhead
    | cons b before => exact htail before x after (List.cons.inj heq).2

/-- Writes to a channel are accepted when what it holds takes the lists at their front, and
each value in them that is no list those after it. -/
theorem writeChannelAll_some_iff (v : Value) (ws : List Value) :
    (∃ v', writeChannelAll rt (some v) ws = .ok v') ↔ takes rt v ws = true ∧
      ∀ before w after, ws = before ++ w :: after → w.isList = false → takes rt w after = true := by
  induction ws generalizing v with
  | nil =>
      refine iff_of_true ⟨_, rfl⟩ ⟨rfl, fun before w after h => ?_⟩
      cases before <;> cases h
  | cons w ws ih =>
      rw [forall_cut_cons (P := fun w after => w.isList = false → takes rt w after = true),
        writeChannelAll]
      cases hw : w.isList with
      | false =>
          rw [writeChannel_of_not_list _ hw, takes_of_not_list v hw]
          dsimp only
          rw [ih]
          simp
      | true =>
          rw [(Value.isList_iff w).mp hw, writeChannel, Option.getD_some, takes]
          cases v.extend rt w.elems with
          | error exc => simp
          | ok u =>
              dsimp only
              rw [ih]
              simp

/-- A channel that holds nothing yet is one with an empty list. -/
theorem writeChannelAll_none_cons (w : Value) (ws : List Value) :
    writeChannelAll rt none (w :: ws) = writeChannelAll rt (some (.list [])) (w :: ws) := by
  cases w <;> rfl

theorem writeChannelAll_ok_iff (ws : List Value) :
    (∃ v', writeChannelAll rt none ws = .ok v') ↔
      ∀ before w after, ws = before ++ w :: after → w.isList = false → takes rt w after = true := by
  cases ws with
  | nil =>
      refine iff_of_true ⟨none, rfl⟩ fun before w after h => ?_
      cases before <;> cases h
  | cons w ws =>
      rw [writeChannelAll_none_cons, writeChannelAll_some_iff]
      exact and_iff_right (takes_list [] _)

/-- What accepted writes leave. -/
theorem writeChannelAll_held {v v' : Option Value} {ws : List Value}
    (h : writeChannelAll rt v ws = .ok v') :
    v'.getD (.list []) = held rt (v.getD (.list [])) ws := by
  induction ws generalizing v with
  | nil =>
      obtain rfl := Except.ok.inj h
      rfl
  | cons w ws ih =>
      rw [writeChannelAll] at h
      split at h
      · next v₁ h₁ =>
        cases hw : w.isList with
        | false =>
            rw [writeChannel_of_not_list v hw, Except.ok.injEq] at h₁
            rw [ih h, ← h₁]
            cases w with
            | list xs => cases hw
            | _ => rfl
        | true =>
            rw [(Value.isList_iff w).mp hw] at h₁ ⊢
            obtain ⟨u, rfl, hext⟩ := writeChannel_list v _ h₁
            rw [ih h, Option.getD_some, held, hext]
      · cases h

theorem accumulate_ok_iff (d : Dict String Value) (ws : List Write) :
    (∃ d', accumulate rt d ws = .ok d') ↔
      ∀ c, ∃ v', writeChannelAll rt (d.get? c) (writesTo c ws) = .ok v' := by
  constructor
  · rintro ⟨d', h⟩ c
    exact ⟨_, get?_accumulate h c⟩
  · intro h
    induction ws generalizing d with
    | nil => exact ⟨d, rfl⟩
    | cons w ws ih =>
        obtain ⟨d₁, h₁⟩ : ∃ d₁, accumulateWrite rt d w = .ok d₁ := by
          cases hr : reservedChannel w.channel with
          | true => exact ⟨d, by rw [accumulateWrite, if_pos hr]⟩
          | false =>
              obtain ⟨v', hv'⟩ := h w.channel
              rw [writesTo_cons_self hr rfl, writeChannelAll] at hv'
              split at hv'
              · next v hv => exact accumulateWrite_ok hv
              · cases hv'
        rw [accumulate, h₁]
        apply ih d₁
        intro c
        obtain ⟨v', hv'⟩ := h c
        rcases accumulateWrite_cases h₁ with ⟨hr, rfl⟩ | ⟨hr, v, rfl, hv⟩
        · have hne : reservedChannel c = true ∨ w.channel ≠ c := by
            by_cases hc : w.channel = c
            · exact .inl (hc ▸ hr)
            · exact .inr hc
          rw [writesTo_cons_ne hne] at hv'
          exact ⟨v', hv'⟩
        · by_cases hc : w.channel = c
          · subst hc
            rw [writesTo_cons_self hr rfl, writeChannelAll, hv] at hv'
            rw [Dict.get?_set_self]
            exact ⟨v', hv'⟩
          · rw [writesTo_cons_ne (.inr hc)] at hv'
            rw [Dict.get?_set_ne _ _ hc]
            exact ⟨v', hv'⟩

theorem accumulate_split {d d' : Dict String Value} {ws ws' : List Write}
    (h : accumulate rt d (ws ++ ws') = .ok d') :
    ∃ d₁, accumulate rt d ws = .ok d₁ ∧ accumulate rt d₁ ws' = .ok d' := by
  induction ws generalizing d with
  | nil => exact ⟨d, rfl, h⟩
  | cons w ws ih =>
      rw [List.cons_append, accumulate] at h
      split at h
      · next d₁ h₁ =>
        obtain ⟨d₂, h₂, hrest⟩ := ih h
        exact ⟨d₂, by rw [accumulate, h₁]; exact h₂, hrest⟩
      · cases h

/-- A reconstruction succeeds when all its writes are accepted, and what they have left at
each tuple can be copied. -/
theorem reconstruct_ok_iff (d : Dict String Value) (ts : List CheckpointTuple) :
    (∃ es, reconstruct rt d ts = .ok es) ↔ (∃ d', accumulate rt d (allWrites ts) = .ok d') ∧
      ∀ us, us ≠ [] → us <+: ts → ∀ d', accumulate rt d (allWrites us) = .ok d' →
        ∀ c v, d'.get? c = some v → v.copies rt = true := by
  induction ts generalizing d with
  | nil =>
      refine iff_of_true ⟨[], rfl⟩ ⟨⟨d, rfl⟩, fun us hne hus => ?_⟩
      exact absurd (List.prefix_nil.mp hus) hne
  | cons t ts ih =>
      constructor
      · rintro ⟨es, h⟩
        obtain ⟨d₁, rest, h₁, hcopies, hrest, -⟩ := reconstruct_cons_iff.mp h
        obtain ⟨⟨d', hd'⟩, hlater⟩ := (ih d₁).mp ⟨rest, hrest⟩
        refine ⟨⟨d', accumulate_join h₁ hd'⟩, fun us hne hus d₂ h₂ => ?_⟩
        cases us with
        | nil => exact absurd rfl hne
        | cons u us =>
            obtain ⟨rfl, hprefix⟩ := List.cons_prefix_cons.mp hus
            obtain ⟨d₃, h₃, h₂⟩ := accumulate_split (show accumulate rt d
              (u.pendingWrites ++ allWrites us) = .ok d₂ from h₂)
            obtain rfl := Except.ok.inj (h₁.symm.trans h₃)
            by_cases hnil : us = []
            · subst hnil
              obtain rfl := Except.ok.inj h₂
              exact hcopies
            · exact hlater us hnil hprefix d₂ h₂
      · rintro ⟨⟨d', h⟩, hcopies⟩
        rw [show allWrites (t :: ts) = t.pendingWrites ++ allWrites ts from rfl] at h
        obtain ⟨d₁, h₁, hrest⟩ := accumulate_split h
        have hlater : ∀ us, us ≠ [] → us <+: ts → ∀ d₂, accumulate rt d₁ (allWrites us) = .ok d₂ →
            ∀ c v, d₂.get? c = some v → v.copies rt = true := fun us _ hus d₂ h₂ =>
          hcopies (t :: us) (List.cons_ne_nil t us) (List.cons_prefix_cons.mpr ⟨rfl, hus⟩) d₂
            (accumulate_join h₁ h₂)
        obtain ⟨rest, hes⟩ := (ih d₁).mpr ⟨⟨d', hrest⟩, hlater⟩
        refine ⟨_, reconstruct_cons_iff.mpr ⟨d₁, rest, h₁, ?_, hes, rfl⟩⟩
        refine hcopies [t] (List.cons_ne_nil t []) (List.cons_prefix_cons.mpr
          ⟨rfl, List.nil_prefix⟩) d₁ ?_
        show accumulate rt d (t.pendingWrites ++ []) = .ok d₁
        rw [List.append_nil, h₁]

/-- What accepted writes have left can be copied, channel by channel. -/
theorem copies_held_iff {d : Dict String Value} {ts : List CheckpointTuple}
    (h : accumulate rt ∅ (allWrites ts) = .ok d) :
    (∀ c v, d.get? c = some v → v.copies rt = true) ↔
      ∀ c, (held rt (.list []) (writesTo c (allWrites ts))).copies rt = true := by
  refine forall_congr' fun c => ?_
  have hheld := writeChannelAll_held (get?_accumulate h c)
  rw [Dict.get?_empty, Option.getD_none] at hheld
  rw [← hheld]
  cases d.get? c with
  | none => exact iff_of_true (fun _ h => by cases h) (copies_list_iff.mpr fun _ h => by cases h)
  | some v => exact ⟨fun h => h v rfl, fun h u hu => Option.some.inj hu ▸ h⟩

end Writes

/-! ## The entries of a read -/

variable {rt : Runtime}

theorem reconstruct_oneEach {d : Dict String Value} {ts : List CheckpointTuple} {es : List Entry}
    (h : reconstruct rt d ts = .ok es) : OneEach ts es := by
  induction ts generalizing d es with
  | nil =>
      rw [reconstruct, Except.ok.injEq] at h
      subst h
      exact .nil
  | cons t ts ih =>
      obtain ⟨d', rest, -, hrest, rfl⟩ := reconstruct_cons h
      exact .cons ⟨rfl, rfl⟩ (ih hrest)

/-- The values of an entry are what the tuples up to its own have left. -/
theorem reconstruct_values {d : Dict String Value} {ts : List CheckpointTuple} {es : List Entry}
    (h : reconstruct rt d ts = .ok es) {e : Entry} (he : e ∈ es) :
    ∃ us, us <+: ts ∧ accumulate rt d (allWrites us) = .ok e.values := by
  induction ts generalizing d es with
  | nil =>
      rw [reconstruct, Except.ok.injEq] at h
      subst h
      cases he
  | cons t ts ih =>
      obtain ⟨d', rest, hd', hrest, rfl⟩ := reconstruct_cons h
      rcases List.mem_cons.mp he with rfl | he
      · refine ⟨[t], ⟨ts, rfl⟩, ?_⟩
        show accumulate rt d (t.pendingWrites ++ []) = _
        rw [List.append_nil]
        exact hd'
      · obtain ⟨us, ⟨vs, rfl⟩, hus⟩ := ih hrest he
        exact ⟨t :: us, ⟨vs, rfl⟩, accumulate_join hd' hus⟩

/-- A read is a reconstruction, serialized and turned around. -/
theorem readWindow_eq_ok {rt : Runtime} {ts : List CheckpointTuple} {out : List Entry}
    (h : readWindow rt ts = .ok out) :
    ∃ es, reconstruct rt ∅ ts.reverse = .ok es ∧ out = es.reverse.map (Entry.serialize rt) := by
  unfold readWindow at h
  split at h
  · next es hes => exact ⟨es, hes, (Except.ok.inj h).symm⟩
  · cases h

theorem readWindow_oneEach {rt : Runtime} {ts : List CheckpointTuple} {out : List Entry}
    (h : readWindow rt ts = .ok out) : OneEach ts out := by
  obtain ⟨es, hes, rfl⟩ := readWindow_eq_ok h
  have hone := List.rel_reverse (reconstruct_oneEach hes)
  rw [List.reverse_reverse] at hone
  unfold OneEach
  rw [List.forall₂_map_right_iff]
  exact hone

/-- The condition, in terms of the reconstruction. -/
theorem reconstructible_iff (rt : Runtime) (ts : List CheckpointTuple) :
    Reconstructible rt ts ↔ (∃ d', accumulate rt ∅ (allWrites ts.reverse) = .ok d') ∧
      ∀ us, us ≠ [] → us <+: ts.reverse → ∀ d', accumulate rt ∅ (allWrites us) = .ok d' →
        ∀ c v, d'.get? c = some v → v.copies rt = true := by
  have htaken : (∃ d', accumulate rt ∅ (allWrites ts.reverse) = .ok d') ↔
      ∀ c before w after, writtenTo c ts = before ++ w :: after → w.isList = false →
        takes rt w after = true := by
    rw [accumulate_ok_iff]
    exact forall_congr' fun c => writeChannelAll_ok_iff (writesTo c (allWrites ts.reverse))
  constructor
  · rintro ⟨taken, copied⟩
    refine ⟨htaken.mpr taken, fun us _ hus d' hd' => (copies_held_iff hd').mpr fun c => ?_⟩
    have hheld := copied us.reverse (by
      rwa [← List.reverse_prefix, List.reverse_reverse]) c
    rwa [writtenTo, List.reverse_reverse] at hheld
  · rintro ⟨hok, hcopies⟩
    refine ⟨htaken.mp hok, fun older holder c => ?_⟩
    by_cases hnil : older = []
    · subst hnil
      -- nothing is written yet
      have hnone : writtenTo c [] = [] := by
        unfold writtenTo writesTo
        split <;> rfl
      rw [hnone]
      exact copies_list_iff.mpr fun _ h => by cases h
    · have hprefix : older.reverse <+: ts.reverse := List.reverse_prefix.mpr holder
      obtain ⟨us, hus⟩ := hprefix
      obtain ⟨d', hd'⟩ := hok
      have hsplit : allWrites ts.reverse = allWrites older.reverse ++ allWrites us := by
        rw [← hus]
        exact List.flatMap_append
      rw [hsplit] at hd'
      obtain ⟨d₁, hd₁, -⟩ := accumulate_split hd'
      exact (copies_held_iff hd₁).mp (hcopies older.reverse
        (fun h => hnil (List.reverse_eq_nil_iff.mp h)) ⟨us, hus⟩ d₁ hd₁) c

/-- A read returns, with one entry for each tuple, newest first, exactly when each value that
is no list takes the lists written directly after it on its channel, and the values held at
each tuple can be copied. -/
theorem history_read_iff (rt : Runtime) (ts : List CheckpointTuple) :
    (∃ out, readWindow rt ts = .ok out ∧ OneEach ts out) ↔ Reconstructible rt ts := by
  have hok : (∃ out, readWindow rt ts = .ok out) ↔ ∃ es, reconstruct rt ∅ ts.reverse = .ok es := by
    unfold readWindow
    cases reconstruct rt ∅ ts.reverse <;> simp
  have hread : (∃ out, readWindow rt ts = .ok out ∧ OneEach ts out) ↔
      ∃ out, readWindow rt ts = .ok out :=
    ⟨fun ⟨out, h, _⟩ => ⟨out, h⟩, fun ⟨out, h⟩ => ⟨out, h, readWindow_oneEach h⟩⟩
  rw [hread, hok, reconstruct_ok_iff, reconstructible_iff]

mutual

/-- Where every object can be copied, every value can. -/
theorem copyRaises_of_none : (v : Value) → v.copyRaises (fun _ => none) = none
  | .none | .bool _ | .int _ | .float _ | .str _ | .obj .. | .bare .. => rfl
  | .list xs | .tuple xs | .set xs => copyRaisesList_of_none xs
  | .dict items => copyRaisesItems_of_none items

theorem copyRaisesList_of_none : (xs : List Value) →
    Value.copyRaisesList (fun _ => none) xs = none
  | [] => rfl
  | x :: xs => by
      rw [Value.copyRaisesList, copyRaises_of_none x, copyRaisesList_of_none xs]
      rfl

theorem copyRaisesItems_of_none : (items : List (Value × Value)) →
    Value.copyRaisesItems (fun _ => none) items = none
  | [] => rfl
  | (k, v) :: items => by
      rw [Value.copyRaisesItems, copyRaises_of_none k, copyRaises_of_none v,
        copyRaisesItems_of_none items]
      rfl

end

/-- Objects that take any list and can be copied, as a deque does. -/
def Objects.deques : Objects where
  extend
    | .bare cls slots text, xs => some (.ok (.bare cls (slots ++ [("added", .list xs)]) text))
    | _, _ => none
  copyRaises _ := none
  extend_isObject v xs v' h := by
    cases v with
    | bare cls slots text =>
        obtain rfl := Except.ok.inj (Option.some.inj h)
        rfl
    | _ => cases h
  extend_copies v xs _ _ _ := ⟨copyRaises_of_none v, copyRaisesList_of_none xs⟩

/-- A list after a deque: the deque takes it. -/
example : ∃ out, readWindow { Runtime.inert with objects := .deques }
    [{ checkpointId := "2", pendingWrites := [⟨"b", "log", .list [.str "y"]⟩], metadata := none },
     { checkpointId := "1", pendingWrites := [⟨"a", "log", .bare "deque" [] "deque(['x'])"⟩],
       metadata := none }] = .ok out := ⟨_, rfl⟩

/-- A list is not written right after a value that is none. -/
def appendsToLists (vs : List Value) : Prop :=
  vs.IsChain fun v w => w.isList = true → v.isList = true

/-- Where no object has an `extend`, a value that is no list takes none. -/
theorem taken_iff_of_no_extend (hext : ∀ v xs, rt.objects.extend v xs = none) (vs : List Value) :
    (∀ before w after, vs = before ++ w :: after → w.isList = false → takes rt w after = true) ↔
      appendsToLists vs := by
  have hhead : ∀ (w : Value) (ws : List Value), (w.isList = false → takes rt w ws = true) ↔
      ∀ u ∈ ws.head?, u.isList = true → w.isList = true := by
    intro w ws
    cases hw : w.isList with
    | true => simp
    | false =>
        cases ws with
        | nil => exact iff_of_true (fun _ => rfl) fun _ h => by cases h
        | cons u ws =>
            cases hu : u.isList with
            | false => simp [takes_of_not_list w hu, hu]
            | true =>
                have hnot : ∃ exc, w.extend rt u.elems = .error exc := by
                  cases w with
                  | list ys => cases hw
                  | obj cls attrs text => exact ⟨_, by rw [Value.extend, hext]; rfl⟩
                  | bare cls slots text => exact ⟨_, by rw [Value.extend, hext]; rfl⟩
                  | _ => exact ⟨_, rfl⟩
                obtain ⟨exc, hexc⟩ := hnot
                have htakes : takes rt w (u :: ws) = false := by
                  rw [(Value.isList_iff u).mp hu, takes, hexc]
                simp [htakes, hu]
  unfold appendsToLists
  induction vs with
  | nil =>
      refine iff_of_true (fun before w after h => ?_) .nil
      cases before <;> cases h
  | cons w ws ih =>
      rw [forall_cut_cons (P := fun w after => w.isList = false → takes rt w after = true), hhead,
        List.isChain_cons]
      exact and_congr_right' ih

/-- A channel that has been reset to nothing and is then appended to. -/
def resetThenAppended : List CheckpointTuple :=
  [{ checkpointId := "2", pendingWrites := [⟨"b", "todos", .list [.str "x"]⟩], metadata := none },
   { checkpointId := "1", pendingWrites := [⟨"a", "todos", .none⟩], metadata := none }]

theorem history_read_fails :
    ¬∀ ts, ∃ out, readWindow .inert ts = .ok out ∧ OneEach ts out := by
  intro hall
  obtain ⟨out, hout, -⟩ := hall resetThenAppended
  have herror : readWindow .inert resetThenAppended =
    .error ⟨"AttributeError", "'NoneType' object has no attribute 'extend'"⟩ := rfl
  rw [herror] at hout
  cases hout

/-! ## Older entries stay -/

/-- What the channel holds is a list, if it holds anything. -/
def HoldsList (c : String) (d : Dict String Value) : Prop :=
  ∀ v, d.get? c = some v → v.isList = true

theorem HoldsList.accumulate {d d' : Dict String Value} {ws : List Write} {c : String}
    (hd : HoldsList c d) (h : accumulate rt d ws = .ok d')
    (hlists : ∀ w ∈ writesTo c ws, w.isList = true) : HoldsList c d' := by
  intro v hv
  rcases writeChannelAll_cases (get?_accumulate h c) with
    ⟨-, heq⟩ | ⟨-, -, ⟨w, hw, hnl⟩ | hnl⟩ | ⟨-, -, ys, -, heq⟩
  · exact hd v (heq ▸ hv)
  · rw [hlists w hw] at hnl
    cases hnl
  · cases hc : d.get? c with
    | none =>
        rw [hc] at hnl
        cases hnl
    | some u =>
        rw [hc, Option.getD_some, hd u hc] at hnl
        cases hnl
  · rw [heq, Option.some.injEq] at hv
    rw [← hv]
    rfl

/-- In a later entry a channel that only gets lists has more of them. -/
theorem accumulate_prefix {d d' : Dict String Value} {ws : List Write} {c : String} {v : Value}
    (h : accumulate rt d ws = .ok d') (hlists : ∀ w ∈ writesTo c ws, w.isList = true)
    (hv : d.get? c = some v) (hl : v.isList = true) :
    ∃ xs ys, v = .list xs ∧ d'.get? c = some (.list ys) ∧ xs <+: ys := by
  have hc := get?_accumulate h c
  rw [hv] at hc
  rcases writeChannelAll_cases hc with
    ⟨-, heq⟩ | ⟨-, -, ⟨w, hw, hnl⟩ | hnl⟩ | ⟨-, -, ys, hys, heq⟩
  · rw [Value.isList_iff] at hl
    exact ⟨v.elems, v.elems, hl, by rw [heq, ← hl], List.prefix_refl _⟩
  · rw [hlists w hw] at hnl
    cases hnl
  · rw [Option.getD_some, hl] at hnl
    cases hnl
  · rw [Value.isList_iff] at hl
    rw [Option.getD_some, hl] at hys
    rw [← Value.list.inj hys] at heq
    exact ⟨v.elems, _, hl, heq, List.prefix_append _ _⟩

/-- Serialization goes element by element. -/
theorem serializeEntry_prefix (rt : Runtime) (key : String) {xs ys : List Value} (h : xs <+: ys) :
    ∃ xs' ys', serializeEntry rt key (.list xs) = .list xs' ∧
      serializeEntry rt key (.list ys) = .list ys' ∧ xs' <+: ys' := by
  by_cases hkey : key = "messages"
  · exact ⟨_, _, by rw [serializeEntry, if_pos hkey], by rw [serializeEntry, if_pos hkey],
      h.map _⟩
  · refine ⟨_, _, by rw [serializeEntry, if_neg hkey, toJsonable],
      by rw [serializeEntry, if_neg hkey, toJsonable], ?_⟩
    rw [toJsonableList_eq_map, toJsonableList_eq_map]
    exact h.map _

/-- The value of a channel in the older entry is a prefix of its value in the newer one. -/
def Entry.Extends (c : String) (newer older : Entry) : Prop :=
  ∀ v, older.values.get? c = some v →
    ∃ xs ys, v = .list xs ∧ newer.values.get? c = some (.list ys) ∧ xs <+: ys

theorem Entry.Extends.serialize (rt : Runtime) {c : String} {newer older : Entry}
    (h : newer.Extends c older) : (newer.serialize rt).Extends c (older.serialize rt) := by
  intro v hv
  replace hv : (serializeValues rt older.values).get? c = some v := hv
  rw [get?_serializeValues, Option.map_eq_some_iff] at hv
  obtain ⟨u, hu, rfl⟩ := hv
  obtain ⟨xs, ys, rfl, hnew, hpre⟩ := h u hu
  obtain ⟨xs', ys', hxs, hys, hpre'⟩ := serializeEntry_prefix rt c hpre
  refine ⟨xs', ys', hxs, ?_, hpre'⟩
  show (serializeValues rt newer.values).get? c = _
  rw [get?_serializeValues, hnew, Option.map_some, hys]

theorem writesTo_allWrites_of_mem {c : String} {us ts : List CheckpointTuple} {w : Value}
    (h : ∀ t ∈ us, t ∈ ts) (hw : w ∈ writesTo c (allWrites us)) :
    w ∈ writesTo c (allWrites ts) := by
  obtain ⟨hr, x, hx, hc, hv⟩ := mem_writesTo.mp hw
  obtain ⟨t, ht, hxt⟩ := List.mem_flatMap.mp hx
  exact mem_writesTo.mpr ⟨hr, x, List.mem_flatMap.mpr ⟨t, h t ht, hxt⟩, hc, hv⟩

/-- Entries given oldest first extend the ones before them. -/
theorem reconstruct_extends {d : Dict String Value} {ts : List CheckpointTuple} {es : List Entry}
    {c : String} (h : reconstruct rt d ts = .ok es) (hd : HoldsList c d)
    (hlists : ∀ w ∈ writesTo c (allWrites ts), w.isList = true) :
    es.Pairwise fun older newer => newer.Extends c older := by
  induction ts generalizing d es with
  | nil =>
      rw [reconstruct, Except.ok.injEq] at h
      subst h
      exact .nil
  | cons t ts ih =>
      obtain ⟨d', rest, hd', hrest, rfl⟩ := reconstruct_cons h
      have hrestLists : ∀ w ∈ writesTo c (allWrites ts), w.isList = true := fun w hw =>
        hlists w (writesTo_allWrites_of_mem (fun _ => List.mem_cons_of_mem t) hw)
      have hold : HoldsList c d' := by
        refine hd.accumulate hd' fun w hw => hlists w ?_
        obtain ⟨hr, x, hx, hc, hv⟩ := mem_writesTo.mp hw
        exact mem_writesTo.mpr ⟨hr, x, List.mem_append_left _ hx, hc, hv⟩
      refine .cons ?_ (ih hrest hold hrestLists)
      intro newer hnewer v hv
      obtain ⟨us, ⟨vs, rfl⟩, hus⟩ := reconstruct_values hrest hnewer
      refine accumulate_prefix hus (fun w hw => hrestLists w ?_) hv (hold v hv)
      exact writesTo_allWrites_of_mem (fun _ => List.mem_append_left vs) hw

/-- Reserved channels are never written. -/
theorem reconstruct_reserved {ts : List CheckpointTuple} {es : List Entry}
    (h : reconstruct rt ∅ ts = .ok es) {e : Entry} (he : e ∈ es) {c : String}
    (hr : reservedChannel c = true) : e.values.get? c = none := by
  obtain ⟨us, -, hus⟩ := reconstruct_values h he
  have hc := get?_accumulate hus c
  rw [writesTo, if_pos hr, writeChannelAll, Except.ok.injEq] at hc
  rw [← hc, Dict.get?_empty]

/-- What a read of these tuples gives: an entry for each, a channel that only gets lists
growing from the oldest to the newest, and no reserved channel. -/
structure History (ts : List CheckpointTuple) (out : List Entry) : Prop where
  entries : OneEach ts out
  grows : ∀ c, (∀ v ∈ writtenTo c ts, v.isList = true) →
    out.Pairwise fun newer older => newer.Extends c older
  reserved : ∀ e ∈ out, ∀ c, reservedChannel c = true → e.values.get? c = none

theorem history_of_readWindow {rt : Runtime} {ts : List CheckpointTuple} {out : List Entry}
    (h : readWindow rt ts = .ok out) : History ts out := by
  refine ⟨readWindow_oneEach h, ?_, ?_⟩
  · intro c hlists
    obtain ⟨es, hes, rfl⟩ := readWindow_eq_ok h
    have hext := reconstruct_extends hes (fun v hv => by cases hv) hlists
    rw [List.pairwise_map, List.pairwise_reverse]
    exact hext.imp fun hx => hx.serialize rt
  · intro e he c hr
    obtain ⟨es, hes, rfl⟩ := readWindow_eq_ok h
    obtain ⟨e, hmem, rfl⟩ := List.mem_map.mp he
    show (serializeValues rt e.values).get? c = none
    rw [get?_serializeValues, reconstruct_reserved hes (List.mem_reverse.mp hmem) hr,
      Option.map_none]

/-- A read that goes on to newer tuples ends with the read that does not. -/
theorem history_grows (rt : Runtime) (ns ts : List CheckpointTuple) (out out' : List Entry)
    (h : readWindow rt ts = .ok out) (h' : readWindow rt (ns ++ ts) = .ok out') :
    out'.drop ns.length = out ∧ History ts out ∧ History (ns ++ ts) out' := by
  refine ⟨?_, history_of_readWindow h, history_of_readWindow h'⟩
  have hlen : ns.length + ts.length = out'.length := by
    rw [← List.length_append]
    exact (readWindow_oneEach h').length_eq
  obtain ⟨es, hes, rfl⟩ := readWindow_eq_ok h
  obtain ⟨es', hes', rfl⟩ := readWindow_eq_ok h'
  rw [List.reverse_append] at hes'
  obtain ⟨d, es₁, es₂, -, hes₁, -, rfl⟩ := reconstruct_append hes'
  obtain rfl : es₁ = es := Except.ok.inj (hes₁.symm.trans hes)
  have hone : ts.length = es₁.length := by
    rw [← List.length_reverse]
    exact (reconstruct_oneEach hes₁).length_eq
  rw [List.reverse_append, List.map_append] at hlen ⊢
  rw [List.length_append, List.length_map, List.length_map, List.length_reverse,
    List.length_reverse, ← hone, Nat.add_right_cancel_iff] at hlen
  rw [hlen, List.drop_left' (by rw [List.length_map, List.length_reverse])]

/-- A delta channel over two checkpoints. -/
def todoTuples : List CheckpointTuple :=
  [{ checkpointId := "2", metadata := none
     pendingWrites := [⟨"b", "todos", .list [.str "y"]⟩, ⟨"b", "__interrupt__", .list []⟩] },
   { checkpointId := "1", metadata := none
     pendingWrites := [⟨"a", "todos", .list [.str "x"]⟩] }]

theorem history_grows_todos :
    ∃ out out', readWindow .inert (todoTuples.drop 1) = .ok out ∧
      readWindow .inert (todoTuples.take 1 ++ todoTuples.drop 1) = .ok out' ∧
      out'.drop 1 = out ∧ History todoTuples out' := by
  obtain ⟨out, h⟩ : ∃ out, readWindow .inert (todoTuples.drop 1) = .ok out := ⟨_, rfl⟩
  obtain ⟨out', h'⟩ : ∃ out, readWindow .inert (todoTuples.take 1 ++ todoTuples.drop 1) = .ok out :=
    ⟨_, rfl⟩
  have hgrows := history_grows .inert (todoTuples.take 1) (todoTuples.drop 1) out out' h h'
  exact ⟨out, out', h, h', hgrows.1, hgrows.2.2⟩

end AgentProtocol

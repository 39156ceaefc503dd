import AgentProtocol.State.History

/-!
# Accumulation from two starting points

The reader starts every window from an empty dict, so the same checkpoint is
reconstructed from different starting points when it is read through different
windows. This module compares the two.

* **one channel** — `writeChannelAll_cases`: what accepted writes leave in it;
* **one checkpoint** — `absorbs`: the checkpoint overwrites whatever the older
  writes left, `channels_eq_iff`: exactly then the starting point is forgotten;
* **the checkpoints after it** — `reconstruct_congr`: equal dicts stay equal,
  `reconstruct_same_iff`: hence the entries of the two reads are the same exactly
  when their oldest common checkpoint absorbs what one read saw before it.
-/

namespace AgentProtocol

/-- The elements of a list value. -/
def Value.elems : Value → List Value
  | .list xs => xs
  | _ => []

theorem Value.isList_iff (v : Value) : v.isList = true ↔ v = .list v.elems := by
  cases v <;> simp [Value.isList, Value.elems]

section Channel

variable {rt : Runtime}

theorem writeChannel_of_not_list (v : Option Value) {w : Value} (hw : w.isList = false) :
    writeChannel rt v w = .ok (some w) := by
  cases w with
  | list xs => cases hw
  | _ => rfl

theorem writeChannel_list (v : Option Value) (xs : List Value) {u : Option Value}
    (h : writeChannel rt v (.list xs) = .ok u) :
    ∃ v', u = some v' ∧ (v.getD (.list [])).extend rt xs = .ok v' := by
  rw [writeChannel] at h
  cases hext : (v.getD (.list [])).extend rt xs with
  | error exc =>
      rw [hext] at h
      cases h
  | ok v' =>
      rw [hext] at h
      exact ⟨v', (Except.ok.inj h).symm, rfl⟩

/-- What a write leaves is a list exactly when it is one and comes to one. -/
theorem writeChannel_isList {v : Option Value} {w : Value} {v' : Option Value}
    (h : writeChannel rt v w = .ok v') :
    ∃ u, v' = some u ∧ u.isList = (w.isList && (v.getD (.list [])).isList) := by
  cases hw : w.isList with
  | false =>
      rw [writeChannel_of_not_list v hw, Except.ok.injEq] at h
      exact ⟨w, h.symm, by rw [hw, Bool.false_and]⟩
  | true =>
      rw [(Value.isList_iff w).mp hw] at h
      obtain ⟨u, rfl, hext⟩ := writeChannel_list v _ h
      exact ⟨u, rfl, by rw [(extend_ok hext).1, Bool.true_and]⟩

/-- Accepted writes leave the channel as it was (no write), a value that is no list (one was
written, or was there), or the old list extended by all of them (all are lists). -/
theorem writeChannelAll_cases {v v' : Option Value} {ws : List Value}
    (h : writeChannelAll rt v ws = .ok v') :
    (ws = [] ∧ v' = v) ∨
    (ws ≠ [] ∧ (∃ u, v' = some u ∧ u.isList = false) ∧
      ((∃ w ∈ ws, w.isList = false) ∨ (v.getD (.list [])).isList = false)) ∨
    (ws ≠ [] ∧ (∀ w ∈ ws, w.isList = true) ∧ ∃ ys, v.getD (.list []) = .list ys ∧
      v' = some (.list (ys ++ ws.flatMap Value.elems))) := by
  induction ws generalizing v with
  | nil =>
      rw [writeChannelAll, Except.ok.injEq] at h
      exact .inl ⟨rfl, h.symm⟩
  | cons w ws ih =>
      rw [writeChannelAll] at h
      split at h
      · next v₁ h₁ =>
        have hne : w :: ws ≠ [] := List.cons_ne_nil w ws
        obtain ⟨u, rfl, hu⟩ := writeChannel_isList h₁
        cases hlist : u.isList with
        | false =>
            -- `w` is no list, or came to a value that is none
            rw [hlist, eq_comm, Bool.and_eq_false_iff] at hu
            have hwhy : (∃ w' ∈ w :: ws, w'.isList = false) ∨
                (v.getD (.list [])).isList = false :=
              hu.imp_left fun hw => ⟨w, List.mem_cons_self, hw⟩
            rcases ih h with ⟨rfl, rfl⟩ | ⟨-, hvalue, -⟩ | ⟨-, -, ys, hys, -⟩
            · exact .inr (.inl ⟨hne, ⟨u, rfl, hlist⟩, hwhy⟩)
            · exact .inr (.inl ⟨hne, hvalue, hwhy⟩)
            · rw [Option.getD_some] at hys
              rw [hys] at hlist
              cases hlist
        | true =>
            -- `w` is a list, and so was what it came to
            rw [hlist, eq_comm, Bool.and_eq_true] at hu
            obtain ⟨hw, hv⟩ := hu
            rw [(Value.isList_iff w).mp hw] at h₁
            obtain ⟨u', heq, hext⟩ := writeChannel_list v _ h₁
            obtain rfl := Option.some.inj heq
            rw [(Value.isList_iff _).mp hv, extend_list, Except.ok.injEq] at hext
            have hys : v.getD (.list []) = .list (v.getD (.list [])).elems :=
              (Value.isList_iff _).mp hv
            rcases ih h with ⟨rfl, rfl⟩ | ⟨-, hvalue, ⟨w', hw', hnl⟩ | hnl⟩ |
              ⟨-, hall, zs, hzs, rfl⟩
            · refine .inr (.inr ⟨hne, List.forall_mem_singleton.mpr hw, _, hys, ?_⟩)
              rw [← hext, List.flatMap_singleton]
            · exact .inr (.inl ⟨hne, hvalue, .inl ⟨w', List.mem_cons_of_mem w hw', hnl⟩⟩)
            · rw [Option.getD_some, hlist] at hnl
              cases hnl
            · refine .inr (.inr ⟨hne, List.forall_mem_cons.mpr ⟨hw, hall⟩, _, hys, ?_⟩)
              rw [Option.getD_some, ← hext] at hzs
              obtain rfl := Value.list.inj hzs
              rw [List.flatMap_cons, List.append_assoc]
      · cases h

/-- A value that is no list forgets what was in the channel before it. -/
theorem writeChannelAll_det {v v' u u' : Option Value} {ws : List Value}
    (hrep : ∃ w ∈ ws, w.isList = false) (h : writeChannelAll rt v ws = .ok u)
    (h' : writeChannelAll rt v' ws = .ok u') : u = u' := by
  induction ws generalizing v v' with
  | nil =>
      obtain ⟨w, hw, -⟩ := hrep
      cases hw
  | cons w ws ih =>
      rw [writeChannelAll] at h h'
      split at h
      · next v₁ h₁ =>
        split at h'
        · next v₂ h₂ =>
          by_cases hrest : ∃ w ∈ ws, w.isList = false
          · exact ih hrest h h'
          · obtain ⟨x, hx, hnl⟩ := hrep
            obtain rfl : x = w := by
              rcases List.mem_cons.mp hx with hx | hx
              · exact hx
              · exact absurd ⟨x, hx, hnl⟩ hrest
            rw [writeChannel_of_not_list v hnl] at h₁
            rw [writeChannel_of_not_list v' hnl] at h₂
            obtain rfl := Except.ok.inj (h₁.symm.trans h₂)
            exact Except.ok.inj (h.symm.trans h')
        · cases h'
      · cases h

/-- Started from nothing, a channel is absent exactly when nothing was written. -/
theorem writeChannelAll_none_iff {v : Option Value} {ws : List Value}
    (h : writeChannelAll rt none ws = .ok v) : v = none ↔ ws = [] := by
  rcases writeChannelAll_cases h with ⟨rfl, rfl⟩ | ⟨hne, ⟨u, rfl, -⟩, -⟩ | ⟨hne, -, ys, -, rfl⟩
  · simp
  · simp [hne]
  · simp [hne]

/-- Started from nothing, it is the empty list exactly when only empty lists were. -/
theorem writeChannelAll_empty_iff {v : Option Value} {ws : List Value}
    (h : writeChannelAll rt none ws = .ok v) :
    v = some (.list []) ↔ ws ≠ [] ∧ ∀ w ∈ ws, w = .list [] := by
  rcases writeChannelAll_cases h with ⟨rfl, rfl⟩ | ⟨-, ⟨u, rfl, hnl⟩, hwhy⟩ |
    ⟨hne, hall, ys, hys, rfl⟩
  · simp
  · constructor
    · intro heq
      rw [Option.some.inj heq] at hnl
      cases hnl
    · rintro ⟨-, hempty⟩
      rcases hwhy with ⟨w, hw, hwl⟩ | hwl
      · rw [hempty w hw] at hwl
        cases hwl
      · cases hwl
  · obtain rfl : [] = ys := Value.list.inj hys
    rw [List.nil_append, Option.some.injEq, Value.list.injEq, List.flatMap_eq_nil_iff]
    constructor
    · intro hel
      refine ⟨hne, ?_⟩
      intro w hw
      rw [(Value.isList_iff w).mp (hall w hw), hel w hw]
    · rintro ⟨-, hempty⟩ w hw
      rw [hempty w hw]
      rfl

/-- An object that has taken every list since is still one. -/
theorem writeChannelAll_object {v u : Option Value} {ws : List Value} (hne : ws ≠ [])
    (hall : ∀ w ∈ ws, w.isList = true) (hv : (v.getD (.list [])).isList = false)
    (h : writeChannelAll rt v ws = .ok u) : ∃ v', u = some v' ∧ v'.isObject = true := by
  induction ws generalizing v with
  | nil => exact absurd rfl hne
  | cons w ws ih =>
      obtain ⟨hw, hall⟩ := List.forall_mem_cons.mp hall
      rw [writeChannelAll] at h
      split at h
      · next v₁ h₁ =>
        rw [(Value.isList_iff w).mp hw] at h₁
        obtain ⟨v', rfl, hext⟩ := writeChannel_list v _ h₁
        obtain ⟨-, hsame, hkind, -⟩ := extend_ok hext
        have hobject : v'.isObject = true := by
          rw [hsame]
          exact hkind.resolve_left (by rw [hv]; exact Bool.false_ne_true)
        by_cases hnil : ws = []
        · subst hnil
          exact ⟨v', (Except.ok.inj h).symm, hobject⟩
        · refine ih hnil hall ?_ h
          exact isList_of_isObject hobject
      · cases h

end Channel

/-- What is serialized to a list is no object. -/
theorem serializeEntry_ne_of_isObject (rt : Runtime) (key : String) {v : Value}
    (h : v.isObject = true) (ys : List Value) : serializeEntry rt key v ≠ .list ys := by
  unfold serializeEntry
  cases v with
  | obj cls attrs text => split <;> exact fun h => by cases h
  | bare cls slots text => split <;> exact fun h => by cases h
  | _ => cases h

/-- The same writes from `v` and from nothing: after serialization the two
results are equal exactly when there was nothing in `v`, a write replaced it, or
it was an empty list and a list was written. -/
theorem channel_eq_iff (rt : Runtime) (c : String) {v v₁ v₂ : Option Value} {ws : List Value}
    (h₁ : writeChannelAll rt v ws = .ok v₁) (h₂ : writeChannelAll rt none ws = .ok v₂) :
    (v₁.map (serializeEntry rt c) = v₂.map (serializeEntry rt c) ↔
        v = none ∨ (∃ w ∈ ws, w.isList = false) ∨ (v = some (.list []) ∧ ws ≠ [])) ∧
    (v₁.map (serializeEntry rt c) = v₂.map (serializeEntry rt c) → v₁ = v₂) := by
  by_cases hrep : ∃ w ∈ ws, w.isList = false
  · -- the last of them is the value from which both go on
    obtain rfl := writeChannelAll_det hrep h₁ h₂
    simp only [hrep, true_or, or_true, implies_true, and_self]
  rcases writeChannelAll_cases h₂ with ⟨rfl, rfl⟩ | ⟨-, -, hrep' | hnl⟩ | ⟨hne, hall, ys, hys, rfl⟩
  · obtain rfl : v = v₁ := Except.ok.inj h₁
    cases v <;> simp
  · exact absurd hrep' hrep
  · cases hnl
  · obtain rfl : [] = ys := Value.list.inj hys
    obtain ⟨bs, hbs, hblen⟩ := serializeEntry_list rt c ([] ++ ws.flatMap Value.elems)
    cases hv : (v.getD (.list [])).isList with
    | false =>
        -- an object that took the lists is none
        obtain ⟨u, rfl, hobject⟩ := writeChannelAll_object hne hall hv h₁
        have hdiff : (some u).map (serializeEntry rt c) ≠
            (some (Value.list ([] ++ ws.flatMap Value.elems))).map (serializeEntry rt c) := by
          rw [Option.map_some, Option.map_some, hbs]
          exact fun heq => serializeEntry_ne_of_isObject rt c hobject bs (Option.some.inj heq)
        refine ⟨iff_of_false hdiff ?_, fun heq => absurd heq hdiff⟩
        rintro (rfl | hr | ⟨rfl, -⟩)
        · cases hv
        · exact hrep hr
        · cases hv
    | true =>
        rcases writeChannelAll_cases h₁ with ⟨rfl, -⟩ | ⟨-, -, hr | hnl⟩ | ⟨-, -, zs, hzs, rfl⟩
        · exact absurd rfl hne
        · exact absurd hr hrep
        · rw [hv] at hnl
          cases hnl
        · -- both are lists: equal exactly when the older part is empty
          have hzero : (some (Value.list (zs ++ ws.flatMap Value.elems))).map
                (serializeEntry rt c) =
              (some (Value.list ([] ++ ws.flatMap Value.elems))).map (serializeEntry rt c) →
                zs = [] := by
            intro heq
            obtain ⟨as, has, halen⟩ := serializeEntry_list rt c (zs ++ ws.flatMap Value.elems)
            rw [Option.map_some, Option.map_some, has, hbs] at heq
            have hlen := congrArg List.length (Value.list.inj (Option.some.inj heq))
            rw [halen, hblen, List.length_append, List.nil_append] at hlen
            exact List.length_eq_zero_iff.mp (by omega)
          have hempty : zs = [] ↔ v = none ∨ (∃ w ∈ ws, w.isList = false) ∨
              (v = some (.list []) ∧ ws ≠ []) := by
            cases v with
            | none => simp only [Option.getD_none, Value.list.injEq] at hzs; simp [← hzs]
            | some u =>
                obtain rfl : u = .list zs := hzs
                simp [hrep, hne]
          refine ⟨⟨fun heq => hempty.mp (hzero heq), fun hcase => ?_⟩, fun heq => ?_⟩
          · rw [hempty.mpr hcase]
          · rw [hzero heq]

/-! ## One checkpoint -/

/-- The writes of tuples given oldest first. -/
def allWrites (tuples : List CheckpointTuple) : List Write := tuples.flatMap fun t => t.pendingWrites

/-- `o` forgets what the tuples `older` than it wrote: each of their writes is to
a channel that `o` replaces, or it is an empty list on a channel that `o`
writes. -/
def absorbs (o : CheckpointTuple) (older : List CheckpointTuple) : Bool :=
  (allWrites older).all fun w =>
    reservedChannel w.channel ||
    (o.pendingWrites.any fun u => u.channel = w.channel && !u.value.isList) ||
    ((w.value.isList && w.value.elems.isEmpty) &&
      o.pendingWrites.any fun u => u.channel = w.channel)

theorem mem_writesTo {c : String} {ws : List Write} {v : Value} :
    v ∈ writesTo c ws ↔ reservedChannel c = false ∧ ∃ w ∈ ws, w.channel = c ∧ w.value = v := by
  unfold writesTo
  split
  · next h => simp [h]
  · next h => simp [h, and_assoc]

theorem isEmptyList_iff (v : Value) :
    (v.isList && v.elems.isEmpty) = true ↔ v = .list [] := by
  rw [Bool.and_eq_true, Value.isList_iff, List.isEmpty_iff]
  constructor
  · rintro ⟨hv, he⟩
    rw [hv, he]
  · rintro rfl
    exact ⟨rfl, rfl⟩

/-- `absorbs` channel by channel. -/
theorem absorbs_iff (o : CheckpointTuple) (older : List CheckpointTuple) :
    absorbs o older = true ↔ ∀ c, writesTo c (allWrites older) = [] ∨
      (∃ w ∈ writesTo c o.pendingWrites, w.isList = false) ∨
      ((∀ v ∈ writesTo c (allWrites older), v = .list []) ∧ writesTo c o.pendingWrites ≠ []) := by
  simp only [absorbs, List.all_eq_true, Bool.or_eq_true, Bool.and_eq_true, List.any_eq_true,
    decide_eq_true_eq, Bool.not_eq_true']
  constructor
  · intro h c
    by_cases hrep : ∃ w ∈ writesTo c o.pendingWrites, w.isList = false
    · exact .inr (.inl hrep)
    cases hws : writesTo c (allWrites older) with
    | nil => exact .inl rfl
    | cons v vs =>
        refine .inr (.inr ?_)
        have hmem : ∀ u ∈ v :: vs, u = .list [] ∧ writesTo c o.pendingWrites ≠ [] := by
          intro u hu
          rw [← hws] at hu
          obtain ⟨hc, w, hw, rfl, rfl⟩ := mem_writesTo.mp hu
          rcases h w hw with (hr | ⟨x, hx, hxc, hxl⟩) | ⟨hempty, x, hx, hxc⟩
          · rw [hc] at hr
            cases hr
          · exact absurd ⟨x.value, mem_writesTo.mpr ⟨hc, x, hx, hxc, rfl⟩, hxl⟩ hrep
          · refine ⟨(isEmptyList_iff w.value).mp ((Bool.and_eq_true _ _).mpr hempty), ?_⟩
            exact List.ne_nil_of_mem (mem_writesTo.mpr ⟨hc, x, hx, hxc, rfl⟩)
        exact ⟨fun u hu => (hmem u hu).1, (hmem v List.mem_cons_self).2⟩
  · intro h w hw
    cases hr : reservedChannel w.channel with
    | true => exact .inl (.inl rfl)
    | false =>
        have hmem : w.value ∈ writesTo w.channel (allWrites older) :=
          mem_writesTo.mpr ⟨hr, w, hw, rfl, rfl⟩
        rcases h w.channel with hnil | ⟨v, hv, hvl⟩ | ⟨hall, hne⟩
        · rw [hnil] at hmem
          cases hmem
        · obtain ⟨-, x, hx, hxc, rfl⟩ := mem_writesTo.mp hv
          exact .inl (.inr ⟨x, hx, hxc, hvl⟩)
        · obtain ⟨v, hv⟩ := List.exists_mem_of_ne_nil _ hne
          obtain ⟨-, x, hx, hxc, -⟩ := mem_writesTo.mp hv
          refine .inr ⟨?_, x, hx, hxc⟩
          exact (Bool.and_eq_true _ _).mp ((isEmptyList_iff _).mpr (hall _ hmem))

/-- Two dicts with the same channels. -/
def SameChannels (d d' : Dict String Value) : Prop := ∀ c, d.get? c = d'.get? c

/-- The oldest common checkpoint, from what the older tuples left and from
nothing: the wire values agree exactly when it absorbs them, and then the dicts
agree too. -/
theorem channels_eq_iff (rt : Runtime) {older : List CheckpointTuple} {o : CheckpointTuple}
    {d d₁ d₂ : Dict String Value} (hd : accumulate rt ∅ (allWrites older) = .ok d)
    (h₁ : accumulate rt d o.pendingWrites = .ok d₁) (h₂ : accumulate rt ∅ o.pendingWrites = .ok d₂) :
    (SameChannels (serializeValues rt d₁) (serializeValues rt d₂) ↔ absorbs o older = true) ∧
    (absorbs o older = true → SameChannels d₁ d₂) := by
  have hch : ∀ c, ((d₁.get? c).map (serializeEntry rt c) = (d₂.get? c).map (serializeEntry rt c) ↔
      writesTo c (allWrites older) = [] ∨ (∃ w ∈ writesTo c o.pendingWrites, w.isList = false) ∨
      ((∀ v ∈ writesTo c (allWrites older), v = .list []) ∧ writesTo c o.pendingWrites ≠ [])) ∧
      ((d₁.get? c).map (serializeEntry rt c) = (d₂.get? c).map (serializeEntry rt c) →
        d₁.get? c = d₂.get? c) := by
    intro c
    have hold := get?_accumulate hd c
    obtain ⟨hiff, hraw⟩ := channel_eq_iff rt c (get?_accumulate h₁ c) (get?_accumulate h₂ c)
    refine ⟨?_, hraw⟩
    rw [hiff, writeChannelAll_none_iff hold, writeChannelAll_empty_iff hold]
    by_cases hnil : writesTo c (allWrites older) = []
    · simp only [hnil, true_or]
    · simp only [hnil, false_or, ne_eq, not_false_eq_true, true_and]
  have hser : SameChannels (serializeValues rt d₁) (serializeValues rt d₂) ↔
      ∀ c, (d₁.get? c).map (serializeEntry rt c) = (d₂.get? c).map (serializeEntry rt c) := by
    simp only [SameChannels, get?_serializeValues]
  constructor
  · rw [hser, absorbs_iff]
    exact forall_congr' fun c => (hch c).1
  · intro habs c
    exact (hch c).2 ((hch c).1.mpr ((absorbs_iff o older).mp habs c))

/-! ## The checkpoints after it -/

variable {rt : Runtime}

theorem accumulate_join {d d₁ d' : Dict String Value} {ws ws' : List Write}
    (h₁ : accumulate rt d ws = .ok d₁) (h : accumulate rt d₁ ws' = .ok d') :
    accumulate rt d (ws ++ ws') = .ok d' := by
  induction ws generalizing d with
  | nil =>
      rw [accumulate, Except.ok.injEq] at h₁
      subst h₁
      exact h
  | cons w ws ih =>
      rw [accumulate] at h₁
      rw [List.cons_append, accumulate]
      split at h₁
      · next d₂ h₂ => exact ih h₁
      · cases h₁

/-- Equal channels stay equal under the same writes. -/
theorem accumulate_congr {d d' d₁ d₂ : Dict String Value} {ws : List Write}
    (hs : SameChannels d d') (h₁ : accumulate rt d ws = .ok d₁) (h₂ : accumulate rt d' ws = .ok d₂) :
    SameChannels d₁ d₂ := by
  intro c
  have hc := (get?_accumulate h₁ c).symm
  rw [hs c, get?_accumulate h₂ c, Except.ok.injEq] at hc
  exact hc

/-- The same checkpoint with the same content. -/
def Entry.Same (e e' : Entry) : Prop :=
  e.checkpointId = e'.checkpointId ∧ e.metadata = e'.metadata ∧ SameChannels e.values e'.values

theorem Entry.Same.serialize (rt : Runtime) {e e' : Entry} (h : e.Same e') :
    (e.serialize rt).Same (e'.serialize rt) := by
  refine ⟨h.1, h.2.1, ?_⟩
  intro c
  show (serializeValues rt e.values).get? c = (serializeValues rt e'.values).get? c
  rw [get?_serializeValues, get?_serializeValues, h.2.2 c]

/-- A reconstruction goes on past a tuple whose writes are accepted and whose values can be
copied. -/
theorem reconstruct_cons_iff {d : Dict String Value} {t : CheckpointTuple}
    {ts : List CheckpointTuple} {es : List Entry} :
    reconstruct rt d (t :: ts) = .ok es ↔ ∃ d' rest, accumulate rt d t.pendingWrites = .ok d' ∧
      (∀ c v, d'.get? c = some v → v.copies rt = true) ∧ reconstruct rt d' ts = .ok rest ∧
      es = { checkpointId := t.checkpointId, values := d', metadata := t.metadata } :: rest := by
  rw [reconstruct]
  constructor
  · intro h
    split at h
    · cases h
    · next d' hd' =>
      split at h
      · cases h
      · next hcopies =>
        split at h
        · cases h
        · next rest hrest =>
          exact ⟨d', rest, hd', copyRaises_ofDict_iff.mp hcopies, hrest, (Except.ok.inj h).symm⟩
  · rintro ⟨d', rest, hd', hcopies, hrest, rfl⟩
    rw [hd']
    dsimp only
    rw [copyRaises_ofDict_iff.mpr hcopies]
    dsimp only
    rw [hrest]

theorem reconstruct_cons {d : Dict String Value} {t : CheckpointTuple}
    {ts : List CheckpointTuple} {es : List Entry} (h : reconstruct rt d (t :: ts) = .ok es) :
    ∃ d' rest, accumulate rt d t.pendingWrites = .ok d' ∧ reconstruct rt d' ts = .ok rest ∧
      es = { checkpointId := t.checkpointId, values := d', metadata := t.metadata } :: rest := by
  obtain ⟨d', rest, hd', -, hrest, hes⟩ := reconstruct_cons_iff.mp h
  exact ⟨d', rest, hd', hrest, hes⟩

/-- One entry a tuple, with its id. -/
theorem reconstruct_ids {d : Dict String Value} {ts : List CheckpointTuple} {es : List Entry}
    (h : reconstruct rt d ts = .ok es) :
    es.map Entry.checkpointId = ts.map CheckpointTuple.checkpointId := by
  induction ts generalizing d es with
  | nil =>
      rw [reconstruct, Except.ok.injEq] at h
      subst h
      rfl
  | cons t ts ih =>
      obtain ⟨d', rest, -, hrest, rfl⟩ := reconstruct_cons h
      rw [List.map_cons, List.map_cons, ih hrest]

theorem reconstruct_append {d : Dict String Value} {ts us : List CheckpointTuple}
    {es : List Entry} (h : reconstruct rt d (ts ++ us) = .ok es) :
    ∃ d' es₁ es₂, accumulate rt d (allWrites ts) = .ok d' ∧ reconstruct rt d ts = .ok es₁ ∧
      reconstruct rt d' us = .ok es₂ ∧ es = es₁ ++ es₂ := by
  induction ts generalizing d es with
  | nil => exact ⟨d, [], es, rfl, rfl, h, rfl⟩
  | cons t ts ih =>
      obtain ⟨d₁, rest, hd₁, hcopies, hrest, rfl⟩ := reconstruct_cons_iff.mp h
      obtain ⟨d', es₁, es₂, hd', hes₁, hes₂, rfl⟩ := ih hrest
      refine ⟨d', { checkpointId := t.checkpointId, values := d₁, metadata := t.metadata } :: es₁,
        es₂, ?_, ?_, hes₂, rfl⟩
      · show accumulate rt d (t.pendingWrites ++ allWrites ts) = .ok d'
        exact accumulate_join hd₁ hd'
      · exact reconstruct_cons_iff.mpr ⟨d₁, es₁, hd₁, hcopies, hes₁, rfl⟩

theorem reconstruct_congr {d d' : Dict String Value} {ts : List CheckpointTuple}
    {es es' : List Entry} (hs : SameChannels d d') (h : reconstruct rt d ts = .ok es)
    (h' : reconstruct rt d' ts = .ok es') : List.Forall₂ Entry.Same es es' := by
  induction ts generalizing d d' es es' with
  | nil =>
      rw [reconstruct, Except.ok.injEq] at h h'
      subst h h'
      exact .nil
  | cons t ts ih =>
      obtain ⟨d₁, rest, hd₁, hrest, rfl⟩ := reconstruct_cons h
      obtain ⟨d₂, rest', hd₂, hrest', rfl⟩ := reconstruct_cons h'
      have hs' := accumulate_congr hs hd₁ hd₂
      exact .cons ⟨rfl, rfl, hs'⟩ (ih hs' hrest hrest')

/-- A window from what the older tuples left and from nothing: the wire entries
are the same exactly when its oldest checkpoint absorbs the older writes. -/
theorem reconstruct_same_iff (rt : Runtime) {older ts : List CheckpointTuple}
    {o : CheckpointTuple} {d : Dict String Value} {es es' : List Entry}
    (hd : accumulate rt ∅ (allWrites older) = .ok d) (h : reconstruct rt d (o :: ts) = .ok es)
    (h' : reconstruct rt ∅ (o :: ts) = .ok es') :
    List.Forall₂ Entry.Same (es.map (Entry.serialize rt)) (es'.map (Entry.serialize rt)) ↔
      absorbs o older = true := by
  obtain ⟨d₁, rest, hd₁, hrest, rfl⟩ := reconstruct_cons h
  obtain ⟨d₂, rest', hd₂, hrest', rfl⟩ := reconstruct_cons h'
  obtain ⟨hiff, hraw⟩ := channels_eq_iff rt hd hd₁ hd₂
  rw [List.map_cons, List.map_cons, List.forall₂_cons]
  constructor
  · intro hsame
    exact hiff.mp hsame.1.2.2
  · intro habs
    refine ⟨⟨rfl, rfl, hiff.mpr habs⟩, ?_⟩
    rw [List.forall₂_map_left_iff, List.forall₂_map_right_iff]
    exact (reconstruct_congr (hraw habs) hrest hrest').imp fun _ _ hs => hs.serialize rt

/-! ## Reads that do not fail -/

/-- What `d'` holds in a channel `d` holds too, or it is a list that can be copied where what
`d` holds can. -/
def Laxer (rt : Runtime) (d d' : Dict String Value) : Prop :=
  ∀ c v', d'.get? c = some v' → ∃ v, d.get? c = some v ∧
    (v' = v ∨ (v'.isList = true ∧ (v.copies rt = true → v'.copies rt = true)))

theorem laxer_empty (rt : Runtime) (d : Dict String Value) : Laxer rt d ∅ :=
  fun _ _ h => by cases h

theorem Laxer.set {d d' : Dict String Value} (h : Laxer rt d d') (c : String) {v v' : Value}
    (hv : v' = v ∨ (v'.isList = true ∧ (v.copies rt = true → v'.copies rt = true))) :
    Laxer rt (d.set c v) (d'.set c v') := by
  intro k u' hu'
  by_cases hck : c = k
  · subst hck
    rw [Dict.get?_set_self] at hu' ⊢
    obtain rfl := Option.some.inj hu'
    exact ⟨v, rfl, hv⟩
  · rw [Dict.get?_set_ne _ _ hck] at hu' ⊢
    exact h k u' hu'

/-- What is copied in `d` is copied in `d'`. -/
theorem Laxer.copies {d d' : Dict String Value} (hl : Laxer rt d d')
    (h : ∀ c v, d.get? c = some v → v.copies rt = true) :
    ∀ c v, d'.get? c = some v → v.copies rt = true := by
  intro c v' hv'
  obtain ⟨v, hv, rfl | ⟨-, hcopies⟩⟩ := hl c v' hv'
  · exact h c _ hv
  · exact hcopies (h c v hv)

/-- A list that `d` takes is taken by `d'`, and what then is there can be copied as before. -/
theorem Laxer.extend {d d' : Dict String Value} (hl : Laxer rt d d') (c : String)
    {xs : List Value} {v : Value} (h : ((d.get? c).getD (.list [])).extend rt xs = .ok v) :
    ∃ v', ((d'.get? c).getD (.list [])).extend rt xs = .ok v' ∧
      (v' = v ∨ (v'.isList = true ∧ (v.copies rt = true → v'.copies rt = true))) := by
  obtain ⟨-, -, -, hparts⟩ := extend_ok h
  cases hd' : d'.get? c with
  | none =>
      refine ⟨.list ([] ++ xs), rfl, .inr ⟨rfl, fun hv => ?_⟩⟩
      exact copies_list_iff.mpr (hparts hv).2
  | some u' =>
      rw [Option.getD_some]
      obtain ⟨u, hu, rfl | ⟨hlist, hcopies⟩⟩ := hl c u' hd'
      · rw [hu, Option.getD_some] at h
        exact ⟨v, h, .inl rfl⟩
      · rw [hu, Option.getD_some] at hparts
        rw [(Value.isList_iff u').mp hlist] at hcopies ⊢
        refine ⟨.list (u'.elems ++ xs), rfl, .inr ⟨rfl, fun hv => ?_⟩⟩
        obtain ⟨hold, hnew⟩ := hparts hv
        rw [copies_list_iff, List.forall_mem_append]
        exact ⟨copies_list_iff.mp (hcopies hold), hnew⟩

theorem Laxer.accumulateWrite {d d' d₁ : Dict String Value} {w : Write} (hl : Laxer rt d d')
    (h : accumulateWrite rt d w = .ok d₁) :
    ∃ d₂, AgentProtocol.accumulateWrite rt d' w = .ok d₂ ∧ Laxer rt d₁ d₂ := by
  unfold AgentProtocol.accumulateWrite at h ⊢
  split at h
  · next hr =>
    rw [Except.ok.injEq] at h
    subst h
    exact ⟨d', by rw [if_pos hr], hl⟩
  · next hr =>
    rw [if_neg hr]
    cases hv : w.value with
    | list xs =>
        rw [hv] at h
        dsimp only at h ⊢
        cases hext : ((d.get? w.channel).getD (.list [])).extend rt xs with
        | error exc =>
            rw [hext] at h
            cases h
        | ok v =>
            rw [hext] at h
            obtain rfl := Except.ok.inj h
            obtain ⟨v', hext', hlax⟩ := hl.extend w.channel hext
            rw [hext']
            exact ⟨_, rfl, hl.set _ hlax⟩
    | _ =>
        rw [hv] at h
        obtain rfl := Except.ok.inj h
        exact ⟨_, rfl, hl.set _ (.inl rfl)⟩

theorem Laxer.accumulate {d d' d₁ : Dict String Value} {ws : List Write} (hl : Laxer rt d d')
    (h : accumulate rt d ws = .ok d₁) :
    ∃ d₂, AgentProtocol.accumulate rt d' ws = .ok d₂ ∧ Laxer rt d₁ d₂ := by
  induction ws generalizing d d' with
  | nil =>
      rw [AgentProtocol.accumulate, Except.ok.injEq] at h
      subst h
      exact ⟨d', rfl, hl⟩
  | cons w ws ih =>
      rw [AgentProtocol.accumulate] at h ⊢
      split at h
      · next d₃ h₃ =>
        obtain ⟨d₄, h₄, hl'⟩ := hl.accumulateWrite h₃
        rw [h₄]
        exact ih hl' h
      · cases h

/-- A window whose reconstruction succeeds after older writes succeeds without
them. -/
theorem Laxer.reconstruct {d d' : Dict String Value} {ts : List CheckpointTuple}
    {es : List Entry} (hl : Laxer rt d d') (h : reconstruct rt d ts = .ok es) :
    ∃ es', AgentProtocol.reconstruct rt d' ts = .ok es' := by
  induction ts generalizing d d' es with
  | nil => exact ⟨[], rfl⟩
  | cons t ts ih =>
      obtain ⟨d₁, rest, hd₁, hcopies, hrest, rfl⟩ := reconstruct_cons_iff.mp h
      obtain ⟨d₂, hd₂, hl'⟩ := hl.accumulate hd₁
      obtain ⟨rest', hrest'⟩ := ih hl' hrest
      exact ⟨_, reconstruct_cons_iff.mpr ⟨d₂, rest', hd₂, hl'.copies hcopies, hrest', rfl⟩⟩

end AgentProtocol

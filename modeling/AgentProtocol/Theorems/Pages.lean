import AgentProtocol.State.Accumulation

/-!
# Pages of the history (`_history`, `read_thread_history`)

Every read starts its accumulation from an empty dict, at the oldest tuple it
fetched. Two windows that share a checkpoint therefore agree on what they share
exactly when the oldest checkpoint of the one that ends first absorbs what the
other one saw before it (`agree_iff_covers`), and a paged read agrees with the
unbounded one exactly when that holds at every page boundary
(`pages_same_iff`).
-/

namespace AgentProtocol

/-- A checkpoint present in both results has the same entry. -/
def Agree (out out' : List Entry) : Prop :=
  ∀ e ∈ out, ∀ e' ∈ out', e.checkpointId = e'.checkpointId → e.Same e'

/-- Window `w` does not hold the oldest checkpoint of `w'`, or that checkpoint
absorbs everything `w` holds before it. -/
def covers (w w' : List CheckpointTuple) : Bool :=
  match w'.getLast? with
  | none => true
  | some o =>
    !(w.any fun t => t.checkpointId = o.checkpointId) ||
      absorbs o (w.filter fun t => t.checkpointId < o.checkpointId)

theorem Entry.Same.symm {e e' : Entry} (h : e.Same e') : e'.Same e :=
  ⟨h.1.symm, h.2.1.symm, fun c => (h.2.2 c).symm⟩

theorem agree_comm (out out' : List Entry) : Agree out out' ↔ Agree out' out := by
  constructor
  · intro h e he e' he' hid
    exact (h e' he' e he hid.symm).symm
  · intro h e he e' he' hid
    exact (h e' he' e he hid.symm).symm

theorem absorbs_reverse (o : CheckpointTuple) (older : List CheckpointTuple) :
    absorbs o older.reverse = absorbs o older := by
  rw [Bool.eq_iff_iff]
  simp only [absorbs, allWrites, List.all_eq_true, List.mem_flatMap, List.mem_reverse]

/-- Lists of entries of the same checkpoints agree when they agree one by one. -/
theorem agree_iff_forall₂ {es es' : List Entry}
    (hids : es.map Entry.checkpointId = es'.map Entry.checkpointId)
    (hnd : (es.map Entry.checkpointId).Nodup) :
    Agree es es' ↔ List.Forall₂ Entry.Same es es' := by
  induction es generalizing es' with
  | nil =>
      cases es' with
      | nil => exact ⟨fun _ => .nil, fun _ e he => absurd he List.not_mem_nil⟩
      | cons e' es' => cases hids
  | cons e es ih =>
      cases es' with
      | nil => cases hids
      | cons e' es' =>
          rw [List.map_cons, List.map_cons, List.cons.injEq] at hids
          rw [List.map_cons, List.nodup_cons] at hnd
          rw [List.forall₂_cons, ← ih hids.2 hnd.2]
          constructor
          · intro h
            refine ⟨h e List.mem_cons_self e' List.mem_cons_self hids.1, ?_⟩
            intro x hx x' hx' hid
            exact h x (List.mem_cons_of_mem _ hx) x' (List.mem_cons_of_mem _ hx') hid
          · rintro ⟨hhead, htail⟩ x hx x' hx' hid
            rcases List.mem_cons.mp hx with rfl | hx
            · rcases List.mem_cons.mp hx' with rfl | hx'
              · exact hhead
              · -- the id of the head does not come again in the tail
                have hmem : x'.checkpointId ∈ es.map Entry.checkpointId := by
                  rw [hids.2]
                  exact List.mem_map_of_mem hx'
                exact absurd (hid ▸ hmem) hnd.1
            · rcases List.mem_cons.mp hx' with rfl | hx'
              · have hmem : x.checkpointId ∈ es.map Entry.checkpointId := List.mem_map_of_mem hx
                rw [hid, ← hids.1] at hmem
                exact absurd hmem hnd.1
              · exact htail x hx x' hx' hid

/-- The three parts of a result, for a window given in three parts newest first. -/
theorem readWindow_split (rt : Runtime) {newer shared older : List CheckpointTuple}
    {out : List Entry} (h : readWindow rt (newer ++ shared ++ older) = .ok out) :
    ∃ d es front back, accumulate rt ∅ (allWrites older.reverse) = .ok d ∧
      reconstruct rt d shared.reverse = .ok es ∧
      out = front ++ (es.map (Entry.serialize rt)).reverse ++ back ∧
      front.map Entry.checkpointId = newer.map CheckpointTuple.checkpointId ∧
      back.map Entry.checkpointId = older.map CheckpointTuple.checkpointId := by
  have hser : ∀ es : List Entry,
      (es.map (Entry.serialize rt)).map Entry.checkpointId = es.map Entry.checkpointId := by
    intro es
    rw [List.map_map]
    rfl
  unfold readWindow at h
  split at h
  · next es hes =>
    rw [Except.ok.injEq] at h
    rw [List.reverse_append, List.reverse_append] at hes
    obtain ⟨d, es₁, es₂₃, hd, hes₁, hes₂₃, rfl⟩ := reconstruct_append hes
    obtain ⟨d', es₂, es₃, -, hes₂, hes₃, rfl⟩ := reconstruct_append hes₂₃
    refine ⟨d, es₂, (es₃.map (Entry.serialize rt)).reverse,
      (es₁.map (Entry.serialize rt)).reverse, hd, hes₂, ?_, ?_, ?_⟩
    · rw [← h]
      simp only [List.reverse_append, List.map_append, List.map_reverse, List.append_assoc]
    · rw [List.map_reverse, hser, reconstruct_ids hes₃, List.map_reverse, List.reverse_reverse]
    · rw [List.map_reverse, hser, reconstruct_ids hes₁, List.map_reverse, List.reverse_reverse]
  · cases h

section Windows

variable {ts : List CheckpointTuple}
  (hd : ts.Pairwise fun t u => u.checkpointId < t.checkpointId)

include hd in
theorem nodup_ids : (ts.map CheckpointTuple.checkpointId).Nodup := by
  refine List.Pairwise.map _ ?_ hd
  intro t u hlt heq
  rw [heq] at hlt
  exact lt_irrefl _ hlt

include hd in
/-- Two overlapping windows, the second of which ends first, at `o`: the entries
they share are the same exactly when `o` absorbs what only the first one saw. -/
theorem agree_iff_absorbs (rt : Runtime) {i i' b j : Nat} {o : CheckpointTuple}
    {out out' : List Entry} (hlt : max i i' < b) (hbj : b ≤ j) (hj : j ≤ ts.length)
    (ho : ts[b - 1]? = some o) (h : readWindow rt (segment ts i j) = .ok out)
    (h' : readWindow rt (segment ts i' b) = .ok out') :
    Agree out out' ↔ absorbs o (segment ts b j) = true := by
  obtain ⟨a, ha⟩ : ∃ a, a = max i i' := ⟨_, rfl⟩
  have hia : i ≤ a := by omega
  have hia' : i' ≤ a := by omega
  rw [segment_split hia (by omega) hbj] at h
  rw [segment_split hia' (by omega) (Nat.le_refl b)] at h'
  obtain ⟨d, es, front, back, hacc, hes, rfl, hfront, hback⟩ := readWindow_split rt h
  obtain ⟨d', es', front', back', hacc', hes', rfl, hfront', hback'⟩ := readWindow_split rt h'
  -- the second window has nothing older than the shared part
  rw [segment_of_le (Nat.le_refl b)] at hacc' hback'
  obtain rfl : ∅ = d' := Except.ok.inj hacc'
  obtain rfl : back' = [] := List.map_eq_nil_iff.mp hback'
  obtain ⟨rest, hrest⟩ : ∃ rest, (segment ts a b).reverse = o :: rest := by
    have hlast : (segment ts a b).getLast? = ts[b - 1]? :=
      getLast?_segment (by omega) (by omega)
    rw [ho] at hlast
    obtain ⟨init, hinit⟩ := List.getLast?_eq_some_iff.mp hlast
    exact ⟨init.reverse, by rw [hinit, List.reverse_append]; rfl⟩
  have hids : ∀ {d : Dict String Value} {es : List Entry},
      reconstruct rt d (segment ts a b).reverse = .ok es →
      ((es.map (Entry.serialize rt)).reverse).map Entry.checkpointId =
        segment (ts.map CheckpointTuple.checkpointId) a b := by
    intro d es hes
    rw [List.map_reverse, List.map_map, ← map_segment]
    show (es.map Entry.checkpointId).reverse = _
    rw [reconstruct_ids hes, List.map_reverse, List.reverse_reverse]
  rw [hrest] at hes hes'
  rw [← absorbs_reverse, ← reconstruct_same_iff rt hacc hes hes', ← List.forall₂_reverse_iff]
  rw [← hrest] at hes hes'
  have hnd := nodup_ids hd
  rw [← agree_iff_forall₂ ((hids hes).trans (hids hes').symm)
    (by rw [hids hes]; exact hnd.sublist (by
      unfold segment
      exact (List.take_sublist _ _).trans (List.drop_sublist _ _)))]
  -- an id of both results is an id of the shared part
  have hsep : ∀ e ∈ front ++ (es.map (Entry.serialize rt)).reverse ++ back,
      ∀ e' ∈ front' ++ (es'.map (Entry.serialize rt)).reverse ++ [],
      e.checkpointId = e'.checkpointId →
        e ∈ (es.map (Entry.serialize rt)).reverse ∧
          e' ∈ (es'.map (Entry.serialize rt)).reverse := by
    intro e he e' he' hid
    have hin : ∀ {x : Entry} {l : List Entry} {p q : Nat},
        l.map Entry.checkpointId = segment (ts.map CheckpointTuple.checkpointId) p q → x ∈ l →
        x.checkpointId ∈ segment (ts.map CheckpointTuple.checkpointId) p q := by
      intro x l p q hl hx
      rw [← hl]
      exact List.mem_map_of_mem hx
    have hf := hfront.trans (map_segment _ ts i a)
    have hb := hback.trans (map_segment _ ts b j)
    have hf' := hfront'.trans (map_segment _ ts i' a)
    rw [List.append_nil] at he'
    have hmem' : e'.checkpointId ∈ segment (ts.map CheckpointTuple.checkpointId) i' b := by
      rw [← segment_append hia' (by omega : a ≤ b)]
      rcases List.mem_append.mp he' with hx | hx
      · exact List.mem_append_left _ (hin hf' hx)
      · exact List.mem_append_right _ (hin (hids hes') hx)
    have hmem : e.checkpointId ∈ segment (ts.map CheckpointTuple.checkpointId) i j := by
      rw [segment_split hia (by omega : a ≤ b) hbj]
      rcases List.mem_append.mp he with hx | hx
      · rcases List.mem_append.mp hx with hx | hx
        · exact List.mem_append_left _ (List.mem_append_left _ (hin hf hx))
        · exact List.mem_append_left _ (List.mem_append_right _ (hin (hids hes) hx))
      · exact List.mem_append_right _ (hin hb hx)
    obtain ⟨n, hlo, hhi, hn⟩ := mem_segment_overlap hnd hmem (hid ▸ hmem')
    have hcommon : e.checkpointId ∈ segment (ts.map CheckpointTuple.checkpointId) a b :=
      mem_segment_iff.mpr ⟨n, by omega, by omega, hn⟩
    constructor
    · rcases List.mem_append.mp he with hx | hx
      · rcases List.mem_append.mp hx with hx | hx
        · exact absurd hcommon (not_mem_segment hnd (Nat.le_refl a) (hin hf hx))
        · exact hx
      · exact absurd (hin hb hx) (not_mem_segment hnd (Nat.le_refl b) hcommon)
    · rcases List.mem_append.mp he' with hx | hx
      · exact absurd (hid ▸ hcommon) (not_mem_segment hnd (Nat.le_refl a) (hin hf' hx))
      · exact hx
  constructor
  · intro hag e he e' he' hid
    exact hag e (List.mem_append_left _ (List.mem_append_right _ he)) e'
      (List.mem_append_left _ (List.mem_append_right _ he')) hid
  · intro hag e he e' he' hid
    obtain ⟨hx, hx'⟩ := hsep e he e' he' hid
    exact hag e hx e' hx' hid

include hd in
/-- A window that holds the oldest checkpoint of the other one. -/
theorem covers_of_shared {i i' j j' : Nat} {o : CheckpointTuple} (hi' : i' < j') (hij : i < j')
    (hjj : j' ≤ j) (hj : j ≤ ts.length) (ho : ts[j' - 1]? = some o) :
    covers (segment ts i j) (segment ts i' j') = absorbs o (segment ts j' j) := by
  have hmem : o ∈ segment ts i j := mem_segment_iff.mpr ⟨j' - 1, by omega, by omega, ho⟩
  have hany : ((segment ts i j).any fun t => t.checkpointId = o.checkpointId) = true :=
    List.any_eq_true.mpr ⟨o, hmem, decide_eq_true rfl⟩
  have hfilter := filter_lt_segment hd ho (i := i) (j := j) (by omega) (by omega)
  rw [show j' - 1 + 1 = j' by omega] at hfilter
  unfold covers
  rw [getLast?_segment hi' (by omega), ho]
  simp only [hany, hfilter, Bool.not_true, Bool.false_or]

include hd in
/-- A window that does not. -/
theorem covers_of_apart {i i' j j' : Nat} (hj' : j' ≤ ts.length)
    (h : j' ≤ i' ∨ j' ≤ i ∨ j < j') : covers (segment ts i j) (segment ts i' j') = true := by
  rcases Nat.lt_or_ge i' j' with hlt | hge
  · have hlen : j' - 1 < ts.length := by omega
    have hget := List.getElem?_eq_getElem hlen
    have hany : ((segment ts i j).any fun t => t.checkpointId = ts[j' - 1].checkpointId) = false := by
      rw [List.any_eq_false]
      intro t ht heq
      obtain ⟨n, hin, hnj, hn⟩ := mem_segment_iff.mp ht
      have heq := of_decide_eq_true heq
      rcases Nat.lt_trichotomy n (j' - 1) with hlt' | rfl | hgt
      · have := key_lt_of_descending hd hlt' hn hget
        rw [heq] at this
        exact lt_irrefl _ this
      · omega
      · have := key_lt_of_descending hd hgt hget hn
        rw [heq] at this
        exact lt_irrefl _ this
    unfold covers
    rw [getLast?_segment hlt hj', hget]
    simp only [hany, Bool.not_false, Bool.true_or]
  · rw [segment_of_le hge]
    rfl

theorem readWindow_ids (rt : Runtime) {tuples : List CheckpointTuple} {out : List Entry}
    (h : readWindow rt tuples = .ok out) :
    out.map Entry.checkpointId = tuples.map CheckpointTuple.checkpointId := by
  have h : readWindow rt (tuples ++ [] ++ []) = .ok out := by
    rwa [List.append_nil, List.append_nil]
  obtain ⟨d, es, front, back, -, hes, rfl, hfront, hback⟩ := readWindow_split rt h
  rw [List.reverse_nil, reconstruct, Except.ok.injEq] at hes
  subst hes
  obtain rfl : back = [] := List.map_eq_nil_iff.mp hback
  simpa using hfront

include hd in
/-- Two windows agree exactly when each covers the other. -/
theorem agree_iff_covers (rt : Runtime) {i i' j j' : Nat} {out out' : List Entry}
    (hj : j ≤ ts.length) (hj' : j' ≤ ts.length)
    (h : readWindow rt (segment ts i j) = .ok out)
    (h' : readWindow rt (segment ts i' j') = .ok out') :
    Agree out out' ↔ covers (segment ts i j) (segment ts i' j') = true ∧
      covers (segment ts i' j') (segment ts i j) = true := by
  rcases Nat.lt_or_ge (max i i') (min j j') with hlt | hge
  · -- they overlap: the one that ends first is covered by the other
    have hside : ∀ {p q p' q' : Nat} {os os' : List Entry}, q ≤ ts.length → q' ≤ q →
        max p p' < q' → readWindow rt (segment ts p q) = .ok os →
        readWindow rt (segment ts p' q') = .ok os' →
        (Agree os os' ↔ covers (segment ts p q) (segment ts p' q') = true ∧
          covers (segment ts p' q') (segment ts p q) = true) := by
      intro p q p' q' os os' hq hle hov hos hos'
      have hget := List.getElem?_eq_getElem (show q' - 1 < ts.length by omega)
      have hback : covers (segment ts p' q') (segment ts p q) = true := by
        rcases Nat.lt_or_ge q' q with hlt | hge
        · exact covers_of_apart hd hq (.inr (.inr hlt))
        · obtain rfl : q = q' := by omega
          rw [covers_of_shared hd (by omega) (by omega) (Nat.le_refl q) hq hget,
            segment_of_le (Nat.le_refl q)]
          rfl
      rw [agree_iff_absorbs hd rt hov hle hq hget hos hos',
        covers_of_shared hd (by omega) (by omega) hle hq hget]
      simp only [hback, and_true]
    rcases Nat.le_total j' j with hle | hle
    · exact hside hj hle (by omega) h h'
    · rw [agree_comm, and_comm]
      exact hside hj' hle (by omega) h' h
  · -- they do not
    have hfirst : covers (segment ts i j) (segment ts i' j') = true :=
      covers_of_apart hd hj' (by omega)
    have hsecond : covers (segment ts i' j') (segment ts i j) = true :=
      covers_of_apart hd hj (by omega)
    simp only [hfirst, hsecond, and_self, iff_true]
    intro e he e' he' hid
    have hmem : e.checkpointId ∈ segment (ts.map CheckpointTuple.checkpointId) i j := by
      rw [← map_segment, ← readWindow_ids rt h]
      exact List.mem_map_of_mem he
    have hmem' : e'.checkpointId ∈ segment (ts.map CheckpointTuple.checkpointId) i' j' := by
      rw [← map_segment, ← readWindow_ids rt h']
      exact List.mem_map_of_mem he'
    obtain ⟨n, hlo, hhi, -⟩ := mem_segment_overlap (nodup_ids hd) hmem (hid ▸ hmem')
    omega

end Windows

/-- What the saver lists is a segment of what it stores. -/
theorem Saver.alist_eq_segment (saver : Saver) (before : Option String) (limit : Nat) :
    ∃ i j, j ≤ saver.tuples.length ∧ saver.alist before limit = segment saver.tuples i j := by
  have htake : ∀ i, i ≤ saver.tuples.length → ∃ j, j ≤ saver.tuples.length ∧
      (saver.tuples.drop i).take limit = segment saver.tuples i j := by
    intro i hi
    refine ⟨min (i + limit) saver.tuples.length, Nat.min_le_right _ _, ?_⟩
    show _ = (saver.tuples.drop i).take (min (i + limit) saver.tuples.length - i)
    rcases Nat.le_total (i + limit) saver.tuples.length with hle | hle
    · rw [Nat.min_eq_left hle, Nat.add_sub_cancel_left]
    · rw [Nat.min_eq_right hle, List.take_of_length_le (by rw [List.length_drop]; omega),
        List.take_of_length_le (by rw [List.length_drop])]
  unfold Saver.alist
  cases before with
  | none =>
      obtain ⟨j, hj, heq⟩ := htake 0 (Nat.zero_le _)
      exact ⟨0, j, hj, by simpa using heq⟩
  | some id =>
      obtain ⟨i, hi, hdrop⟩ := exists_filter_lt_eq_drop saver.sorted id
      obtain ⟨j, hj, heq⟩ := htake i hi
      exact ⟨i, j, hj, by rw [← heq, ← hdrop]⟩

/-! ## Reading page after page -/

/-- A client that reads page after page, each from the last id of the one before,
until a page is empty. -/
def readPages (rt : Runtime) (saver : Saver) (limit : Nat) :
    Nat → Option String → Except PyExc (List (List Entry))
  | 0, _ => .ok []
  | n + 1, before =>
    match readThreadHistory rt (some saver) limit before with
    | .error exc => .error exc
    | .ok page =>
      match page.getLast? with
      | none => .ok []
      | some e =>
        match readPages rt saver limit n (some e.checkpointId) with
        | .error exc => .error exc
        | .ok rest => .ok (page :: rest)

/-- Every checkpoint that ends a page absorbs all that is older. -/
def BoundariesAbsorb (tuples : List CheckpointTuple) (limit : Nat) (p : Nat) : Prop :=
  ∀ i o, tuples[p + (i + 1) * limit - 1]? = some o →
    absorbs o (tuples.drop (p + (i + 1) * limit)) = true

/-- The cursor of the page that starts at position `p`. -/
def CursorAt (saver : Saver) (p : Nat) (before : Option String) : Prop :=
  (p = 0 ∧ before = none) ∨
    ∃ t, 0 < p ∧ saver.tuples[p - 1]? = some t ∧ before = some t.checkpointId

theorem alist_of_cursorAt {saver : Saver} {p : Nat} {before : Option String} (limit : Nat)
    (hp : p ≤ saver.tuples.length) (h : CursorAt saver p before) :
    saver.alist (cursor before) limit =
      segment saver.tuples p (min (p + limit) saver.tuples.length) := by
  have htake : (saver.tuples.drop p).take limit =
      segment saver.tuples p (min (p + limit) saver.tuples.length) := by
    show _ = (saver.tuples.drop p).take (min (p + limit) saver.tuples.length - p)
    rcases Nat.le_total (p + limit) saver.tuples.length with hle | hle
    · rw [Nat.min_eq_left hle, Nat.add_sub_cancel_left]
    · rw [Nat.min_eq_right hle, List.take_of_length_le (by rw [List.length_drop]; omega),
        List.take_of_length_le (by rw [List.length_drop])]
  rw [← htake]
  rcases h with ⟨rfl, rfl⟩ | ⟨t, hpos, ht, rfl⟩
  · show (saver.tuples.filter fun _ => true).take limit = _
    rw [List.filter_true, List.drop_zero]
  · have hname : t.checkpointId ≠ "" := saver.named t (List.mem_of_getElem? ht)
    have hcur : cursor (some t.checkpointId) = some t.checkpointId := by
      simp only [cursor, Option.filter_some, bne_iff_ne, ne_eq, hname, not_false_eq_true, if_true]
    rw [hcur]
    show (saver.tuples.filter fun u => u.checkpointId < t.checkpointId).take limit = _
    have hfilter := filter_lt_segment saver.sorted ht (i := 0) (j := saver.tuples.length)
      (Nat.zero_le _) (by omega)
    rw [segment_all, show p - 1 + 1 = p by omega, segment_drop] at hfilter
    rw [hfilter]

/-- Two windows one after the other against the same two stretches of a longer
list. -/
theorem forall₂_append_iff {R : Entry → Entry → Prop} {as bs cs ds : List Entry}
    (hlen : as.length = cs.length) :
    List.Forall₂ R (as ++ bs) (cs ++ ds) ↔ List.Forall₂ R as cs ∧ List.Forall₂ R bs ds := by
  induction as generalizing cs with
  | nil =>
      obtain rfl : cs = [] := List.length_eq_zero_iff.mp hlen.symm
      simp
  | cons a as ih =>
      cases cs with
      | nil => cases hlen
      | cons c cs =>
          rw [List.cons_append, List.cons_append, List.forall₂_cons, List.forall₂_cons,
            ih (Nat.succ.inj hlen), and_assoc]

theorem readWindow_of_reconstruct (rt : Runtime) {tuples : List CheckpointTuple}
    {es : List Entry} (h : reconstruct rt ∅ tuples.reverse = .ok es) :
    readWindow rt tuples = .ok (es.map (Entry.serialize rt)).reverse := by
  unfold readWindow
  rw [h]
  show Except.ok (List.map (Entry.serialize rt) es.reverse) = _
  rw [List.map_reverse]

/-- One page against the stretch of the unbounded read it covers. -/
theorem page_same_iff (rt : Runtime) {ts : List CheckpointTuple} {full : List Entry} {p q : Nat}
    {o : CheckpointTuple} (hfull : readWindow rt ts = .ok full) (hpq : p < q)
    (hq : q ≤ ts.length) (ho : ts[q - 1]? = some o) :
    ∃ page, readWindow rt (segment ts p q) = .ok page ∧ page.length = q - p ∧
      (List.Forall₂ Entry.Same ((full.drop p).take (q - p)) page ↔
        absorbs o (ts.drop q) = true) := by
  have hsplit : ts = segment ts 0 p ++ segment ts p q ++ segment ts q ts.length := by
    rw [← segment_split (Nat.zero_le p) (Nat.le_of_lt hpq) hq, segment_all]
  have hlenpq : (segment ts p q).length = q - p := by
    show ((ts.drop p).take (q - p)).length = q - p
    rw [List.length_take, List.length_drop]
    omega
  rw [hsplit] at hfull
  obtain ⟨d, es, front, back, hacc, hes, rfl, hfront, -⟩ := readWindow_split rt hfull
  obtain ⟨es', hes'⟩ := (laxer_empty rt d).reconstruct hes
  have hlen : ∀ {d : Dict String Value} {es : List Entry},
      reconstruct rt d (segment ts p q).reverse = .ok es →
      ((es.map (Entry.serialize rt)).reverse).length = q - p := by
    intro d es hes
    have := congrArg List.length (reconstruct_ids hes)
    rw [List.length_map, List.length_map, List.length_reverse, hlenpq] at this
    rw [List.length_reverse, List.length_map, this]
  have hfrontlen : front.length = p := by
    have := congrArg List.length hfront
    rw [List.length_map, List.length_map] at this
    rw [this]
    show ((ts.drop 0).take (p - 0)).length = p
    rw [List.drop_zero, Nat.sub_zero, List.length_take]
    omega
  refine ⟨(es'.map (Entry.serialize rt)).reverse, readWindow_of_reconstruct rt hes', hlen hes', ?_⟩
  rw [List.append_assoc, List.drop_append_of_le_length (by omega),
    List.drop_eq_nil_of_le (by omega), List.nil_append,
    List.take_append_of_le_length (by rw [hlen hes]), List.take_of_length_le (by rw [hlen hes])]
  obtain ⟨rest, hrest⟩ : ∃ rest, (segment ts p q).reverse = o :: rest := by
    have hlast : (segment ts p q).getLast? = ts[q - 1]? := getLast?_segment hpq hq
    rw [ho] at hlast
    obtain ⟨init, hinit⟩ := List.getLast?_eq_some_iff.mp hlast
    exact ⟨init.reverse, by rw [hinit, List.reverse_append]; rfl⟩
  rw [hrest] at hes hes'
  rw [List.forall₂_reverse_iff, reconstruct_same_iff rt hacc hes hes', absorbs_reverse,
    segment_drop]

/-- The boundary condition splits off the first boundary. -/
theorem boundariesAbsorb_succ {ts : List CheckpointTuple} {limit p : Nat} {o : CheckpointTuple}
    (ho : ts[p + limit - 1]? = some o) :
    BoundariesAbsorb ts limit p ↔
      absorbs o (ts.drop (p + limit)) = true ∧ BoundariesAbsorb ts limit (p + limit) := by
  have hshift : ∀ i, p + limit + (i + 1) * limit = p + (i + 1 + 1) * limit := by
    intro i
    rw [Nat.add_mul (i + 1) 1 limit]
    omega
  constructor
  · intro h
    refine ⟨?_, ?_⟩
    · have := h 0 o
      rw [Nat.zero_add, Nat.one_mul] at this
      exact this ho
    · intro i o' ho'
      rw [hshift] at ho' ⊢
      exact h (i + 1) o' ho'
  · rintro ⟨hfirst, hrest⟩ i o' ho'
    cases i with
    | zero =>
        rw [Nat.zero_add, Nat.one_mul] at ho' ⊢
        obtain rfl := Option.some.inj (ho.symm.trans ho')
        exact hfirst
    | succ i =>
        rw [← hshift] at ho' ⊢
        exact hrest i o' ho'

theorem boundariesAbsorb_of_ge {ts : List CheckpointTuple} {limit p : Nat} (hlimit : 1 ≤ limit)
    (h : ts.length ≤ p) : BoundariesAbsorb ts limit p := by
  intro i o ho
  have hle : 1 * limit ≤ (i + 1) * limit := Nat.mul_le_mul_right limit (by omega)
  have := (List.getElem?_eq_some_iff.mp ho).1
  omega

/-- Reading the pages from position `p` on succeeds where the unbounded read does,
and gives the same entries exactly when every page boundary absorbs what is
older. -/
theorem pages_same_iff (rt : Runtime) (saver : Saver) {limit : Nat} (hlimit : 1 ≤ limit)
    {full : List Entry} (hfull : readWindow rt saver.tuples = .ok full) :
    ∀ n p before, p ≤ saver.tuples.length → saver.tuples.length - p < n →
      CursorAt saver p before →
      ∃ pages, readPages rt saver limit n before = .ok pages ∧
        (List.Forall₂ Entry.Same (full.drop p) pages.flatten ↔
          BoundariesAbsorb saver.tuples limit p) := by
  have hflen : full.length = saver.tuples.length := by
    have := congrArg List.length (readWindow_ids rt hfull)
    rwa [List.length_map, List.length_map] at this
  intro n
  induction n with
  | zero =>
      intro p before hp hn
      omega
  | succ n ih =>
      intro p before hp hn hcur
      obtain ⟨q, hq⟩ : ∃ q, q = min (p + limit) saver.tuples.length := ⟨_, rfl⟩
      have hlist : readThreadHistory rt (some saver) limit before =
          readWindow rt (segment saver.tuples p q) := by
        rw [hq, ← alist_of_cursorAt limit hp hcur]
        rfl
      rcases Nat.lt_or_ge p saver.tuples.length with hlt | hge
      · -- a page from `p` to `q`, then the pages from `q` on
        obtain ⟨o, ho⟩ : ∃ o, saver.tuples[q - 1]? = some o :=
          ⟨_, List.getElem?_eq_getElem (by omega)⟩
        obtain ⟨page, hpage, hplen, hsame⟩ :=
          page_same_iff rt hfull (by omega : p < q) (by omega) ho
        have hlast : page.getLast?.map Entry.checkpointId = some o.checkpointId := by
          rw [← List.getLast?_map, readWindow_ids rt hpage, List.getLast?_map,
            getLast?_segment (by omega) (by omega), ho]
          rfl
        obtain ⟨e, he, heid⟩ := Option.map_eq_some_iff.mp hlast
        obtain ⟨rest, hrest, hrsame⟩ := ih q (some e.checkpointId) (by omega) (by omega)
          (.inr ⟨o, by omega, ho, by rw [heid]⟩)
        refine ⟨page :: rest, ?_, ?_⟩
        · rw [readPages, hlist, hpage]
          simp only [he, hrest]
        · have hdrop : full.drop p = (full.drop p).take (q - p) ++ full.drop q := by
            have := (List.take_append_drop (q - p) (full.drop p)).symm
            rwa [List.drop_drop, show p + (q - p) = q by omega] at this
          rw [hdrop, List.flatten_cons, forall₂_append_iff ?_, hsame, hrsame]
          · rcases Nat.lt_or_ge saver.tuples.length (p + limit) with hover | hin
            · -- the page runs to the end of the history
              have hend : saver.tuples.drop q = [] := List.drop_eq_nil_of_le (by omega)
              have hnone : BoundariesAbsorb saver.tuples limit p := by
                intro i o' ho'
                have hle : 1 * limit ≤ (i + 1) * limit := Nat.mul_le_mul_right limit (by omega)
                have := (List.getElem?_eq_some_iff.mp ho').1
                omega
              have hq' : BoundariesAbsorb saver.tuples limit q :=
                boundariesAbsorb_of_ge hlimit (by omega)
              rw [hend]
              simp only [hnone, hq', and_true, iff_true]
              rfl
            · obtain rfl : q = p + limit := by omega
              exact (boundariesAbsorb_succ ho).symm
          · rw [hplen, List.length_take, List.length_drop]
            omega
      · -- nothing is left: the page is empty
        refine ⟨[], ?_, ?_⟩
        · rw [readPages, hlist, segment_of_le (by omega)]
          rfl
        · rw [List.drop_eq_nil_of_le (by omega)]
          simp only [List.flatten_nil, List.Forall₂.nil, true_iff]
          exact boundariesAbsorb_of_ge hlimit hge

/-! ## The two readings of one history -/

/-- Two reads of one thread agree on every checkpoint present in both exactly when
each window covers the other; and where the unbounded read succeeds, reading page
after page terminates and gives the same entries exactly when the checkpoint at
the end of every page absorbs all that is older. -/
theorem history_pages_agree_iff (rt : Runtime) (saver : Saver) :
    (∀ limit limit' before before' out out', 1 ≤ limit → 1 ≤ limit' →
      readThreadHistory rt (some saver) limit before = .ok out →
      readThreadHistory rt (some saver) limit' before' = .ok out' →
      (Agree out out' ↔
        covers (saver.alist (cursor before) limit) (saver.alist (cursor before') limit') = true ∧
        covers (saver.alist (cursor before') limit') (saver.alist (cursor before) limit) = true)) ∧
    (∀ limit limit' full, 1 ≤ limit → saver.tuples.length ≤ limit' →
      readThreadHistory rt (some saver) limit' none = .ok full →
      ∀ n, saver.tuples.length < n →
        ∃ pages, readPages rt saver limit n none = .ok pages ∧
          (List.Forall₂ Entry.Same full pages.flatten ↔
            BoundariesAbsorb saver.tuples limit 0)) := by
  constructor
  · intro limit limit' before before' out out' _ _ h h'
    obtain ⟨i, j, hj, hw⟩ := saver.alist_eq_segment (cursor before) limit
    obtain ⟨i', j', hj', hw'⟩ := saver.alist_eq_segment (cursor before') limit'
    have h : readWindow rt (saver.alist (cursor before) limit) = .ok out := h
    have h' : readWindow rt (saver.alist (cursor before') limit') = .ok out' := h'
    rw [hw] at h
    rw [hw'] at h'
    rw [hw, hw']
    exact agree_iff_covers saver.sorted rt hj hj' h h'
  · intro limit limit' full hlimit hall h n hn
    have hwhole : readWindow rt saver.tuples = .ok full := by
      have h : readWindow rt (saver.alist (cursor none) limit') = .ok full := h
      rwa [alist_of_cursorAt limit' (Nat.zero_le _) (.inl ⟨rfl, rfl⟩),
        show min (0 + limit') saver.tuples.length = saver.tuples.length by omega,
        segment_all] at h
    exact pages_same_iff rt saver hlimit hwhole n 0 none (Nat.zero_le _) (by omega)
      (.inl ⟨rfl, rfl⟩)

/-- Two checkpoints that each write one list to the channel `log`. -/
def logSaver : Saver where
  tuples :=
    [{ checkpointId := "2", pendingWrites := [⟨"t2", "log", .list [.str "b"]⟩], metadata := none },
     { checkpointId := "1", pendingWrites := [⟨"t1", "log", .list [.str "a"]⟩], metadata := none }]
  sorted := List.pairwise_pair.mpr (by decide)
  named := by decide

/-- Read with limit 1 the newer checkpoint holds one line, read with limit 2 two. -/
theorem page_drops_older_writes :
    ¬∀ (rt : Runtime) (saver : Saver) limit limit' before before' out out', 1 ≤ limit →
      1 ≤ limit' → readThreadHistory rt (some saver) limit before = .ok out →
      readThreadHistory rt (some saver) limit' before' = .ok out' → Agree out out' := by
  intro hall
  have hag := hall .inert logSaver 1 2 none none _ _ (by omega) (by omega) rfl rfl
  have hsame := hag _ List.mem_cons_self _ List.mem_cons_self rfl
  have hlog := hsame.2.2 "log"
  have hlists : Value.list [.str "b"] = Value.list [.str "a", .str "b"] := Option.some.inj hlog
  have hlen := congrArg (fun v => v.elems.length) hlists
  exact absurd hlen (by decide)

/-- Two checkpoints that each replace the channel `step`. -/
def stepSaver : Saver where
  tuples :=
    [{ checkpointId := "2", pendingWrites := [⟨"t2", "step", .int 2⟩], metadata := none },
     { checkpointId := "1", pendingWrites := [⟨"t1", "step", .int 1⟩], metadata := none }]
  sorted := List.pairwise_pair.mpr (by decide)
  named := by decide

theorem history_pages_agree_steps :
    (∃ out out', readThreadHistory .inert (some stepSaver) 1 none = .ok out ∧
      readThreadHistory .inert (some stepSaver) 2 none = .ok out' ∧ Agree out out') ∧
    ∃ full pages, readThreadHistory .inert (some stepSaver) 2 none = .ok full ∧
      readPages .inert stepSaver 1 3 none = .ok pages ∧
      List.Forall₂ Entry.Same full pages.flatten := by
  obtain ⟨htwo, hpages⟩ := history_pages_agree_iff .inert stepSaver
  constructor
  · refine ⟨_, _, rfl, rfl, (htwo 1 2 none none _ _ (by omega) (by omega) rfl rfl).mpr ?_⟩
    decide
  · obtain ⟨pages, hread, hsame⟩ := hpages 1 2 _ (by omega) (Nat.le_refl 2) rfl 3 (by decide)
    refine ⟨_, pages, rfl, hread, hsame.mpr ?_⟩
    intro i o ho
    match i with
    | 0 =>
        obtain rfl := Option.some.inj ho
        decide
    | 1 =>
        obtain rfl := Option.some.inj ho
        decide
    | i + 2 =>
        have hlen : 0 + (i + 2 + 1) * 1 - 1 < 2 := (List.getElem?_eq_some_iff.mp ho).1
        omega

end AgentProtocol

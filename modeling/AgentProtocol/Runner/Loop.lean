import AgentProtocol.Lib.Queue
import AgentProtocol.Runner.Ended

/-!
# The invariant of the event loop

The done-callback of a run is ahead of everything that lets a waiter for this run go on: of
the callback of its shield, since `start` adds it first, and of the step after `sleep(0)`, if the
run had ended before the call. `LoopInv` says so of each waiter, and with it that each task
that lingers has its done-callback on the queue, once.
-/

namespace AgentProtocol

/-! ## The queue and the waiters -/

/-- A step of this waiter is behind it. -/
def Handle.Moves (x : Handle) (id : Nat) : Prop := x = .settle id ∨ x = .wake id

theorem Handle.Moves.ne_clear {x : Handle} {id : Nat} (h : x.Moves id) (r : String) :
    .clear r ≠ x := by
  rcases h with rfl | rfl <;> exact fun heq => by cases heq

theorem Handle.Moves.ne {x y : Handle} {id id' : Nat} (hx : x.Moves id) (hy : y.Moves id')
    (h : id ≠ id') : x ≠ y := by
  rintro rfl
  rcases hx with rfl | rfl <;> rcases hy with hy | hy <;> cases hy <;> exact h rfl

namespace EventLoop

/-- The run has not ended, and this waiter is still to hear of its end. -/
def Pending (l : EventLoop) (r t : String) (id : Nat) : Prop :=
  (∃ task, l.world.tasks.get? r = some task ∧ task.threadId = t ∧ task.phase.isDone = false) ∧
    .settle id ∉ l.ready

/-- The run has ended, and its done-callback is ahead of this handle, if it has not run. -/
def Follows (l : EventLoop) (r t : String) (x : Handle) : Prop :=
  x ∈ l.ready ∧ ∃ task, l.world.tasks.get? r = some task ∧ task.threadId = t ∧
    task.phase.isDone = true ∧ (task.cleared = false → Ahead (.clear r) x l.ready)

/-- What holds of a waiter, by where it is. -/
def Waits (l : EventLoop) (id : Nat) (waiter : Waiter) : Prop :=
  match waiter.phase with
  | .shield r false => waiter.cancelling = false ∧ .wake id ∉ l.ready ∧
      (l.Pending r waiter.threadId id ∨ l.Follows r waiter.threadId (.settle id))
  | .shield r true => .wake id ∈ l.ready ∧
      (waiter.cancelling = false → l.world.Swept r waiter.threadId)
  | .sleep r => l.Follows r waiter.threadId (.wake id)
  | .returned (some r) => waiter.cancelling = false ∧ l.world.Swept r waiter.threadId
  | .returned none => waiter.cancelling = false
  | .raised => waiter.cancelling = true

structure LoopInv (l : EventLoop) : Prop where
  cleared : l.world.ClearedDone
  clears : ∀ r, l.ready.count (.clear r) = if l.world.lingers r then 1 else 0
  known : ∀ id, l.waiters.get? id = none → ∀ x : Handle, x.Moves id → x ∉ l.ready
  waits : ∀ id waiter, l.waiters.get? id = some waiter → l.Waits id waiter

variable {rt : Runtime} {n : Nat} {l l' : EventLoop} {r t : String} {id : Nat} {x : Handle}
  {waiter : Waiter}

/-- The turn of a handle that follows the done-callback. -/
theorem Follows.served {ready : List Handle} (h : l.Follows r t x) (hready : l.ready = x :: ready)
    (hx : ∀ r, .clear r ≠ x) : l.world.Swept r t := by
  obtain ⟨-, task, hg, ht, hdone, hahead⟩ := h
  refine ⟨task, hg, ht, hdone, ?_⟩
  rw [← Bool.not_eq_false]
  intro hc
  have h := hahead hc
  rw [hready] at h
  exact hx r h.head.symm

/-- A waiter that does not move itself. -/
theorem Waits.mono (h : l.Waits id waiter)
    (hswept : ∀ r t, l.world.Swept r t → l'.world.Swept r t)
    (hfollows : ∀ r t, l.Follows r t (.wake id) → l'.Follows r t (.wake id))
    (hwake : .wake id ∈ l.ready ↔ .wake id ∈ l'.ready)
    (hshield : ∀ r, waiter.phase = .shield r false →
      l.Pending r waiter.threadId id ∨ l.Follows r waiter.threadId (.settle id) →
      l'.Pending r waiter.threadId id ∨ l'.Follows r waiter.threadId (.settle id)) :
    l'.Waits id waiter := by
  unfold Waits at h ⊢
  cases hphase : waiter.phase with
  | shield r settled =>
      cases settled with
      | false =>
          simp only [hphase] at h ⊢
          exact ⟨h.1, mt hwake.mpr h.2.1, hshield r hphase h.2.2⟩
      | true =>
          simp only [hphase] at h ⊢
          exact ⟨hwake.mp h.1, fun hc => hswept _ _ (h.2 hc)⟩
  | sleep r =>
      simp only [hphase] at h ⊢
      exact hfollows _ _ h
  | returned run =>
      cases run with
      | none =>
          simp only [hphase] at h ⊢
          exact h
      | some r =>
          simp only [hphase] at h ⊢
          exact ⟨h.1, hswept _ _ h.2⟩
  | raised =>
      simp only [hphase] at h ⊢
      exact h

/-! ## A step of the process -/

theorem step_world {act : Act} (h : l.step rt (.world act) = some l') :
    (∀ id, act ≠ .callback id) ∧ ∃ w, l.world.step rt act = some w ∧
      l' = { l with world := w, ready := l.ready ++ l.callbacks (w.ended act) } := by
  have hnot : ∀ id, act ≠ .callback id := by
    rintro id rfl
    cases h
  refine ⟨hnot, ?_⟩
  have hmap : (l.world.step rt act).map (fun world => { l with
      world, ready := l.ready ++ l.callbacks (world.ended act) }) = some l' := by
    cases act with
    | callback id => exact absurd rfl (hnot id)
    | _ => exact h
  obtain ⟨w, hstep, heq⟩ := Option.map_eq_some_iff.mp hmap
  exact ⟨w, hstep, heq.symm⟩

theorem mem_shielding : id ∈ l.shielding r ↔
    ∃ waiter, l.waiters.get? id = some waiter ∧ waiter.phase = .shield r false := by
  unfold shielding
  rw [List.mem_map]
  constructor
  · rintro ⟨⟨id', waiter⟩, hmem, rfl⟩
    obtain ⟨hmem, hphase⟩ := List.mem_filter.mp hmem
    refine ⟨waiter, (Dict.mem_entries_iff _ _ _).mp hmem, ?_⟩
    simp only at hphase
    split at hphase
    · next r' hphase' => rw [hphase', beq_iff_eq.mp hphase]
    · cases hphase
  · rintro ⟨waiter, hg, hphase⟩
    refine ⟨(id, waiter), List.mem_filter.mpr ⟨(Dict.mem_entries_iff _ _ _).mpr hg, ?_⟩, rfl⟩
    simp [hphase]

theorem count_callbacks (l : EventLoop) (run : Option String) (r : String) :
    (l.callbacks run).count (.clear r) = if run = some r then 1 else 0 := by
  have hsettles : ∀ ids : List Nat, (ids.map Handle.settle).count (.clear r) = 0 := by
    intro ids
    rw [List.count_eq_zero]
    intro hin
    obtain ⟨id, -, heq⟩ := List.mem_map.mp hin
    cases heq
  cases run with
  | none => rfl
  | some r' =>
      rw [callbacks, List.count_cons, hsettles]
      by_cases hr : r' = r <;> simp [hr]

theorem mem_callbacks {run : Option String} (hx : x.Moves id) (h : x ∈ l.callbacks run) :
    x = .settle id ∧ ∃ r waiter, run = some r ∧ l.waiters.get? id = some waiter ∧
      waiter.phase = .shield r false := by
  cases run with
  | none => cases h
  | some r =>
      rcases List.mem_cons.mp h with heq | h
      · exact absurd heq.symm (hx.ne_clear r)
      · obtain ⟨id', hid, rfl⟩ := List.mem_map.mp h
        rcases hx with heq | heq
        · obtain rfl := Handle.settle.inj heq
          obtain ⟨waiter, hg, hphase⟩ := mem_shielding.mp hid
          exact ⟨rfl, r, waiter, rfl, hg, hphase⟩
        · cases heq

theorem LoopInv.world (hI : l.LoopInv) (hS : l.world.SlotInv) {act : Act} {w : World}
    (hstep : l.world.step rt act = some w) (ha : ∀ id, act ≠ .callback id) :
    ({ l with world := w, ready := l.ready ++ l.callbacks (w.ended act) } : EventLoop).LoopInv where
  cleared := hI.cleared.step hS hstep
  clears r := by
    obtain ⟨hnew, hold⟩ := World.lingers_of_step hS hI.cleared hstep ha r
    show (l.ready ++ l.callbacks (w.ended act)).count (.clear r) = if w.lingers r then 1 else 0
    rw [List.count_append, hI.clears r, count_callbacks, hnew]
    by_cases hend : w.ended act = some r
    · simp [hend, hold hend]
    · simp [hend]
  known id hid x hx hin := by
    rcases List.mem_append.mp hin with hin | hin
    · exact hI.known id hid x hx hin
    · obtain ⟨-, r, waiter, -, hg, -⟩ := mem_callbacks hx hin
      rw [hid] at hg
      cases hg
  waits id waiter hg := by
    have hfollows : ∀ r t x, l.Follows r t x → ({ l with
        world := w, ready := l.ready ++ l.callbacks (w.ended act) } : EventLoop).Follows r t x := by
      rintro r t x ⟨hin, task, htask, ht, hdone, hahead⟩
      obtain ⟨task', htask', hgoes⟩ := World.goes_of_step hS hstep ha htask
      refine ⟨List.mem_append_left _ hin, task', htask', hgoes.thread.trans ht,
        (hgoes.done hdone).1, fun hc => ?_⟩
      exact (hahead (hgoes.cleared.symm.trans hc)).append _
    refine (hI.waits id waiter hg).mono (fun r t hsw => hsw.step hS hstep)
      (fun r t => hfollows r t _) ?_ ?_
    · refine ⟨List.mem_append_left _, fun hin => (List.mem_append.mp hin).resolve_right ?_⟩
      exact fun hin => by cases (mem_callbacks (.inr rfl) hin).1
    · rintro r hphase (⟨⟨task, htask, ht, hnd⟩, hnot⟩ | hf)
      swap
      · exact .inr (hfollows _ _ _ hf)
      obtain ⟨task', htask', hgoes⟩ := World.goes_of_step hS hstep ha htask
      have hended := hgoes.ended hnd
      cases hdone : task'.phase.isDone with
      | true =>
          -- the callbacks of this run are put on the queue
          have hcallbacks : l.callbacks (w.ended act) =
              .clear r :: (l.shielding r).map .settle := by rw [hended.mp hdone]; rfl
          refine .inr ⟨?_, task', htask', hgoes.thread.trans ht, hdone, fun _ => ?_⟩
          · refine List.mem_append_right _ ?_
            rw [hcallbacks]
            exact List.mem_cons_of_mem _
              (List.mem_map_of_mem (mem_shielding.mpr ⟨waiter, hg, hphase⟩))
          · exact ⟨l.ready, _, by rw [hcallbacks], hnot⟩
      | false =>
          refine .inl ⟨⟨task', htask', hgoes.thread.trans ht, hdone⟩, fun hin => ?_⟩
          rcases List.mem_append.mp hin with hin | hin
          · exact hnot hin
          · obtain ⟨-, r', waiter', hend, hg', hphase'⟩ := mem_callbacks (.inl rfl) hin
            obtain rfl := Option.some.inj (hg.symm.trans hg')
            obtain ⟨rfl, -⟩ := WaitPhase.shield.inj (hphase.symm.trans hphase')
            rw [hended.mpr hend] at hdone
            cases hdone

/-! ## A step of the loop -/

/-- The done-callback of a run. -/
theorem LoopInv.clear (hI : l.LoopInv) {ready : List Handle} (hready : l.ready = .clear r :: ready)
    {w : World} (hS : l.world.SlotInv) (hcall : l.world.callback r = some w) :
    ({ l with world := w, ready } : EventLoop).LoopInv := by
  have hstep : l.world.step .inert (.callback r) = some w := hcall
  obtain ⟨task₀, hg₀, hdone₀, hcleared₀, htasks⟩ := World.callback_inv hcall
  -- the handles of the waiters are still there
  have hmem : ∀ {id : Nat} {x : Handle}, x.Moves id → (x ∈ l.ready ↔ x ∈ ready) := by
    intro id x hx
    rw [hready, List.mem_cons]
    exact or_iff_right (hx.ne_clear r).symm
  constructor
  · exact hI.cleared.step hS hstep
  · intro r'
    have hcount := hI.clears r'
    rw [hready, List.count_cons] at hcount
    show ready.count (.clear r') = if w.lingers r' then 1 else 0
    by_cases hr : r = r'
    · subst hr
      have hold : l.world.lingers r = true := by simp [World.lingers, hg₀, hdone₀, hcleared₀]
      have hnew : w.lingers r = false := by simp [World.lingers, htasks]
      simp only [hold, beq_self_eq_true, if_true] at hcount
      simp only [hnew, Bool.false_eq_true, if_false]
      omega
    · have hnew : w.lingers r' = l.world.lingers r' := by
        simp only [World.lingers, htasks, Dict.get?_set_ne _ _ hr]
      have hne : (Handle.clear r == .clear r') = false := by simp [hr]
      rw [hne] at hcount
      rw [hnew]
      exact hcount
  · exact fun id hid x hx hin => hI.known id hid x hx ((hmem hx).mpr hin)
  · intro id waiter hg
    have hfollows : ∀ r' t x, x.Moves id → l.Follows r' t x →
        ({ l with world := w, ready } : EventLoop).Follows r' t x := by
      rintro r' t x hx ⟨hin, task, htask, ht, hdone, hahead⟩
      refine ⟨(hmem hx).mp hin, ?_⟩
      by_cases hr : r = r'
      · subst hr
        obtain rfl := Option.some.inj (hg₀.symm.trans htask)
        exact ⟨{ task₀ with cleared := true }, by rw [htasks, Dict.get?_set_self], ht, hdone,
          fun hc => by cases hc⟩
      · refine ⟨task, by rw [htasks, Dict.get?_set_ne _ _ hr, htask], ht, hdone, fun hc => ?_⟩
        have hahead' := hahead hc
        rw [hready] at hahead'
        exact (hahead'.tail fun heq => hr (Handle.clear.inj heq)).2
    refine (hI.waits id waiter hg).mono (fun r t hsw => hsw.step hS hstep)
      (fun r t => hfollows r t _ (.inr rfl)) (hmem (.inr rfl)) ?_
    rintro r' - (⟨⟨task, htask, ht, hnd⟩, hnot⟩ | hf)
    · have hr : r ≠ r' := by
        rintro rfl
        obtain rfl := Option.some.inj (hg₀.symm.trans htask)
        rw [hdone₀] at hnd
        cases hnd
      exact .inl ⟨⟨task, by rw [htasks, Dict.get?_set_ne _ _ hr, htask], ht, hnd⟩,
        mt (hmem (.inl rfl)).mpr hnot⟩
    · exact .inr (hfollows _ _ _ (.inl rfl) hf)

/-- A waiter moves: its handle is served, if it has one, and its next step is put on the queue. -/
theorem LoopInv.move (hI : l.LoopInv) {ready : List Handle} (handles : List Handle)
    (hworld : l'.world = l.world) (hready : l'.ready = ready ++ handles)
    (hserved : l.ready = ready ∨ ∃ x : Handle, x.Moves id ∧ l.ready = x :: ready)
    (hhandles : ∀ x ∈ handles, x = .wake id)
    (hother : ∀ id', id ≠ id' → l'.waiters.get? id' = l.waiters.get? id')
    (hknown : l'.waiters.get? id = none → l.waiters.get? id = none ∧ handles = [])
    (hmine : ∀ waiter, l'.waiters.get? id = some waiter → l'.Waits id waiter) : l'.LoopInv := by
  -- the handles of the others stay where they are
  have hmem : ∀ {id' : Nat} {x : Handle}, x.Moves id' → id ≠ id' →
      (x ∈ l.ready ↔ x ∈ l'.ready) := by
    intro id' x hx hne
    have hnew : x ∉ handles := fun hin => (Handle.Moves.ne (.inr rfl) hx hne) (hhandles x hin).symm
    rw [hready, List.mem_append, or_iff_left hnew]
    rcases hserved with heq | ⟨y, hy, heq⟩
    · rw [heq]
    · rw [heq, List.mem_cons, or_iff_right (hy.ne hx hne).symm]
  have hahead : ∀ {r : String} {x : Handle}, Ahead (.clear r) x l.ready →
      Ahead (.clear r) x l'.ready := by
    intro r x h
    rw [hready]
    rcases hserved with heq | ⟨y, hy, heq⟩
    · exact (heq ▸ h).append _
    · exact ((heq ▸ h).tail (hy.ne_clear r).symm).2.append _
  constructor
  · rw [hworld]
    exact hI.cleared
  · intro r
    have hcount : l'.ready.count (.clear r) = l.ready.count (.clear r) := by
      have hnone : handles.count (.clear r) = 0 := by
        rw [List.count_eq_zero]
        exact fun hin => by cases hhandles _ hin
      rw [hready, List.count_append, hnone]
      rcases hserved with heq | ⟨y, hy, heq⟩
      · rw [heq, Nat.add_zero]
      · rw [heq, List.count_cons_of_ne (hy.ne_clear r).symm, Nat.add_zero]
    rw [hcount, hworld]
    exact hI.clears r
  · intro id' hid' x hx
    by_cases hne : id = id'
    · subst hne
      obtain ⟨hnone, hnil⟩ := hknown hid'
      have hout := hI.known id hnone x hx
      rw [hready, hnil, List.append_nil]
      rcases hserved with heq | ⟨y, -, heq⟩
      · rwa [heq] at hout
      · rw [heq] at hout
        exact fun hin => hout (List.mem_cons_of_mem _ hin)
    · rw [← hmem hx hne]
      exact hI.known id' (hother id' hne ▸ hid') x hx
  · intro id' waiter hg
    by_cases hne : id = id'
    · subst hne
      exact hmine waiter hg
    · rw [hother id' hne] at hg
      have hfollows : ∀ r t x, x.Moves id' → l.Follows r t x → l'.Follows r t x := by
        rintro r t x hx ⟨hin, task, htask, ht, hdone, hcl⟩
        exact ⟨(hmem hx hne).mp hin, task, hworld ▸ htask, ht, hdone, fun hc => hahead (hcl hc)⟩
      refine (hI.waits id' waiter hg).mono (fun r t hsw => hworld ▸ hsw)
        (fun r t => hfollows r t _ (.inr rfl)) (hmem (.inr rfl) hne) ?_
      rintro r - (⟨hrun, hnot⟩ | hf)
      · exact .inl ⟨hworld ▸ hrun, mt (hmem (.inl rfl) hne).mpr hnot⟩
      · exact .inr (hfollows _ _ _ (.inl rfl) hf)

/-- A waiter that is written. -/
theorem LoopInv.put (hI : l.LoopInv) {ready handles : List Handle} {waiter : Waiter}
    (hserved : l.ready = ready ∨ ∃ x : Handle, x.Moves id ∧ l.ready = x :: ready)
    (hhandles : ∀ x ∈ handles, x = .wake id)
    (hmine : (({ l with ready } : EventLoop).put id waiter handles).Waits id waiter) :
    (({ l with ready } : EventLoop).put id waiter handles).LoopInv := by
  refine hI.move handles rfl rfl hserved hhandles (fun id' hne => Dict.get?_set_ne _ _ hne) ?_ ?_
  · intro hnone
    have hself : (l.waiters.set id waiter).get? id = none := hnone
    rw [Dict.get?_set_self] at hself
    cases hself
  · intro waiter' hg
    have hself : (l.waiters.set id waiter).get? id = some waiter' := hg
    rw [Dict.get?_set_self] at hself
    obtain rfl := Option.some.inj hself
    exact hmine

/-- The future of a shield is settled by the end of the run. -/
theorem LoopInv.settle (hI : l.LoopInv) {ready : List Handle}
    (hready : l.ready = .settle id :: ready) :
    (({ l with ready } : EventLoop).settle id).LoopInv := by
  have hserved : l.ready = ready ∨ ∃ x : Handle, x.Moves id ∧ l.ready = x :: ready :=
    .inr ⟨_, .inl rfl, hready⟩
  unfold EventLoop.settle
  split
  · next t r cancelling hg =>
    have hw := hI.waits id _ hg
    refine hI.put hserved (fun x hx => List.mem_singleton.mp hx) ⟨?_, fun _ => ?_⟩
    · exact List.mem_append_right _ (List.mem_singleton_self _)
    · rcases hw.2.2 with hp | hf
      · exact absurd (hready ▸ List.mem_cons_self) hp.2
      · exact hf.served hready fun r heq => by cases heq
  · next hnot =>
    refine hI.move [] rfl (List.append_nil _).symm hserved (fun x hx => by cases hx)
      (fun _ _ => rfl) (fun hnone => ⟨hnone, rfl⟩) ?_
    intro waiter hg
    have hwake : .wake id ∈ l.ready ↔ .wake id ∈ ready := by
      rw [hready, List.mem_cons]
      exact or_iff_right fun heq => by cases heq
    refine (hI.waits id waiter hg).mono (fun _ _ hsw => hsw) ?_ hwake ?_
    · rintro r t ⟨hin, task, htask, ht, hdone, hahead⟩
      refine ⟨hwake.mp hin, task, htask, ht, hdone, fun hc => ?_⟩
      have hahead' := hahead hc
      rw [hready] at hahead'
      exact (hahead'.tail fun heq => by cases heq).2
    · intro r hphase
      obtain ⟨t, phase, cancelling⟩ := waiter
      obtain rfl : phase = .shield r false := hphase
      exact absurd hg (hnot t r cancelling)

/-- The next step of a waiter. -/
theorem LoopInv.wake (hI : l.LoopInv) {ready : List Handle}
    (hready : l.ready = .wake id :: ready) :
    (({ l with ready } : EventLoop).wake id).LoopInv := by
  have hserved : l.ready = ready ∨ ∃ x : Handle, x.Moves id ∧ l.ready = x :: ready :=
    .inr ⟨_, .inr rfl, hready⟩
  unfold EventLoop.wake
  split
  · next t r settled cancelling hg =>
    have hw := hI.waits id _ hg
    cases settled with
    | false => exact absurd (hready ▸ List.mem_cons_self) hw.2.1
    | true =>
        split
        · next hc => exact hI.put hserved (fun x hx => by cases hx) hc
        · next hc =>
          -- the future of the shield was settled behind the done-callback
          obtain ⟨task, htask, ht, hdone, hcleared⟩ := hw.2 (Bool.eq_false_iff.mpr hc)
          refine hI.put hserved (fun x hx => List.mem_singleton.mp hx)
            ⟨?_, task, htask, ht, hdone, ?_⟩
          · exact List.mem_append_right _ (List.mem_singleton_self _)
          · intro hun
            rw [hcleared] at hun
            cases hun
  · next t r cancelling hg =>
    have hw := hI.waits id _ hg
    have hswept := Follows.served hw hready fun r heq => by cases heq
    refine hI.put hserved (fun x hx => by cases hx) ?_
    cases cancelling with
    | true => rfl
    | false => exact ⟨rfl, hswept⟩
  · next hshield hsleep =>
    refine hI.move [] rfl (List.append_nil _).symm hserved (fun x hx => by cases hx)
      (fun _ _ => rfl) (fun hnone => ⟨hnone, rfl⟩) ?_
    rintro ⟨t, phase, cancelling⟩ hg
    have hw := hI.waits id _ hg
    cases phase with
    | shield r settled => exact absurd hg (hshield t r settled cancelling)
    | sleep r => exact absurd hg (hsleep t r cancelling)
    | returned run => cases run <;> exact hw
    | raised => exact hw

/-- The task the slot of a thread points to. -/
theorem task_of_slot (hS : l.world.SlotInv) {a : ActiveRun} (ha : l.world.active.get? t = some a)
    (hr : a.task = some r) : ∃ task, l.world.tasks.get? r = some task ∧ task.threadId = t :=
  ((hS.slot t a ha).real r hr).2

/-- A call of `wait`. -/
theorem LoopInv.wait (hI : l.LoopInv) (hS : l.world.SlotInv)
    (h : l.step rt (.wait id t) = some l') : l'.LoopInv := by
  simp only [step] at h
  split at h
  · cases h
  · next hfresh =>
    have hnone : l.waiters.get? id = none := by
      cases hg : l.waiters.get? id with
      | none => rfl
      | some waiter => simp [Dict.contains, hg] at hfresh
    have hout : ∀ x : Handle, x.Moves id → x ∉ l.ready := hI.known id hnone
    -- the run `wait` has found
    have hfound : ∀ {r : String}, (l.world.active.get? t).bind ActiveRun.task = some r →
        ∀ task, l.world.tasks.get? r = some task → task.threadId = t := by
      intro r hbind task htask
      obtain ⟨a, ha, hr⟩ := Option.bind_eq_some_iff.mp hbind
      obtain ⟨task', htask', ht⟩ := task_of_slot hS ha hr
      obtain rfl := Option.some.inj (htask.symm.trans htask')
      exact ht
    unfold World.waitPhase at h
    split at h
    · next r hphase =>
      obtain rfl := Option.some.inj h
      split at hphase
      · cases hphase
      · next r' hbind =>
        split at hphase
        swap
        · cases hphase
        next task htask =>
        split at hphase
        swap
        · cases hphase
        next hdone =>
        obtain rfl := WaitPhase.sleep.inj hphase
        refine hI.put (.inl rfl) (fun x hx => List.mem_singleton.mp hx)
          ⟨?_, task, htask, ?_, hdone, ?_⟩
        · exact List.mem_append_right _ (List.mem_singleton_self _)
        · exact hfound hbind task htask
        · intro hc
          -- its done-callback is on the queue already
          have hcount := hI.clears r'
          have hun : l.world.lingers r' = true := by simp [World.lingers, htask, hdone, hc]
          rw [hun, if_pos rfl] at hcount
          have hin : Handle.clear r' ∈ l.ready := List.count_pos_iff.mp (by omega)
          exact (ahead_of_not_mem hin (hout _ (.inr rfl))).append _
    · next hnot =>
      obtain rfl := Option.some.inj h
      refine hI.put (.inl rfl) (fun x hx => by cases hx) ?_
      split
      · rfl
      · next r hbind =>
        split
        swap
        · rfl
        next task htask =>
        split
        · next hdone =>
          have := hnot r
          simp [hbind, htask, hdone] at this
        · next hdone =>
          refine ⟨rfl, ?_, .inl ⟨⟨task, htask, hfound hbind task htask, ?_⟩, ?_⟩⟩
          · show _ ∉ l.ready ++ []
            rw [List.append_nil]
            exact hout _ (.inr rfl)
          · exact Bool.eq_false_iff.mpr hdone
          · show _ ∉ l.ready ++ []
            rw [List.append_nil]
            exact hout _ (.inl rfl)

/-- `cancel()` on the task of a waiter. -/
theorem LoopInv.cancelWaiter (hI : l.LoopInv) (h : l.step rt (.cancelWaiter id) = some l') :
    l'.LoopInv := by
  simp only [step] at h
  split at h
  · obtain rfl := Option.some.inj h
    refine hI.put (.inl rfl) (fun x hx => List.mem_singleton.mp hx) ⟨?_, fun hc => by cases hc⟩
    exact List.mem_append_right _ (List.mem_singleton_self _)
  · next t r c hg =>
    have hw := hI.waits id _ hg
    obtain rfl := Option.some.inj h
    refine hI.put (.inl rfl) (fun x hx => by cases hx) ⟨?_, fun hc => by cases hc⟩
    exact List.mem_append_left _ hw.1
  · next t r c hg =>
    obtain ⟨hin, task, htask, ht, hdone, hahead⟩ := hI.waits id _ hg
    obtain rfl := Option.some.inj h
    refine hI.put (.inl rfl) (fun x hx => by cases hx) ⟨?_, task, htask, ht, hdone, fun hc => ?_⟩
    · exact List.mem_append_left _ hin
    · exact (hahead hc).append _
  · cases h

theorem LoopInv.init (n : Nat) :
    ({ world := .new n, ready := [], waiters := ∅ } : EventLoop).LoopInv where
  cleared _ _ h := by cases h
  clears _ := rfl
  known _ _ _ _ h := by cases h
  waits _ _ h := by cases h

theorem LoopInv.step (hI : l.LoopInv) (hS : l.world.SlotInv) {a : LoopAct}
    (h : l.step rt a = some l') : l'.LoopInv := by
  cases a with
  | world act =>
      obtain ⟨hnot, w, hstep, rfl⟩ := step_world h
      exact hI.world hS hstep hnot
  | tick =>
      simp only [EventLoop.step] at h
      split at h
      · cases h
      · next handle ready hready =>
        cases handle with
        | clear r =>
            obtain ⟨w, hcall, rfl⟩ := Option.map_eq_some_iff.mp h
            exact hI.clear hready hS hcall
        | settle id =>
            obtain rfl := Option.some.inj h
            exact hI.settle hready
        | wake id =>
            obtain rfl := Option.some.inj h
            exact hI.wake hready
  | wait id t => exact hI.wait hS h
  | cancelWaiter id => exact hI.cancelWaiter h

/-! ## Runs of the loop -/

@[simp] theorem put_world (l : EventLoop) (id : Nat) (waiter : Waiter) (handles : List Handle) :
    (l.put id waiter handles).world = l.world := rfl

@[simp] theorem settle_world (l : EventLoop) (id : Nat) : (l.settle id).world = l.world := by
  unfold settle
  split <;> rfl

@[simp] theorem wake_world (l : EventLoop) (id : Nat) : (l.wake id).world = l.world := by
  unfold wake
  split
  · split <;> rfl
  · rfl
  · rfl

/-- A step of the loop is one of the process, or none. -/
theorem world_of_step {a : LoopAct} (h : l.step rt a = some l') :
    l'.world = l.world ∨ ∃ act, l.world.step rt act = some l'.world := by
  cases a with
  | world act =>
      obtain ⟨-, w, hstep, rfl⟩ := step_world h
      exact .inr ⟨act, hstep⟩
  | tick =>
      simp only [step] at h
      split at h
      · cases h
      · next handle ready hready =>
        cases handle with
        | clear r =>
            obtain ⟨w, hcall, rfl⟩ := Option.map_eq_some_iff.mp h
            exact .inr ⟨.callback r, hcall⟩
        | settle id =>
            obtain rfl := Option.some.inj h
            exact .inl (settle_world _ id)
        | wake id =>
            obtain rfl := Option.some.inj h
            exact .inl (wake_world _ id)
  | wait id t =>
      simp only [step] at h
      split at h
      · cases h
      · split at h <;> · obtain rfl := Option.some.inj h; exact .inl rfl
  | cancelWaiter id =>
      simp only [step] at h
      split at h
      · obtain rfl := Option.some.inj h; exact .inl rfl
      · obtain rfl := Option.some.inj h; exact .inl rfl
      · obtain rfl := Option.some.inj h; exact .inl rfl
      · cases h

/-- The process under the loop is one of the model. -/
theorem world_reachable (hl : (loopSys rt n).Reachable l) : (runSys rt n).Reachable l.world := by
  refine hl.induct (P := fun l => (runSys rt n).Reachable l.world) ?_ ?_
  · rintro l ⟨hworld, -, -⟩
    exact .of_init hworld
  · intro l a l' _ ih _ hstep
    rcases world_of_step hstep with heq | ⟨act, hact⟩
    · rw [heq]
      exact ih
    · exact ih.tail trivial hact

theorem loopInv_of_reachable (hl : (loopSys rt n).Reachable l) : l.LoopInv := by
  refine hl.induct (P := LoopInv) ?_ ?_
  · rintro ⟨world, ready, waiters⟩ ⟨rfl, rfl, rfl⟩
    exact .init n
  · intro l a l' hl ih _ hstep
    exact ih.step (World.slotInv_of_reachable (world_reachable hl)) hstep

end EventLoop

end AgentProtocol

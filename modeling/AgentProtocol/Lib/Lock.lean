import AgentProtocol.Lib.TSys
import Mathlib.Logic.Function.Basic

/-!
# An object behind a lock

Any number of callers use one object. A call waits for the lock, makes small steps on the
object while it has it, and gives it back with its answer. The process can die at any moment;
then the calls are gone, and the next process has what `recover` makes of the object.

Where the small steps of a call come to one step of a sequential object, and are durable from
some point on (`Guarded.Atomic`), the calls behave as if each were made alone: in the order
of the log, with the answers of the sequential object (`linear_of_reachable`). A call that died
after it was durable is in the log, without an answer.
-/

namespace AgentProtocol

variable {ι σ ο μ ρ : Type*}

/-- The calls of an object in small steps. -/
structure Guarded (σ ο μ ρ : Type*) where
  enter : ο → μ
  /-- a step inside the lock: go on, or return -/
  micro : μ → σ → (μ ⊕ ρ) × σ
  /-- what was done up to here survives -/
  durable : μ → Bool
  recover : σ → σ

/-- Where a caller is. -/
inductive Caller (ο μ : Type*) where
  | idle
  | waiting (op : ο)
  | inside (op : ο) (m : μ)

structure Shared (ι σ ο μ ρ : Type*) where
  obj : σ
  lock : Option ι
  callers : ι → Caller ο μ
  /-- the calls that took effect, with their answers -/
  log : List (ο × Option ρ)

inductive LockAct (ι ο : Type*) where
  | invoke (i : ι) (op : ο)
  | acquire (i : ι)
  | micro (i : ι)
  | crash

namespace Guarded

variable (G : Guarded σ ο μ ρ)

/-- The call in the lock survives, if it has come far enough. -/
def survivor : Caller ο μ → List (ο × Option ρ)
  | .inside op m => if G.durable m then [(op, none)] else []
  | _ => []

/-- The calls that take effect if the process dies now. -/
def effective (s : Shared ι σ ο μ ρ) : List (ο × Option ρ) :=
  match s.lock with
  | none => s.log
  | some i => s.log ++ G.survivor (s.callers i)

variable [DecidableEq ι]

def step (s : Shared ι σ ο μ ρ) : LockAct ι ο → Option (Shared ι σ ο μ ρ)
  | .invoke i op =>
    match s.callers i with
    | .idle => some { s with callers := Function.update s.callers i (.waiting op) }
    | _ => none
  | .acquire i =>
    match s.lock, s.callers i with
    | none, .waiting op =>
      some { s with lock := some i
                    callers := Function.update s.callers i (.inside op (G.enter op)) }
    | _, _ => none
  | .micro i =>
    match s.callers i with
    | .inside op m =>
      match G.micro m s.obj with
      | (.inl m, obj) =>
        some { s with obj, callers := Function.update s.callers i (.inside op m) }
      | (.inr r, obj) =>
        some { s with obj, lock := none, callers := Function.update s.callers i .idle
                      log := s.log ++ [(op, some r)] }
    | _ => none
  | .crash =>
    some { obj := G.recover s.obj, lock := none, callers := fun _ => .idle, log := G.effective s }

def start (s₀ : σ) : Shared ι σ ο μ ρ :=
  { obj := s₀, lock := none, callers := fun _ => .idle, log := [] }

/-- Every interleaving of the callers, and every crash. -/
def lockSys (ι : Type*) [DecidableEq ι] (s₀ : σ) : TSys (Shared ι σ ο μ ρ) (LockAct ι ο) where
  init s := s = start s₀
  step s a := G.step s a

end Guarded

/-! ## Alone -/

section Sequential

variable (call : σ → ο → ρ × σ)

/-- The object after these calls. -/
def after (s : σ) (log : List (ο × Option ρ)) : σ := log.foldl (fun s e => (call s e.1).2) s

/-- The answers that were given are those of the sequential object. -/
def Answers : σ → List (ο × Option ρ) → Prop
  | _, [] => True
  | s, e :: log => (∀ r, e.2 = some r → r = (call s e.1).1) ∧ Answers (call s e.1).2 log

variable {call}

theorem after_append (s : σ) (log more : List (ο × Option ρ)) :
    after call s (log ++ more) = after call (after call s log) more := List.foldl_append

theorem answers_append {s : σ} {log more : List (ο × Option ρ)} :
    Answers call s (log ++ more) ↔ Answers call s log ∧ Answers call (after call s log) more := by
  induction log generalizing s with
  | nil => simp [Answers, after]
  | cons e log ih =>
      rw [List.cons_append, Answers, Answers, ih, and_assoc]
      rfl

theorem answers_singleton {s : σ} {op : ο} {a : Option ρ}
    (h : ∀ r, a = some r → r = (call s op).1) : Answers call s [(op, a)] := ⟨h, trivial⟩

end Sequential

namespace Guarded

variable (G : Guarded σ ο μ ρ)

/-- Inside the call of `op` that found the object in state `s`. -/
inductive Within (s : σ) (op : ο) : μ → σ → Prop
  | enter : Within s op (G.enter op) s
  | micro {m m' : μ} {x x' : σ} : Within s op m x → G.micro m x = (.inl m', x') →
      Within s op m' x'

/-- The small steps of a call come to one step of the sequential object, and a crash in
between leaves all of it or nothing. -/
structure Atomic (call : σ → ο → ρ × σ) (quiet : σ → Prop) : Prop where
  settled : ∀ s op, quiet s → quiet (call s op).2
  recover : ∀ s, quiet s → G.recover s = s
  returns : ∀ s op m x r x', quiet s → G.Within s op m x → G.micro m x = (.inr r, x') →
    call s op = (r, x')
  crash : ∀ s op m x, quiet s → G.Within s op m x →
    G.recover x = if G.durable m then (call s op).2 else s

variable {G} {call : σ → ο → ρ × σ} {quiet : σ → Prop} {s₀ : σ}

/-- The log is a sequential run with these answers; the object is where the run is, or the
call in the lock is on its way from there. -/
structure Linear (G : Guarded σ ο μ ρ) (call : σ → ο → ρ × σ) (quiet : σ → Prop) (s₀ : σ)
    (s : Shared ι σ ο μ ρ) : Prop where
  answers : Answers call s₀ s.log
  settled : quiet (after call s₀ s.log)
  free : s.lock = none → s.obj = after call s₀ s.log
  held : ∀ i, s.lock = some i → ∃ op m, s.callers i = .inside op m ∧
    G.Within (after call s₀ s.log) op m s.obj
  one : ∀ i op m, s.callers i = .inside op m → s.lock = some i

/-- What a crash at this moment leaves is a sequential run too. -/
theorem Linear.effective (hG : G.Atomic call quiet) {s : Shared ι σ ο μ ρ}
    (h : Linear G call quiet s₀ s) :
    Answers call s₀ (G.effective s) ∧ quiet (after call s₀ (G.effective s)) ∧
      G.recover s.obj = after call s₀ (G.effective s) := by
  unfold Guarded.effective
  cases hlock : s.lock with
  | none =>
      refine ⟨h.answers, h.settled, ?_⟩
      rw [h.free hlock]
      exact hG.recover _ h.settled
  | some i =>
      obtain ⟨op, m, hi, hwithin⟩ := h.held i hlock
      have hcrash := hG.crash _ op m _ h.settled hwithin
      simp only [hi, survivor]
      cases hd : G.durable m with
      | true =>
          simp only [hd, if_true] at hcrash ⊢
          rw [answers_append, after_append]
          exact ⟨⟨h.answers, answers_singleton fun r hr => (by cases hr)⟩,
            hG.settled _ op h.settled, hcrash⟩
      | false =>
          simp only [hd, if_false, Bool.false_eq_true, List.append_nil] at hcrash ⊢
          exact ⟨h.answers, h.settled, hcrash⟩

variable [DecidableEq ι]

/-- Who is in the lock, after caller `i` moved. -/
theorem inside_update {f : ι → Caller ο μ} {i j : ι} {c : Caller ο μ} {op : ο} {m : μ}
    (h : Function.update f i c j = .inside op m) :
    (j = i ∧ c = .inside op m) ∨ (j ≠ i ∧ f j = .inside op m) := by
  by_cases hji : j = i
  · subst hji
    rw [Function.update_self] at h
    exact .inl ⟨rfl, h⟩
  · rw [Function.update_of_ne hji] at h
    exact .inr ⟨hji, h⟩

/-- A caller that is not in the lock moves. -/
theorem Linear.outside {s : Shared ι σ ο μ ρ} (h : Linear G call quiet s₀ s) {i : ι}
    {c : Caller ο μ} (hi : ∀ op m, s.callers i ≠ .inside op m) (hc : ∀ op m, c ≠ .inside op m) :
    Linear G call quiet s₀ { s with callers := Function.update s.callers i c } := by
  refine ⟨h.answers, h.settled, h.free, fun j hj => ?_, fun j op m hj => ?_⟩
  rotate_left
  · rcases inside_update hj with ⟨-, hin⟩ | ⟨-, hin⟩
    · exact absurd hin (hc op m)
    · exact h.one j op m hin
  obtain ⟨op, m, hin, hwithin⟩ := h.held j hj
  refine ⟨op, m, ?_, hwithin⟩
  have hji : j ≠ i := by
    rintro rfl
    exact hi op m hin
  show Function.update s.callers i c j = _
  rw [Function.update_of_ne hji, hin]

/-- A caller takes the lock. -/
theorem Linear.acquire {s : Shared ι σ ο μ ρ} (h : Linear G call quiet s₀ s) {i : ι} {op : ο}
    (hlock : s.lock = none) :
    Linear G call quiet s₀ { s with
      lock := some i
      callers := Function.update s.callers i (.inside op (G.enter op)) } := by
  refine ⟨h.answers, h.settled, fun hnone => (by cases hnone), fun j hj => ?_,
    fun j op' m hj => ?_⟩
  · obtain rfl := Option.some.inj hj
    refine ⟨op, G.enter op, Function.update_self .., ?_⟩
    show G.Within _ op _ s.obj
    rw [h.free hlock]
    exact .enter
  · rcases inside_update hj with ⟨rfl, -⟩ | ⟨-, hin⟩
    · rfl
    · have hheld := h.one j op' m hin
      rw [hlock] at hheld
      cases hheld

/-- The caller in the lock makes a step. -/
theorem Linear.work {s : Shared ι σ ο μ ρ} (h : Linear G call quiet s₀ s) {i : ι} {op : ο}
    {m m' : μ} {x : σ} (hi : s.callers i = .inside op m) (hm : G.micro m s.obj = (.inl m', x)) :
    Linear G call quiet s₀ { s with
      obj := x
      callers := Function.update s.callers i (.inside op m') } := by
  have hlock := h.one i op m hi
  refine ⟨h.answers, h.settled, fun hnone => ?_, fun j hj => ?_, fun j op' m₁ hj => ?_⟩
  · rw [hlock] at hnone
    cases hnone
  · obtain rfl : i = j := Option.some.inj (hlock.symm.trans hj)
    obtain ⟨op', m₁, hin, hwithin⟩ := h.held i hlock
    rw [hi] at hin
    cases hin
    exact ⟨op, m', Function.update_self .., hwithin.micro hm⟩
  · rcases inside_update hj with ⟨rfl, -⟩ | ⟨-, hin⟩
    · exact hlock
    · exact h.one j op' m₁ hin

/-- It gives the lock back. -/
theorem Linear.leave (hG : G.Atomic call quiet) {s : Shared ι σ ο μ ρ}
    (h : Linear G call quiet s₀ s) {i : ι} {op : ο} {m : μ} {r : ρ} {x : σ}
    (hi : s.callers i = .inside op m) (hm : G.micro m s.obj = (.inr r, x)) :
    Linear G call quiet s₀ { s with
      obj := x
      lock := none
      callers := Function.update s.callers i .idle
      log := s.log ++ [(op, some r)] } := by
  have hlock := h.one i op m hi
  obtain ⟨op', m₁, hin, hwithin⟩ := h.held i hlock
  rw [hi] at hin
  cases hin
  have hcall := hG.returns _ op m _ r x h.settled hwithin hm
  constructor
  · refine answers_append.mpr ⟨h.answers, answers_singleton fun r' hr => ?_⟩
    rw [hcall]
    exact (Option.some.inj hr).symm
  · rw [after_append]
    exact hG.settled _ op h.settled
  · intro _
    rw [after_append]
    show x = (call _ op).2
    rw [hcall]
  · intro j hj
    cases hj
  · intro j op' m₁ hj
    rcases inside_update hj with ⟨-, hin⟩ | ⟨hji, hin⟩
    · cases hin
    · have hheld := h.one j op' m₁ hin
      exact absurd (Option.some.inj (hheld.symm.trans hlock)) hji

theorem Linear.step (hG : G.Atomic call quiet) {s s' : Shared ι σ ο μ ρ} {a : LockAct ι ο}
    (h : Linear G call quiet s₀ s) (hstep : G.step s a = some s') :
    Linear G call quiet s₀ s' := by
  cases a with
  | invoke i op =>
      simp only [Guarded.step] at hstep
      split at hstep
      · next hidle =>
        obtain rfl := Option.some.inj hstep
        refine h.outside (fun op m hin => ?_) fun op m hin => by cases hin
        rw [hidle] at hin
        cases hin
      · cases hstep
  | acquire i =>
      simp only [Guarded.step] at hstep
      split at hstep
      · next hlock _ =>
        obtain rfl := Option.some.inj hstep
        exact h.acquire hlock
      · cases hstep
  | micro i =>
      simp only [Guarded.step] at hstep
      split at hstep
      · next hi =>
        split at hstep
        · next hm =>
          obtain rfl := Option.some.inj hstep
          exact h.work hi hm
        · next hm =>
          obtain rfl := Option.some.inj hstep
          exact h.leave hG hi hm
      · cases hstep
  | crash =>
      obtain rfl := Option.some.inj hstep
      obtain ⟨hanswers, hsettled, hobj⟩ := h.effective hG
      exact ⟨hanswers, hsettled, fun _ => hobj, fun i hi => (by cases hi),
        fun i op m hi => by cases hi⟩

/-- In every reachable state the calls behave as if each were made alone. -/
theorem linear_of_reachable (hG : G.Atomic call quiet) (hs₀ : quiet s₀)
    {s : Shared ι σ ο μ ρ} (h : (G.lockSys ι s₀).Reachable s) : Linear G call quiet s₀ s := by
  refine h.induct ?_ ?_
  · rintro s rfl
    exact ⟨trivial, hs₀, fun _ => rfl, fun i hi => (by cases hi), fun i op m hi => by cases hi⟩
  · intro s a s' _ hlin _ hstep
    exact hlin.step hG hstep

end Guarded

end AgentProtocol

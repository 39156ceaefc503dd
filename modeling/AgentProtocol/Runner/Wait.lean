import AgentProtocol.Runner.Manager

/-!
# Waiting for a run (`RunManager.wait`)

`EventLoop` is the process with the ready queue of asyncio, as far as `wait` depends on it.
When the task of a run is done, its callbacks are put on the queue in the order they were
added: `_clear`, which `start` adds at once, then those of the `asyncio.shield` of each waiter.
A waiter takes its next step from the queue too.

The steps of the run tasks come at any time, in any order (`LoopAct.world`); a waiter begins
with `cancelling() == 0`.
-/

namespace AgentProtocol

/-- What stands in the ready queue. -/
inductive Handle where
  /-- `_clear`, the done-callback of the task of this run -/
  | clear (runId : String)
  /-- the done-callback with which `asyncio.shield` settles the future of this waiter -/
  | settle (waiter : Nat)
  /-- the next step of this waiter -/
  | wake (waiter : Nat)
  deriving DecidableEq

inductive WaitPhase where
  /-- at `await asyncio.shield(active.task)`; `settled` where its future is done -/
  | shield (runId : String) (settled : Bool)
  /-- at `await asyncio.sleep(0)` -/
  | sleep (runId : String)
  /-- with the run it has waited for, if there was one -/
  | returned (runId : Option String)
  /-- `CancelledError` left `wait` -/
  | raised

structure Waiter where
  threadId : String
  phase : WaitPhase
  /-- `waiter.cancelling() > 0` -/
  cancelling : Bool

structure EventLoop where
  world : World
  ready : List Handle
  waiters : Dict Nat Waiter

inductive LoopAct where
  /-- a step of the process, other than a done-callback -/
  | world (act : Act)
  /-- the loop takes the next handle -/
  | tick
  /-- a call of `wait`, up to its first await -/
  | wait (waiter : Nat) (threadId : String)
  /-- `cancel()` on the task of a waiter -/
  | cancelWaiter (waiter : Nat)

/-- Where `wait` is suspended first. -/
def World.waitPhase (w : World) (threadId : String) : WaitPhase :=
  match (w.active.get? threadId).bind ActiveRun.task with
  | none => .returned none
  | some runId =>
    match w.tasks.get? runId with
    | some task => if task.phase.isDone then .sleep runId else .shield runId false
    | none => .returned none

/-- The run whose task has ended in this step, seen from the state after it. -/
def World.ended (w : World) : Act → Option String
  | .begin id | .resume id _ =>
    match w.tasks.get? id with
    | some task => if task.phase.isDone then some id else none
    | none => none
  | _ => none

namespace EventLoop

/-- The waiters with a callback on the task of this run. -/
def shielding (l : EventLoop) (runId : String) : List Nat :=
  (l.waiters.entries.filter fun e =>
    match e.2.phase with
    | .shield r false => r == runId
    | _ => false).map Prod.fst

/-- The callbacks of a task that has ended. -/
def callbacks (l : EventLoop) : Option String → List Handle
  | none => []
  | some runId => .clear runId :: (l.shielding runId).map .settle

/-- A waiter moves on, with these handles at the end of the queue. -/
def put (l : EventLoop) (id : Nat) (waiter : Waiter) (handles : List Handle) : EventLoop :=
  { l with ready := l.ready ++ handles, waiters := l.waiters.set id waiter }

/-- The next step of a waiter. -/
def wake (l : EventLoop) (id : Nat) : EventLoop :=
  match l.waiters.get? id with
  | some ⟨t, .shield r _, cancelling⟩ =>
    if cancelling then l.put id ⟨t, .raised, cancelling⟩ []
    -- the run ended, in whatever way: let its done-callback clear the slot
    else l.put id ⟨t, .sleep r, cancelling⟩ [.wake id]
  | some ⟨t, .sleep r, cancelling⟩ =>
    l.put id ⟨t, if cancelling then .raised else .returned (some r), cancelling⟩ []
  | _ => l

/-- The callback of a shield; its future may be cancelled already. -/
def settle (l : EventLoop) (id : Nat) : EventLoop :=
  match l.waiters.get? id with
  | some ⟨t, .shield r false, cancelling⟩ => l.put id ⟨t, .shield r true, cancelling⟩ [.wake id]
  | _ => l

def execute (l : EventLoop) : Handle → Option EventLoop
  | .clear runId => (l.world.callback runId).map fun world => { l with world }
  | .settle id => some (l.settle id)
  | .wake id => some (l.wake id)

def step (rt : Runtime) (l : EventLoop) : LoopAct → Option EventLoop
  | .world (.callback _) => none
  | .world act =>
    (l.world.step rt act).map fun world =>
      { l with world, ready := l.ready ++ l.callbacks (world.ended act) }
  | .tick =>
    match l.ready with
    | [] => none
    | handle :: ready => { l with ready }.execute handle
  | .wait id t =>
    if l.waiters.contains id then none
    else
      match l.world.waitPhase t with
      | .sleep r => some (l.put id ⟨t, .sleep r, false⟩ [.wake id])
      | phase => some (l.put id ⟨t, phase, false⟩ [])
  | .cancelWaiter id =>
    match l.waiters.get? id with
    -- the future of the shield is cancelled, not the task of the run
    | some ⟨t, .shield r false, _⟩ => some (l.put id ⟨t, .shield r true, true⟩ [.wake id])
    | some ⟨t, .shield r true, _⟩ => some (l.put id ⟨t, .shield r true, true⟩ [])
    | some ⟨t, .sleep r, _⟩ => some (l.put id ⟨t, .sleep r, true⟩ [])
    | _ => none

end EventLoop

/-- The process with its event loop. -/
def loopSys (rt : Runtime) (replaySize : Nat) : TSys EventLoop LoopAct where
  init l := l.world = .new replaySize ∧ l.ready = [] ∧ l.waiters = ∅
  step l act := l.step rt act

end AgentProtocol

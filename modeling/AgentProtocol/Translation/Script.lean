import Mathlib.Data.List.Induction
import AgentProtocol.Translation.Sequence

/-!
# The turns of a translator's calls

Which messages a list of calls starts, which chunks each of them takes and where it
ends depends on the calls alone: `Script` follows it without an emitter. The frames of a
turn are those of its chunks (`MessageTurn.frames`), and the translator sinks the turns one
after the other (`play_script`): it raises when a turn that ends does not parse,
and only then.
-/

namespace AgentProtocol

/-- A call of the translator. -/
inductive Call where
  | feed (chunk : Chunk)
  | finish (chunk : Option Chunk)

def Call.run (rt : Runtime) (tr : MessagesTranslator) : Call → Emission MessagesTranslator
  | .feed chunk => tr.feed rt chunk
  | .finish chunk => tr.finish rt chunk

/-- These calls on a new translator, up to one that raises. -/
def runCalls (rt : Runtime) (calls : List Call) : Emission MessagesTranslator :=
  Emission.fold (Call.run rt) calls .new

/-- The emitter after these chunks of its message, and their frames after the start
frame. -/
def MessageFrameEmitter.speak (rt : Runtime) :
    MessageFrameEmitter → List Chunk → MessageFrameEmitter × List Frame
  | e, [] => (e, [])
  | e, chunk :: chunks =>
    let r := (e.fed rt chunk).speak rt chunks
    (r.1, e.content rt chunk ++ r.2)

/-- A message and the chunks it has taken. -/
structure MessageTurn where
  id : String
  role : String
  chunks : List Chunk

namespace MessageTurn

variable (rt : Runtime) (turn : MessageTurn)

def emitter : MessageFrameEmitter :=
  ((MessageFrameEmitter.new turn.id turn.role).speak rt turn.chunks).1

/-- The frames of its chunks. -/
def body : List Frame :=
  ((MessageFrameEmitter.new turn.id turn.role).speak rt turn.chunks).2

def frames : List Frame := .messageStart turn.role turn.id :: turn.body rt

/-- The frames of its end. -/
def closing (usage : Dict String Json) : List Frame := ((turn.emitter rt).close rt usage).frames

/-- The arguments of its tool calls parse. -/
def parses : Bool := (turn.emitter rt).parses rt

def take (chunk : Chunk) : MessageTurn := { turn with chunks := turn.chunks ++ [chunk] }

end MessageTurn

/-- The turns so far: those that have ended, each with the usage metadata it ended with,
and the one that has not. -/
structure Script where
  ended : List (MessageTurn × Dict String Json)
  current : Option MessageTurn

namespace Script

def new : Script := { ended := [], current := none }

/-- The ids of the messages, in the order of their turns. -/
def ids (s : Script) : List String :=
  s.ended.map (fun p => p.1.id) ++ s.current.toList.map MessageTurn.id

def close (usage : Dict String Json) (s : Script) : Script :=
  match s.current with
  | none => s
  | some turn => { ended := s.ended ++ [(turn, usage)], current := none }

/-- It is the turn of the message with this id. -/
def isTurn (s : Script) (id : String) : Bool :=
  match s.current with
  | some turn => turn.id == id
  | none => false

def feed (s : Script) (chunk : Chunk) : Script :=
  match role chunk with
  | none => s
  | some role =>
    let id := MessagesTranslator.messageId chunk
    if id ∈ s.ids then
      if s.isTurn id then { s with current := s.current.map fun turn => turn.take chunk } else s
    else { s.close ∅ with current := some { id, role, chunks := [chunk] } }

def finish (s : Script) : Option Chunk → Script
  | none => s.close ∅
  | some chunk =>
    match strOr chunk.id none with
    | none => s
    | some id => if s.isTurn id then s.close chunk.usageMetadata else s

def step (s : Script) : Call → Script
  | .feed chunk => s.feed chunk
  | .finish chunk => s.finish chunk

/-- Every turn that has ended parses. -/
def parses (rt : Runtime) (s : Script) : Bool := s.ended.all fun p => p.1.parses rt

/-- What is sunk for these turns. -/
def frames (rt : Runtime) (s : Script) : List Frame :=
  (s.ended.flatMap fun p => p.1.frames rt ++ p.1.closing rt p.2) ++
    s.current.toList.flatMap (MessageTurn.frames rt)

end Script

/-- The turns of these calls. -/
def script (calls : List Call) : Script := calls.foldl Script.step .new

theorem script_concat (calls : List Call) (call : Call) :
    script (calls ++ [call]) = (script calls).step call := by
  rw [script, List.foldl_append]
  rfl

/-! ## One chunk more -/

section Turns

variable {rt : Runtime}

theorem MessageFrameEmitter.speak_concat (e : MessageFrameEmitter) (chunks : List Chunk)
    (chunk : Chunk) :
    e.speak rt (chunks ++ [chunk]) = ((e.speak rt chunks).1.fed rt chunk,
      (e.speak rt chunks).2 ++ (e.speak rt chunks).1.content rt chunk) := by
  induction chunks generalizing e with
  | nil =>
      show (_, e.content rt chunk ++ []) = (_, [] ++ e.content rt chunk)
      rw [List.append_nil, List.nil_append]
      rfl
  | cons c chunks ih =>
      show (((e.fed rt c).speak rt (chunks ++ [chunk])).1,
        e.content rt c ++ ((e.fed rt c).speak rt (chunks ++ [chunk])).2) = _
      rw [ih, ← List.append_assoc]
      rfl

theorem MessageTurn.emitter_take (turn : MessageTurn) (chunk : Chunk) :
    (turn.take chunk).emitter rt = (turn.emitter rt).fed rt chunk := by
  show ((MessageFrameEmitter.new turn.id turn.role).speak rt (turn.chunks ++ [chunk])).1 = _
  rw [MessageFrameEmitter.speak_concat]
  rfl

theorem MessageTurn.frames_take (turn : MessageTurn) (chunk : Chunk) :
    (turn.take chunk).frames rt = turn.frames rt ++ (turn.emitter rt).content rt chunk := by
  show _ :: ((MessageFrameEmitter.new turn.id turn.role).speak rt (turn.chunks ++ [chunk])).2 = _
  rw [MessageFrameEmitter.speak_concat]
  rfl

end Turns

theorem Script.close_ids (s : Script) (usage : Dict String Json) : (s.close usage).ids = s.ids := by
  obtain ⟨ended, current⟩ := s
  cases current with
  | none => rfl
  | some turn =>
      show (ended ++ [(turn, usage)]).map _ ++ [] = ended.map _ ++ [turn.id]
      rw [List.map_append, List.append_nil]
      rfl

theorem Script.close_current (s : Script) (usage : Dict String Json) :
    (s.close usage).current = none := by
  unfold close
  cases hcur : s.current with
  | none => exact hcur
  | some turn => rfl

/-! ## The sequencer plays the script -/

def Sequencer.play (rt : Runtime) (q : Sequencer) : Call → Emission Sequencer
  | .feed chunk => q.feed rt chunk
  | .finish chunk => q.finish rt chunk

/-- The sequencer is where the script is. -/
structure Sequencer.Plays (rt : Runtime) (q : Sequencer) (s : Script) : Prop where
  current : q.current = s.current.map fun turn => (turn.id, turn.emitter rt)
  seen : ∀ id, id ∈ q.seen ↔ id ∈ s.ids

/-- A call takes the script from `s` to `s'`: it raises exactly when a turn that ends in it
does not parse, and otherwise sinks what is new in `s'`. -/
structure Emission.Performs (rt : Runtime) (r : Emission Sequencer) (s s' : Script) : Prop where
  raised : s.parses rt = true → (r.raised = none ↔ s'.parses rt = true)
  plays : r.raised = none → r.state.Plays rt s'
  frames : r.raised = none → s'.frames rt = s.frames rt ++ r.frames

namespace Sequencer

variable {rt : Runtime} {q : Sequencer} {s : Script}

theorem plays_new : Sequencer.new.Plays rt .new where
  current := rfl
  seen _ := Iff.rfl

theorem Plays.isTurn (h : q.Plays rt s) (id : String) : q.isTurn id = s.isTurn id := by
  unfold Sequencer.isTurn Script.isTurn
  rw [h.current]
  cases s.current <;> rfl

/-- Nothing happens. -/
theorem Plays.stay (h : q.Plays rt s) :
    (Emission.mk q [] none).Performs rt s s where
  raised hp := iff_of_true rfl hp
  plays _ := h
  frames _ := (List.append_nil _).symm

/-- A turn ends. -/
theorem Plays.close (h : q.Plays rt s) (usage : Dict String Json) :
    (q.close rt usage).Performs rt s (s.close usage) := by
  obtain ⟨current, seen⟩ := q
  obtain ⟨ended, turn⟩ := s
  obtain ⟨hcurrent, hseen⟩ := h
  dsimp only at hcurrent hseen
  subst hcurrent
  cases turn with
  | none => exact Plays.stay ⟨rfl, hseen⟩
  | some turn =>
      have hids := Script.close_ids { ended, current := some turn } usage
      have hraised := (turn.emitter rt).close_raised_iff rt usage
      unfold Sequencer.close
      simp only [Option.map_some]
      cases hr : ((turn.emitter rt).close rt usage).raised with
      | none =>
          refine ⟨fun hp => iff_of_true rfl ?_, fun _ => ⟨rfl, ?_⟩, fun _ => ?_⟩
          · show (ended ++ [(turn, usage)]).all _ = true
            rw [List.all_append, Bool.and_eq_true, List.all_cons, Bool.and_eq_true]
            exact ⟨hp, hraised.mp hr, rfl⟩
          · intro id
            rw [hids]
            exact hseen id
          · show List.flatMap _ (ended ++ [(turn, usage)]) ++ [] =
              (List.flatMap _ ended ++ List.flatMap _ [turn]) ++ _
            rw [List.flatMap_append, List.append_nil, List.flatMap_singleton,
              List.flatMap_singleton, List.append_assoc]
            rfl
      | some exc =>
          refine ⟨fun _ => iff_of_false (Option.some_ne_none _) ?_, fun hn => (by cases hn),
            fun hn => (by cases hn)⟩
          show ¬(ended ++ [(turn, usage)]).all _ = true
          rw [List.all_append, Bool.and_eq_true, List.all_cons, Bool.and_eq_true]
          rintro ⟨-, hp, -⟩
          rw [hraised.mpr hp] at hr
          cases hr

theorem Plays.finish (h : q.Plays rt s) (chunk : Option Chunk) :
    (q.finish rt chunk).Performs rt s (s.finish chunk) := by
  unfold Sequencer.finish Script.finish
  cases chunk with
  | none => exact h.close ∅
  | some chunk =>
      dsimp only
      cases strOr chunk.id none with
      | none => exact h.stay
      | some id =>
          dsimp only
          rw [h.isTurn]
          split
          · exact h.close _
          · exact h.stay

/-- A message takes a chunk more. -/
theorem Plays.take (h : q.Plays rt s) {turn : MessageTurn} (hturn : s.current = some turn)
    (chunk : Chunk) :
    (Emission.mk { q with current := some (turn.id, (turn.emitter rt).fed rt chunk) }
      ((turn.emitter rt).content rt chunk) none).Performs rt s
      { s with current := some (turn.take chunk) } := by
  refine ⟨fun hp => iff_of_true rfl hp, fun _ => ⟨?_, ?_⟩, fun _ => ?_⟩
  · show some _ = some (turn.id, (turn.take chunk).emitter rt)
    rw [turn.emitter_take]
  · intro id
    rw [h.seen, Script.ids, Script.ids, hturn]
    rfl
  · show List.flatMap _ s.ended ++ List.flatMap _ [turn.take chunk] = s.frames rt ++ _
    rw [Script.frames, hturn, List.flatMap_singleton, turn.frames_take]
    show _ = (_ ++ List.flatMap _ [turn]) ++ _
    rw [List.flatMap_singleton, List.append_assoc]

/-- A new message takes its turn. -/
theorem Plays.begin (h : q.Plays rt s) (id role : String) (chunk : Chunk) :
    (q.begin rt id role chunk).Performs rt s
      { s.close ∅ with current := some { id, role, chunks := [chunk] } } := by
  have hclose := h.close ∅
  have hids := s.close_ids ∅
  have hcurrent := s.close_current ∅
  have hflat : (s.close ∅).frames rt =
      List.flatMap (fun p => p.1.frames rt ++ p.1.closing rt p.2) (s.close ∅).ended := by
    rw [Script.frames, hcurrent]
    exact List.append_nil _
  unfold Sequencer.begin
  dsimp only
  cases hr : (q.close rt ∅).raised with
  | some exc =>
      have hraised := hclose.raised
      rw [hr] at hraised
      exact ⟨hraised, fun hn => (by cases hn), fun hn => (by cases hn)⟩
  | none =>
      refine ⟨fun hp => iff_of_true rfl ?_, fun _ => ⟨?_, ?_⟩, fun _ => ?_⟩
      · exact (hclose.raised hp).mp hr
      · rfl
      · intro id'
        rw [Script.ids, hcurrent] at hids
        show id' ∈ id :: q.seen ↔ id' ∈ (s.close ∅).ended.map _ ++ [id]
        rw [List.mem_cons, List.mem_append, List.mem_singleton, h.seen, ← hids]
        show _ ∨ id' ∈ _ ++ [] ↔ _
        rw [List.append_nil, or_comm]
      · have hframes := hclose.frames hr
        rw [hflat] at hframes
        show List.flatMap _ (s.close ∅).ended ++ List.flatMap _ [_] = _
        rw [hframes, List.append_assoc]
        refine congrArg (_ ++ ·) (congrArg (_ ++ ·) ?_)
        show List.flatMap (MessageTurn.frames rt) [_] = _
        rw [List.flatMap_singleton]
        exact congrArg (_ :: ·) (List.append_nil _)

theorem Plays.feed (h : q.Plays rt s) (chunk : Chunk) :
    (q.feed rt chunk).Performs rt s (s.feed chunk) := by
  unfold Sequencer.feed Script.feed
  cases hrole : role chunk with
  | none => exact h.stay
  | some role =>
      dsimp only
      by_cases hseen : MessagesTranslator.messageId chunk ∈ s.ids
      · rw [if_pos hseen, if_pos ((h.seen _).mpr hseen)]
        have hturn := h.isTurn (MessagesTranslator.messageId chunk)
        rw [h.current]
        cases hcur : s.current with
        | none =>
            rw [Script.isTurn, hcur, if_neg Bool.false_ne_true]
            exact h.stay
        | some turn =>
            simp only [Option.map_some]
            by_cases hid : turn.id = MessagesTranslator.messageId chunk
            · rw [Script.isTurn, hcur, if_pos hid, if_pos (beq_iff_eq.mpr hid), ← hid]
              exact h.take hcur chunk
            · rw [Script.isTurn, hcur, if_neg hid, if_neg (mt beq_iff_eq.mp hid)]
              exact h.stay
      · rw [if_neg hseen, if_neg (mt (h.seen _).mp hseen)]
        exact h.begin _ role chunk

theorem Plays.step (h : q.Plays rt s) (call : Call) :
    (q.play rt call).Performs rt s (s.step call) := by
  cases call with
  | feed chunk => exact h.feed chunk
  | finish chunk => exact h.finish chunk

end Sequencer

/-! ## Whole lists of calls -/

section Calls

variable {rt : Runtime}

/-- Turns that have ended stay. -/
theorem Script.ended_step (s : Script) (call : Call) :
    ∃ new, (s.step call).ended = s.ended ++ new := by
  have hclose : ∀ usage, ∃ new, (s.close usage).ended = s.ended ++ new := by
    intro usage
    unfold Script.close
    split
    · exact ⟨[], (List.append_nil _).symm⟩
    · exact ⟨_, rfl⟩
  have hstay : ∃ new, s.ended = s.ended ++ new := ⟨[], (List.append_nil _).symm⟩
  cases call with
  | feed chunk =>
      show ∃ new, (s.feed chunk).ended = _
      unfold Script.feed
      split
      · exact hstay
      · dsimp only
        split
        · split <;> exact hstay
        · exact hclose ∅
  | finish chunk =>
      show ∃ new, (s.finish chunk).ended = _
      unfold Script.finish
      split
      · exact hclose ∅
      · split
        · exact hstay
        · split
          · exact hclose _
          · exact hstay

theorem Script.parses_of_step (s : Script) (call : Call) (h : (s.step call).parses rt = true) :
    s.parses rt = true := by
  obtain ⟨new, hnew⟩ := s.ended_step call
  rw [Script.parses, hnew, List.all_append, Bool.and_eq_true] at h
  exact h.1

/-- The next call. -/
theorem Emission.Performs.andThen {r : Emission Sequencer} {s₀ s : Script}
    (h : r.Performs rt s₀ s) (call : Call) :
    (r.andThen fun q => q.play rt call).Performs rt s₀ (s.step call) := by
  cases hr : r.raised with
  | some exc =>
      rw [andThen_raised hr]
      refine ⟨fun hp => ?_, fun hn => ?_, fun hn => ?_⟩
      · rw [hr]
        apply iff_of_false (Option.some_ne_none _)
        intro hp'
        rw [(h.raised hp).mpr (Script.parses_of_step s call hp')] at hr
        cases hr
      · rw [hr] at hn
        cases hn
      · rw [hr] at hn
        cases hn
  | none =>
      have hstep := (h.plays hr).step call
      rw [andThen_returned hr]
      refine ⟨fun hp => hstep.raised ((h.raised hp).mp hr), hstep.plays, fun hn => ?_⟩
      show _ = _ ++ (r.frames ++ _)
      rw [hstep.frames hn, h.frames hr, List.append_assoc]

/-- A sequencer plays the script of its calls, up to a turn that does not parse. -/
theorem play_script (rt : Runtime) (calls : List Call) :
    (Emission.fold (Sequencer.play rt) calls .new).Performs rt .new (script calls) := by
  induction calls using List.reverseRecOn with
  | nil => exact Sequencer.plays_new.stay
  | append_singleton calls call ih =>
      rw [Emission.fold_append, script_concat]
      have hlast : Emission.fold (Sequencer.play rt) [call] = fun q => q.play rt call :=
        funext (Emission.fold_singleton _ call)
      rw [hlast]
      exact ih.andThen call

theorem runCalls_concat (rt : Runtime) (calls : List Call) (call : Call) :
    runCalls rt (calls ++ [call]) = (runCalls rt calls).andThen fun tr => call.run rt tr := by
  unfold runCalls
  rw [Emission.fold_append]
  exact congrArg _ (funext (Emission.fold_singleton _ call))

theorem runCalls_refines (rt : Runtime) (calls : List Call) :
    (runCalls rt calls).Refines (Emission.fold (Sequencer.play rt) calls .new) := by
  refine Emission.Refines.fold (fun tr q call h => ?_) calls MessagesTranslator.refines_new
  cases call with
  | feed chunk => exact h.feed rt chunk
  | finish chunk => exact h.finish rt chunk

/-- The translator raises exactly when a turn that ends does not parse. -/
theorem runCalls_raised_iff (rt : Runtime) (calls : List Call) :
    (runCalls rt calls).raised = none ↔ (script calls).parses rt = true := by
  rw [(runCalls_refines rt calls).raised]
  exact (play_script rt calls).raised rfl

/-- It sinks the turns of its calls. -/
theorem runCalls_frames {rt : Runtime} {calls : List Call}
    (h : (script calls).parses rt = true) :
    (runCalls rt calls).frames = (script calls).frames rt := by
  have hraised := ((play_script rt calls).raised rfl).mpr h
  rw [(runCalls_refines rt calls).frames, (play_script rt calls).frames hraised]
  rfl

/-- With `json.loads` total every turn parses. -/
theorem Script.parses_of_loadsTotal (h : rt.LoadsTotal) (s : Script) : s.parses rt = true := by
  rw [Script.parses, List.all_eq_true]
  intro p _
  exact (p.1.emitter rt).parses_of_loadsTotal h

end Calls

end AgentProtocol

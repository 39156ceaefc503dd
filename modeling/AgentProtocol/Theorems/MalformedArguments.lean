import AgentProtocol.Runner.Reports
import AgentProtocol.Runner.Log
import AgentProtocol.Translation.Blocks
import AgentProtocol.Translation.Lifetime

/-!
# Arguments that `json.loads` cannot cope with

`parse_args` handles a `JSONDecodeError` and nothing else. An integer literal beyond the digit
limit, or nesting beyond the recursion limit, fails in `finish` and fails again in the handler
that reports the failure: the message is not finished and the run is not reported
(`reported_iff`).
-/

namespace AgentProtocol

/-- `json.loads` returns on this text of arguments, or raises `JSONDecodeError`. -/
def Runtime.Reads (rt : Runtime) (text : String) : Prop :=
  ∀ exc, rt.loads (if text = "" then "{}" else text) ≠ .raised exc

/-- It does on the text of every tool call of these chunks. -/
def Readable (rt : Runtime) (chunks : List Chunk) : Prop :=
  let placed := place 0 none (chunks.flatMap (Chunk.pieces rt))
  ∀ index, fragmentsAt index placed ≠ [] → rt.Reads (argsText (fragmentsAt index placed))

/-- The calls end with the finish frame of a message, sunk by the last of them. -/
def FinishesLast (rt : Runtime) (calls : List Call) (last : Call) : Prop :=
  ∃ blocks usage, (runCalls rt (calls ++ [last])).frames =
    (runCalls rt calls).frames ++ blocks ++ [.messageFinish usage]

/-! ## What is readable parses -/

section Turns

variable {rt : Runtime}

theorem BlockState.parses_iff (state : BlockState) :
    state.parses rt = true ↔ rt.Reads state.args := by
  unfold parses parseArgs Runtime.Reads
  dsimp only
  cases rt.loads (if state.args = "" then "{}" else state.args) with
  | value parsed => simp
  | decodeError => simp
  | raised exc => simp

/-- A new block has the arguments of its fragments. -/
theorem blockAfter_none_args {index : Int} {fragments : List Fragment} {state : BlockState}
    (h : blockAfter index none fragments = some state) : state.args = argsText fragments := by
  cases fragments with
  | nil => cases h
  | cons fragment fragments =>
      rw [blockAfter_args h, argsText_cons]
      rfl

/-- A turn parses when its chunks are readable. -/
theorem MessageTurn.parses_iff (turn : MessageTurn) :
    turn.parses rt = true ↔ Readable rt turn.chunks := by
  unfold MessageTurn.parses Readable
  rw [MessageFrameEmitter.parses_iff]
  apply forall_congr'
  intro index
  have hblock := turn.block_at rt index
  unfold MessageTurn.placed MessageTurn.pieces at hblock
  rw [hblock]
  generalize fragmentsAt index _ = fragments
  constructor
  · intro h hne
    obtain ⟨state, hstate⟩ :=
      Option.ne_none_iff_exists'.mp (mt (blockAfter_eq_none_iff index fragments).mp hne)
    rw [← blockAfter_none_args hstate]
    exact state.parses_iff.mp (h state hstate)
  · intro h state hstate
    rw [state.parses_iff, blockAfter_none_args hstate]
    apply h
    intro hnil
    rw [hnil] at hstate
    cases hstate

/-- The finish frame of an open message is sunk when its arguments parse. -/
theorem MessageFrameEmitter.close_finishes_iff (e : MessageFrameEmitter)
    (usage : Dict String Json) :
    (∃ blocks usage', (e.close rt usage).frames = blocks ++ [.messageFinish usage']) ↔
      e.parses rt = true := by
  obtain ⟨blocks, hblocks, hclose⟩ := e.close_frames rt usage
  rw [← e.close_raised_iff rt usage]
  rcases hclose with ⟨hr, usage', hframes⟩ | ⟨hr, hframes⟩
  · exact iff_of_true ⟨blocks, usage', hframes⟩ hr
  · refine iff_of_false ?_ hr
    rintro ⟨blocks', usage', heq⟩
    -- what is sunk before an exception are frames of blocks
    have hmem : .messageFinish usage' ∈ blocks := by
      rw [← hframes, heq]
      exact List.mem_append_right _ List.mem_cons_self
    cases (hblocks _ hmem).1

/-- The last call finishes the message of these chunks when they are readable. -/
theorem finishesLast_iff {id : String} {before : List Call} {chunks : List Chunk}
    {last : Option Chunk} (hret : (runCalls rt (before ++ [.finish none])).raised = none)
    (hnew : id ∉ fedIds before) (h : OfMessage id chunks) (hlast : Finisher id last) :
    FinishesLast rt (before ++ chunks.map .feed) (.finish last) ↔ Readable rt chunks := by
  obtain ⟨role, hscript⟩ := script_message hnew h
  have hparses : (script (before ++ chunks.map .feed)).parses rt = true := by
    rw [runCalls_raised_iff, script_concat] at hret
    rw [hscript]
    exact hret
  have hplay := play_script rt (before ++ chunks.map .feed)
  have href := runCalls_refines rt (before ++ chunks.map .feed)
  have hplays := hplay.plays ((hplay.raised rfl).mpr hparses)
  rw [hscript] at hplays
  have hraised := (runCalls_raised_iff rt _).mpr hparses
  have hfinish : ((runCalls rt (before ++ chunks.map .feed)).state.finish rt last).frames =
      ((MessageTurn.emitter rt { id, role, chunks }).close rt (usageOf last)).frames := by
    rw [(href.state.finish rt last).frames, finish_current hplays rfl hlast]
  unfold FinishesLast
  rw [runCalls_concat, Emission.andThen_returned hraised,
    ← MessageTurn.parses_iff { id, role, chunks }, MessageTurn.parses,
    ← MessageFrameEmitter.close_finishes_iff _ (usageOf last), ← hfinish]
  refine exists_congr fun blocks => exists_congr fun usage => ?_
  rw [List.append_assoc]
  exact List.append_right_inj _

/-- What a run that is done has to finish is readable. -/
theorem reports_iff (s : Script) (asks : Bool) :
    (s.parses rt && (asks || s.openParses rt)) = true ↔
      (∀ p ∈ s.ended, Readable rt p.1.chunks) ∧
        (asks = true ∨ ∀ turn, s.current = some turn → Readable rt turn.chunks) := by
  rw [Bool.and_eq_true, Bool.or_eq_true, Script.parses, List.all_eq_true]
  refine and_congr (forall_congr' fun p => forall_congr' fun _ => p.1.parses_iff)
    (or_congr Iff.rfl ?_)
  unfold Script.openParses
  cases s.current with
  | none => exact iff_of_true rfl fun turn h => by cases h
  | some turn =>
      rw [Option.all_some, turn.parses_iff]
      exact ⟨fun h turn' heq => Option.some.inj heq ▸ h, fun h => h turn rfl⟩

end Turns

/-! ## The theorem -/

/-- A run whose body executed reports its end once when the messages it finishes are
readable: those that end in its stream, and the one that is open at its end, unless it asks
for input. -/
theorem run_reported_iff {rt : Runtime} {n : Nat} {w : World} (hw : (runSys rt n).Reachable w)
    {r : String} {task : Task} (hg : w.tasks.get? r = some task) (hdone : task.phase = .done)
    (hfed : task.fed ≠ []) :
    (w.eventsOf task.threadId r).countP EventData.isTerminal = 1 ↔
      (∀ p ∈ task.turns.ended, Readable rt p.1.chunks) ∧
        ((ending task.graph none task.fed).any (Ending.asks rt) = true ∨
          ∀ turn, task.turns.current = some turn → Readable rt turn.chunks) := by
  have hL : w.LogInv := World.logInv_of_reachable hw
  have hreported := World.reported_of_reachable hw hg
  unfold Task.Reported at hreported
  simp only [hdone] at hreported
  rw [hL.eventsOf_eq hg, ← reports_iff]
  rcases hreported with hnil | hcount
  · exact absurd hnil hfed
  · show terminals task.events = 1 ↔ _
    rw [hcount]
    split
    · next h => exact iff_of_true rfl h
    · next h => exact iff_of_false (by decide) h

/-- `finish` emits the finish frame of the message of any chunks, and a run whose body executed
reports its end once, exactly when `json.loads` copes with the arguments they finish. -/
theorem reported_iff (rt : Runtime) :
    (∀ (before : List Call) (id : String) (chunks : List Chunk) (last : Option Chunk),
      (runCalls rt (before ++ [.finish none])).raised = none → id ∉ fedIds before →
      OfMessage id chunks → Finisher id last →
        (FinishesLast rt (before ++ chunks.map .feed) (.finish last) ↔ Readable rt chunks)) ∧
    ∀ (n : Nat) (w : World), (runSys rt n).Reachable w → ∀ (r : String) (task : Task),
      w.tasks.get? r = some task → task.phase = .done → task.fed ≠ [] →
        ((w.eventsOf task.threadId r).countP EventData.isTerminal = 1 ↔
          (∀ p ∈ task.turns.ended, Readable rt p.1.chunks) ∧
            ((ending task.graph none task.fed).any (Ending.asks rt) = true ∨
              ∀ turn, task.turns.current = some turn → Readable rt turn.chunks)) :=
  ⟨fun _ _ _ _ hret hnew h hlast => finishesLast_iff hret hnew h hlast,
    fun _ _ hw _ _ hg hdone hfed => run_reported_iff hw hg hdone hfed⟩

/-- A tool call with these arguments. -/
def callChunk (args : String) : Chunk :=
  { textChunk "m" "" with
    toolCallChunks := [{ index := some 0, id := "c", name := "f", args := some args }] }

/-- A call whose arguments are not JSON, and a run that streams it. -/
theorem reported_call :
    FinishesLast .inert ([] ++ [callChunk "\x7b"].map .feed) (.finish none) ∧
      ((streamedEnd [.messages (callChunk "\x7b")]).eventsOf "t" "1").countP EventData.isTerminal =
        1 := by
  have hreads : ∀ chunks, Readable .inert chunks := fun _ _ _ _ h => by cases h
  have hrun : (runSys .inert 500).run (.new 500) (streamed [.messages (callChunk "\x7b")]) =
    some (streamedEnd [.messages (callChunk "\x7b")]) := rfl
  have hreach := TSys.reachable_of_run (M := runSys .inert 500) rfl hrun
  obtain ⟨hfinish, hreport⟩ := reported_iff .inert
  constructor
  · exact (hfinish [] "m" [callChunk "\x7b"] none rfl List.not_mem_nil
      ⟨List.cons_ne_nil _ _, by decide⟩ (fun _ h => by cases h)).mpr (hreads _)
  · exact (hreport 500 _ hreach "1" _ rfl rfl (List.cons_ne_nil _ _)).mpr
      ⟨fun _ _ => hreads _, .inr fun _ _ => hreads _⟩

/-! ## An integer beyond the digit limit -/

/-- One digit more than the interpreter converts. -/
def digits : String := .ofList (List.replicate 4301 '1')

/-- A runtime that decodes no JSON, and refuses what is longer than an integer may be. -/
def Runtime.limited : Runtime :=
  { Runtime.inert with
    loads := fun text =>
      if 4300 < text.utf8ByteSize then
        .raised ⟨"ValueError", "Exceeds the limit (4300 digits) for integer string conversion"⟩
      else .decodeError }

def digitsEnd : World :=
  ((runSys .limited 500).run (.new 500) (streamed [.messages (callChunk digits)])).getD (.new 500)

set_option maxRecDepth 40000 in
/-- The run is done and has heard its stream, and there is no terminal event. -/
theorem digitsEnd_spec :
    ((runSys .limited 500).run (.new 500) (streamed [.messages (callChunk digits)])).isSome = true ∧
      (digitsEnd.tasks.get? "1").map (fun task =>
        (task.phase.isDone, task.fed.isEmpty, task.threadId)) = some (true, false, "t") ∧
      (digitsEnd.eventsOf "t" "1").countP EventData.isTerminal = 0 := by
  decide +kernel

theorem unreported_digits :
    ¬∀ w, (runSys .limited 500).Reachable w → ∀ r task, w.tasks.get? r = some task →
      task.phase.isDone = true → task.fed ≠ [] →
        (w.eventsOf task.threadId r).countP EventData.isTerminal = 1 := by
  intro hall
  obtain ⟨hsome, htask, hzero⟩ := digitsEnd_spec
  obtain ⟨w, hw⟩ := Option.isSome_iff_exists.mp hsome
  have hrun : (runSys .limited 500).run (.new 500) (streamed [.messages (callChunk digits)]) =
      some digitsEnd := by
    rw [digitsEnd, hw]
    rfl
  have hreach := TSys.reachable_of_run (M := runSys .limited 500) rfl hrun
  obtain ⟨task, hg, hspec⟩ := Option.map_eq_some_iff.mp htask
  rw [Prod.mk.injEq, Prod.mk.injEq] at hspec
  obtain ⟨hdone, hfed, hthread⟩ := hspec
  have hne : task.fed ≠ [] := by
    intro hnil
    rw [hnil] at hfed
    cases hfed
  have hcount := hall digitsEnd hreach "1" task hg hdone hne
  rw [hthread, hzero] at hcount
  cases hcount

end AgentProtocol

import AgentProtocol.Router.Binding
import AgentProtocol.Router.Rendering
import AgentProtocol.Runner.Config

/-!
# The envelope of a command

`App.answerable` is a condition on the body of a command, and on the state it finds, under
which the command is answered with an envelope that can be rendered, if the snapshot it reads
lets it (`Snapshot.answers`). `World.OnCourse` says where the handler can be from the body
on: on its way to such an envelope, or to an exception that leaves it.
-/

namespace AgentProtocol

/-! ## The condition -/

namespace Json

/-- `x.get(key)`, of a dict -/
def field (x : Json) (key : String) : Json :=
  match x.get key with
  | .ok v => v
  | .error _ => .null

/-- `dict(x or {})` -/
def asDict (x : Json) : Option (Dict String Json) :=
  match (x.or (.obj [])).toDict with
  | .ok d => some d
  | .error _ => none

/-- It can be the key of a dict. -/
def hashable : Json → Bool
  | .arr _ => false
  | .obj _ => false
  | _ => true

end Json

namespace World

/-- A run is starting or running on the thread. -/
def isBusy (w : World) (threadId : String) : Bool :=
  match w.active.get? threadId with
  | some existing => w.busy existing
  | none => false

/-- There is a factory under this assistant id. -/
def registers (w : World) : Json → Bool
  | .str assistantId => w.factories.contains assistantId
  | _ => false

end World

/-- The metadata of a `run.start` can be merged into its config. -/
def mergesMetadata (config : Dict String Json) (metadata : Json) : Bool :=
  !metadata.truthy || (metadata.isDict && ((config.get? "metadata").getD (.obj [])).isDict)

/-- The params of a `run.start` name no assistant, or have a config with a `configurable`
that both can be copied; and then the thread is busy, or the assistant can be looked up
and, where it is registered, the metadata can be merged. -/
def startable (w : World) (threadId : String) (params : Json) : Bool :=
  !(params.field "assistant_id").truthy ||
    match (params.field "config").asDict with
    | none => false
    | some config =>
      (((config.get? "configurable").getD .null).asDict).isSome &&
        (w.isBusy threadId ||
          ((params.field "assistant_id").hashable &&
            (!w.registers (params.field "assistant_id") ||
              mergesMetadata config (params.field "metadata"))))

/-- The interrupt is missing, or the thread is not bound to an assistant that is not
registered. -/
def respondable (rt : Runtime) (w : World) (store : MemoryThreadStore) (threadId : String)
    (params : Json) : Bool :=
  interruptIdOf rt (params.field "interrupt_id") == "" ||
    match store.assistant threadId with
    | none => true
    | some assistantId => w.factories.contains assistantId

/-- The handler of the command does not raise. -/
def handled (rt : Runtime) (w : World) (store : MemoryThreadStore) (threadId : String) :
    Option Json → Bool
  | some (.obj es) =>
    let body : Dict String Json := .ofList es
    let params := ((body.get? "params").getD .null).or (.obj [])
    match (body.get? "method").getD .null with
    | .str "run.start" => params.isDict && startable w threadId params
    | .str "input.respond" => params.isDict && respondable rt w store threadId params
    | .str "run.cancel" => params.isDict
    | _ => true
  | _ => true

/-- The command asks for the state. -/
def asksState : Option Json → Bool
  | some (.obj es) =>
    match ((Dict.ofList es).get? "method").getD .null with
    | .str "state.get" => true
    | _ => false
  | _ => false

/-- The handler does not raise before it reads a snapshot, and the id can be rendered. -/
def App.answerable (rt : Runtime) (limit : Nat) (a : App) (threadId : String)
    (body : Option Json) : Bool :=
  handled rt a.world a.store threadId body && renders limit (commandId body).toValue

/-! ## The course of a handler -/

def StateCommand.isGet : StateCommand → Bool
  | .get => true
  | .respond .. => false

/-- Where the handler of a command can be after the body: on its way to an envelope with
the id of the command, or, where `verdict` is false, to another answer. `asks` says that the
command asks for the state. -/
inductive World.OnCourse (limit : Nat) (w : World) (cmdId : Json) (asks verdict : Bool) :
    Handler → Prop
  | graph {command : StateCommand} : command.isGet = asks → verdict = true →
      OnCourse limit w cmdId asks verdict (.stateGraph cmdId command)
  | read {command : StateCommand} {read : Option (List String)} : command.isGet = asks →
      verdict = true → OnCourse limit w cmdId asks verdict (.stateRead cmdId command read)
  | start {r : String} {v : Json} {s : Starting} : w.starting.get? r = some s →
      mergeable s.config s.metadata = verdict →
      OnCourse limit w cmdId asks verdict (.runStart cmdId r v)
  | resume {r i : String} : verdict = true →
      OnCourse limit w cmdId asks verdict (.runResume cmdId r i)
  | answered {response : Response} :
      (response.IsEnvelope cmdId ∧ response.shows limit = true ↔ verdict = true) →
      OnCourse limit w cmdId asks verdict (.answered response)

namespace World

variable {rt : Runtime} {limit : Nat} {w : World} {store : MemoryThreadStore} {t runId : String}
  {cmdId : Json} {asks : Bool}

theorem OnCourse.envelope {response : Response} (h : response.IsEnvelope cmdId)
    (hshows : response.shows limit = true) :
    w.OnCourse limit cmdId asks true (.answered response) :=
  .answered (iff_of_true ⟨h, hshows⟩ rfl)

theorem OnCourse.raised (exc : RunExc) :
    w.OnCourse limit cmdId asks false (.answered (.raised exc)) :=
  .answered (iff_of_false And.left Bool.noConfusion)

theorem isBusy_of_busy {existing : ActiveRun} (hg : w.active.get? t = some existing)
    (hbusy : w.busy existing = true) : w.isBusy t = true := by
  simp only [isBusy, hg, hbusy]

theorem isBusy_of_free (h : w.Free t) : w.isBusy t = false := by
  unfold isBusy
  split
  · next existing hg => exact h existing hg
  · rfl

/-- The lookup of an assistant id that comes from a request. -/
theorem findFactory_toValue {x : Json} {exc : RunExc}
    (h : findFactory w.factories x.toValue = .error exc) :
    w.registers x = false ∧
      ((x.hashable = true ∧ ∃ known, exc = .unknownAssistant x.toValue known) ∨
        (x.hashable = false ∧ ∃ e, exc = .other e)) := by
  cases x with
  | str s =>
      simp only [Json.toValue, findFactory] at h
      split at h
      · cases h
      · next hnot =>
        cases h
        exact ⟨by simpa [registers] using hnot, .inl ⟨rfl, _, rfl⟩⟩
  | arr xs =>
      cases h
      exact ⟨rfl, .inr ⟨rfl, _, rfl⟩⟩
  | obj es =>
      cases h
      exact ⟨rfl, .inr ⟨rfl, _, rfl⟩⟩
  | _ =>
      cases h
      exact ⟨rfl, .inl ⟨rfl, _, rfl⟩⟩

theorem toValue_str {x : Json} {s : String} (h : x.toValue = .str s) : x = .str s := by
  cases x with
  | str s' =>
      cases h
      rfl
  | _ => cases h

/-! ### From the body to the next await -/

theorem get_of_dict {params : Json} (h : params.isDict = true) (key : String) :
    params.get key = .ok (params.field key) := by
  cases params with
  | obj es => rfl
  | _ => cases h

theorem get_of_not_dict {params : Json} (h : params.isDict = false) (key : String) :
    ∃ exc, params.get key = .error exc := by
  cases params with
  | obj es => cases h
  | _ => exact ⟨_, rfl⟩

theorem mergeable_stamped (config : Dict String Json) (es : List (String × Json))
    (metadata : Json) :
    mergeable (some (config.set "configurable" (.obj es))) metadata =
      mergesMetadata config metadata := by
  have hclient : (clientConfigurable (some (config.set "configurable" (.obj es)))).isDict = true := by
    unfold clientConfigurable
    rw [Option.getD_some, Dict.get?_set_self, Option.getD_some]
    dsimp only
    split <;> rfl
  unfold mergeable mergesMetadata
  rw [hclient, Bool.true_and, Option.getD_some, Dict.get?_set_ne _ _ (by decide)]

/-- The arguments of `run.start`, of params that are a dict. -/
theorem startArgs_of_dict {params : Json} (record : ThreadRecord) (h : params.isDict = true) :
    startArgs record params =
      if !(params.field "assistant_id").truthy then .ok none
      else
        match ((params.field "config").or (.obj [])).toDict with
        | .error exc => .error exc
        | .ok config =>
          match (((config.get? "configurable").getD .null).or (.obj [])).toDict with
          | .error exc => .error exc
          | .ok configurable => .ok (some
            { assistantId := params.field "assistant_id", input := params.field "input"
              config := config.set "configurable"
                (.obj (configurable.set "session_metadata" (.obj record.metadata.entries)).entries)
              metadata := params.field "metadata" }) := by
  unfold startArgs
  simp only [get_of_dict h, bind, Except.bind, pure, Except.pure]
  split
  · rfl
  · split
    · next heq => rw [heq]
    · next config heq =>
      rw [heq]
      dsimp only
      split
      · next heq' => rw [heq']
      · next configurable heq' => rw [heq']

theorem onCourse_start (record : ThreadRecord) (cmdId params : Json) :
    (dispatchStart rt w t record cmdId params runId).1.OnCourse limit cmdId asks
      (params.isDict && startable w t params)
      (dispatchStart rt w t record cmdId params runId).2 := by
  unfold dispatchStart startable Json.asDict
  cases hd : params.isDict with
  | false =>
      obtain ⟨exc, hexc⟩ := get_of_not_dict hd "assistant_id"
      have hargs : startArgs record params = .error exc := by
        simp only [startArgs, hexc, bind, Except.bind]
      rw [hargs]
      exact .raised _
  | true =>
      rw [startArgs_of_dict record hd, Bool.true_and]
      cases htruthy : (params.field "assistant_id").truthy with
      | false => exact .envelope rfl rfl
      | true =>
          simp only [Bool.not_true, Bool.false_or, Bool.false_eq_true, if_false]
          cases hconfig : ((params.field "config").or (.obj [])).toDict with
          | error exc => exact .raised _
          | ok config =>
              dsimp only
              cases hconfigurable :
                  (((config.get? "configurable").getD .null).or (.obj [])).toDict with
              | error exc => exact .raised _
              | ok configurable =>
                  dsimp only
                  rw [Option.isSome_some, Bool.true_and]
                  have hstart := w.startStep t (params.field "assistant_id").toValue
                    (.input (params.field "input")) (some (config.set "configurable" (.obj
                      (configurable.set "session_metadata" (.obj record.metadata.entries)).entries)))
                    (params.field "metadata") runId
                  generalize w.start t (params.field "assistant_id").toValue
                    (.input (params.field "input")) (some (config.set "configurable" (.obj
                      (configurable.set "session_metadata" (.obj record.metadata.entries)).entries)))
                    (params.field "metadata") runId = r at hstart
                  cases hstart with
                  | busy hg hbusy =>
                      rw [isBusy_of_busy hg hbusy]
                      exact .envelope rfl rfl
                  | unknown hfree hf =>
                      obtain ⟨hnot, ⟨hh, known, rfl⟩ | ⟨hh, e, rfl⟩⟩ := findFactory_toValue hf
                      · rw [isBusy_of_free hfree, hnot, hh]
                        exact .envelope rfl rfl
                      · rw [isBusy_of_free hfree, hh]
                        exact .raised _
                  | held hfree hv hmem =>
                      have hstr := toValue_str hv
                      refine .start (Dict.get?_set_self _ _ _) ?_
                      dsimp only
                      rw [mergeable_stamped, isBusy_of_free hfree, hstr]
                      simp [Json.hashable, registers, hmem]

/-- `_state_graph` of a thread whose assistant can be found, or is not there. -/
theorem onCourse_stateGraph (limit : Nat) (w : World) (store : MemoryThreadStore) (t : String) (cmdId : Json)
    (command : StateCommand) :
    w.OnCourse limit cmdId command.isGet
      (match command, store.assistant t with
        | .respond .., some assistantId => w.factories.contains assistantId
        | _, _ => true)
      (stateGraph w store t cmdId command) := by
  unfold stateGraph
  cases hasst : store.assistant t with
  | none => cases command <;> exact .envelope rfl rfl
  | some assistantId =>
      dsimp only
      by_cases hmem : assistantId ∈ w.factories
      · have hf : findFactory w.factories (.str assistantId) = .ok assistantId := if_pos hmem
        rw [hf]
        refine .graph rfl ?_
        cases command with
        | respond => exact List.contains_iff_mem.mpr hmem
        | get => rfl
      · have hf : findFactory w.factories (.str assistantId) =
          .error (.unknownAssistant (.str assistantId) (w.factories.insertionSort (· ≤ ·))) :=
          if_neg hmem
        rw [hf]
        cases command with
        | respond =>
            have hnot : w.factories.contains assistantId = false := by simpa using hmem
            dsimp only
            rw [hnot]
            exact .raised _
        | get => exact .envelope rfl rfl

theorem onCourse_body (record : ThreadRecord) (body : Option Json) :
    let turn := dispatchCommand rt w store t record body runId
    turn.world.OnCourse limit (commandId body) (asksState body) (handled rt w store t body)
      turn.handler := by
  intro turn
  have hturn : turn = dispatchCommand rt w store t record body runId := rfl
  clear_value turn
  unfold dispatchCommand at hturn
  split at hturn
  · rw [hturn]
    exact .envelope rfl rfl
  · next es =>
    unfold handled commandId asksState
    dsimp only at hturn ⊢
    generalize ((Dict.ofList es).get? "method").getD Json.null = method at hturn
    generalize (((Dict.ofList es).get? "params").getD Json.null).or (.obj []) = params at hturn
    generalize ((Dict.ofList es).get? "id").getD Json.null = cmdId at hturn
    split at hturn
    · rw [hturn]
      exact onCourse_start record cmdId params
    · cases hd : params.isDict with
      | false =>
          obtain ⟨exc, hexc⟩ := get_of_not_dict hd "interrupt_id"
          rw [hexc] at hturn
          dsimp only at hturn
          rw [hturn]
          exact .raised _
      | true =>
          rw [get_of_dict hd, get_of_dict hd] at hturn
          dsimp only at hturn
          rw [Bool.true_and]
          unfold respondable
          split at hturn
          · next hempty =>
            rw [hturn, hempty]
            exact .envelope rfl rfl
          · next hne =>
            rw [hturn, beq_eq_false_iff_ne.mpr hne, Bool.false_or]
            have hstate := onCourse_stateGraph limit w store t cmdId
              (.respond (interruptIdOf rt (params.field "interrupt_id")) (params.field "response"))
            cases hasst : store.assistant t with
            | none =>
                rw [hasst] at hstate
                exact hstate
            | some assistantId =>
                rw [hasst] at hstate
                exact hstate
    · cases hd : params.isDict with
      | false =>
          obtain ⟨exc, hexc⟩ := get_of_not_dict hd "run_id"
          rw [hexc] at hturn
          dsimp only at hturn
          rw [hturn]
          exact .raised _
      | true =>
          rw [get_of_dict hd] at hturn
          dsimp only at hturn
          rw [hturn]
          exact .envelope rfl rfl
    · rw [hturn]
      exact onCourse_stateGraph limit w store t cmdId .get
    · next hstart hrespond hcancel hget =>
      rw [hturn]
      split
      · exact absurd rfl hget
      · split
        · exact absurd rfl hstart
        · exact absurd rfl hrespond
        · exact absurd rfl hcancel
        · exact .envelope rfl rfl
  · next x hnot =>
    rw [hturn]
    cases x with
    | obj es => exact absurd rfl (hnot es)
    | _ => exact .envelope rfl rfl

end World

end AgentProtocol

import AgentProtocol.Value
import Mathlib.Data.List.Sort

/-!
# Message translation (`translation.py`)

`MessagesTranslator` turns streamed message chunks into protocol frames. Each
method is a function of the translator's state; what it hands to the sink and the
exception it may end with come back with the new state (`Emission`), so frames
sunk before an exception are not lost.

The only exception a method can raise comes from `json.loads`, when a block's
arguments are parsed at the end of a message.
-/

namespace AgentProtocol

/-- One entry of `tool_call_chunks`. -/
structure Fragment where
  index : Option Int
  id : Option String
  name : Option String
  args : Option String

/-- One element of a content list. -/
inductive ContentBlock where
  | text (s : String)
  | dict (type : Option String) (text : Value)
  | other

inductive Content where
  | text (s : String)
  | blocks (bs : List ContentBlock)
  | other

/-- A streamed message chunk, by the attributes the translator reads. -/
structure Chunk where
  /-- `id(chunk)` -/
  address : Nat
  type : String
  id : Option String
  content : Content
  toolCallChunks : List Fragment
  /-- empty when there is none -/
  usageMetadata : Dict String Json

inductive Frame where
  | messageStart (role id : String)
  | textDelta (index : Int) (text : String)
  | blockStart (index : Int) (id name : Option String)
  | blockDelta (index : Int) (id name : Option String) (args : String)
  | blockFinish (index : Int) (id name : Option String) (args : Json)
  | messageFinish (usage : Dict String Json)

/-- What a method leaves, sinks and raises. -/
structure Emission (σ : Type) where
  state : σ
  frames : List Frame
  raised : Option PyExc

def roleByType : List (String × String) :=
  [("aimessage", "ai"), ("aimessagechunk", "ai"), ("humanmessage", "human"),
   ("humanmessagechunk", "human"), ("systemmessage", "system"),
   ("systemmessagechunk", "system"), ("toolmessage", "tool"), ("toolmessagechunk", "tool")]

/-- `str.lower` on the alphabet of the table: besides the ASCII letters only the
Kelvin sign lowers into it. -/
def lower (s : String) : String :=
  .ofList (s.toList.map fun c => if c = '\u212A' then 'k' else c.toLower)

def role (chunk : Chunk) : Option String := Entries.get? (lower chunk.type) roleByType

/-- `a or b` on optional strings. -/
def strOr (a b : Option String) : Option String :=
  match a with
  | some s => if s = "" then b else some s
  | none => b

/-- Accumulator for one streamed tool-call argument block. -/
structure BlockState where
  index : Int
  callId : Option String
  name : Option String
  args : String

/-- The parsed arguments: a dict as it is, other JSON under `value`, text that is
not JSON under `raw`. -/
def BlockState.parseArgs (rt : Runtime) (state : BlockState) : Except PyExc Json :=
  let raw := if state.args = "" then "{}" else state.args
  match rt.loads raw with
  | .value parsed => .ok (if parsed.isDict then parsed else .obj [("value", parsed)])
  | .decodeError => .ok (.obj [("raw", .str raw)])
  | .raised exc => .error exc

/-- Per-message-id frame state. -/
structure MessageFrameEmitter where
  messageId : String
  role : String
  started : Bool
  finished : Bool
  textIndex : Option Int
  blocks : Dict Int BlockState
  nextIndex : Int
  /-- empty when there is none -/
  usage : Dict String Json

structure MessagesTranslator where
  openMessages : Dict String MessageFrameEmitter

namespace MessageFrameEmitter

def new (messageId role : String) : MessageFrameEmitter :=
  { messageId, role, started := false, finished := false, textIndex := none, blocks := ∅,
    nextIndex := 0, usage := ∅ }

def allocateIndex (e : MessageFrameEmitter) : Int × MessageFrameEmitter :=
  (e.nextIndex, { e with nextIndex := e.nextIndex + 1 })

def emitStart (e : MessageFrameEmitter) : MessageFrameEmitter × List Frame :=
  if e.started then (e, [])
  else ({ e with started := true }, [.messageStart e.role e.messageId])

def ensureTextIndex (e : MessageFrameEmitter) : Int × MessageFrameEmitter :=
  match e.textIndex with
  | some index => (index, e)
  | none =>
    let r := e.allocateIndex
    (r.1, { r.2 with textIndex := some r.1 })

end MessageFrameEmitter

/-- The text of one element of a content list. -/
def ContentBlock.plainText (rt : Runtime) : ContentBlock → String
  | .text s => s
  | .dict type value =>
    if type = some "text" ∨ type = some "text_delta" then
      (value.or (.str "")).toStr rt.repr
    else ""
  | .other => ""

/-- Plain-text fragment of a streamed message chunk. -/
def textContent (rt : Runtime) (chunk : Chunk) : String :=
  match chunk.content with
  | .text s => s
  | .blocks bs => String.join (bs.map (ContentBlock.plainText rt))
  | .other => ""

namespace MessageFrameEmitter

def emitTextDelta (rt : Runtime) (e : MessageFrameEmitter) (chunk : Chunk) :
    MessageFrameEmitter × List Frame :=
  let text := textContent rt chunk
  if text = "" then (e, [])
  else
    let r := e.ensureTextIndex
    (r.2, [.textDelta r.1 text])

/-- The index of a fragment, allocated when it carries none. -/
def fragmentIndex (e : MessageFrameEmitter) (fragment : Fragment) : Int × MessageFrameEmitter :=
  match fragment.index with
  | some index => (index, e)
  | none => e.allocateIndex

/-- One turn of the loop over `tool_call_chunks`. -/
def emitToolCallChunk (e : MessageFrameEmitter) (fragment : Fragment) :
    MessageFrameEmitter × List Frame :=
  let r := e.fragmentIndex fragment
  let index := r.1
  let e := r.2
  let opened : BlockState × List Frame :=
    match e.blocks.get? index with
    | none =>
      ({ index, callId := fragment.id, name := fragment.name, args := "" },
        [.blockStart index fragment.id fragment.name])
    | some state =>
      ({ state with
          callId := strOr state.callId fragment.id
          name := strOr state.name fragment.name }, [])
  let state := opened.1
  match fragment.args with
  | some args =>
    if args = "" then ({ e with blocks := e.blocks.set index state }, opened.2)
    else
      ({ e with blocks := e.blocks.set index { state with args := state.args ++ args } },
        opened.2 ++ [.blockDelta index state.callId state.name args])
  | none => ({ e with blocks := e.blocks.set index state }, opened.2)

def emitToolCallChunks (e : MessageFrameEmitter) :
    List Fragment → MessageFrameEmitter × List Frame
  | [] => (e, [])
  | fragment :: fragments =>
    let r := e.emitToolCallChunk fragment
    let r' := emitToolCallChunks r.1 fragments
    (r'.1, r.2 ++ r'.2)

/-- Finish frames for the blocks at these indices, up to one whose arguments
`json.loads` fails on. -/
def finalizeBlocksAt (rt : Runtime) (blocks : Dict Int BlockState) :
    List Int → List Frame × Option PyExc
  | [] => ([], none)
  | index :: indices =>
    match blocks.get? index with
    | none => finalizeBlocksAt rt blocks indices
    | some state =>
      match state.parseArgs rt with
      | .error exc => ([], some exc)
      | .ok args =>
        let r := finalizeBlocksAt rt blocks indices
        (.blockFinish index state.callId state.name args :: r.1, r.2)

def finalizeBlocks (rt : Runtime) (e : MessageFrameEmitter) : List Frame × Option PyExc :=
  finalizeBlocksAt rt e.blocks (e.blocks.keys.insertionSort (· ≤ ·))

/-- Usage metadata, where the chunk carries some, replaces what was kept. -/
def withUsage (usage : Dict String Json) (e : MessageFrameEmitter) : MessageFrameEmitter :=
  if usage.entries.isEmpty then e else { e with usage }

/-- The body of the loop of `finish`. -/
def close (rt : Runtime) (usage : Dict String Json) (e : MessageFrameEmitter) :
    Emission MessageFrameEmitter :=
  let e := e.withUsage usage
  match e.finalizeBlocks rt with
  | (frames, some exc) => { state := e, frames, raised := some exc }
  | (frames, none) =>
    { state := { e with finished := true }, frames := frames ++ [.messageFinish e.usage],
      raised := none }

end MessageFrameEmitter

namespace MessagesTranslator

def new : MessagesTranslator := { openMessages := ∅ }

def messageId (chunk : Chunk) : String :=
  (strOr chunk.id none).getD s!"msg-{chunk.address}"

/-- The loop of `finish` over the messages with these ids. -/
def closeAll (rt : Runtime) (usage : Dict String Json) :
    List String → MessagesTranslator → Emission MessagesTranslator
  | [], tr => { state := tr, frames := [], raised := none }
  | id :: ids, tr =>
    match tr.openMessages.get? id with
    | none => closeAll rt usage ids tr
    | some e =>
      let r := e.close rt usage
      let tr : MessagesTranslator := { openMessages := tr.openMessages.set id r.state }
      match r.raised with
      | some exc => { state := tr, frames := r.frames, raised := some exc }
      | none =>
        let r' := closeAll rt usage ids tr
        { r' with frames := r.frames ++ r'.frames }

/-- The ids of the messages `finish` terminates. -/
def targets (tr : MessagesTranslator) : Option Chunk → List String
  | none => (tr.openMessages.entries.filter fun entry => !entry.2.finished).map Prod.fst
  | some chunk =>
    match strOr chunk.id none with
    | none => []
    | some id =>
      match tr.openMessages.get? id with
      | none => []
      | some e => if e.finished then [] else [id]

/-- Terminate frames for this chunk's message (or all open messages). -/
def finish (rt : Runtime) (tr : MessagesTranslator) (chunk : Option Chunk) :
    Emission MessagesTranslator :=
  closeAll rt ((chunk.map Chunk.usageMetadata).getD ∅) (tr.targets chunk) tr

/-- The frames of a chunk for the message it belongs to. -/
def feedMessage (rt : Runtime) (tr : MessagesTranslator) (id : String)
    (e : MessageFrameEmitter) (chunk : Chunk) : MessagesTranslator × List Frame :=
  let r₁ := e.emitStart
  let r₂ := r₁.1.emitTextDelta rt chunk
  let r₃ := r₂.1.emitToolCallChunks chunk.toolCallChunks
  ({ openMessages := tr.openMessages.set id r₃.1 }, r₁.2 ++ r₂.2 ++ r₃.2)

def feed (rt : Runtime) (tr : MessagesTranslator) (chunk : Chunk) :
    Emission MessagesTranslator :=
  match role chunk with
  | none => { state := tr, frames := [], raised := none }
  | some role =>
    let id := messageId chunk
    match tr.openMessages.get? id with
    | some e =>
      if e.finished then { state := tr, frames := [], raised := none }
      else
        let r := tr.feedMessage rt id e chunk
        { state := r.1, frames := r.2, raised := none }
    | none =>
      -- sequential stream: a brand-new message terminates any still-open ones
      let closed := tr.finish rt none
      match closed.raised with
      | some exc => { closed with raised := some exc }
      | none =>
        let r := closed.state.feedMessage rt id (.new id role) chunk
        { state := r.1, frames := closed.frames ++ r.2, raised := none }

end MessagesTranslator

/-- The pairs of one state's `__interrupt__` entries. -/
def interruptPair (rt : Runtime) (entry : Value) : String × Value :=
  let interruptId := (entry.getattr "id").or (entry.dictGet "id")
  let payload :=
    match entry with
    | .dict _ => entry.dictGet "value"
    | _ => entry.getattr "value"
  (interruptId.toStr rt.repr, payload)

/-- Extract `(interrupt_id, payload)` pairs from state holding `__interrupt__`
entries. -/
def interruptsFromSnapshot (rt : Runtime) (snapshotValues : Dict String Value) :
    Except PyExc (List (String × Value)) :=
  match (((snapshotValues.get? "__interrupt__").getD .none).or (.list [])).iter with
  | .ok entries => .ok (entries.map (interruptPair rt))
  | .error exc => .error exc

end AgentProtocol

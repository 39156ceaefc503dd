import AgentProtocol.Hub.Stream
import AgentProtocol.Lib.Framing

/-!
# The event stream as text (`router.py`, `e2e.mjs`)

`_stream` writes one block after the other: a comment when the response begins and
while nothing happens, and for an envelope its method, its JSON and its seq.
`readStream` is the client's loop over the pieces the network delivers.

`json.dumps` and `JSON.parse` are parameters. A text is the list of its characters.
-/

namespace AgentProtocol

universe u v

variable {δ : Type u} {β : Type v}

def sseBlock (dumps : Envelope δ → String) (envelope : Envelope δ) : String :=
  let data := dumps envelope
  s!"event: {envelope.method}\ndata: {data}\nid: {envelope.seq}\n\n"

namespace Block

def text (dumps : Envelope δ → String) : Block δ → String
  | .connected => ": connected\n\n"
  | .heartbeat => ": heartbeat\n\n"
  | .event e => sseBlock dumps e

/-- The lines of a block. -/
def lines (dumps : Envelope δ → String) : Block δ → List (List Char)
  | .connected => [": connected".toList]
  | .heartbeat => [": heartbeat".toList]
  | .event e =>
    ["event: ".toList ++ e.method.toList, "data: ".toList ++ (dumps e).toList,
      "id: ".toList ++ (toString e.seq).toList]

end Block

/-! ## The client -/

/-- What a line of a block yields; text that `JSON.parse` throws on yields nothing. -/
def readLine (parse : String → Option β) (line : List Char) : Option β :=
  if ":".toList.isPrefixOf line then none
  else if "event: ".toList.isPrefixOf line then none
  else if "data: ".toList.isPrefixOf line then parse (.ofList (line.drop 6))
  else none

def readBlock (parse : String → Option β) (block : List Char) : List β :=
  (block.splitOn '\n').filterMap (readLine parse)

/-- The state of the loop. -/
structure Reader (β : Type v) where
  buf : List Char
  envelopes : List β

def Reader.new : Reader β := { buf := [], envelopes := [] }

/-- A piece of the text arrives. -/
def Reader.receive (parse : String → Option β) (r : Reader β) (value : List Char) : Reader β :=
  let cut := blocks "\n\n".toList (r.buf ++ value)
  { buf := cut.2, envelopes := r.envelopes ++ cut.1.flatMap (readBlock parse) }

/-- Read until enough has come, or the stream ends. -/
def readStream (parse : String → Option β) (enough : List β → Bool) :
    Reader β → List (List Char) → List β
  | r, [] => r.envelopes
  | r, value :: values =>
    let r := r.receive parse value
    if enough r.envelopes then r.envelopes else readStream parse enough r values

/-! ## One block -/

section Blocks

variable {dumps : Envelope δ → String} {parse : String → Option β}

theorem newline_not_mem_toString (n : Nat) : '\n' ∉ (toString n).toList := by
  intro h
  have hdigit : '\n'.isDigit = true := by
    refine Nat.isDigit_of_mem_toDigits (b := 10) (n := n) (by decide) (by decide) ?_
    rwa [← Nat.toList_repr]
  exact absurd hdigit (by decide)

theorem Block.text_eq (block : Block δ) :
    (block.text dumps).toList = ['\n'].intercalate (block.lines dumps) ++ "\n\n".toList := by
  cases block with
  | connected => simp [Block.text, Block.lines, List.intercalate_singleton]
  | heartbeat => simp [Block.text, Block.lines, List.intercalate_singleton]
  | event e =>
      have htext : sseBlock dumps e = "event: " ++ e.method ++ "\ndata: " ++ dumps e ++ "\nid: " ++
          toString e.seq ++ "\n\n" := rfl
      rw [Block.text, htext, Block.lines, List.intercalate_cons_cons, List.intercalate_cons_cons,
        List.intercalate_singleton]
      simp [String.toList_append]

/-- The lines of a block are lines, and none of them is empty. -/
theorem Block.lines_spec {block : Block δ} (h : ∀ e, Gen.envelope? block = some e →
      '\n' ∉ e.method.toList ∧ '\n' ∉ (dumps e).toList) :
    ∀ l ∈ block.lines dumps, l ≠ [] ∧ '\n' ∉ l := by
  cases block with
  | connected =>
      intro l hl
      rw [List.mem_singleton.mp hl]
      decide
  | heartbeat =>
      intro l hl
      rw [List.mem_singleton.mp hl]
      decide
  | event e =>
      obtain ⟨hm, hd⟩ := h e rfl
      have hs := newline_not_mem_toString e.seq
      unfold Block.lines
      simp only [List.forall_mem_cons, List.mem_append, not_or]
      refine ⟨⟨?_, by decide, hm⟩, ⟨?_, by decide, hd⟩, ⟨?_, by decide, hs⟩, fun l hl => by cases hl⟩
      all_goals exact List.append_ne_nil_of_left_ne_nil (by decide) _

theorem Block.lines_ne_nil (block : Block δ) : block.lines dumps ≠ [] := by
  cases block <;> exact List.cons_ne_nil _ _

/-- Reading a block gives back its envelope. -/
theorem readBlock_lines {block : Block δ} (h : ∀ e, Gen.envelope? block = some e →
      '\n' ∉ e.method.toList ∧ '\n' ∉ (dumps e).toList) :
    readBlock parse (['\n'].intercalate (block.lines dumps)) =
      ((Gen.envelope? block).bind fun e => parse (dumps e)).toList := by
  unfold readBlock
  rw [List.splitOn_intercalate _ (fun l hl => (Block.lines_spec h l hl).2)
    block.lines_ne_nil]
  cases block with
  | connected => rfl
  | heartbeat => rfl
  | event e =>
      have hevent : readLine parse ("event: ".toList ++ e.method.toList) = none := rfl
      have hid : readLine parse ("id: ".toList ++ (toString e.seq).toList) = none := rfl
      have hdata : readLine parse ("data: ".toList ++ (dumps e).toList) = parse (dumps e) := by
        show parse (.ofList (dumps e).toList) = _
        rw [String.ofList_toList]
      unfold Block.lines
      rw [List.filterMap_cons_none hevent]
      show _ = (parse (dumps e)).toList
      cases hp : parse (dumps e) with
      | none =>
          rw [List.filterMap_cons_none (hdata.trans hp), List.filterMap_cons_none hid]
          rfl
      | some x =>
          rw [List.filterMap_cons_some (hdata.trans hp), List.filterMap_cons_none hid]
          rfl

end Blocks

end AgentProtocol

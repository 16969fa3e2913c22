import Garuda.Tokenizer.Stream

/-!
# Chat turns as tokens

Each format puts markers around the turns. A marker that the vocabulary holds becomes that id, one
that it does not becomes the text it is written with, and the text between them goes through the
tokenizer.

* `ChatFormat.prefixPieces` and `ChatFormat.generationPieces` are the markup of each format.
* `encodeChat` places the control ids and encodes the text.
-/

namespace Garuda.Chat

/-- The turn markup a checkpoint expects. -/
inductive ChatFormat where
  | plain
  | zephyr
  | chatMl
  | qwen35
  | qwen35Thinking
  | mistral
  | llama3
  deriving DecidableEq, Repr

/-- A piece of the prompt: text to encode, or a control token to place verbatim. -/
inductive Seg where
  | text (t : String)
  | control (t : Token)
  deriving DecidableEq

/-- One item of a format's markup, before a vocabulary has been consulted. -/
inductive Piece where
  | marker (m : String)
  | text (t : String)
  deriving DecidableEq

def Piece.resolve (tk : Tokenize) : Piece → Seg
  | marker m =>
    match tk.tokenId m with
    | some id => .control id
    | none => .text m
  | text t => .text t

namespace ChatFormat

/-- The marker ending a turn, when it is not the checkpoint's end-of-sequence. -/
def turnEnd : ChatFormat → Option String
  | chatMl | qwen35 | qwen35Thinking => some "<|im_end|>"
  | llama3 => some "<|eot_id|>"
  | plain | zephyr | mistral => none

/-- What precedes a turn's content. -/
def prefixPieces (fmt : ChatFormat) (role : String) : List Piece :=
  match fmt with
  | zephyr => [.marker s!"<|{role}|>", .text "\n"]
  | chatMl | qwen35 | qwen35Thinking => [.marker "<|im_start|>", .text s!"{role}\n"]
  | llama3 => [.marker "<|start_header_id|>", .text role, .marker "<|end_header_id|>",
      .text "\n\n"]
  | plain | mistral => []

/-- What sits between one turn's end marker and the next turn's prefix. -/
def separator : ChatFormat → String
  | zephyr | chatMl | qwen35 | qwen35Thinking => "\n"
  | plain | mistral | llama3 => ""

/-- The cue that tells the model it is the assistant's turn to speak. -/
def generationPieces : ChatFormat → List Piece
  | zephyr => [.marker "<|assistant|>", .text "\n"]
  | chatMl => [.marker "<|im_start|>", .text "assistant\n"]
  | qwen35 => [.marker "<|im_start|>", .text "assistant\n", .marker "<think>", .text "\n\n",
      .marker "</think>", .text "\n\n"]
  | qwen35Thinking => [.marker "<|im_start|>", .text "assistant\n", .marker "<think>", .text "\n"]
  | llama3 => [.marker "<|start_header_id|>", .text "assistant", .marker "<|end_header_id|>",
      .text "\n\n"]
  | plain | mistral => []

/-- The end-of-turn id: the format's own marker, or else the end-of-sequence. -/
def turnEndId (fmt : ChatFormat) (tk : Tokenize) : Token :=
  (fmt.turnEnd.bind tk.tokenId).getD tk.eos

/-- One turn of a format that marks every role. -/
def turnSegments (fmt : ChatFormat) (tk : Tokenize) (role content : String) : List Seg :=
  (fmt.prefixPieces role).map (Piece.resolve tk) ++
    [.text content, .control (fmt.turnEndId tk), .text fmt.separator]

end ChatFormat

/-- The turns from here on, with the system text that waits for a user's turn. -/
def mistralFrom (close : Token) : String → List (String × String) → List Seg
  | system, [] => if system.isEmpty then [] else [.text s!"[INST] {system} [/INST]"]
  | system, (role, content) :: turns =>
    if role = "system" then
      mistralFrom close ((if system.isEmpty then system else system ++ "\n\n") ++ content) turns
    else if role = "assistant" then
      .text content :: .control close :: mistralFrom close system turns
    else
      let body := if system.isEmpty then content else s!"{system}\n\n{content}"
      .text s!"[INST] {body} [/INST]" :: mistralFrom close "" turns

/-- Mistral has no system role and no separate generation cue. -/
def mistralSegments (turns : List (String × String)) (close : Token) : List Seg :=
  mistralFrom close "" turns

/-- The role-prefixed transcript used when a checkpoint names no template. -/
def renderPlain (turns : List (String × String)) : String :=
  turns.foldl (fun p (role, content) => p ++ role ++ ": " ++ content ++ "\n") "" ++ "assistant: "

/-- `for seg in segs`; only the first fragment may carry the begin-of-sequence. -/
def emit (tk : Tokenize) : Bool → List Seg → List Token
  | _, [] => []
  | first, .control t :: segs => (if first then tk.encode "" else []) ++ t :: emit tk false segs
  | first, .text t :: segs =>
    if t.isEmpty then emit tk first segs
    else (if first then tk.encode t else tk.encodeFragment t) ++ emit tk false segs

/-- Turns into the exact token sequence `fmt` calls for. -/
def encodeChat (fmt : ChatFormat) (tk : Tokenize) (turns : List (String × String)) : List Token :=
  if fmt = .plain then tk.encode (renderPlain turns)
  else
    let segs := match fmt with
      | .mistral => mistralSegments turns (fmt.turnEndId tk)
      | _ => turns.flatMap (fun (role, content) => fmt.turnSegments tk role content) ++
          fmt.generationPieces.map (Piece.resolve tk)
    emit tk true segs

end Garuda.Chat

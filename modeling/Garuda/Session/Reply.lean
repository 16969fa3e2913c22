import Garuda.Quant.Layout
import Garuda.Scheduler.LastEvents
import Garuda.Tokenizer.Byte

/-!
# Replies

Two readers of a request's events: `Reply.collect` puts the whole reply together, `Reply.pieces`
streams it. Both read a finite history, the events that arrive before the channel closes.

* `Reply.received` are the tokens that either reads.
* `Reply.Agrees` says that a stream of pieces and a collected reply are the same reply.
* `Reply.agrees_iff` is the result: they are, exactly when the history has a last event. Where the
  channel closes without one, `collect` fails and `pieces` just stops.

`Reply.run_agrees_iff` says what that means for a request of the scheduler. `Reply.runOne` is a
third reader, which sends a reply over a WebSocket, and `Reply.runOne_events` compares it with
`pieces`.
-/

namespace Garuda

open Infra

/-- A fully collected reply. -/
structure Reply where
  text : String
  reason : StopReason
  tokens : Nat
  deriving DecidableEq

namespace Reply

/-- One normalised streaming event. -/
inductive Piece where
  | text (s : String)
  | done (reason : StopReason) (tokens : Nat)
  | error (e : GarudaError)
  deriving DecidableEq

/-! ## The two readers -/

section Readers

variable {δ : Type}

/-- The loop of `collect`: the tokens, and the reason if one arrives. -/
def gather : List Token → List StreamEvent → Except GarudaError (List Token × Option StopReason)
  | toks, [] => .ok (toks, none)
  | toks, .token t :: events => gather (toks ++ [t]) events
  | toks, .done r :: _ => .ok (toks, some r)
  | _, .error e :: _ => .error e

/-- `collect` -/
def collect (tok : Tokenize) (events : List StreamEvent) : Except GarudaError Reply := do
  let (toks, reason) ← gather [] events
  let reason ← reason.elim (.error (.scheduler "stream ended without a result")) .ok
  let text ← tok.decode toks
  .ok { text, reason, tokens := toks.length }

/-- A text is yielded unless it is empty. -/
def textPiece (s : String) : List Piece := if s.isEmpty then [] else [.text s]

/-- The loop of `pieces`, from a state of the decoder and a count of tokens. -/
def piecesFrom (dec : StreamDecode δ) : δ → Nat → List StreamEvent → List Piece
  | _, _, [] => []
  | d, tokens, .token t :: events =>
    textPiece (dec.push d t).1 ++ piecesFrom dec (dec.push d t).2 (tokens + 1) events
  | d, tokens, .done reason :: _ => textPiece (dec.finish d).1 ++ [.done reason tokens]
  | _, _, .error e :: _ => [.error e]

/-- `pieces`, with a new decoder `d`. -/
def pieces (dec : StreamDecode δ) (d : δ) (events : List StreamEvent) : List Piece :=
  piecesFrom dec d 0 events

/-- The tokens before the first event that is none. -/
def received : List StreamEvent → List Token
  | .token t :: events => t :: received events
  | _ => []

end Readers

/-! ## The same reply -/

/-- Pieces of text and one last piece, which is an error when the collected reply is one, and else
the end of a reply of that text. -/
inductive Agrees : List Piece → Except GarudaError Reply → Prop
  | done {texts : List String} {r : Reply} (h : String.join texts = r.text) :
    Agrees (texts.map .text ++ [.done r.reason r.tokens]) (.ok r)
  | error (texts : List String) (e e' : GarudaError) :
    Agrees (texts.map .text ++ [.error e]) (.error e')

/-! ## Histories -/

/-- What a reader finds behind the tokens. -/
inductive Ending : List StreamEvent → Prop
  | closed : Ending []
  | done (r : StopReason) (rest : List StreamEvent) : Ending (.done r :: rest)
  | error (e : GarudaError) (rest : List StreamEvent) : Ending (.error e :: rest)

/-- Every history is its tokens and an ending. -/
theorem exists_ending (events : List StreamEvent) :
    ∃ rest, events = (received events).map .token ++ rest ∧ Ending rest := by
  induction events with
  | nil => exact ⟨[], rfl, .closed⟩
  | cons event events ih =>
    cases event with
    | token t =>
      obtain ⟨rest, heq, hend⟩ := ih
      exact ⟨rest, congrArg (StreamEvent.token t :: ·) heq, hend⟩
    | done r => exact ⟨_, rfl, .done r events⟩
    | error e => exact ⟨_, rfl, .error e events⟩

theorem gather_tokens (toks ts : List Token) (rest : List StreamEvent) :
    gather toks (ts.map .token ++ rest) = gather (toks ++ ts) rest := by
  induction ts generalizing toks with
  | nil => rw [List.append_nil, List.map_nil, List.nil_append]
  | cons t ts ih => rw [List.map_cons, List.cons_append, gather, ih, List.append_assoc,
      List.singleton_append]

section Pieces

variable {δ : Type} (dec : StreamDecode δ)

theorem textPiece_eq (s : String) :
    ∃ texts : List String, textPiece s = texts.map .text ∧ String.join texts = s := by
  rw [textPiece]
  split
  · rename_i hempty
    exact ⟨[], rfl, (String.isEmpty_iff.mp hempty).symm⟩
  · exact ⟨[s], rfl, by simp [String.join]⟩

/-- What the tokens of a history are streamed as. The induction is on them, with the state of the
decoder; what it still holds back is the tail of the text. -/
theorem piecesFrom_tokens (d : δ) (n : Nat) (ts : List Token) (rest : List StreamEvent) :
    ∃ (texts : List String) (d' : δ),
      piecesFrom dec d n (ts.map .token ++ rest)
        = texts.map .text ++ piecesFrom dec d' (n + ts.length) rest ∧
      String.join texts ++ (dec.finish d').1 = dec.text d ts := by
  induction ts generalizing d n with
  | nil => exact ⟨[], d, rfl, by simp [String.join, StreamDecode.text]⟩
  | cons t ts ih =>
    obtain ⟨texts, d', hpieces, htext⟩ := ih (dec.push d t).2 (n + 1)
    obtain ⟨first, hfirst, hjoin⟩ := textPiece_eq (dec.push d t).1
    refine ⟨first ++ texts, d', ?_, ?_⟩
    · rw [List.map_cons, List.cons_append, piecesFrom, hpieces, hfirst, List.map_append,
        List.append_assoc, List.length_cons, Nat.add_right_comm, Nat.add_assoc]
    · rw [String.join_append, hjoin, String.append_assoc, htext, StreamDecode.text]

end Pieces

/-! ## Agreement -/

section Agreement

variable {δ : Type} (tok : Tokenize) (dec : StreamDecode δ) (d : δ)

theorem collect_done {ts : List Token} {text : String} (h : tok.decode ts = .ok text)
    (r : StopReason) (rest : List StreamEvent) :
    collect tok (ts.map .token ++ .done r :: rest) = .ok ⟨text, r, ts.length⟩ := by
  have hgather : gather [] (ts.map .token ++ .done r :: rest) = .ok (ts, some r) := by
    rw [gather_tokens, List.nil_append, gather]
  rw [collect, hgather]
  show (tok.decode ts >>= fun text => Except.ok (⟨text, r, ts.length⟩ : Reply)) = _
  rw [h]
  rfl

theorem collect_error (ts : List Token) (e : GarudaError) (rest : List StreamEvent) :
    collect tok (ts.map .token ++ .error e :: rest) = .error e := by
  rw [collect, gather_tokens, gather]
  rfl

/-- Texts alone are no reply. -/
theorem not_agrees_texts {texts : List String} {reply : Except GarudaError Reply} :
    ¬ Agrees (texts.map .text) reply := by
  intro hagrees
  have hlast : ∃ p ∈ texts.map Piece.text, ∀ s, p ≠ .text s := by
    generalize texts.map Piece.text = ps at hagrees
    cases hagrees with
    | done h => exact ⟨_, List.mem_append_right _ List.mem_cons_self, nofun⟩
    | error texts e e' => exact ⟨_, List.mem_append_right _ List.mem_cons_self, nofun⟩
  obtain ⟨p, hp, hne⟩ := hlast
  obtain ⟨s, -, rfl⟩ := List.mem_map.mp hp
  exact hne s rfl

variable {tok dec d} {events : List StreamEvent}

/-- With no last event, there is no last piece. -/
theorem not_agrees (h : ¬ ∃ e ∈ events, Ledger.Last e) :
    ¬ Agrees (pieces dec d events) (collect tok events) := by
  obtain ⟨rest, heq, hend⟩ := exists_ending events
  obtain ⟨texts, d', hpieces, -⟩ := piecesFrom_tokens dec d 0 (received events) rest
  cases hend with
  | closed =>
    rw [← heq, piecesFrom, List.append_nil] at hpieces
    rw [pieces, hpieces]
    exact not_agrees_texts
  | done r rest =>
    exact absurd ⟨.done r, heq ▸ List.mem_append_right _ List.mem_cons_self, trivial⟩ h
  | error e rest =>
    exact absurd ⟨.error e, heq ▸ List.mem_append_right _ List.mem_cons_self, trivial⟩ h

/-- With a last event, the two readers stop at the same one. -/
theorem agrees_of_last (h : tok.decode (received events) = .ok (dec.text d (received events)))
    (hlast : ∃ e ∈ events, Ledger.Last e) :
    Agrees (pieces dec d events) (collect tok events) := by
  obtain ⟨rest, heq, hend⟩ := exists_ending events
  obtain ⟨texts, d', hpieces, htext⟩ := piecesFrom_tokens dec d 0 (received events) rest
  rw [← heq, Nat.zero_add] at hpieces
  cases hend with
  | closed =>
    obtain ⟨e, he, hlast⟩ := hlast
    rw [heq, List.append_nil] at he
    obtain ⟨t, -, rfl⟩ := List.mem_map.mp he
    exact hlast.elim
  | done r rest =>
    obtain ⟨tail, htail, hjoin⟩ := textPiece_eq (dec.finish d').1
    have hjoined : String.join (texts ++ tail) = dec.text d (received events) := by
      rw [String.join_append, hjoin, htext]
    have hcollect := collect_done tok h r rest
    rw [← heq] at hcollect
    rw [pieces, hpieces, hcollect, piecesFrom, htail, ← List.append_assoc, ← List.map_append]
    exact .done (r := ⟨_, r, _⟩) hjoined
  | error e rest =>
    have hcollect := collect_error tok (received events) e rest
    rw [← heq] at hcollect
    rw [pieces, hpieces, hcollect, piecesFrom]
    exact .error texts e e

/--
**Streaming and collecting agree exactly when there is a last event.**

The tokenizer streams the tokens received as it decodes them. Where the channel closes with no last
event, the stream of pieces has no last piece.
-/
theorem agrees_iff (tok : Tokenize) (dec : StreamDecode δ) (d : δ) (events : List StreamEvent)
    (h : tok.decode (received events) = .ok (dec.text d (received events))) :
    Agrees (pieces dec d events) (collect tok events) ↔ ∃ e ∈ events, Ledger.Last e :=
  ⟨fun hagrees => by_contra fun hnone => not_agrees hnone hagrees, agrees_of_last h⟩

/-- The last byte of a character is held back until the next, and the next is the end. -/
theorem agrees_iff_held :
    Agrees (pieces Tokenizer.streamDecoder .new [.token 108, .token 199, .token 173, .done .eos])
        (collect Tokenizer.byteLevel [.token 108, .token 199, .token 173, .done .eos]) ↔
      ∃ e ∈ [StreamEvent.token 108, .token 199, .token 173, .done .eos], Ledger.Last e :=
  agrees_iff Tokenizer.byteLevel Tokenizer.streamDecoder .new _ (by decide +kernel)

/-- A channel closes after one token. -/
theorem agrees_missing :
    Tokenizer.byteLevel.decode (received [.token 108])
        = .ok (Tokenizer.streamDecoder.text .new (received [.token 108])) ∧
      pieces Tokenizer.streamDecoder .new [.token 108] = [.text "h"] ∧
      collect Tokenizer.byteLevel [.token 108]
        = .error (.scheduler "stream ended without a result") ∧
      ¬ Agrees (pieces Tokenizer.streamDecoder .new [.token 108])
        (collect Tokenizer.byteLevel [.token 108]) := by
  refine ⟨by decide +kernel, by decide +kernel, by decide +kernel, not_agrees ?_⟩
  rintro ⟨e, he, hlast⟩
  obtain rfl := List.mem_singleton.mp he
  exact hlast

/-- **A request of the scheduler**: when it has been dropped, streaming and collecting agree on its
events exactly when nobody cancelled it while it waited. -/
theorem run_agrees_iff {σ κ K Γ : Type} [Weight K] [DecidableEq κ] {cfg : SchedulerConfig}
    {rt : InferenceRuntime σ κ K Γ} {w : World σ κ} {as : List (Action K)} {s : Scheduler σ κ K Γ}
    (hrun : Scheduler.run cfg rt w as = some s) {id : Nat} (hkept : (s.streams id).closed = false)
    (hreleased : id ∈ s.book.released)
    (h : tok.decode (received (s.streams id).events)
      = .ok (dec.text d (received (s.streams id).events))) :
    Agrees (pieces dec d (s.streams id).events) (collect tok (s.streams id).events) ↔
      EachStep (Scheduler.step cfg rt) (Scheduler.SparesWaiting id) as (Scheduler.init w) := by
  rcases Scheduler.run_released hrun hkept hreleased with ⟨hspares, hended⟩ | ⟨hcancelled, hnil⟩
  · obtain ⟨tokens, last, hevents, -, hlast⟩ := hended
    have hmem : last ∈ (s.streams id).events :=
      hevents ▸ List.mem_append_right tokens List.mem_cons_self
    exact iff_of_true (agrees_of_last h ⟨last, hmem, hlast⟩) hspares
  · refine iff_of_false (not_agrees ?_) hcancelled
    rintro ⟨e, he, -⟩
    rw [hnil] at he
    cases he

end Agreement

end Reply

/-! ## Over a WebSocket -/

/-- `as_openai` -/
def StopReason.asOpenai : StopReason → String
  | .eos => "stop"
  | .length | .contextFull => "length"

/-- What is sent over a socket. -/
structure WsResponse where
  token : Option String
  error : Option String
  finishReason : Option String
  done : Bool
  deriving DecidableEq

namespace WsResponse

def ofToken (text : String) : WsResponse := ⟨some text, none, none, false⟩

def ofDone (reason : String) : WsResponse := ⟨none, none, some reason, true⟩

def ofError (msg : String) : WsResponse := ⟨none, some msg, none, true⟩

end WsResponse

namespace Reply

/-- What the loop waits for: a message of the client, or an event, or the end of the channel. -/
inductive Turn where
  /-- A text that asks to cancel. -/
  | cancel
  /-- A close message, or the end of the socket. -/
  | hangUp
  /-- Any other message. -/
  | other
  | event (ev : Option StreamEvent)

def wsText (s : String) : List WsResponse := if s.isEmpty then [] else [.ofToken s]

/-- The loop of `run_one`, as the responses it sends; a send that fails ends it there. -/
def runOne {δ : Type} (dec : StreamDecode δ) : δ → List Turn → List WsResponse
  | _, [] => []
  | _, .cancel :: _ => [.ofDone "cancelled"]
  | _, .hangUp :: _ => []
  | d, .other :: turns => runOne dec d turns
  | d, .event (some (.token t)) :: turns =>
    wsText (dec.push d t).1 ++ runOne dec (dec.push d t).2 turns
  | d, .event (some (.done reason)) :: _ => wsText (dec.finish d).1 ++ [.ofDone reason.asOpenai]
  | _, .event (some (.error e)) :: _ => [.ofError e.show]
  | _, .event none :: _ => [.ofDone "stop"]

/-- A piece, as it is sent. -/
def Piece.response : Piece → WsResponse
  | .text s => .ofToken s
  | .done reason _ => .ofDone reason.asOpenai
  | .error e => .ofError e.show

def isToken : StreamEvent → Bool
  | .token _ => true
  | .done _ => false
  | .error _ => false

theorem map_textPiece (s : String) : (textPiece s).map Piece.response = wsText s := by
  rw [textPiece, wsText]
  split <;> rfl

/-- A client that says nothing is sent the pieces of the reply. Where the channel closes without a
last event, it is sent one: the reply stopped. -/
theorem runOne_events {δ : Type} (dec : StreamDecode δ) (d : δ) (n : Nat)
    (events : List StreamEvent) :
    runOne dec d (events.map (fun ev => .event (some ev)) ++ [.event none])
      = (piecesFrom dec d n events).map Piece.response
        ++ if events.all isToken then [.ofDone "stop"] else [] := by
  induction events generalizing d n with
  | nil => rfl
  | cons ev events ih =>
    cases ev with
    | token t =>
      rw [List.map_cons, List.cons_append, runOne, ih _ (n + 1), piecesFrom, List.map_append,
        map_textPiece, List.append_assoc, List.all_cons, isToken, Bool.true_and]
    | done reason =>
      rw [List.map_cons, List.cons_append, runOne, piecesFrom, List.map_append, map_textPiece,
        List.all_cons, isToken, Bool.false_and, if_neg Bool.false_ne_true, List.append_nil]
      rfl
    | error e => rfl

end Reply

end Garuda

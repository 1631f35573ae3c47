import Mathlib.Tactic.Simps.Basic
import Capka.Stream.Parts

/-!
# The runner's buffers, flushes and snapshots

`consume` appends every token to `parts` at once and to a buffer of its kind; a flush publishes the reasoning buffer, then
the text buffer, then saves a snapshot. Each of the three awaits the database, and tokens keep arriving meanwhile. Flushes
are chained, so at most one is under way; a tool event waits for the flush it asks for, and no token arrives while it waits.
-/

namespace Capka

/-- Where the flush under way stands: none, past `flushReasoning`, or past `flushText`. -/
inductive FlushPhase
  | idle
  | afterReasoning
  | afterText
  deriving Repr, DecidableEq

/-- The streaming state of one reply: the runner's parts, buffers and number, the events published so far, and every
snapshot the message row has held. -/
structure StreamState where
  parts : List ReplyPart
  textBuf : List Char
  reasonBuf : List Char
  seq : Nat
  phase : FlushPhase
  published : List (Nat × StreamEvent)
  rows : List Stream.Snapshot
  deriving Repr, DecidableEq

/-- What can happen to a streaming reply. `saveSnapshot` is a write that lands; `skipSnapshot` is every other way the flush
ends: the throttle, a lost lease, nothing new to save, a write that failed. -/
inductive StreamAction
  | reasoningDelta (text : List Char)
  | textDelta (text : List Char)
  | flushReasoning
  | flushText
  | saveSnapshot
  | skipSnapshot
  | toolEvent (event : ToolEvent)
  deriving Repr, DecidableEq

namespace StreamState

/-- A turn that begins on a row holding `parts` and `seq`: an empty reply at 0, or the half a continuation loads. -/
def start (parts : List ReplyPart) (seq : Nat) : StreamState where
  parts := parts
  textBuf := []
  reasonBuf := []
  seq := seq
  phase := .idle
  published := []
  rows := [{ parts := parts, streamSeq := seq }]

/-- The buffer of a kind. -/
def buf (s : StreamState) : RunType → List Char
  | .reasoning => s.reasonBuf
  | .text => s.textBuf

/-- One more published event, under the next number. -/
def publish (e : StreamEvent) (s : StreamState) : StreamState :=
  { s with seq := s.seq + 1, published := s.published ++ [(s.seq + 1, e)] }

/-- `case "reasoning-delta"`. -/
def onReasoningDelta (text : List Char) (s : StreamState) : StreamState :=
  { s with parts := Stream.appendReasoning text s.parts, reasonBuf := s.reasonBuf ++ text }

/-- `case "text-delta"`, which drops an empty text. -/
def onTextDelta (text : List Char) (s : StreamState) : StreamState :=
  if text = [] then s
  else { s with parts := Stream.appendText text s.parts, textBuf := s.textBuf ++ text }

def flushReasoning (s : StreamState) : StreamState :=
  if s.reasonBuf = [] then s
  else publish (.delta .reasoning s.reasonBuf) { s with reasonBuf := [] }

def flushText (s : StreamState) : StreamState :=
  if s.textBuf = [] then s
  else publish (.delta .text s.textBuf) { s with textBuf := [] }

/-- How many runs a buffer will publish: one, unless it is empty. -/
def runs (b : List Char) : Nat := if b = [] then 0 else 1

@[simp] theorem runs_nil : runs [] = 0 := rfl

theorem runs_of_ne_nil {b : List Char} (h : b ≠ []) : runs b = 1 := if_neg h

/-- `snapSeq`: the number of the last event published, plus one for each run still buffered. -/
def snapSeq (s : StreamState) : Nat := s.seq + runs s.reasonBuf + runs s.textBuf

/-- `saveSnapshot`, when the write lands. -/
def saveSnapshot (s : StreamState) : StreamState :=
  { s with rows := s.rows ++ [{ parts := s.parts, streamSeq := s.snapSeq }] }

/-- What a tool event adds to `parts`. -/
def toolParts : ToolEvent → List ReplyPart
  | .toolInputStart _ => []
  | .toolCall i => [.toolCall i]
  | .toolApproval _ => []
  | .toolResult i => [.toolResult i]

/-- A tool event: its part, and the event, published at once. -/
def onToolEvent (e : ToolEvent) (s : StreamState) : StreamState :=
  publish (.tool e) { s with parts := s.parts ++ toolParts e }

/-- The flush moves on. -/
@[simps] def toPhase (phase : FlushPhase) (s : StreamState) : StreamState := { s with phase := phase }

/-- Everything that has arrived has been published. -/
def Drained (s : StreamState) : Prop := s.reasonBuf = [] ∧ s.textBuf = []

instance (s : StreamState) : Decidable s.Drained := inferInstanceAs (Decidable (_ ∧ _))

end StreamState

namespace Stream

open StreamState

/-- One step of a streaming reply. `doFlush` is the three phases in turn; a tool event has awaited a flush, so it finds the
buffers empty. -/
def step (s : StreamState) : StreamAction → Option StreamState
  | .reasoningDelta text => some (onReasoningDelta text s)
  | .textDelta text => some (onTextDelta text s)
  | .flushReasoning =>
    if s.phase = .idle then some ((flushReasoning s).toPhase .afterReasoning) else none
  | .flushText =>
    if s.phase = .afterReasoning then some ((flushText s).toPhase .afterText) else none
  | .saveSnapshot =>
    if s.phase = .afterText then some ((saveSnapshot s).toPhase .idle) else none
  | .skipSnapshot =>
    if s.phase = .afterText then some (s.toPhase .idle) else none
  | .toolEvent e => if s.Drained then some (onToolEvent e s) else none

/-- The number a token of each kind will be published under: the flush publishes reasoning before text, and a flush past
`flushReasoning` publishes the text next. -/
def publishNo (s : StreamState) : RunType → Nat
  | .reasoning => if s.phase = .afterReasoning then s.seq + 1 + runs s.textBuf else s.seq + 1
  | .text => if s.phase = .afterReasoning then s.seq + 1 else s.seq + 1 + runs s.reasonBuf

/-- No snapshot already written covers the number a token of the kind will be published under. -/
def Uncovered (s : StreamState) (type : RunType) : Prop := ∀ snap ∈ s.rows, snap.streamSeq < publishNo s type

instance (s : StreamState) (type : RunType) : Decidable (Uncovered s type) :=
  inferInstanceAs (Decidable (∀ snap ∈ s.rows, snap.streamSeq < publishNo s type))

/-- The condition on a step: a token that arrives joins a run whose number no snapshot covers yet. -/
def TokensUncovered (s : StreamState) : StreamAction → Prop
  | .reasoningDelta text => text = [] ∨ Uncovered s .reasoning
  | .textDelta text => text = [] ∨ Uncovered s .text
  | _ => True

instance (s : StreamState) : (a : StreamAction) → Decidable (TokensUncovered s a)
  | .reasoningDelta text => inferInstanceAs (Decidable (text = [] ∨ Uncovered s .reasoning))
  | .textDelta text => inferInstanceAs (Decidable (text = [] ∨ Uncovered s .text))
  | .flushReasoning => isTrue trivial
  | .flushText => isTrue trivial
  | .saveSnapshot => isTrue trivial
  | .skipSnapshot => isTrue trivial
  | .toolEvent _ => isTrue trivial

end Stream

end Capka

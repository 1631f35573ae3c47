import Mathlib
import Capka.Compaction.Shaping
import Capka.Lib.Steps

/-!
# The prompt of a step

The SDK rebuilds the message list of a stream from its own history at every step, so what a step did to it is gone at the next.
`prepareStep` does it again: it places the steers of the turn where they first stood, and clears the tool traffic before a boundary that
only moves forward. Bodies are opaque; a tool message carries results, an assistant's calls.
-/

namespace Capka

namespace StepControl

/-- The kinds of a tool result's output. -/
inductive OutputType
  | text
  | json
  | content
  | errorText
  | errorJson
  | executionDenied
  deriving Repr, DecidableEq

/-- The output of a tool result. -/
structure ResultOutput where
  type : OutputType
  value : String
  deriving Repr, DecidableEq

/-- A part of an assistant's message: a call, or any other. The result of a call the provider executes rides in the same message. -/
inductive AssistantPart
  | toolCall (toolCallId name input : String) (providerExecuted : Bool)
  | other (json : String)
  deriving Repr, DecidableEq

/-- A part of a tool message: a result, or the response to an approval. -/
inductive ToolContent
  | toolResult (toolCallId name : String) (output : ResultOutput)
  | approvalResponse (json : String)
  deriving Repr, DecidableEq

/-- `ModelMessage`. An assistant whose content is a string has one part, its text. -/
inductive ModelMessage
  | system (content : String)
  | user (content : String)
  | assistant (content : List AssistantPart)
  | tool (content : List ToolContent)
  deriving Repr, DecidableEq

structure PlacedSteer where
  id : String
  text : String
  index : Option Nat
  deriving Repr, DecidableEq

/-- The output of a result that the cut clears. -/
def OutputType.clearable : OutputType → Bool
  | .text => true
  | .json => true
  | .content => true
  | .errorText => false
  | .errorJson => false
  | .executionDenied => false

namespace ToolContent

/-- The call a part is the result of. -/
def resultId : ToolContent → Option String
  | .toolResult id _ _ => some id
  | .approvalResponse _ => none

/-- The call a part is the result of, where its body may be cleared. -/
def clearableId : ToolContent → Option String
  | .toolResult id _ output => if output.type.clearable then some id else none
  | .approvalResponse _ => none

/-- A result with its body cleared. -/
def clear (stale : List String) : ToolContent → ToolContent
  | .toolResult id name output =>
    if id ∈ stale then .toolResult id name { type := .text, value := "[cleared to save context]" } else .toolResult id name output
  | .approvalResponse json => .approvalResponse json

end ToolContent

namespace AssistantPart

/-- The call a part is, where a tool message answers it. -/
def callId : AssistantPart → Option String
  | .toolCall id _ _ providerExecuted => if providerExecuted then none else some id
  | .other _ => none

/-- A call with its arguments cleared. -/
def clear (stale : List String) : AssistantPart → AssistantPart
  | .toolCall id name input providerExecuted =>
    if id ∈ stale then .toolCall id name Shaping.clearedToolInput providerExecuted else .toolCall id name input providerExecuted
  | .other json => .other json

end AssistantPart

namespace ModelMessage

/-- The results a message carries. -/
def resultIds : ModelMessage → List String
  | .tool content => content.filterMap ToolContent.resultId
  | .system _ => []
  | .user _ => []
  | .assistant _ => []

/-- The results of a message whose bodies may be cleared. -/
def clearableIds : ModelMessage → List String
  | .tool content => content.filterMap ToolContent.clearableId
  | .system _ => []
  | .user _ => []
  | .assistant _ => []

def callIds : ModelMessage → List String
  | .assistant content => content.filterMap AssistantPart.callId
  | .system _ => []
  | .user _ => []
  | .tool _ => []

/-- A message before the cut. -/
def clear (stale : List String) : ModelMessage → ModelMessage
  | .assistant content => .assistant (content.map (AssistantPart.clear stale))
  | .tool content => .tool (content.map (ToolContent.clear stale))
  | .system content => .system content
  | .user content => .user content

end ModelMessage

/-- The calls whose results stand before the boundary only, and may be cleared. -/
def staleIds (messages : List ModelMessage) (boundary : Nat) : List String :=
  let live := (messages.drop boundary).flatMap ModelMessage.resultIds
  ((messages.take boundary).flatMap ModelMessage.clearableIds).filter (· ∉ live)

def pruneTurnToolTraffic (messages : List ModelMessage) (boundary : Nat) : List ModelMessage :=
  if boundary = 0 ∨ messages.length ≤ boundary then messages
  else if staleIds messages boundary = [] then messages
  else messages.mapIdx (fun i m => if boundary ≤ i then m else m.clear (staleIds messages boundary))

def steerFrame (text : String) : String := "The user added while you were working: " ++ text

def PlacedSteer.message (s : PlacedSteer) : ModelMessage := .user (steerFrame s.text)

/-- A steer that no step placed yet goes to the end of the list. -/
def PlacedSteer.place (length : Nat) (s : PlacedSteer) : PlacedSteer := { s with index := some (s.index.getD length) }

def steersAt (placed : List PlacedSteer) (i : Nat) : List PlacedSteer := placed.filter (fun s => s.index = some i)

/-- The loop of `injectSteers` from an index on: the steers placed there, then the message, and past the last message once more. -/
def weave (placed : List PlacedSteer) : Nat → List ModelMessage → List (ModelMessage ⊕ PlacedSteer)
  | i, [] => (steersAt placed i).map .inr
  | i, m :: ms => (steersAt placed i).map .inr ++ .inl m :: weave placed (i + 1) ms

/-- What the loop emits for an item. -/
def emit : ModelMessage ⊕ PlacedSteer → ModelMessage
  | .inl m => m
  | .inr s => s.message

def injectSteers (messages : List ModelMessage) (steers : List PlacedSteer) : List ModelMessage × List PlacedSteer :=
  if steers = [] then (messages, steers)
  else
    let placed := steers.map (PlacedSteer.place messages.length)
    ((weave placed 0 messages).map emit, placed)

/-- `TOOL_CLEAR_KEEP_LAST * MESSAGES_PER_TOOL_EXCHANGE`. -/
def keptMessages : Nat := 3 * 2

/-- `armPruneBoundary`. An index below zero is one the maximum discards. -/
def armPruneBoundary (triggerAt boundary lastStepContextTokens estimatedTokens messageCount stepNumber : Nat) (armedEarlier : Bool) : Nat :=
  if triggerAt = 0 then 0
  else
    let measured := if stepNumber = 0 then 0 else lastStepContextTokens
    let size := if measured ≠ 0 then measured else estimatedTokens
    if size < triggerAt then boundary
    else if stepNumber = 0 ∧ armedEarlier = false then boundary
    else max boundary (messageCount - keptMessages)

end StepControl

open StepControl

/-- A stream of a turn: the list its last step was given, the steers and the boundary, the steers accepted so far, and the list that step
sent. -/
structure StreamRun where
  triggerAt : Nat
  base : List ModelMessage
  anchors : List PlacedSteer
  boundary : Nat
  stepNumber : Nat
  accepted : List (String × String)
  prompt : List ModelMessage
  deriving DecidableEq

/-- A step of a stream: what its list grew by, the steers it takes, and what is known of the size of the prompt. -/
structure PrepareStep where
  grown : List ModelMessage
  fresh : List (String × String)
  lastStepContextTokens : Nat
  estimatedTokens : Nat
  armedEarlier : Bool
  deriving DecidableEq

namespace StreamRun

/-- A stream that begins, with the steers a stream before it took: `makeStream` dropped their places. -/
def begin (triggerAt : Nat) (base : List ModelMessage) (steers : List (String × String)) : StreamRun where
  triggerAt := triggerAt
  base := base
  anchors := steers.map (fun s => { id := s.1, text := s.2, index := none })
  boundary := 0
  stepNumber := 0
  accepted := steers
  prompt := []

/-- `prepareStep`. -/
def step (s : StreamRun) (a : PrepareStep) : Option StreamRun :=
  let base := s.base ++ a.grown
  let steered := injectSteers base (s.anchors ++ a.fresh.map (fun f => { id := f.1, text := f.2, index := none }))
  let next := armPruneBoundary s.triggerAt s.boundary a.lastStepContextTokens a.estimatedTokens base.length s.stepNumber a.armedEarlier
  let before := steered.2.countP (fun p => p.index.getD 0 ≤ next)
  some { s with
    base := base
    anchors := steered.2
    boundary := next
    stepNumber := s.stepNumber + 1
    accepted := s.accepted ++ a.fresh
    prompt := if s.triggerAt = 0 then steered.1 else pruneTurnToolTraffic steered.1 (next + before) }

end StreamRun

end Capka

import Mathlib
import Capka.Decisions.Parts
import Capka.Tree.Nodes

/-!
# What a model reads of a stored reply

`toUIMessages` folds the stored parts of each row into the parts of a message: a call and its result or error become one tool part in
one of the states of the SDK. `sealOrphanToolCalls` then closes the tool parts that were left open. The state of a tool part says what
the provider is sent as the result of the call, if anything.
-/

namespace Capka

/-- A call of the old format, which kept its calls and results apart. -/
structure LegacyCall where
  id : Nat
  name : String
  input : String
  deriving Repr, DecidableEq

/-- A result of the old format. -/
structure LegacyResult where
  id : Nat
  output : ToolOutput
  deriving DecidableEq

/-- A stored row, as the presenter reads it. A row without metadata has neither status nor parts nor calls. -/
structure PresenterRow where
  id : Nat
  role : Role
  content : List Char
  status : Option MessageStatus
  parts : Option (List StoredPart)
  toolCalls : Option (List LegacyCall)
  toolResults : List LegacyResult
  deriving DecidableEq

/-- The states of a tool part. -/
inductive ToolState
  | inputStreaming
  | inputAvailable
  | approvalRequested
  | approvalResponded
  | outputAvailable
  | outputError
  | outputDenied
  deriving Repr, DecidableEq

/-- A `dynamic-tool` part. -/
structure ToolPart where
  toolCallId : Nat
  toolName : String
  input : String
  state : ToolState
  output : Option ToolOutput
  errorText : Option String
  approval : Option Approval
  askForm : Option AskForm
  askValue : Option AskAnswer
  deriving DecidableEq

/-- A part of a message. -/
inductive UIPart
  | text (text : List Char)
  | reasoning (text : List Char)
  | dynamicTool (part : ToolPart)
  deriving DecidableEq

/-- A message fed to a model. -/
structure UIMessage where
  id : Nat
  role : Role
  parts : List UIPart
  deriving DecidableEq

/-- `INTERRUPTED_TOOL_RESULT`. -/
def interruptedToolResult : String := "The previous turn was interrupted before this tool finished, so it has no result."

/-- `UNANSWERED_ASK_RESULT`. -/
def unansweredAskResult : String := "The user did not answer this question."

/-- The result of an approved call of a completed turn that has none. -/
def notRunOutput : ToolOutput := .notRun "NOT_RUN" "Not run. This approved call never ran, so it has no result."

/-- What a skipped `ask` reads as. -/
def skippedAnswer : AskAnswer where
  action := .skip
  values := []

namespace Presenter

/-- `resultMap.get`: a later result of an id replaces an earlier one. -/
def resultMap (parts : List StoredPart) (id : Nat) : Option ToolOutput :=
  parts.foldl (fun found p => match p with
    | .toolResult i _ output => if i = id then some output else found
    | _ => found) none

/-- `errorMap.get`. -/
def errorMap (parts : List StoredPart) (id : Nat) : Option String :=
  parts.foldl (fun found p => match p with
    | .toolError i _ error _ => if i = id then some error else found
    | _ => found) none

/-- A text the code reads as one: an absent text and an empty one are both false. -/
def truthy (text : Option String) : Bool := text.any (· ≠ "")

/-- The part of an `ask` call. -/
def askPart (movedPast : Bool) (id : Nat) (name input : String) (q : AskPart) (tr : Option ToolOutput) : ToolPart :=
  let skipped := if tr.isNone && q.value.isNone && movedPast then some skippedAnswer else none
  { toolCallId := id
    toolName := name
    input := input
    state := if tr.isSome || skipped.isSome then .outputAvailable else .inputAvailable
    output := tr <|> skipped.map .answer
    errorText := none
    approval := none
    askForm := some q.form
    askValue := q.value <|> skipped }

/-- The part of a call that waits, or waited, for an approval. -/
def approvalPart (status : Option MessageStatus) (movedPast : Bool) (id : Nat) (name input : String) (approval : Approval)
    (tr : Option ToolOutput) (err : Option String) : ToolPart :=
  let a := if approval.approved = none && movedPast then
      { id := approval.id, approved := some false, reason := some undecidedApprovalReason } else approval
  let unsettled := a.approved = some true && tr.isNone && !truthy err && status ≠ some .awaitingApproval && status ≠ some .running
  let notRun := unsettled && status = some .completed
  let errorText := err <|> if unsettled && !notRun then some interruptedToolResult else none
  let output := if notRun then some notRunOutput else tr
  let state := if a.approved = none then ToolState.approvalRequested
    else if tr.isSome || notRun then .outputAvailable
    else if truthy errorText then .outputError
    else .approvalResponded
  { toolCallId := id
    toolName := name
    input := input
    state := state
    output := output
    errorText := if state = .outputError then errorText else none
    approval := some a
    askForm := none
    askValue := none }

/-- The part of an ordinary call. -/
def plainPart (status : Option MessageStatus) (id : Nat) (name input : String) (tr : Option ToolOutput) (err : Option String) : ToolPart :=
  let isLive := status = some .running
  let orphan := tr.isNone && !truthy err && !isLive
  { toolCallId := id
    toolName := name
    input := input
    state := if tr.isSome then .outputAvailable else if truthy err || orphan then .outputError else .inputAvailable
    output := tr
    errorText := if truthy err then err else if orphan then some interruptedToolResult else none
    approval := none
    askForm := none
    askValue := none }

def callPart (status : Option MessageStatus) (movedPast : Bool) (parts : List StoredPart) (id : Nat) (name input : String)
    (waitsOn : Option Suspension) : ToolPart :=
  match waitsOn with
  | some (.answer q) => askPart movedPast id name input q (resultMap parts id)
  | some (.approval a) => approvalPart status movedPast id name input a (resultMap parts id) (errorMap parts id)
  | none => plainPart status id name input (resultMap parts id) (errorMap parts id)

/-- What a stored part becomes: results and errors ride on their calls, and an empty text is left out. -/
def uiPart (status : Option MessageStatus) (movedPast : Bool) (parts : List StoredPart) : StoredPart → Option UIPart
  | .text text => if text = [] then none else some (.text text)
  | .reasoning text => if text = [] then none else some (.reasoning text)
  | .toolCall id name input waitsOn => some (.dynamicTool (callPart status movedPast parts id name input waitsOn))
  | .toolResult _ _ _ => none
  | .toolError _ _ _ _ => none

/-- The last result of an id in the old format. -/
def legacyResult (results : List LegacyResult) (id : Nat) : Option ToolOutput :=
  (results.reverse.find? (·.id = id)).map LegacyResult.output

/-- The part of a call of the old format. -/
def legacyPart (results : List LegacyResult) (call : LegacyCall) : ToolPart where
  toolCallId := call.id
  toolName := call.name
  input := call.input
  state := if (legacyResult results call.id).isSome then .outputAvailable else .outputError
  output := legacyResult results call.id
  errorText := none
  approval := none
  askForm := none
  askValue := none

/-- The text of a row that has one. -/
def contentPart (row : PresenterRow) : List UIPart := if row.content = [] then [] else [.text row.content]

/-- The parts of a row's message. -/
def messageParts (movedPast : Bool) (row : PresenterRow) : List UIPart :=
  match row.parts, row.toolCalls with
  | some parts, _ => parts.filterMap (uiPart row.status movedPast parts)
  | none, some calls => calls.map (fun call => .dynamicTool (legacyPart row.toolResults call)) ++ contentPart row
  | none, none => contentPart row

/-- The message of a row; a card waits only on the last message. -/
def uiMessage (movedPast : Bool) (row : PresenterRow) : UIMessage where
  id := row.id
  role := row.role
  parts := messageParts movedPast row

end Presenter

def toUIMessages (rows : List PresenterRow) : List UIMessage :=
  rows.mapIdx (fun i row => Presenter.uiMessage (i < rows.length - 1) row)

namespace ToolPart

/-- `ORPHAN_STATES`: a call nothing was returned for is closed as unanswered or as interrupted. -/
def sealOrphan (part : ToolPart) : ToolPart :=
  if part.state = .inputStreaming ∨ part.state = .inputAvailable then
    { part with
      state := .outputError
      errorText := part.errorText <|> some (if part.askForm.isSome then unansweredAskResult else interruptedToolResult) }
  else part

/-- An approval the chat moved past is declined. -/
def sealUndecided (last : Bool) (part : ToolPart) : ToolPart :=
  if part.state = .approvalRequested ∧ last = false then
    { part with
      state := .outputDenied
      approval := part.approval.map (fun a => { a with approved := some false, reason := some undecidedApprovalReason }) }
  else part

/-- A declined approval is a denial. -/
def sealDenied (part : ToolPart) : ToolPart :=
  if part.state = .approvalResponded ∧ part.approval.bind Approval.approved = some false then { part with state := .outputDenied } else part

/-- An approved call the chat moved past is closed as interrupted. -/
def sealUnrun (last : Bool) (part : ToolPart) : ToolPart :=
  if part.state = .approvalResponded ∧ part.approval.bind Approval.approved = some true ∧ last = false then
    { part with state := .outputError, errorText := part.errorText <|> some interruptedToolResult }
  else part

/-- What the loop of `sealOrphanToolCalls` does with a tool part. -/
def sealed (last : Bool) (part : ToolPart) : ToolPart := (((part.sealOrphan).sealUndecided last).sealDenied).sealUnrun last

end ToolPart

/-- A part after the loop. -/
def UIPart.sealed (last : Bool) : UIPart → UIPart
  | .dynamicTool part => .dynamicTool (part.sealed last)
  | part => part

/-- A message after the loop, which only looks at the assistant's. -/
def UIMessage.sealed (last : Bool) (m : UIMessage) : UIMessage :=
  if m.role = .assistant then { m with parts := m.parts.map (UIPart.sealed last) } else m

def sealOrphanToolCalls (messages : List UIMessage) : List UIMessage :=
  messages.mapIdx (fun i m => m.sealed (!decide (i < messages.length - 1)))

end Capka

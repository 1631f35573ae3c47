import Capka.Ask.Types
import Capka.Queue.Tasks

/-!
# Message rows

The stored parts of a reply, the metadata of a message row as far as the turn's writers read or write it, and the pure functions
that rebuild its text, say whether it left the user something to keep, and settle the calls nothing will run any more.
-/

namespace Capka

/-- The approval of a suspended call: `approved` is absent until the user decides. -/
structure Approval where
  id : Nat
  approved : Option Bool
  reason : Option String
  deriving Repr, DecidableEq

/-- The question of a suspended `ask` call: `value` is absent until the user answers. -/
structure AskPart where
  form : AskForm
  value : Option AskAnswer
  deriving DecidableEq

/-- What a call waits on: an approval, or the answer to an `ask`, which is never gated. -/
inductive Suspension
  | approval (a : Approval)
  | answer (q : AskPart)
  deriving DecidableEq

/-- The output of a tool: that of an approved call that never ran, the answer to an `ask`, or any other. -/
inductive ToolOutput
  | notRun (reason error : String)
  | answer (value : AskAnswer)
  | other (json : String)
  deriving DecidableEq

/-- `storedPartSchema`. -/
inductive StoredPart
  | text (text : List Char)
  | reasoning (text : List Char)
  | toolCall (id : Nat) (name : String) (input : String) (waitsOn : Option Suspension)
  | toolResult (id : Nat) (name : String) (output : ToolOutput)
  | toolError (id : Nat) (name : String) (error : String) (invalid : Bool)
  deriving DecidableEq

/-- The status of a reply. -/
inductive MessageStatus
  | running
  | awaitingApproval
  | awaitingAnswer
  | completed
  | failed
  | cancelled
  deriving Repr, DecidableEq

namespace MessageStatus

/-- `IN ('awaiting_approval', 'awaiting_answer')`. -/
def awaiting : MessageStatus → Bool
  | .awaitingApproval => true
  | .awaitingAnswer => true
  | .running => false
  | .completed => false
  | .failed => false
  | .cancelled => false

end MessageStatus

structure MessageMeta where
  taskId : Option Nat
  status : Option MessageStatus
  parts : Option (List StoredPart)
  steers : List Steer
  error : Option String
  errorDetail : Option String
  errorCategory : Option String
  deriving DecidableEq

/-- A row of `messages`. -/
structure MessageRow where
  id : Nat
  chatId : Nat
  parentId : Option Nat
  content : List Char
  metadata : MessageMeta
  deriving DecidableEq

/-- The table of messages. -/
abbrev Messages := Table MessageRow MessageRow.id

/-- The characters `trim()` strips. -/
def trimChars : List Char :=
  [0x9, 0xa, 0xb, 0xc, 0xd, 0x20, 0xa0, 0x1680, 0x2000, 0x2001, 0x2002, 0x2003, 0x2004, 0x2005, 0x2006, 0x2007, 0x2008, 0x2009,
    0x200a, 0x2028, 0x2029, 0x202f, 0x205f, 0x3000, 0xfeff].map Char.ofNat

/-- `btrim` with those characters. -/
def trim (text : List Char) : List Char :=
  ((text.dropWhile (· ∈ trimChars)).reverse.dropWhile (· ∈ trimChars)).reverse

namespace StoredPart

/-- The trimmed text of a text part that has one. -/
def textBlock : StoredPart → Option (List Char)
  | .text t => if trim t = [] then none else some (trim t)
  | _ => none

/-- The id of the call a part is the result of. -/
def resultOf : StoredPart → Option Nat
  | .toolResult id _ _ => some id
  | .toolError id _ _ _ => some id
  | _ => none

/-- A part that is work the user may keep: text, a result, or an error of a call that ran. -/
def isWork : StoredPart → Bool
  | .toolResult _ _ _ => true
  | .toolError _ _ _ invalid => !invalid
  | .text t => trim t ≠ []
  | _ => false

def approvedCall : StoredPart → Option (Nat × String)
  | .toolCall id name _ (some (.approval a)) => if a.approved = some true then some (id, name) else none
  | _ => none

/-- A call the user has still to decide. -/
def undecided : StoredPart → Bool
  | .toolCall _ _ _ (some (.approval a)) => a.approved = none
  | _ => false

/-- An `ask` the user has still to answer. -/
def unanswered : StoredPart → Bool
  | .toolCall _ _ _ (some (.answer q)) => q.value = none
  | _ => false

end StoredPart

/-- `replyText`, and `REPLY_TEXT_SQL` where the row has parts. -/
def replyText (parts : List StoredPart) : List Char :=
  List.intercalate ['\n', '\n'] (parts.filterMap StoredPart.textBlock)

/-- `sealUnrunApprovals`: each approved call without a result gets the one of a call that will never run. -/
def sealUnrunApprovals (parts : List StoredPart) (reason error : String) : List StoredPart :=
  let settled := parts.filterMap StoredPart.resultOf
  parts ++ ((parts.filterMap StoredPart.approvedCall).filter (fun c => c.1 ∉ settled)).map
    (fun c => .toolResult c.1 c.2 (.notRun reason error))

namespace MessageMeta

/-- The parts, or none. -/
def partList (m : MessageMeta) : List StoredPart := m.parts.getD []

/-- `metadata->>'status' IN ('awaiting_approval', 'awaiting_answer')`. -/
def awaiting (m : MessageMeta) : Bool := m.status.any MessageStatus.awaiting

/-- `INTERRUPTED_METADATA_SQL`; `effects` is whether the row has an executed call in its ledger. -/
def interrupted (effects : Bool) (m : MessageMeta) : MessageMeta :=
  if effects || m.partList.any StoredPart.isWork then
    { m with
      status := some .failed
      error := some "This task was interrupted part-way. What it finished above is kept — ask it to continue."
      errorCategory := some "interrupted_partial" }
  else
    { m with
      status := some .failed
      error := some "This task was interrupted and didn't finish. Please try again."
      errorCategory := some "interrupted" }

/-- What `settleCancelledContinuation` writes. -/
def cancelledContinuation (m : MessageMeta) : MessageMeta :=
  { m with
    status := some .cancelled
    parts := some (sealUnrunApprovals m.partList "stopped" "Not run. The turn was stopped before this approved call ran.") }

end MessageMeta

namespace MessageRow

/-- The text `REPLY_TEXT_SQL` gives a row. -/
def rebuiltText (m : MessageRow) : List Char :=
  match m.metadata.parts with
  | some parts => replyText parts
  | none => m.content

/-- A stranded reply the sweep fails: its text is rebuilt too. -/
def stranded (effects : Bool) (m : MessageRow) : MessageRow :=
  { m with content := m.rebuiltText, metadata := m.metadata.interrupted effects }

/-- A waiting reply whose continuation died: its text stays. -/
def abandoned (effects : Bool) (m : MessageRow) : MessageRow := { m with metadata := m.metadata.interrupted effects }

/-- `settleCancelledContinuation` on a row. -/
def settleCancelledContinuation (m : MessageRow) : MessageRow :=
  if m.metadata.awaiting then { m with metadata := m.metadata.cancelledContinuation } else m

@[simp] theorem stranded_id (effects : Bool) (m : MessageRow) : (m.stranded effects).id = m.id := rfl

@[simp] theorem abandoned_id (effects : Bool) (m : MessageRow) : (m.abandoned effects).id = m.id := rfl

@[simp] theorem settleCancelledContinuation_id (m : MessageRow) : m.settleCancelledContinuation.id = m.id := by
  unfold settleCancelledContinuation
  split <;> rfl

end MessageRow

end Capka

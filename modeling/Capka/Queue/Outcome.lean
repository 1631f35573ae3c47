import Capka.Chat.Message
import Capka.Lib.Steps

/-!
# The writers of a turn's outcome

`commitTurnOutcome` is a transaction of three statements, so a call in flight is a state of its own: it holds the lock of the task
row from its compare-and-set on, and that of the message row (or the id it inserts) from its second statement on. Both writes
become visible when it commits. Every other writer takes effect in one step, and waits for a locked row; the message rows may
also be written by anyone else at any time (`writeMessage`: a snapshot, a decision, an edit).
-/

namespace Capka

/-- Where `commitTurnOutcome` inserts a reply that does not exist yet. -/
structure ReplyPlace where
  chatId : Nat
  parentId : Option Nat
  deriving Repr, DecidableEq

/-- The input of `commitTurnOutcome`; its type admits only the statuses a turn ends in. -/
structure CommitCall where
  taskId : Nat
  workerId : Nat
  status : TaskStatus
  error : Option String
  messageId : Nat
  content : List Char
  metadata : MessageMeta
  insert : Option ReplyPlace
  terminal : status.terminal = true
  deriving DecidableEq

/-- `commitTurnOutcome` in flight, past its compare-and-set; `wrote` is whether its message statement succeeded. -/
structure CommitTx where
  sid : Nat
  call : CommitCall
  wrote : Bool
  deriving DecidableEq

/-- What the message statement writes into the row. -/
def CommitCall.write (c : CommitCall) (m : MessageRow) : MessageRow := { m with content := c.content, metadata := c.metadata }

@[simp] theorem CommitCall.write_id (c : CommitCall) (m : MessageRow) : (c.write m).id = m.id := rfl

/-- The row the message statement inserts. -/
def CommitCall.reply (c : CommitCall) (place : ReplyPlace) : MessageRow where
  id := c.messageId
  chatId := place.chatId
  parentId := place.parentId
  content := c.content
  metadata := c.metadata

/-- The message statement succeeded. -/
def CommitTx.written (c : CommitTx) : CommitTx := { c with wrote := true }

@[simp] theorem CommitTx.written_sid (c : CommitTx) : c.written.sid = c.sid := rfl

/-- The tables, the messages with a `message_effects` row, the chats' leaves, and the commits in flight. -/
structure OutcomeState where
  now : Nat
  tasks : Tasks
  messages : Messages
  effects : List Nat
  activeLeaf : Nat → Option Nat
  commits : Table CommitTx CommitTx.sid

/-- What can happen next. `commitBegin`, `commitMessage`, `commitEnd` are the life of one `commitTurnOutcome`; `commitFail` is a
connection lost before the commit. `reconcileZombies` reaches the rows its snapshot and the locks let it reach, as of its own
`now()`; `finalizeTask` with `resume` is the cancel of a claimed continuation, in one transaction with its message. -/
inductive OutcomeAct
  | tick (ms : Nat)
  | enqueueTask (id chatId userId : Nat) (resumeMessageId : Option Nat) (createdAt : Nat)
  | claimNextTask (id workerId startedAt : Nat)
  | heartbeat (id workerId startedAt : Nat)
  | absorbQueuedTasks (chatId exceptId : Nat)
  | requestCancel (id : Nat)
  | cancelQueuedTurn (id : Nat)
  | finalizeTask (id : Nat) (status : TaskStatus) (error : Option String) (workerId : Option Nat) (resume : Option Nat)
  | reconcileZombies (asOf : Nat) (taskIds messageIds : List Nat)
  | insertMessage (m : MessageRow)
  | writeMessage (id : Nat) (content : List Char) (metadata : MessageMeta)
  | deleteMessage (id : Nat)
  | moveLeaf (chatId : Nat) (leaf : Option Nat)
  | commitBegin (sid : Nat) (call : CommitCall)
  | commitMessage (sid : Nat)
  | commitEnd (sid : Nat)
  | commitFail (sid : Nat)

/-- The message arms of `reconcileZombies`, given the rows its `dead` arm took: a running reply of a dead task, or of one that had
already failed or was cancelled; and a waiting reply that a dead task was to finish. -/
def sweepMessage (effects : List Nat) (T : Tasks) (dead : List TaskRow) (m : MessageRow) : MessageRow :=
  if m.metadata.status = some .running ∧
      ((∃ r ∈ dead, m.metadata.taskId = some r.id) ∨
        ∃ r ∈ T, m.metadata.taskId = some r.id ∧ (r.status = .failed ∨ r.status = .cancelled)) then
    m.stranded (decide (m.id ∈ effects))
  else if m.metadata.awaiting ∧ ∃ r ∈ dead, r.resumeMessageId = some m.id then m.abandoned (decide (m.id ∈ effects))
  else m

@[simp] theorem sweepMessage_id (effects : List Nat) (T : Tasks) (dead : List TaskRow) (m : MessageRow) :
    (sweepMessage effects T dead m).id = m.id := by
  unfold sweepMessage
  split
  · rfl
  · split <;> rfl

/-- `settleCancelledContinuation` on the message a continuation resumes, when there is one. -/
def settleResume (resume : Option Nat) (M : Messages) : Messages :=
  match resume with
  | some id => M.modify id MessageRow.settleCancelledContinuation MessageRow.settleCancelledContinuation_id
  | none => M

/-- An update of the rows whose ids a statement reached. -/
def onReached {ρ : Type*} (key : ρ → Nat) (ids : List Nat) (f : ρ → ρ) (r : ρ) : ρ := if key r ∈ ids then f r else r

theorem onReached_key {ρ : Type*} {key : ρ → Nat} {ids : List Nat} {f : ρ → ρ} (hf : ∀ r, key (f r) = key r) (r : ρ) :
    key (onReached key ids f r) = key r := by
  unfold onReached
  split
  · exact hf r
  · rfl

namespace OutcomeState

/-- No tasks, no messages, nothing in flight. -/
def init : OutcomeState where
  now := 0
  tasks := .empty
  messages := .empty
  effects := []
  activeLeaf := fun _ => none
  commits := .empty

/-- A commit in flight holds the task row. -/
def TaskLocked (s : OutcomeState) (id : Nat) : Prop := ∃ c ∈ s.commits, c.call.taskId = id

instance (s : OutcomeState) (id : Nat) : Decidable (s.TaskLocked id) :=
  inferInstanceAs (Decidable (∃ c ∈ s.commits, c.call.taskId = id))

/-- A commit in flight wrote the message row, or inserted its id. -/
def MessageHeld (s : OutcomeState) (id : Nat) : Prop := ∃ c ∈ s.commits, c.wrote ∧ c.call.messageId = id

instance (s : OutcomeState) (id : Nat) : Decidable (s.MessageHeld id) :=
  inferInstanceAs (Decidable (∃ c ∈ s.commits, c.wrote ∧ c.call.messageId = id))

/-- The compare-and-set would match. -/
def Finalizable (s : OutcomeState) (id : Nat) (workerId : Option Nat) : Prop := ∃ r ∈ s.tasks, r.id = id ∧ r.finalizable workerId

instance (s : OutcomeState) (id : Nat) (workerId : Option Nat) : Decidable (s.Finalizable id workerId) :=
  inferInstanceAs (Decidable (∃ r ∈ s.tasks, r.id = id ∧ r.finalizable workerId))

/-- The message row exists. -/
def HasMessage (s : OutcomeState) (id : Nat) : Prop := ∃ m ∈ s.messages, m.id = id

instance (s : OutcomeState) (id : Nat) : Decidable (s.HasMessage id) := inferInstanceAs (Decidable (∃ m ∈ s.messages, m.id = id))

/-- Roll one commit back. -/
def rollback (s : OutcomeState) (sid : Nat) : OutcomeState := { s with commits := s.commits.erase sid }

/-- The first statement of `commitTurnOutcome`: without a matching row the call rolls back and answers false. -/
def commitBegin (s : OutcomeState) (sid : Nat) (call : CommitCall) : Option OutcomeState :=
  if s.TaskLocked call.taskId then none
  else if s.Finalizable call.taskId (some call.workerId) then
    (s.commits.insert { sid := sid, call := call, wrote := false }).map fun C => { s with commits := C }
  else some s

/-- Its second statement. An insert under an id that is taken throws, an update that matches no row answers false; both roll
back. -/
def commitMessage (s : OutcomeState) (sid : Nat) : Option OutcomeState :=
  (s.commits.get sid).bind fun c =>
    if c.wrote ∨ s.MessageHeld c.call.messageId then none
    else if s.HasMessage c.call.messageId ↔ c.call.insert = none then
      some { s with commits := s.commits.modify sid CommitTx.written CommitTx.written_sid }
    else some (s.rollback sid)

/-- Its `COMMIT`: both writes land, and the leaf moves to an inserted reply. The response may be lost. -/
def commitEnd (s : OutcomeState) (sid : Nat) : Option OutcomeState :=
  (s.commits.get sid).bind fun c =>
    if c.wrote then
      let t := { s.rollback sid with
        tasks := s.tasks.modify c.call.taskId (TaskRow.finalized c.call.status c.call.error) (TaskRow.finalized_id _ _) }
      match c.call.insert with
      | none => some { t with messages := s.messages.modify c.call.messageId c.call.write c.call.write_id }
      | some place =>
        (s.messages.insert (c.call.reply place)).map fun M =>
          { t with
            messages := M
            activeLeaf := fun chatId => if chatId = place.chatId then some c.call.messageId else s.activeLeaf chatId }
    else none

/-- `finalizeTask`, and `settleCancelledContinuation` with it when it won. -/
def finalizeTask (s : OutcomeState) (id : Nat) (status : TaskStatus) (error : Option String) (workerId resume : Option Nat) :
    Option OutcomeState :=
  if s.TaskLocked id ∨ ¬status.terminal ∨ ∃ m ∈ resume, s.MessageHeld m then none
  else
    some { s with
      tasks := s.tasks.modify id (TaskRow.settle status error workerId) (TaskRow.settle_id status error workerId)
      messages := if s.Finalizable id workerId then settleResume resume s.messages else s.messages }

/-- `cancelQueuedTurn` on a row that is still queued: the row goes, and a continuation's message is settled with it. -/
def cancelQueuedTurn (s : OutcomeState) (id : Nat) : Option OutcomeState :=
  (s.tasks.get id).bind fun r =>
    if r.status = .queued ∧ ¬s.TaskLocked id ∧ ∀ m ∈ r.resumeMessageId, ¬s.MessageHeld m then
      some { s with tasks := s.tasks.erase id, messages := settleResume r.resumeMessageId s.messages }
    else none

/-- `reconcileZombies`, over the rows it reaches. -/
def reconcileZombies (s : OutcomeState) (asOf : Nat) (taskIds messageIds : List Nat) : Option OutcomeState :=
  if asOf ≤ s.now ∧ (∀ id ∈ taskIds, ¬s.TaskLocked id) ∧ ∀ id ∈ messageIds, ¬s.MessageHeld id then
    let dead := s.tasks.rows.filter (fun r => r.id ∈ taskIds && r.dead asOf)
    some { s with
      tasks := s.tasks.map (onReached TaskRow.id taskIds (TaskRow.sweep asOf)) (onReached_key (TaskRow.sweep_id asOf))
      messages := s.messages.map (onReached MessageRow.id messageIds (sweepMessage s.effects s.tasks dead))
        (onReached_key (sweepMessage_id s.effects s.tasks dead)) }
  else none

def claim (workerId startedAt : Nat) (r : TaskRow) : TaskRow := if r.status = .queued then r.claimed workerId startedAt else r

@[simp] theorem claim_id (workerId startedAt : Nat) (r : TaskRow) : (claim workerId startedAt r).id = r.id := by
  unfold claim
  split <;> rfl

/-- The heartbeat of one row. -/
def beat (workerId startedAt : Nat) (r : TaskRow) : TaskRow := if r.beats workerId startedAt then r.renewed startedAt else r

@[simp] theorem beat_id (workerId startedAt : Nat) (r : TaskRow) : (beat workerId startedAt r).id = r.id := by
  unfold beat
  split <;> rfl

/-- Update one task row, once nobody holds it. -/
def updateTask (s : OutcomeState) (id : Nat) (f : TaskRow → TaskRow) (hf : ∀ r, (f r).id = r.id) : Option OutcomeState :=
  if s.TaskLocked id then none else some { s with tasks := s.tasks.modify id f hf }

/-- One step. -/
def step (s : OutcomeState) : OutcomeAct → Option OutcomeState
  | .tick ms => some { s with now := s.now + ms }
  | .enqueueTask id chatId userId resumeMessageId createdAt =>
    (insertQueued (.fresh id chatId userId resumeMessageId createdAt) s.tasks).map fun T => { s with tasks := T }
  | .claimNextTask id workerId startedAt => s.updateTask id (claim workerId startedAt) (claim_id workerId startedAt)
  | .heartbeat id workerId startedAt => s.updateTask id (beat workerId startedAt) (beat_id workerId startedAt)
  | .absorbQueuedTasks chatId exceptId =>
    if ∃ r ∈ s.tasks, r.absorbed chatId exceptId ∧ s.TaskLocked r.id then none
    else some { s with tasks := s.tasks.filter (fun r => !r.absorbed chatId exceptId) }
  | .requestCancel id => s.updateTask id TaskRow.cancelAsked TaskRow.cancelAsked_id
  | .cancelQueuedTurn id => s.cancelQueuedTurn id
  | .finalizeTask id status error workerId resume => s.finalizeTask id status error workerId resume
  | .reconcileZombies asOf taskIds messageIds => s.reconcileZombies asOf taskIds messageIds
  | .insertMessage m => if s.MessageHeld m.id then none else (s.messages.insert m).map fun M => { s with messages := M }
  | .writeMessage id content metadata =>
    if s.MessageHeld id then none
    else
      some { s with
        messages := s.messages.modify id (fun m => { m with content := content, metadata := metadata }) (fun _ => rfl) }
  | .deleteMessage id => if s.MessageHeld id then none else some { s with messages := s.messages.erase id }
  | .moveLeaf chatId leaf => some { s with activeLeaf := fun c => if c = chatId then leaf else s.activeLeaf c }
  | .commitBegin sid call => s.commitBegin sid call
  | .commitMessage sid => s.commitMessage sid
  | .commitEnd sid => s.commitEnd sid
  | .commitFail sid => some (s.rollback sid)

end OutcomeState

end Capka

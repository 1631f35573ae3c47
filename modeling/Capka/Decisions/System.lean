import Capka.Decisions.Parts
import Capka.Lib.Steps

/-!
# Decisions, continuations and sends around one reply

A decision is four moments: it reads the row, passes the rate limit, the model and the budget, writes everything in one
transaction, and answers its caller. Between them other decisions, sends and the runs that write the reply go on. A run (the turn
that suspended, or a continuation) loads the parts once and writes the whole metadata from memory: the parts it loaded, and
what it added.
-/

namespace Capka

/-- The reply the decisions are about: its chat, its owner, and the turn that first writes it. -/
structure Reply where
  messageId : Nat
  chatId : Nat
  ownerId : Nat
  turnId : Nat
  sha256 : Nat → String

/-- What a caller is answered; `error` is a throw (over budget, over the rate limit, or anything on the way). -/
inductive DecisionAnswer
  | applied
  | failed
  | gone
  | busy
  | error
  deriving Repr, DecidableEq

/-- The answers that say nothing was recorded. -/
def DecisionAnswer.refused : DecisionAnswer → Bool
  | .applied => false
  | .failed => false
  | .gone => true
  | .busy => true
  | .error => true

/-- How far a decision has come. -/
inductive DecisionPhase
  | read
  | admitted
  | rolledBack (answer : DecisionAnswer)
  | committed
  deriving Repr, DecidableEq

/-- A decision in flight: the metadata as it was read, the place of the call, the failure that model resolution left, if any. -/
structure DecisionStmt where
  sid : Nat
  verdict : Verdict
  taskId : Nat
  read : MessageMeta
  index : Nat
  failure : Option TurnFailure
  phase : DecisionPhase

/-- What the admission answers: the rate limit, a throw on the way, a resolution that leaves the turn without a model, a budget
refusal, or a reservation. -/
inductive Admission
  | limited
  | threw
  | unresolved (failure : TurnFailure)
  | overBudget
  | reserved
  deriving Repr, DecidableEq

/-- A decision whose transaction committed: the call, the verdict, and the continuation it enqueued. -/
structure Recorded where
  sid : Nat
  index : Nat
  verdict : Verdict
  taskId : Option Nat
  deriving DecidableEq

/-- A run that writes the reply: its task, the parts it loaded, and whether its terminal write is still to come. -/
structure ReplyRun where
  taskId : Nat
  loaded : List StoredPart
  live : Bool
  deriving DecidableEq

/-- A decision that was answered. -/
structure Answered where
  sid : Nat
  taskId : Nat
  answer : DecisionAnswer
  deriving Repr, DecidableEq

/-- The row's metadata, the chat's leaf and tasks, the pending holds by task, the decisions in flight; and for the record the
decisions that committed, the runs in the order they loaded the row, and the answers. -/
structure DecisionState where
  metadata : MessageMeta
  leaf : Nat
  tasks : Tasks
  holds : List Nat
  decisions : Table DecisionStmt DecisionStmt.sid
  log : List Recorded
  runs : List ReplyRun
  answers : List Answered

/-- What can happen next. `read`, `admitted`, `commit`, `finish` are the life of one decision; `throwInTx` is a statement of its
transaction that throws; `finish` says whether the notification after the commit went through. `start`, `snapshot` and
`terminal` are the life of a run, `send` is a message that goes past the reply, and the other turns of the chat come and go. -/
inductive DecisionAct
  | read (sid userId : Nat) (d : Decision) (taskId : Nat)
  | admitted (sid : Nat) (a : Admission)
  | commit (sid : Nat)
  | throwInTx (sid : Nat)
  | finish (sid : Nat) (notified : Bool)
  | claim (taskId workerId startedAt : Nat)
  | start (taskId : Nat)
  | snapshot (taskId : Nat) (added : List StoredPart) (steers : List Steer)
  | terminal (taskId : Nat) (status : TaskStatus) (shown : MessageStatus) (added : List StoredPart) (steers : List Steer)
  | send (leaf : Nat)
  | settleMovedPast
  | moveLeaf (leaf : Nat)
  | enqueueOther (id userId createdAt : Nat)
  | finishOther (id : Nat) (status : TaskStatus)
  | absorbQueuedTasks (exceptId : Nat)

namespace ReplyRun

/-- What a snapshot and the terminal write put into the row. -/
def write (run : ReplyRun) (status : MessageStatus) (added : List StoredPart) (steers : List Steer) : MessageMeta where
  taskId := some run.taskId
  status := some status
  parts := some (run.loaded ++ added)
  steers := steers
  error := none
  errorDetail := none
  errorCategory := none

end ReplyRun

/-- A task that writes the reply: the turn itself, or a continuation of it. -/
def TaskRow.writesReply (R : Reply) (r : TaskRow) : Bool := r.id = R.turnId || r.resumeMessageId = some R.messageId

namespace DecisionState

/-- The row of the turn that first writes the reply, running. -/
def turnRow (R : Reply) : TaskRow := { TaskRow.fresh R.turnId R.chatId R.ownerId none 0 with status := .running }

/-- The turn that first writes the reply has just inserted it. -/
def init (R : Reply) : DecisionState where
  metadata :=
    { taskId := some R.turnId, status := some .running, parts := some [], steers := [], error := none, errorDetail := none,
      errorCategory := none }
  leaf := R.messageId
  tasks := { rows := [turnRow R], nodup := List.nodup_singleton _ }
  holds := []
  decisions := .empty
  log := []
  runs := [{ taskId := R.turnId, loaded := [], live := true }]
  answers := []

/-- An id `nanoid()` may return, and a request nobody made before. -/
def Fresh (R : Reply) (s : DecisionState) (id : Nat) : Prop :=
  id ≠ R.turnId ∧ id ∉ s.holds ∧ (∀ r ∈ s.tasks, r.id ≠ id) ∧ (∀ d ∈ s.decisions, d.taskId ≠ id) ∧ (∀ a ∈ s.answers, a.taskId ≠ id)

instance (R : Reply) (s : DecisionState) (id : Nat) : Decidable (s.Fresh R id) :=
  inferInstanceAs (Decidable (id ≠ R.turnId ∧ id ∉ s.holds ∧ (∀ r ∈ s.tasks, r.id ≠ id) ∧ (∀ d ∈ s.decisions, d.taskId ≠ id) ∧
    (∀ a ∈ s.answers, a.taskId ≠ id)))

/-- No request with this number was made before. -/
def NewRequest (s : DecisionState) (sid : Nat) : Prop :=
  (∀ d ∈ s.decisions, d.sid ≠ sid) ∧ (∀ a ∈ s.answers, a.sid ≠ sid)

instance (s : DecisionState) (sid : Nat) : Decidable (s.NewRequest sid) :=
  inferInstanceAs (Decidable ((∀ d ∈ s.decisions, d.sid ≠ sid) ∧ (∀ a ∈ s.answers, a.sid ≠ sid)))

/-- Answer a decision in flight and forget it. -/
def reply (s : DecisionState) (d : DecisionStmt) (answer : DecisionAnswer) : DecisionState :=
  { s with
    decisions := s.decisions.erase d.sid
    answers := s.answers ++ [{ sid := d.sid, taskId := d.taskId, answer := answer }] }

/-- A decision in the next phase. -/
def inPhase (phase : DecisionPhase) (failure : Option TurnFailure) (d : DecisionStmt) : DecisionStmt :=
  { d with phase := phase, failure := failure }

@[simp] theorem inPhase_sid (phase : DecisionPhase) (failure : Option TurnFailure) (d : DecisionStmt) :
    (inPhase phase failure d).sid = d.sid := rfl

/-- Move a decision on. -/
def advance (s : DecisionState) (sid : Nat) (phase : DecisionPhase) (failure : Option TurnFailure) : DecisionState :=
  { s with decisions := s.decisions.modify sid (inPhase phase failure) (inPhase_sid phase failure) }

/-- The start of a decision: not the caller's reply, not the chat's leaf, or no waiting call of that name answers "gone". -/
def read (R : Reply) (s : DecisionState) (sid userId : Nat) (d : Decision) (taskId : Nat) : Option DecisionState :=
  if ¬(s.NewRequest sid ∧ s.Fresh R taskId) then none
  else if userId ≠ R.ownerId ∨ s.leaf ≠ R.messageId then
    some { s with answers := s.answers ++ [{ sid := sid, taskId := taskId, answer := .gone }] }
  else
    match d.find R.sha256 s.metadata.partList with
    | none => some { s with answers := s.answers ++ [{ sid := sid, taskId := taskId, answer := .gone }] }
    | some index =>
      (s.decisions.insert
        { sid := sid, verdict := d.verdict, taskId := taskId, read := s.metadata, index := index, failure := none,
          phase := .read }).map fun D => { s with decisions := D }

/-- The rate limit, the model and the budget. Only a reservation leaves a hold. -/
def admitted (s : DecisionState) (sid : Nat) (a : Admission) : Option DecisionState :=
  (s.decisions.get sid).bind fun d =>
    if d.phase = .read then
      match a with
      | .limited => some (s.reply d .error)
      | .threw => some (s.reply d .error)
      | .overBudget => some (s.reply d .error)
      | .unresolved failure => some (s.advance sid .admitted (some failure))
      | .reserved => some { s.advance sid .admitted none with holds := d.taskId :: s.holds }
    else none

/-- The continuation a decision enqueues. -/
def continuation (R : Reply) (taskId : Nat) : TaskRow := .fresh taskId R.chatId R.ownerId (some R.messageId) 0

/-- The transaction commits with the row written; it is on record from here on. -/
def record (s : DecisionState) (d : DecisionStmt) (taskId : Option Nat) : DecisionState :=
  { s.advance d.sid .committed d.failure with
    metadata := Decision.write d.verdict d.index d.failure d.read
    log := s.log ++ [{ sid := d.sid, index := d.index, verdict := d.verdict, taskId := taskId }] }

/-- The transaction: the leaf under the chat's lock, the update under its guard, and the enqueue, which must create a task. A
decision whose turn cannot go on enqueues nothing. -/
def commit (R : Reply) (s : DecisionState) (sid : Nat) : Option DecisionState :=
  (s.decisions.get sid).bind fun d =>
    if d.phase = .admitted then
      if s.leaf ≠ R.messageId ∨ Decision.guard d.verdict s.metadata = false then
        some (s.advance sid (.rolledBack .gone) d.failure)
      else
        match d.failure with
        | some _ => some (s.record d none)
        | none =>
          match insertQueued (continuation R d.taskId) s.tasks with
          | none => some (s.advance sid (.rolledBack .busy) d.failure)
          | some T => some { s.record d (some d.taskId) with tasks := T }
    else none

/-- A statement of the transaction throws. -/
def throwInTx (s : DecisionState) (sid : Nat) : Option DecisionState :=
  (s.decisions.get sid).bind fun d =>
    if d.phase = .admitted then some (s.advance sid (.rolledBack .error) d.failure) else none

/-- The answer: a rolled back decision releases its hold; a committed one notifies, and throws when that fails. -/
def finish (s : DecisionState) (sid : Nat) (notified : Bool) : Option DecisionState :=
  (s.decisions.get sid).bind fun d =>
    match d.phase with
    | .read => none
    | .admitted => none
    | .rolledBack answer => some { s.reply d answer with holds := s.holds.filter (fun id => id ≠ d.taskId) }
    | .committed =>
      if d.failure.isSome then some (s.reply d .failed)
      else some (s.reply d (if notified then .applied else .error))

/-- A claimed task that writes the reply starts: it loads the row, once. -/
def start (R : Reply) (s : DecisionState) (taskId : Nat) : Option DecisionState :=
  if (∃ r ∈ s.tasks, r.id = taskId ∧ r.status = .running ∧ r.writesReply R) ∧ ∀ run ∈ s.runs, run.taskId ≠ taskId then
    some { s with runs := s.runs ++ [{ taskId := taskId, loaded := s.metadata.partList, live := true }] }
  else none

def runOf (s : DecisionState) (taskId : Nat) : Option ReplyRun := s.runs.find? (fun run => run.live && run.taskId = taskId)

/-- A mid-stream snapshot. -/
def snapshot (s : DecisionState) (taskId : Nat) (added : List StoredPart) (steers : List Steer) : Option DecisionState :=
  (s.runOf taskId).map fun run => { s with metadata := run.write .running added steers }

/-- A run that has made its terminal write. -/
def ended (taskId : Nat) (run : ReplyRun) : ReplyRun := if run.taskId = taskId then { run with live := false } else run

/-- The terminal write, with the task's outcome; the run then settles its hold. -/
def terminal (s : DecisionState) (taskId : Nat) (status : TaskStatus) (shown : MessageStatus) (added : List StoredPart)
    (steers : List Steer) : Option DecisionState :=
  (s.runOf taskId).bind fun run =>
    if status.terminal then
      some { s with
        metadata := run.write shown added steers
        tasks := s.tasks.modify taskId (TaskRow.finalized status none) (TaskRow.finalized_id _ _)
        runs := s.runs.map (ended taskId)
        holds := s.holds.filter (fun id => id ≠ taskId) }
    else none

/-- The claim of a queued task. -/
def claimRow (workerId startedAt : Nat) (r : TaskRow) : TaskRow :=
  if r.status = .queued then r.claimed workerId startedAt else r

@[simp] theorem claimRow_id (workerId startedAt : Nat) (r : TaskRow) : (claimRow workerId startedAt r).id = r.id := by
  unfold claimRow
  split <;> rfl

/-- The end of a turn that does not write the reply. -/
def finishRow (R : Reply) (status : TaskStatus) (r : TaskRow) : TaskRow :=
  if r.writesReply R then r else r.finalized status none

@[simp] theorem finishRow_id (R : Reply) (status : TaskStatus) (r : TaskRow) : (finishRow R status r).id = r.id := by
  unfold finishRow
  split <;> rfl

/-- One step. -/
def step (R : Reply) (s : DecisionState) : DecisionAct → Option DecisionState
  | .read sid userId d taskId => s.read R sid userId d taskId
  | .admitted sid a => s.admitted sid a
  | .commit sid => s.commit R sid
  | .throwInTx sid => s.throwInTx sid
  | .finish sid notified => s.finish sid notified
  | .claim taskId workerId startedAt =>
    some { s with tasks := s.tasks.modify taskId (claimRow workerId startedAt) (claimRow_id workerId startedAt) }
  | .start taskId => s.start R taskId
  | .snapshot taskId added steers => s.snapshot taskId added steers
  | .terminal taskId status shown added steers => s.terminal taskId status shown added steers
  | .send leaf => some { s with leaf := leaf, metadata := if s.leaf = R.messageId then s.metadata.movedPast else s.metadata }
  | .settleMovedPast => some { s with metadata := s.metadata.movedPast }
  | .moveLeaf leaf => some { s with leaf := leaf }
  | .enqueueOther id userId createdAt =>
    if s.Fresh R id then
      (insertQueued (.fresh id R.chatId userId none createdAt) s.tasks).map fun T => { s with tasks := T }
    else none
  | .finishOther id status =>
    if status.terminal then some { s with tasks := s.tasks.modify id (finishRow R status) (finishRow_id R status) } else none
  | .absorbQueuedTasks exceptId =>
    some { s with tasks := s.tasks.filter (fun r => !r.absorbed R.chatId exceptId) }

end DecisionState

end Capka

import Capka.Lib.Steps
import Capka.Queue.Tasks

/-!
# The statements of the queue, interleaved

`claimNextTask` is one statement, but not one moment: its `now()` and its snapshot are those of its start, and only the
advisory locks and the row lock look at the present. So a claim in flight is a state of its own, advanced candidate by
candidate. `heartbeat` keeps its starting time too. The other statements take effect in one step; one that would write a row
locked by a claim waits, which is to say that its step cannot happen yet.
-/

namespace Capka

/-- The chats' projects, fixed during a run, and the hash that names an advisory lock. -/
structure Workspaces where
  projectId : Nat → Option Nat
  hashtext : Nat → Nat

namespace Workspaces

/-- `COALESCE(project_id, id)` of a chat. -/
def key (W : Workspaces) (chatId : Nat) : Nat := (W.projectId chatId).getD chatId

/-- The advisory lock of a chat's workspace. -/
def lock (W : Workspaces) (chatId : Nat) : Nat := W.hashtext (W.key chatId)

end Workspaces

/-- A row that holds its workspace: running, with a lease that has not expired. -/
def TaskRow.live (at_ : Nat) (r : TaskRow) : Bool := r.status = .running && r.leaseAfter at_

/-- `claimNextTask` in flight: the candidates of its snapshot it has looked at, the advisory locks it took, the candidates that
passed both conditions, those `SKIP LOCKED` skipped or a newer row version disqualified, and the row it locked. -/
structure ClaimStmt where
  sid : Nat
  workerId : Nat
  startedAt : Nat
  snapshot : Tasks
  scanned : List Nat
  locks : List Nat
  passed : List TaskRow
  skipped : List Nat
  picked : Option TaskRow

namespace ClaimStmt

def start (sid workerId startedAt : Nat) (snapshot : Tasks) : ClaimStmt where
  sid := sid
  workerId := workerId
  startedAt := startedAt
  snapshot := snapshot
  scanned := []
  locks := []
  passed := []
  skipped := []
  picked := none

/-- The `NOT EXISTS` fails: the snapshot shows a running turn of the workspace under a lease. -/
def excluded (W : Workspaces) (c : ClaimStmt) (q : TaskRow) : Bool :=
  c.snapshot.rows.any (fun r => W.key r.chatId = W.key q.chatId && r.live c.startedAt)

/-- Look at a candidate; `free` is whether its advisory lock could be taken. -/
def scan (W : Workspaces) (free : Bool) (q : TaskRow) (c : ClaimStmt) : ClaimStmt :=
  { c with
    scanned := q.id :: c.scanned
    locks := if free then W.lock q.chatId :: c.locks else c.locks
    passed := if free && !c.excluded W q then q :: c.passed else c.passed }

/-- Skip a candidate that another claim locked or that is no longer queued. -/
def skip (q : TaskRow) (c : ClaimStmt) : ClaimStmt := { c with skipped := q.id :: c.skipped }

/-- Lock a candidate's row. -/
def pick (q : TaskRow) (c : ClaimStmt) : ClaimStmt := { c with picked := some q }

@[simp] theorem scan_sid (W : Workspaces) (free : Bool) (q : TaskRow) (c : ClaimStmt) : (c.scan W free q).sid = c.sid := rfl

@[simp] theorem skip_sid (q : TaskRow) (c : ClaimStmt) : (c.skip q).sid = c.sid := rfl

@[simp] theorem pick_sid (q : TaskRow) (c : ClaimStmt) : (c.pick q).sid = c.sid := rfl

/-- `ORDER BY t.created_at`: every older candidate was looked at, and did not pass or was skipped. -/
def oldest (c : ClaimStmt) (q : TaskRow) : Bool :=
  c.snapshot.rows.all (fun p => p.status ≠ .queued || q.createdAt ≤ p.createdAt ||
    (p.id ∈ c.scanned && (p.id ∉ c.passed.map TaskRow.id || p.id ∈ c.skipped)))

end ClaimStmt

/-- `heartbeat` in flight. -/
structure BeatStmt where
  sid : Nat
  taskId : Nat
  workerId : Nat
  startedAt : Nat

/-- The clock, the table, and the statements in flight. -/
structure QueueState where
  now : Nat
  tasks : Tasks
  claims : Table ClaimStmt ClaimStmt.sid
  beats : Table BeatStmt BeatStmt.sid

/-- What can happen next. `claimStart`, `claimScan`, `claimSkip`, `claimPick`, `claimCommit` are the life of one
`claimNextTask`; `claimEnd` is one that returned no row or was rolled back. `reconcileZombies asOf` is the sweep whose `now()`
is `asOf`; `finalizeTask` with a worker is also the task's half of `commitTurnOutcome`. -/
inductive QueueAct
  | tick (ms : Nat)
  | enqueueTask (id chatId userId : Nat) (resumeMessageId : Option Nat) (createdAt : Nat)
  | absorbQueuedTasks (chatId exceptId : Nat)
  | cancelQueuedTurn (id : Nat)
  | requestCancel (id : Nat)
  | claimStart (sid workerId : Nat)
  | claimScan (sid id : Nat)
  | claimSkip (sid id : Nat)
  | claimPick (sid id : Nat)
  | claimCommit (sid : Nat)
  | claimEnd (sid : Nat)
  | heartbeatStart (sid taskId workerId : Nat)
  | heartbeatRun (sid : Nat)
  | finalizeTask (id : Nat) (status : TaskStatus) (error : Option String) (workerId : Option Nat)
  | reconcileZombies (asOf : Nat)

namespace QueueState

/-- No tasks and no statements. -/
def init : QueueState where
  now := 0
  tasks := .empty
  claims := .empty
  beats := .empty

/-- A claim in flight holds the row lock. -/
def RowLocked (s : QueueState) (id : Nat) : Prop := ∃ c ∈ s.claims, ∃ q ∈ c.picked, q.id = id

instance (s : QueueState) (id : Nat) : Decidable (s.RowLocked id) :=
  inferInstanceAs (Decidable (∃ c ∈ s.claims, ∃ q ∈ c.picked, q.id = id))

/-- `pg_try_advisory_xact_lock`: no other transaction holds the lock. -/
def LockFree (s : QueueState) (sid lock : Nat) : Prop := ∀ c ∈ s.claims, lock ∈ c.locks → c.sid = sid

instance (s : QueueState) (sid lock : Nat) : Decidable (s.LockFree sid lock) :=
  inferInstanceAs (Decidable (∀ c ∈ s.claims, lock ∈ c.locks → c.sid = sid))

/-- The candidate's row can be locked: no other claim has it, and its newest version is still queued. -/
def Lockable (s : QueueState) (q : TaskRow) : Prop :=
  ¬s.RowLocked q.id ∧ ∃ r ∈ s.tasks, r.id = q.id ∧ r.chatId = q.chatId ∧ r.status = .queued

instance (s : QueueState) (q : TaskRow) : Decidable (s.Lockable q) :=
  inferInstanceAs (Decidable (¬s.RowLocked q.id ∧ ∃ r ∈ s.tasks, r.id = q.id ∧ r.chatId = q.chatId ∧ r.status = .queued))

def advance (s : QueueState) (sid : Nat) (f : ClaimStmt → ClaimStmt) (hf : ∀ c, (f c).sid = c.sid) : QueueState :=
  { s with claims := s.claims.modify sid f hf }

/-- The claim looks at one candidate of its snapshot. -/
def claimScan (W : Workspaces) (s : QueueState) (sid id : Nat) : Option QueueState :=
  (s.claims.get sid).bind fun c => (c.snapshot.get id).bind fun q =>
    if q.status = .queued ∧ id ∉ c.scanned ∧ c.picked = none then
      some (s.advance sid (ClaimStmt.scan W (decide (s.LockFree sid (W.lock q.chatId))) q) (ClaimStmt.scan_sid W _ q))
    else none

/-- The claim skips one candidate that passed. -/
def claimSkip (s : QueueState) (sid id : Nat) : Option QueueState :=
  (s.claims.get sid).bind fun c => (c.passed.find? (fun q => q.id = id)).bind fun q =>
    if ¬s.Lockable q then some (s.advance sid (ClaimStmt.skip q) (ClaimStmt.skip_sid q)) else none

/-- The claim locks the oldest candidate that passed and was not skipped. -/
def claimPick (s : QueueState) (sid id : Nat) : Option QueueState :=
  (s.claims.get sid).bind fun c => (c.passed.find? (fun q => q.id = id)).bind fun q =>
    if c.picked = none ∧ c.oldest q ∧ s.Lockable q then some (s.advance sid (ClaimStmt.pick q) (ClaimStmt.pick_sid q)) else none

/-- The claim updates the row it locked, commits, and lets its locks go. -/
def claimCommit (s : QueueState) (sid : Nat) : Option QueueState :=
  (s.claims.get sid).bind fun c => c.picked.bind fun q =>
    some { s with
      tasks := s.tasks.modify q.id (TaskRow.claimed c.workerId c.startedAt) (TaskRow.claimed_id _ _)
      claims := s.claims.erase sid }

/-- What `heartbeat` does to the row it names. -/
def beat (b : BeatStmt) (r : TaskRow) : TaskRow := if r.beats b.workerId b.startedAt then r.renewed b.startedAt else r

@[simp] theorem beat_id (b : BeatStmt) (r : TaskRow) : (beat b r).id = r.id := by
  unfold beat
  split <;> rfl

/-- `heartbeat` reaches its row. -/
def heartbeatRun (s : QueueState) (sid : Nat) : Option QueueState :=
  (s.beats.get sid).bind fun b =>
    if s.RowLocked b.taskId then none
    else
      some { s with
        tasks := s.tasks.modify b.taskId (beat b) (beat_id b)
        beats := s.beats.erase sid }

/-- One step. -/
def step (W : Workspaces) (s : QueueState) : QueueAct → Option QueueState
  | .tick ms => some { s with now := s.now + ms }
  | .enqueueTask id chatId userId resumeMessageId createdAt =>
    (insertQueued (.fresh id chatId userId resumeMessageId createdAt) s.tasks).map fun T => { s with tasks := T }
  | .absorbQueuedTasks chatId exceptId =>
    if ∃ r ∈ s.tasks, r.absorbed chatId exceptId ∧ s.RowLocked r.id then none
    else some { s with tasks := s.tasks.filter (fun r => !r.absorbed chatId exceptId) }
  | .cancelQueuedTurn id =>
    if s.RowLocked id then none
    else some { s with tasks := s.tasks.filter (fun r => !(r.id = id && r.status = .queued)) }
  | .requestCancel id =>
    if s.RowLocked id then none
    else some { s with tasks := s.tasks.modify id TaskRow.cancelAsked TaskRow.cancelAsked_id }
  | .claimStart sid workerId =>
    (s.claims.insert (.start sid workerId s.now s.tasks)).map fun C => { s with claims := C }
  | .claimScan sid id => s.claimScan W sid id
  | .claimSkip sid id => s.claimSkip sid id
  | .claimPick sid id => s.claimPick sid id
  | .claimCommit sid => s.claimCommit sid
  | .claimEnd sid => some { s with claims := s.claims.erase sid }
  | .heartbeatStart sid taskId workerId =>
    (s.beats.insert { sid := sid, taskId := taskId, workerId := workerId, startedAt := s.now }).map fun B =>
      { s with beats := B }
  | .heartbeatRun sid => s.heartbeatRun sid
  | .finalizeTask id status error workerId =>
    if s.RowLocked id ∨ ¬status.terminal then none
    else some { s with tasks := s.tasks.modify id (TaskRow.settle status error workerId) (TaskRow.settle_id status error workerId) }
  | .reconcileZombies asOf =>
    if asOf ≤ s.now then some { s with tasks := s.tasks.map (TaskRow.sweep asOf) (TaskRow.sweep_id asOf) } else none

end QueueState

end Capka

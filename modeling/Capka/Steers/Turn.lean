import Capka.Chat.Message
import Capka.Lib.Steps

/-!
# Steers through a turn

A steer is appended to the row of a running task; the run folds the ones it has not read into the next step, behind a cursor in
its memory; its outcome records what was folded in; and what was not goes into a user message. A turn that suspends goes on
under a new task, whose run takes over the unread steers of the task before it: those past as many as the reply has recorded.
-/

namespace Capka

/-- `STEER_MAX_PER_TURN`. -/
def steerMaxPerTurn : Nat := 10

/-- The guard of `appendSteer`. -/
def TaskRow.takesSteer (userId : Nat) (r : TaskRow) : Bool :=
  r.userId = userId && r.status = .running && decide (r.steers.length < steerMaxPerTurn)

/-- The update of `appendSteer`. -/
def TaskRow.steered (steer : Steer) (r : TaskRow) : TaskRow := { r with steers := r.steers ++ [steer] }

@[simp] theorem TaskRow.steered_id (steer : Steer) (r : TaskRow) : (r.steered steer).id = r.id := rfl

/-- What `appendSteer` answers. -/
inductive SteerOutcome
  | ok
  | tooLate
  | tooMany
  deriving Repr, DecidableEq

/-- `appendSteer`: the row after it, and the answer. -/
def appendSteer (taskId userId : Nat) (steer : Steer) (T : Tasks) : Tasks × SteerOutcome :=
  match T.get taskId with
  | none => (T, .tooLate)
  | some r =>
    if r.takesSteer userId then (T.modify taskId (TaskRow.steered steer) (TaskRow.steered_id steer), .ok)
    else if r.userId = userId ∧ r.status = .running ∧ steerMaxPerTurn ≤ r.steers.length then (T, .tooMany)
    else (T, .tooLate)

def readSteers (T : Tasks) (taskId : Nat) : List Steer := ((T.get taskId).map TaskRow.steers).getD []

/-- What a turn owes the steers it did not read. -/
structure SteerPlan where
  persist : Bool
  answer : Bool
  deriving Repr, DecidableEq

def lateSteerPlan (status : TaskStatus) (suspended : Bool) : SteerPlan :=
  if suspended then { persist := false, answer := false } else { persist := true, answer := decide (status = .completed) }

/-- The steers in a run's memory: recorded, inherited and not yet folded in, and the cursor into the task's own. -/
structure SteerRun where
  taskId : Nat
  consumed : List Steer
  carried : List Steer
  read : Nat
  deriving Repr, DecidableEq

namespace SteerRun

/-- The steers a run has not folded in, given those sent to its task. -/
def unread (run : SteerRun) (sent : List Steer) : List Steer := run.carried ++ sent.drop run.read

def prepareStep (run : SteerRun) (sent : List Steer) : SteerRun :=
  { run with consumed := run.consumed ++ run.unread sent, carried := [], read := sent.length }

/-- The run once its unread steers are in a message. -/
def persisted (run : SteerRun) (sent : List Steer) : SteerRun := { run with carried := [], read := sent.length }

end SteerRun

/-- Where the turn is: a task that no run has started yet, a run, a run that owes its unread steers a message, a task whose run is
gone, a reply that waits on the user, or nowhere any more. -/
inductive TurnPhase
  | toStart (taskId : Nat)
  | streaming (run : SteerRun)
  | owing (run : SteerRun)
  | abandoned (run : SteerRun)
  | suspended
  | over
  deriving Repr, DecidableEq

/-- One turn of a user: its reply and its first task. -/
structure Turn where
  messageId : Nat
  chatId : Nat
  userId : Nat
  turnId : Nat
  deriving Repr, DecidableEq

/-- The turn's tasks, the reply's metadata once it exists, the user messages made of steers, and the runs that have lost their
lease and are not yet gone; and for the record the steers that were answered `ok` and those that were put before the model. -/
structure TurnState where
  tasks : Tasks
  row : Option MessageMeta
  phase : TurnPhase
  stale : List SteerRun
  messages : List (List Steer)
  accepted : List Steer
  prompted : List Steer

/-- What can happen next. `commit` is an outcome that lands, `commitThrows` one that throws and is reported all the same;
`persist` and `persistFails` are the debt to the unread steers, `workerDies` a process that is gone. `decide` is a decision that
queues the continuation, `decideFailed` one that settles the reply as failed, `movedPast` a message that goes past it. The last three
are what a run can still do after the sweep has taken its task: a step, a snapshot, and the debt after an outcome that throws. -/
inductive TurnAct
  | claim (taskId workerId startedAt : Nat)
  | start (readsCarried : Bool)
  | appendSteer (taskId userId : Nat) (steer : Steer)
  | prepareStep
  | snapshot
  | commit (status : TaskStatus) (shown : MessageStatus)
  | commitThrows
  | persist
  | persistFails
  | workerDies
  | decide (taskId : Nat)
  | decideFailed
  | movedPast
  | cancelBeforeStart
  | cancelQueued
  | reap
  | staleStep (run : SteerRun)
  | staleSnapshot (run : SteerRun)
  | stalePersist (run : SteerRun)

namespace TurnState

/-- The turn's first task is queued. -/
def init (U : Turn) : TurnState where
  tasks := { rows := [.fresh U.turnId U.chatId U.userId none 0], nodup := List.nodup_singleton _ }
  row := none
  phase := .toStart U.turnId
  stale := []
  messages := []
  accepted := []
  prompted := []

/-- The steers recorded on the reply. -/
def recorded (s : TurnState) : List Steer := (s.row.map MessageMeta.steers).getD []

/-- The steers a continuation takes over: those of the task that wrote the reply last, past as many as the reply records. -/
def takenOver (s : TurnState) : List Steer :=
  match s.row with
  | none => []
  | some m => ((m.taskId.map (readSteers s.tasks)).getD []).drop m.steers.length

/-- The metadata a run writes. -/
def metaOf (run : SteerRun) (status : MessageStatus) : MessageMeta where
  taskId := some run.taskId
  status := some status
  parts := none
  steers := run.consumed
  error := none
  errorDetail := none
  errorCategory := none

/-- The reply with another status. -/
def shown (status : MessageStatus) (row : Option MessageMeta) : Option MessageMeta :=
  row.map (fun m => { m with status := some status })

/-- The reply waits on the user. -/
def Awaiting (s : TurnState) : Prop := ∃ m ∈ s.row, m.awaiting = true

instance (s : TurnState) : Decidable s.Awaiting := inferInstanceAs (Decidable (∃ m ∈ s.row, m.awaiting = true))

/-- The task a run works for is finished. -/
def Finished (s : TurnState) (taskId : Nat) : Prop := ∀ r ∈ s.tasks, r.id = taskId → r.status.terminal

instance (s : TurnState) (taskId : Nat) : Decidable (s.Finished taskId) :=
  inferInstanceAs (Decidable (∀ r ∈ s.tasks, r.id = taskId → r.status.terminal))

theorem finalized_none_id (status : TaskStatus) (r : TaskRow) : (r.finalized status none).id = r.id := TaskRow.finalized_id _ _ r

def finish (s : TurnState) (taskId : Nat) (status : TaskStatus) : Tasks :=
  s.tasks.modify taskId (TaskRow.finalized status none) (finalized_none_id status)

/-- The claim of a queued task. -/
def claimRow (workerId startedAt : Nat) (r : TaskRow) : TaskRow :=
  if r.status = .queued then r.claimed workerId startedAt else r

@[simp] theorem claimRow_id (workerId startedAt : Nat) (r : TaskRow) : (claimRow workerId startedAt r).id = r.id := by
  unfold claimRow
  split <;> rfl

/-- A run starts for a claimed task. A continuation loads the reply and takes over unread steers; when their read throws, the
catch path goes on without them. -/
def start (U : Turn) (s : TurnState) (readsCarried : Bool) : Option TurnState :=
  match s.phase with
  | .toStart taskId =>
    (s.tasks.get taskId).bind fun r =>
      if r.status = .running then
        if r.resumeMessageId = some U.messageId then
          some { s with
            phase := .streaming
              { taskId := taskId, consumed := s.recorded, carried := if readsCarried then s.takenOver else [], read := 0 } }
        else
          let run : SteerRun := { taskId := taskId, consumed := [], carried := [], read := 0 }
          some { s with row := some (metaOf run .running), phase := .streaming run }
      else none
  | _ => none

/-- The outcome of a run lands: the task is finished, the reply records what was folded in, and the plan says what the unread steers
are owed. -/
def commit (s : TurnState) (status : TaskStatus) (display : MessageStatus) : Option TurnState :=
  match s.phase with
  | .streaming run =>
    if status.terminal then
      some { s with
        tasks := s.finish run.taskId status
        row := some (metaOf run display)
        phase := if (lateSteerPlan status display.awaiting).persist then .owing run else .suspended }
    else none
  | _ => none

/-- `persistUnreadSteers`: one message for all of them. -/
def persistUnreadSteers (s : TurnState) (run : SteerRun) : List (List Steer) :=
  let unread := run.unread (readSteers s.tasks run.taskId)
  if unread = [] then s.messages else s.messages ++ [unread]

/-- The debt of a run is settled. The run is then done, and over unless its outcome never landed. -/
def persist (s : TurnState) : Option TurnState :=
  match s.phase with
  | .owing run =>
    let sent := readSteers s.tasks run.taskId
    some { s with
      messages := s.persistUnreadSteers run
      phase := if s.Finished run.taskId then .over else .abandoned (run.persisted sent) }
  | _ => none

def gone (s : TurnState) (run : SteerRun) : TurnState :=
  { s with phase := if s.Finished run.taskId then .over else .abandoned run }

/-- A decision that goes on record, with the continuation it queues under a fresh id. -/
def enqueueContinuation (U : Turn) (s : TurnState) (taskId : Nat) : Option TurnState :=
  if s.phase = .suspended ∨ s.phase = .over then
    if s.row.isSome ∧ ∀ m ∈ s.row, m.taskId ≠ some taskId then
      (insertQueued (.fresh taskId U.chatId U.userId (some U.messageId) 0) s.tasks).map fun T =>
        { s with tasks := T, phase := .toStart taskId }
    else none
  else none

/-- A task that never starts: removed while it is queued, or finished as cancelled once claimed. A continuation's reply is settled
with it. -/
def cancelled (s : TurnState) : Option MessageMeta := if s.Awaiting then shown .cancelled s.row else s.row

/-- The sweep fails a running task, and the reply it was writing or was to finish. A run whose lease was only late goes on, stale. -/
def reap (s : TurnState) : Option TurnState :=
  let sweep (taskId : Nat) (stale : List SteerRun) : Option TurnState :=
    if ∃ r ∈ s.tasks, r.id = taskId ∧ r.status = .running then
      some { s with
        tasks := s.finish taskId .failed
        row := if s.Awaiting ∨ (s.row.bind MessageMeta.status) = some .running then shown .failed s.row else s.row
        phase := .over
        stale := stale ++ s.stale }
    else none
  match s.phase with
  | .toStart taskId => sweep taskId [{ taskId := taskId, consumed := s.recorded, carried := s.takenOver, read := 0 }]
  | .streaming run => sweep run.taskId [run]
  | .owing run => sweep run.taskId [run]
  | .abandoned run => sweep run.taskId []
  | .suspended => none
  | .over => none

/-- A stale run folds in what it finds. -/
def staleStep (s : TurnState) (run : SteerRun) : Option TurnState :=
  if run ∈ s.stale then
    let sent := readSteers s.tasks run.taskId
    some { s with stale := run.prepareStep sent :: s.stale.erase run, prompted := s.prompted ++ run.unread sent }
  else none

/-- One step. -/
def step (U : Turn) (s : TurnState) : TurnAct → Option TurnState
  | .claim taskId workerId startedAt =>
    some { s with tasks := s.tasks.modify taskId (claimRow workerId startedAt) (claimRow_id workerId startedAt) }
  | .start readsCarried => s.start U readsCarried
  | .appendSteer taskId userId steer =>
    let (T, outcome) := Capka.appendSteer taskId userId steer s.tasks
    some { s with tasks := T, accepted := if outcome = .ok then s.accepted ++ [steer] else s.accepted }
  | .prepareStep =>
    match s.phase with
    | .streaming run =>
      let sent := readSteers s.tasks run.taskId
      some { s with phase := .streaming (run.prepareStep sent), prompted := s.prompted ++ run.unread sent }
    | _ => none
  | .snapshot =>
    match s.phase with
    | .streaming run => some { s with row := some (metaOf run .running) }
    | _ => none
  | .commit status display => s.commit status display
  | .commitThrows =>
    match s.phase with
    | .streaming run => some { s with phase := .owing run }
    | _ => none
  | .persist => s.persist
  | .persistFails =>
    match s.phase with
    | .owing run => some (s.gone run)
    | _ => none
  | .workerDies =>
    match s.phase with
    | .streaming run => some (s.gone run)
    | .owing run => some (s.gone run)
    | _ => none
  | .decide taskId => s.enqueueContinuation U taskId
  | .decideFailed => if s.phase = .suspended then some { s with row := shown .failed s.row, phase := .over } else none
  | .movedPast =>
    if s.Awaiting then
      some { s with row := shown .completed s.row, phase := if s.phase = .suspended then .over else s.phase }
    else none
  | .cancelBeforeStart =>
    match s.phase with
    | .toStart taskId =>
      if ∃ r ∈ s.tasks, r.id = taskId ∧ r.status = .running then
        some { s with tasks := s.finish taskId .cancelled, row := s.cancelled, phase := .over }
      else none
    | _ => none
  | .cancelQueued =>
    match s.phase with
    | .toStart taskId =>
      if ∃ r ∈ s.tasks, r.id = taskId ∧ r.status = .queued then
        some { s with tasks := s.tasks.erase taskId, row := s.cancelled, phase := .over }
      else none
    | _ => none
  | .reap => s.reap
  | .staleStep run => s.staleStep run
  | .staleSnapshot run => if run ∈ s.stale then some { s with row := some (metaOf run .running) } else none
  | .stalePersist run =>
    if run ∈ s.stale then some { s with messages := s.persistUnreadSteers run, stale := s.stale.erase run } else none

end TurnState

end Capka

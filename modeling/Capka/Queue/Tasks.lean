import Capka.Lib.Table

/-!
# Task rows and the statements over them

The rows of `tasks`, and what each statement of the queue does to a row or to the table. Times are milliseconds. A comparison
with a lease that is not set is false, as in SQL.
-/

namespace Capka

/-- The status of a turn. -/
inductive TaskStatus
  | queued
  | running
  | completed
  | failed
  | cancelled
  deriving Repr, DecidableEq

/-- The statuses a turn ends in. -/
def TaskStatus.terminal : TaskStatus → Bool
  | .queued => false
  | .running => false
  | .completed => true
  | .failed => true
  | .cancelled => true

/-- A message the user sent to a running turn. -/
structure Steer where
  id : Nat
  text : String
  deriving Repr, DecidableEq

/-- A row of `tasks`; `resumeMessageId` is the field of its payload that makes it a continuation. -/
structure TaskRow where
  id : Nat
  chatId : Nat
  userId : Nat
  status : TaskStatus
  resumeMessageId : Option Nat
  steers : List Steer
  workerId : Option Nat
  leaseExpiresAt : Option Nat
  cancelRequested : Bool
  attempts : Nat
  error : Option String
  createdAt : Nat
  deriving Repr, DecidableEq

/-- The table of tasks. -/
abbrev Tasks := Table TaskRow TaskRow.id

/-- `LEASE_SECONDS`. -/
def leaseMs : Nat := 60 * 1000

/-- The margin `reconcileZombies` leaves past the lease. -/
def reapMarginMs : Nat := 15 * 1000

namespace TaskRow

/-- `lease_expires_at > at`. -/
def leaseAfter (r : TaskRow) (at_ : Nat) : Bool := r.leaseExpiresAt.any (fun e => decide (at_ < e))

/-- `lease_expires_at < at - 15 seconds`. -/
def leasePastMargin (r : TaskRow) (at_ : Nat) : Bool := r.leaseExpiresAt.any (fun e => decide (e + reapMarginMs < at_))

/-- The row a fresh turn is inserted as. -/
def fresh (id chatId userId : Nat) (resumeMessageId : Option Nat) (createdAt : Nat) : TaskRow where
  id := id
  chatId := chatId
  userId := userId
  status := .queued
  resumeMessageId := resumeMessageId
  steers := []
  workerId := none
  leaseExpiresAt := none
  cancelRequested := false
  attempts := 0
  error := none
  createdAt := createdAt

/-- The update of `claimNextTask`, by a statement that began at `at_`. -/
def claimed (workerId at_ : Nat) (r : TaskRow) : TaskRow :=
  { r with
    status := .running
    workerId := some workerId
    leaseExpiresAt := some (at_ + leaseMs)
    attempts := r.attempts + 1 }

@[simp] theorem claimed_id (workerId at_ : Nat) (r : TaskRow) : (r.claimed workerId at_).id = r.id := rfl

/-- The update of `requestCancel`. -/
def cancelAsked (r : TaskRow) : TaskRow := { r with cancelRequested := true }

@[simp] theorem cancelAsked_id (r : TaskRow) : r.cancelAsked.id = r.id := rfl

/-- The guard of `heartbeat`. -/
def beats (workerId at_ : Nat) (r : TaskRow) : Bool :=
  r.status = .running && r.workerId = some workerId && r.leaseAfter at_

/-- The update of `heartbeat`. -/
def renewed (at_ : Nat) (r : TaskRow) : TaskRow := { r with leaseExpiresAt := some (at_ + leaseMs) }

/-- The compare-and-set of `finalizeTask`; a worker that is named must own the row. -/
def finalizable (workerId : Option Nat) (r : TaskRow) : Bool :=
  !r.status.terminal && workerId.all (fun w => decide (r.workerId = some w))

/-- The update of `finalizeTask`. -/
def finalized (status : TaskStatus) (error : Option String) (r : TaskRow) : TaskRow :=
  { r with status := status, error := error }

@[simp] theorem finalized_id (status : TaskStatus) (error : Option String) (r : TaskRow) :
    (r.finalized status error).id = r.id := rfl

/-- The guard of the `dead` arm of `reconcileZombies`. -/
def dead (at_ : Nat) (r : TaskRow) : Bool := r.status = .running && r.leasePastMargin at_

/-- The update of the `dead` arm. -/
def reaped (r : TaskRow) : TaskRow := { r with status := .failed, error := some "worker lost (lease expired)" }

/-- What `finalizeTask` does to the row it names. -/
def settle (status : TaskStatus) (error : Option String) (workerId : Option Nat) (r : TaskRow) : TaskRow :=
  if r.finalizable workerId then r.finalized status error else r

@[simp] theorem settle_id (status : TaskStatus) (error : Option String) (workerId : Option Nat) (r : TaskRow) :
    (r.settle status error workerId).id = r.id := by
  unfold settle
  split <;> rfl

/-- What the `dead` arm does to a row. -/
def sweep (asOf : Nat) (r : TaskRow) : TaskRow := if r.dead asOf then r.reaped else r

@[simp] theorem sweep_id (asOf : Nat) (r : TaskRow) : (r.sweep asOf).id = r.id := by
  unfold sweep
  split <;> rfl

/-- The queued rows that `absorbQueuedTasks` deletes. -/
def absorbed (chatId exceptId : Nat) (r : TaskRow) : Bool := r.chatId = chatId && r.status = .queued && r.id ≠ exceptId

end TaskRow

/-- The insert of `enqueueTask`: nothing when the chat already has a queued turn (`uq_tasks_one_queued_per_chat`) or the id is
taken. -/
def insertQueued (r : TaskRow) (T : Tasks) : Option Tasks :=
  if ∀ r' ∈ T, r'.status = .queued → r'.chatId ≠ r.chatId then T.insert r else none

def queuedTurn (chatId : Nat) (T : Tasks) : Option TaskRow :=
  T.rows.find? (fun r => r.status = .queued && r.chatId = chatId)

theorem mem_of_insertQueued {r x : TaskRow} {T T' : Tasks} (h : insertQueued r T = some T') :
    (x ∈ T' ↔ x ∈ T ∨ x = r) ∧ ∀ q ∈ T, q.status = .queued → q.chatId ≠ r.chatId := by
  unfold insertQueued at h
  split at h
  · rename_i hfree
    exact ⟨Table.mem_of_insert h, hfree⟩
  · cases h

end Capka

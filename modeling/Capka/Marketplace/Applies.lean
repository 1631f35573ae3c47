import Mathlib
import Capka.Lib.Steps
import Capka.Lib.Table

/-!
# Applying a plugin

An apply claims the install, checks the review again, writes the resources under its operation, and publishes them by a last
compare-and-set; a reaper fails what outlived its lease. Every transition is one update of the install's row that only the owning
operation can win, and the journal gets an entry for the outcome. The manifest's committed inventory and surface are one number here.
-/

namespace Capka.Marketplace

inductive ApplyKind
  | install
  | upgrade
  | retry
  deriving Repr, DecidableEq

/-- `ApplyState["status"]`. -/
inductive ApplyStatus
  | applying
  | failed
  deriving Repr, DecidableEq

/-- `ApplyState`; times are milliseconds. -/
structure ApplyState where
  operationId : Nat
  status : ApplyStatus
  kind : ApplyKind
  leaseExpiresAt : Nat
  deriving Repr, DecidableEq

/-- A row of `plugin_installs`. A row of before the counter has none. For the record: how often it was published, and whether a resource
of it was written since. -/
structure Install where
  id : Nat
  committedRevision : Option Nat
  view : Nat
  applyState : Option ApplyState
  published : Nat
  dirty : Bool
  deriving Repr, DecidableEq

/-- The table. -/
abbrev Installs := Table Install Install.id

/-- `APPLY_LEASE_SECONDS`. -/
def applyLeaseMs : Nat := 60 * 1000

/-- `REAP_MARGIN_SECONDS`. -/
def reapMarginMs : Nat := 15 * 1000

namespace Install

/-- `coalesce(committedRevision, 0)`. -/
def revision (r : Install) : Nat := r.committedRevision.getD 0

def neverCommitted (r : Install) : Bool := r.committedRevision == some 0

/-- `ownerStates`, of a row that is there. -/
inductive OwnerState
  | applying
  | failed
  | ready
  deriving Repr, DecidableEq

/-- What a reader derives from the apply state. -/
def ownerState (r : Install) : OwnerState :=
  match r.applyState with
  | none => .ready
  | some a =>
    match a.status with
    | .applying => .applying
    | .failed => .failed

/-- The operation that is applying. -/
def applyingOp (r : Install) : Option Nat :=
  r.applyState.bind (fun a => if a.status = .applying then some a.operationId else none)

/-- The row is being applied by the operation. -/
def mine (id op : Nat) (r : Install) : Bool := r.id == id && r.applyingOp == some op

/-- The row is being applied by the operation, and the lease is alive. -/
def leased (id op now : Nat) (r : Install) : Bool := r.mine id op && r.applyState.any (fun a => decide (now < a.leaseExpiresAt))

/-- No live apply is in flight and the committed revision is the expected one. -/
def claimable (id expectedRevision : Nat) (r : Install) : Bool :=
  r.id == id && r.revision == expectedRevision && r.applyingOp.isNone

/-- The lease ran out, and the margin after it. -/
def stale (now : Nat) (r : Install) : Bool :=
  r.applyState.any (fun a => a.status == .applying && decide (a.leaseExpiresAt + reapMarginMs < now))

/-- The update of `claimApply`. -/
def claimed (op : Nat) (kind : ApplyKind) (now : Nat) (r : Install) : Install :=
  { r with applyState := some ⟨op, .applying, kind, now + applyLeaseMs⟩ }

/-- `renewApplyLease`. -/
def renewed (now : Nat) (r : Install) : Install :=
  { r with applyState := r.applyState.map (fun a => { a with leaseExpiresAt := now + applyLeaseMs }) }

/-- `markApplyFailed`, the reaper's flip, and the release of a retry. -/
def failed (r : Install) : Install :=
  { r with applyState := r.applyState.map (fun a => { a with status := .failed }) }

/-- `finalizeApply`: the manifest replaces the row's, apply state and all. -/
def finalized (revision view : Nat) (r : Install) : Install :=
  { r with committedRevision := some revision, view := view, applyState := none, published := r.published + 1, dirty := false }

/-- The release of an upgrade. -/
def cleared (r : Install) : Install := { r with applyState := none }

/-- A fenced write of a resource. -/
def wrote (r : Install) : Install := { r with dirty := true }

end Install

/-- The codes of a failed apply. -/
inductive ErrorCode
  | fenced
  | writeFailed
  | leaseLost
  | policyStale
  | aborted
  | leaseExpired
  deriving Repr, DecidableEq

/-- `PluginApplyEvent`, of an operation that has an id. -/
inductive Event
  | accepted
  | succeeded
  | failed (code : ErrorCode)
  | stale
  deriving Repr, DecidableEq

/-- The part of the event that is in the id of its entry. -/
inductive EventName
  | accepted
  | succeeded
  | failed
  | stale
  deriving Repr, DecidableEq

def Event.name : Event → EventName
  | .accepted => .accepted
  | .succeeded => .succeeded
  | .failed _ => .failed
  | .stale => .stale

/-- How an operation ends on the row: it is published, it is marked failed, or its claim is given back. -/
inductive Outcome
  | published
  | failed
  | released
  deriving Repr, DecidableEq

/-- Where an apply stands: what it does next. -/
inductive Phase
  | asked
  | planned
  | claimed
  | releasing
  | staling
  | mutating
  | committing
  | failing (code : ErrorCode)
  | recording (code : ErrorCode)
  | aborting
  | done
  deriving Repr, DecidableEq

/-- A run of `applyPluginReviewed`; its operation is its number. `prior` is the revision of the manifest the caller read, `seen` that of
the row the barrier read, and for the record `before` is the row it claimed. -/
structure Apply where
  installId : Option Nat
  prior : Nat
  seen : Nat
  kind : ApplyKind
  view : Nat
  phase : Phase
  before : Option Install
  deriving Repr, DecidableEq

/-- The installs, the journal, the applies, the clock; for the record, the transitions that were won. -/
structure State where
  now : Nat
  rows : Installs
  journal : List (Nat × Event)
  applies : List Apply
  nextId : Nat
  won : List (Nat × Outcome)

/-- `insertPluginAudit`: the entry of an id is written once, and another payload under the same id is refused. -/
def insertAudit (journal : List (Nat × Event)) (op : Nat) (e : Event) : Option (List (Nat × Event)) :=
  match journal.find? (fun x => x.1 == op && x.2.name == e.name) with
  | none => some (journal ++ [(op, e)])
  | some x => if x.2 = e then some journal else none

namespace State

/-- An apply goes on. -/
def put (s : State) (op : Nat) (w : Apply) : State := { s with applies := s.applies.set op w }

/-- One update of the rows that satisfy a predicate. -/
def update (s : State) (p : Install → Bool) (f : Install → Install) (hf : ∀ r, (f r).id = r.id) : State :=
  { s with rows := s.rows.update (fun r => p r = true) f hf }

/-- The transition is on record. -/
def wins (s : State) (op : Nat) (o : Outcome) : State := { s with won := s.won ++ [(op, o)] }

/-- The update matched a row. -/
def any (s : State) (p : Install → Bool) : Bool := s.rows.rows.any p

/-- The claim and its `accepted` entry, one transaction: the staging insert of a first install, or `claimApply`. -/
def claim (s : State) (op : Nat) (w : Apply) : Option State :=
  match w.installId with
  | none =>
    match s.rows.insert ⟨s.nextId, some 0, 0, some ⟨op, .applying, w.kind, s.now + applyLeaseMs⟩, 0, false⟩,
        insertAudit s.journal op .accepted with
    | some rows, some journal =>
      some { s with
        rows := rows
        journal := journal
        nextId := s.nextId + 1
        applies := s.applies.set op { w with installId := some s.nextId, phase := .claimed, before := none } }
    | _, _ => none
  | some id =>
    if s.any (Install.claimable id w.seen) then
      match insertAudit s.journal op .accepted with
      | some journal =>
        some ({ (s.update (Install.claimable id w.seen) (Install.claimed op w.kind s.now) (fun _ => rfl)) with journal := journal }.put op
          { w with phase := .claimed, before := s.rows.get id })
      | none => none
    else some (s.put op { w with phase := .done })

/-- `releaseApplyClaim`: an install is deleted, a retry is failed again, an upgrade is cleared. -/
def release (s : State) (id op : Nat) (kind : ApplyKind) : State :=
  if s.any (Install.mine id op) then
    match kind with
    | .install => { s with rows := s.rows.filter (fun r => !r.mine id op) }.wins op .released
    | .retry => (s.update (Install.mine id op) Install.failed (fun _ => rfl)).wins op .released
    | .upgrade => (s.update (Install.mine id op) Install.cleared (fun _ => rfl)).wins op .released
  else s

/-- The transaction that publishes: `finalizeApply`, the dispositions, and the `succeeded` entry. -/
def finalize (s : State) (op id : Nat) (w : Apply) (dispositions : Bool) : State :=
  if s.any (Install.leased id op s.now) then
    match dispositions, insertAudit s.journal op .succeeded with
    | true, some journal =>
      (({ (s.update (Install.leased id op s.now) (Install.finalized (w.prior + 1) w.view) (fun _ => rfl)) with journal := journal }).wins
        op .published).put op { w with phase := .done }
    | _, _ => s.put op { w with phase := .failing .policyStale }
  else s.put op { w with phase := .failing .leaseLost }

/-- `reconcileStaleApplies` and the entries it owes, one transaction; `none` where an entry is refused. -/
def reap (s : State) : Option State :=
  let reaped := (s.rows.rows.filter (Install.stale s.now)).filterMap Install.applyingOp
  let journal := reaped.foldlM (fun journal op => insertAudit journal op (.failed .leaseExpired)) s.journal
  journal.map (fun journal =>
    { (s.update (Install.stale s.now) Install.failed (fun _ => rfl)) with
      journal := journal
      won := s.won ++ reaped.map (fun op => (op, .failed)) })

end State

/-- What happens around installs: an apply is asked for, and takes its steps, each a statement of its own; the reaper runs; an install is
removed; time passes. `check` is the second look at the review, `write` a fenced write, `abort` whatever else is thrown. -/
inductive Act
  | ask (installId : Option Nat) (view : Nat)
  | read (op : Nat)
  | claim (op : Nat)
  | check (op : Nat) (same : Bool)
  | renew (op : Nat)
  | write (op : Nat)
  | writeThrows (op : Nat)
  | written (op : Nat)
  | finalize (op : Nat) (dispositions : Bool)
  | markFailed (op : Nat)
  | record (op : Nat)
  | release (op : Nat)
  | stale (op : Nat)
  | abort (op : Nat)
  | crash (op : Nat)
  | reap
  | uninstall (id : Nat)
  | wait (ms : Nat)
  deriving Repr, DecidableEq

def applyStep (s : State) (op : Nat) (w : Apply) (a : Act) : Option State :=
  match a, w.phase, w.installId with
  | .read _, .asked, none => some (s.put op { w with kind := .install, seen := 0, phase := .planned })
  | .read _, .asked, some id =>
    -- a row that is gone reads as one of before the counter
    let row := s.rows.get id
    some (s.put op { w with
      kind := if row.any Install.neverCommitted then .retry else .upgrade
      seen := (row.map Install.revision).getD 0
      phase := .planned })
  | .claim _, .planned, _ => s.claim op w
  | .check _ same, .claimed, _ => some (s.put op { w with phase := if same then .mutating else .releasing })
  | .renew _, .mutating, some id =>
    some (s.update (Install.mine id op) (Install.renewed s.now) (fun _ => rfl))
  | .write _, .mutating, some id =>
    if s.any (Install.leased id op s.now) then some (s.update (Install.leased id op s.now) Install.wrote (fun _ => rfl))
    else some (s.put op { w with phase := .failing .fenced })
  | .writeThrows _, .mutating, _ => some (s.put op { w with phase := .failing .writeFailed })
  | .written _, .mutating, _ => some (s.put op { w with phase := .committing })
  | .finalize _ dispositions, .committing, some id => some (s.finalize op id w dispositions)
  | .markFailed _, .failing code, some id =>
    -- only the winner of the flip may describe the outcome
    if s.any (Install.mine id op) then
      some (((s.update (Install.mine id op) Install.failed (fun _ => rfl)).wins op .failed).put op { w with phase := .recording code })
    else some (s.put op { w with phase := .done })
  | .record _, .recording code, _ =>
    (insertAudit s.journal op (.failed code)).map (fun journal => { s with journal := journal }.put op { w with phase := .done })
  | .release _, .releasing, some id => some ((s.release id op w.kind).put op { w with phase := .staling })
  | .release _, .aborting, some id => some ((s.release id op w.kind).put op { w with phase := .done })
  | .stale _, .staling, _ =>
    (insertAudit s.journal op .stale).map (fun journal => { s with journal := journal }.put op { w with phase := .done })
  | .abort _, .claimed, _ => some (s.put op { w with phase := .aborting })
  | .abort _, .releasing, _ => some (s.put op { w with phase := .aborting })
  | .abort _, .staling, _ => some (s.put op { w with phase := .aborting })
  | .abort _, .failing _, _ => some (s.put op { w with phase := .failing .aborted })
  | .abort _, .recording _, _ => some (s.put op { w with phase := .failing .aborted })
  | .crash _, _, _ => some (s.put op { w with phase := .done })
  | _, _, _ => none

/-- The apply an action is of. -/
def Act.op : Act → Option Nat
  | .read op | .claim op | .check op _ | .renew op | .write op | .writeThrows op | .written op | .finalize op _ | .markFailed op
  | .record op | .release op | .stale op | .abort op | .crash op => some op
  | .ask _ _ | .reap | .uninstall _ | .wait _ => none

/-- The transition function. -/
def step (s : State) (a : Act) : Option State :=
  match a with
  | .ask none view => some { s with applies := s.applies ++ [⟨none, 0, 0, .install, view, .asked, none⟩] }
  | .ask (some id) view =>
    (s.rows.get id).map (fun r => { s with applies := s.applies ++ [⟨some id, r.revision, 0, .upgrade, view, .asked, none⟩] })
  | .reap => s.reap
  | .uninstall id => some { s with rows := s.rows.erase id }
  | .wait ms => some { s with now := s.now + ms }
  | a => a.op.bind (fun op => s.applies[op]?.bind (fun w => applyStep s op w a))

/-- Rows of before the counter, at rest. -/
def initial (now nextId : Nat) (rows : Installs) : State where
  now := now
  rows := rows
  journal := []
  applies := []
  nextId := nextId
  won := []

end Capka.Marketplace

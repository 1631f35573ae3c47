import Mathlib
import Capka.Sandbox.Sessions

/-!
# The lease of a background job

A background job keeps running with nobody talking to the controller. A renewal leases the session as busy up to a time, and the idle
sweep leaves it alone until then; the first renewal of a window anchors its ceiling. The same request touches the session, which the sweep
reads too, once the lease has run out.
-/

namespace Capka.Sandbox

/-- `BUSY_LEASE_MS`, `BUSY_MAX_MS` and `IDLE_TTL`. -/
structure BusyConfig where
  leaseMs : Nat
  maxMs : Nat
  idleTtl : Nat

/-- `busyUntil > now`; nothing compares greater where there is no lease. -/
def held (busyUntil : Option Nat) (now : Nat) : Bool := busyUntil.any (fun u => decide (now < u))

/-- `nextBusyUntil`. A null in the sum counts as zero. -/
def nextBusyUntil (busySince busyUntil : Option Nat) (now leaseMs maxMs : Nat) : Option Nat × Nat :=
  let since := if held busyUntil now then busySince else some now
  (since, min (now + leaseMs) (since.getD 0 + maxMs))

/-- The lease a request asks for: its `ms` within bounds, where it names a number. The columns hold whole milliseconds, and a request that
would write a fraction fails and changes nothing. -/
def askedLease (cfg : BusyConfig) (ms : Option Int) : Nat :=
  match ms with
  | some ms => (min (max ms 1000) cfg.maxMs).toNat
  | none => cfg.leaseMs

/-- A session's row and the activity that is not flushed to it yet. -/
structure BusyState where
  row : Option SessionRow
  touched : Option Nat
  deriving DecidableEq, Repr

/-- The row with a lease: `setBusy`. -/
def SessionRow.leased (lease : Option Nat × Nat) (r : SessionRow) : SessionRow :=
  { r with busySince := lease.1, busyUntil := some lease.2 }

/-- The row as `upsert` writes it: the container is new, so a lease on the row was of a job that died with the one before. -/
def SessionRow.renewedBy (rec r : SessionRow) : SessionRow :=
  { rec with createdAt := r.createdAt, busySince := none, busyUntil := none }

namespace BusyState

def flush (s : BusyState) : BusyState where
  row :=
    match s.touched with
    | some ts => s.row.map fun r => { r with lastActivity := ts }
    | none => s.row
  touched := none

/-- What the idle sweep does about a row. -/
def swept (cfg : BusyConfig) (now : Nat) (r : SessionRow) : SessionRow :=
  if r.handle = none then r
  else if held r.busyUntil now then r
  else if cfg.idleTtl < now - r.lastActivity then r.stopped
  else r

/-- `idleSweep`, as far as it is about this session. -/
def idleSweep (cfg : BusyConfig) (now : Nat) (s : BusyState) : BusyState :=
  { s.flush with row := s.flush.row.map (swept cfg now) }

/-- `POST /sessions/:id/busy`. -/
def busy (cfg : BusyConfig) (ms : Option Int) (now : Nat) (s : BusyState) : BusyState :=
  match s.row with
  | none => s
  | some r =>
    { row := some (r.leased (nextBusyUntil r.busySince r.busyUntil now (askedLease cfg ms) cfg.maxMs))
      touched := some now }

end BusyState

/-- What else happens to a session: its container is created, it is used, its activity is persisted, it is stopped, the sweep looks at it,
its row is deleted. -/
inductive SessionAct
  | upsert (rec : SessionRow)
  | touch (now : Nat)
  | flush
  | setStopped
  | idleSweep (now : Nat)
  | delete

/-- A step that is no renewal. -/
def BusyState.step (cfg : BusyConfig) (s : BusyState) : SessionAct → BusyState
  | .upsert rec => { s with row := some (rec.renewedBy (s.row.getD rec)) }
  | .touch now => { s with touched := some now }
  | .flush => s.flush
  | .setStopped => { s with row := s.row.map SessionRow.stopped }
  | .idleSweep now => s.idleSweep cfg now
  | .delete => { row := none, touched := none }

namespace BusyAux

variable {cfg : BusyConfig} {first : Nat}

/-- The window of a row was opened by a time, and ends no later than the ceiling from then on. -/
def Within (cfg : BusyConfig) (first : Nat) (r : SessionRow) : Prop :=
  r.busySince.getD 0 ≤ first ∧ ∀ u ∈ r.busyUntil, u ≤ first + cfg.maxMs

end BusyAux

open BusyAux

end Capka.Sandbox

import Mathlib
import Capka.Lib.Steps
import Capka.Lib.Table

/-!
# The bridge to the MCP servers of a sandbox

A server runs behind a stream; the bridge keeps one entry for each handle and name, and each entry the calls that still wait, under
the id the client gave them. Clients number their calls from zero, and several of them share a server, so an id says little about who
asked. A process answers a call at most once; whatever else it writes with an id is a message of its own. Handlers run to their end,
one event at a time.
-/

namespace Capka.Mcp

/-- The key of an entry: `handle:name`. -/
structure ServerKey where
  handle : String
  name : String
  deriving Repr, DecidableEq

/-- A started process, numbered in the order of the starts. -/
structure Process where
  proc : Nat
  key : ServerKey
  deriving Repr, DecidableEq

/-- An entry of `live`. -/
structure BridgeEntry where
  key : ServerKey
  proc : Nat
  closed : Bool
  deriving Repr, DecidableEq

/-- A call written to a process, under the id of its client. -/
structure Request where
  no : Nat
  proc : Nat
  id : Nat
  deriving Repr, DecidableEq

/-- A call in the `pending` of an entry. -/
structure Waiter where
  proc : Nat
  id : Nat
  no : Nat
  deriving Repr, DecidableEq

/-- The place of a waiting call: one for each id of an entry. -/
def Waiter.slot (w : Waiter) : Nat × Nat := (w.proc, w.id)

/-- A parsed line of a process: the answer to a call, another message with an id, or one without. -/
inductive BridgeLine
  | reply (no : Nat)
  | message (id : Nat)
  | notification
  deriving Repr, DecidableEq

/-- Why an entry was torn down. -/
inductive Cause
  | stream (proc : Nat)
  | stopAll
  deriving Repr, DecidableEq

/-- How a call ended: with a line, by its number among the lines read; with a teardown; or with its timer. -/
inductive RpcOutcome
  | resolved (line : Nat) (msg : BridgeLine)
  | rejected (cause : Cause)
  | timedOut
  deriving Repr, DecidableEq

/-- A call that ended. -/
structure Settled where
  no : Nat
  outcome : RpcOutcome
  deriving Repr, DecidableEq

/-- The bridge, with what was started, asked, answered and torn down. -/
structure McpState where
  starting : List ServerKey
  procs : Table Process Process.proc
  live : Table BridgeEntry BridgeEntry.key
  pending : Table Waiter Waiter.slot
  sent : Table Request Request.no
  asked : List Nat
  settled : List Settled
  removed : List (Nat × Cause)
  nextProc : Nat
  nextNo : Nat
  lines : Nat

/-- What happens to the bridge. -/
inductive McpAct
  | start (key : ServerKey)
  | started (key : ServerKey)
  | startFailed (key : ServerKey)
  | rpc (key : ServerKey) (id : Option Nat)
  | timeout (no : Nat)
  | line (proc : Nat) (msg : BridgeLine)
  | streamEvent (proc : Nat)
  | stopAll (handle : String)

namespace McpState

/-- `createMcpBridge`. -/
def new : McpState where
  starting := []
  procs := Table.empty
  live := Table.empty
  pending := Table.empty
  sent := Table.empty
  asked := []
  settled := []
  removed := []
  nextProc := 0
  nextNo := 0
  lines := 0

def closeEntry (key : ServerKey) (cause : Cause) (s : McpState) : McpState :=
  match s.live.get key with
  | none => s
  | some e =>
    { s with
      settled := (s.pending.rows.filter (fun w => w.proc = e.proc)).map (fun w => { no := w.no, outcome := .rejected cause }) ++ s.settled
      pending := s.pending.filter (fun w => w.proc ≠ e.proc)
      live := s.live.erase key
      removed := (e.proc, cause) :: s.removed }

/-- The end of `start`: the process runs, and its entry is the one of its key. -/
def enter (key : ServerKey) (s : McpState) : McpState :=
  { s with
    starting := s.starting.erase key
    procs := s.procs.put { proc := s.nextProc, key := key }
    live := s.live.put { key := key, proc := s.nextProc, closed := false }
    nextProc := s.nextProc + 1 }

/-- The call of `rpc` that waits: it is written to the process, and its slot is its own from now on. -/
def ask (e : BridgeEntry) (id : Nat) (s : McpState) : McpState :=
  { s with
    sent := s.sent.put { no := s.nextNo, proc := e.proc, id := id }
    asked := s.nextNo :: s.asked
    pending := s.pending.put { proc := e.proc, id := id, no := s.nextNo }
    nextNo := s.nextNo + 1 }

/-- The timer of a call, which frees the slot of its id. -/
def expire (r : Request) (s : McpState) : McpState :=
  { s with
    pending := s.pending.erase (r.proc, r.id)
    settled := { no := r.no, outcome := .timedOut } :: s.settled }

/-- The handler of a line with an id. -/
def deliver (proc id : Nat) (msg : BridgeLine) (s : McpState) : McpState :=
  match s.pending.get (proc, id) with
  | some w =>
    { s with
      settled := { no := w.no, outcome := .resolved s.lines msg } :: s.settled
      pending := s.pending.erase (proc, id)
      lines := s.lines + 1 }
  | none => { s with lines := s.lines + 1 }

/-- The process has answered a call. -/
def answered (no : Nat) (s : McpState) : McpState := { s with asked := s.asked.filter (· ≠ no) }

/-- One step of the bridge. -/
def step (s : McpState) : McpAct → Option McpState
  | .start key =>
    match s.live.get key with
    | some e => if e.closed then some { s with starting := key :: s.starting } else some s
    | none => some { s with starting := key :: s.starting }
  | .started key => if key ∈ s.starting then some (s.enter key) else none
  | .startFailed key => some { s with starting := s.starting.erase key }
  | .rpc key id =>
    match s.live.get key with
    | some e =>
      if e.closed then none
      else match id with
        | some id => some (s.ask e id)
        | none => some s
    | none => none
  | .timeout no =>
    match s.sent.get no with
    | some r => if ∀ o ∈ s.settled, o.no ≠ no then some (s.expire r) else none
    | none => none
  | .line proc msg =>
    match msg with
    | .reply no =>
      match s.sent.get no with
      | some r => if r.proc = proc ∧ no ∈ s.asked then some ((s.answered no).deliver proc r.id msg) else none
      | none => none
    | .message id => some (s.deliver proc id msg)
    | .notification => some { s with lines := s.lines + 1 }
  | .streamEvent proc => (s.procs.get proc).map (fun p => s.closeEntry p.key (.stream proc))
  | .stopAll handle =>
    some ((s.live.rows.filter (fun e => e.key.handle = handle)).foldl (fun s e => s.closeEntry e.key .stopAll) s)

end McpState

/-- The bridge kept requests and replies together: a call that was resolved was resolved by the reply to it; no line resolved two
calls; and no stream event rejected a call to a process started later than its own, or removed the entry of one. -/
structure Intact (s : McpState) : Prop where
  own : ∀ o ∈ s.settled, ∀ line msg, o.outcome = .resolved line msg → msg = .reply o.no
  once : ∀ o ∈ s.settled, ∀ o' ∈ s.settled, ∀ line msg msg', o.outcome = .resolved line msg → o'.outcome = .resolved line msg' →
    o.no = o'.no
  spared : ∀ o ∈ s.settled, ∀ proc, o.outcome = .rejected (.stream proc) → ∀ r ∈ s.sent, r.no = o.no → r.proc ≤ proc
  kept : ∀ q proc, (q, Cause.stream proc) ∈ s.removed → q ≤ proc

/-- The steps that keep it so. A call's id is not that of an earlier call the process may still answer; a message that answers no call
does not carry the id of a waiting one; and a stream event of a process finds no later process under its key. -/
def Careful (s : McpState) : McpAct → Prop
  | .rpc key (some id) => ∀ e ∈ s.live, e.key = key → ∀ r ∈ s.sent, r.proc = e.proc → r.id = id → r.no ∉ s.asked
  | .line proc (.message id) => ∀ w ∈ s.pending, w.slot ≠ (proc, id)
  | .streamEvent proc => ∀ p ∈ s.procs, p.proc = proc → ∀ e ∈ s.live, e.key = p.key → e.proc ≤ proc
  | .rpc _ none => True
  | .line _ (.reply _) => True
  | .line _ .notification => True
  | .start _ => True
  | .started _ => True
  | .startFailed _ => True
  | .timeout _ => True
  | .stopAll _ => True

instance (s : McpState) (a : McpAct) : Decidable (Careful s a) := by
  unfold Careful
  split <;> infer_instance

end Capka.Mcp

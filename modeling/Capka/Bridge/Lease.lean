import Capka.Bridge.Plan
import Capka.Lib.Steps

/-!
# The folder lease

One row per attached folder holds its sync lease and its merge ancestor. Five routes touch them: acquire, renew and release of the lease,
the ancestor's GET and PUT, the bulk upload. Each makes one statement, decided by a predicate on the row. A statement may wait for the
row's lock, and it compares the expiry with the time it started at. A request that is refused changes nothing, so a step here is a request
that was answered with success.
-/

namespace Capka

/-- A lease as the column holds it. -/
structure SyncLease where
  token : Nat
  expiresAt : Nat
  deriving DecidableEq

/-- The ancestor as a client sends it and the row keeps it: its version, the text of its revision, its manifest. -/
structure StoredState where
  v : Option Nat
  rev : Option String
  files : Manifest
  dirs : List Path

/-- A folder row. -/
structure FolderRow where
  id : Nat
  userId : Nat
  sessionKey : Nat
  name : String
  state : Option StoredState
  syncLease : Option SyncLease

/-- The table of folder rows. -/
abbrev FolderRows := Table FolderRow FolderRow.id

namespace FolderRow

/-- The text of the revision; an ancestor that is absent or names none reads as revision 0. -/
def rev (r : FolderRow) : String := (r.state.bind StoredState.rev).getD "0"

/-- The row is under a lease of this token that has not run out. -/
def liveLease (token now : Nat) (r : FolderRow) : Bool :=
  match r.syncLease with
  | some l => l.token = token && decide (now < l.expiresAt)
  | none => false

/-- The row is under a live lease that is not this token's. A request that names none is never the holder. -/
def heldByOther (token : Option Nat) (now : Nat) (r : FolderRow) : Bool :=
  match r.syncLease with
  | some l => decide (now < l.expiresAt) && decide (some l.token ≠ token)
  | none => false

/-- The lease may be taken: there is none, or it has run out. -/
def free (now : Nat) (r : FolderRow) : Bool :=
  match r.syncLease with
  | some l => decide (l.expiresAt < now)
  | none => true

/-- The lease names this token, run out or not. -/
def holds (token : Nat) (r : FolderRow) : Bool :=
  match r.syncLease with
  | some l => l.token = token
  | none => false

def setLease (lease : Option SyncLease) (r : FolderRow) : FolderRow := { r with syncLease := lease }

def setState (state : StoredState) (r : FolderRow) : FolderRow := { r with state := some state }

def setKey (sessionKey : Nat) (r : FolderRow) : FolderRow := { r with sessionKey := sessionKey }

theorem setLease_id (lease : Option SyncLease) (r : FolderRow) : (r.setLease lease).id = r.id := rfl

theorem setState_id (state : StoredState) (r : FolderRow) : (r.setState state).id = r.id := rfl

theorem setKey_id (sessionKey : Nat) (r : FolderRow) : (r.setKey sessionKey).id = r.id := rfl

end FolderRow

/-- Who sends a request. -/
structure Caller where
  userId : Nat
  admin : Bool
  deriving DecidableEq

def Caller.owns (c : Caller) (r : FolderRow) : Bool := decide (r.userId = c.userId) || c.admin

/-- A client's read of an ancestor: the revision it saw, and how many ancestors had been written to the folder by then. -/
structure StateRead where
  folderId : Nat
  rev : String
  writes : Nat
  deriving DecidableEq

/-- The rows and the database's clock. The rest records what happened: the folders ever attached, the tokens granted, the ancestors
written and the reads. -/
structure FolderState where
  rows : FolderRows
  now : Nat
  attached : List Nat
  grants : List (Nat × Nat)
  writes : List Nat
  reads : List StateRead

/-- What can happen. -/
inductive FolderAct where
  /-- Time passes. -/
  | pass (ms : Nat)
  /-- A folder is attached, under a fresh id. -/
  | attach (id userId sessionKey : Nat) (name : String)
  /-- A folder row goes: it is detached, or its chat or project is deleted. -/
  | detach (id : Nat)
  /-- A chat moves into a project and takes its folders along. -/
  | rekey (id sessionKey : Nat)
  /-- POST lease: the route made the token and the expiry before its statement, which started at this time. -/
  | acquire (id : Nat) (caller : Caller) (token expiresAt started : Nat)
  /-- PATCH lease. -/
  | renew (id : Nat) (caller : Caller) (token expiresAt : Nat)
  /-- DELETE lease. -/
  | release (id : Nat) (caller : Caller) (token : Nat)
  /-- GET state. -/
  | read (id : Nat) (caller : Caller)
  /-- PUT state. -/
  | put (id : Nat) (caller : Caller) (token : Nat) (expectedRev : Option Nat) (state : StoredState) (started : Nat)
  /-- A bulk upload to the folder of this name, naming a lease or none, is admitted. -/
  | upload (sessionKey : Nat) (name : String) (lease : Option Nat)

namespace FolderState

/-- Nothing is attached. -/
def initial : FolderState := { rows := .empty, now := 0, attached := [], grants := [], writes := [], reads := [] }

/-- The tokens granted on a folder, in order. -/
def granted (s : FolderState) (id : Nat) : List Nat := (s.grants.filter fun g => g.1 = id).map Prod.snd

/-- How many ancestors were written to a folder. -/
def writesOf (s : FolderState) (id : Nat) : Nat := s.writes.count id

def owned (s : FolderState) (id : Nat) (caller : Caller) : Option FolderRow := (s.rows.get id).filter caller.owns

/-- Attach: the name must be free under the session key. -/
def attach (s : FolderState) (id userId sessionKey : Nat) (name : String) : Option FolderState :=
  if id ∈ s.attached ∨ ∃ r ∈ s.rows, r.sessionKey = sessionKey ∧ r.name = name then none
  else
    (s.rows.insert { id, userId, sessionKey, name, state := none, syncLease := none }).map fun rows =>
      { s with rows := rows, attached := s.attached ++ [id] }

/-- Acquire the lease. Tokens are never made twice. -/
def acquire (s : FolderState) (id : Nat) (caller : Caller) (token expiresAt started : Nat) : Option FolderState :=
  (s.owned id caller).bind fun r =>
    if token ∉ s.grants.map Prod.snd ∧ started ≤ s.now ∧ r.free started then
      some
        { s with
          rows := s.rows.modify id (FolderRow.setLease (some { token, expiresAt })) (FolderRow.setLease_id _)
          grants := s.grants ++ [(id, token)] }
    else none

/-- Renew the lease: only the holder's own token is renewed. -/
def renew (s : FolderState) (id : Nat) (caller : Caller) (token expiresAt : Nat) : Option FolderState :=
  (s.owned id caller).bind fun r =>
    if r.holds token then
      some { s with rows := s.rows.modify id (FolderRow.setLease (some { token, expiresAt })) (FolderRow.setLease_id _) }
    else none

/-- Release the lease, if it is still this token's. The answer is a success either way. -/
def release (s : FolderState) (id : Nat) (caller : Caller) (token : Nat) : Option FolderState :=
  (s.owned id caller).map fun r =>
    if r.holds token then { s with rows := s.rows.modify id (FolderRow.setLease none) (FolderRow.setLease_id _) } else s

/-- Read the ancestor. -/
def read (s : FolderState) (id : Nat) (caller : Caller) : Option FolderState :=
  (s.owned id caller).map fun r => { s with reads := s.reads ++ [{ folderId := id, rev := r.rev, writes := s.writesOf id }] }

/-- Swap the ancestor: a versioned one, under the live lease, on the revision expected where one is named. -/
def put (s : FolderState) (id : Nat) (caller : Caller) (token : Nat) (expectedRev : Option Nat) (state : StoredState)
    (started : Nat) : Option FolderState :=
  (s.owned id caller).bind fun r =>
    if state.v = some 1 ∧ started ≤ s.now ∧ r.liveLease token started ∧ ∀ n ∈ expectedRev, r.rev = Nat.repr n then
      some
        { s with
          rows := s.rows.modify id (FolderRow.setState state) (FolderRow.setState_id _)
          writes := s.writes ++ [id] }
    else none

/-- Admit an upload: no folder of this name is under a live lease of another. -/
def upload (s : FolderState) (sessionKey : Nat) (name : String) (lease : Option Nat) : Option FolderState :=
  if ∃ r ∈ s.rows, r.sessionKey = sessionKey ∧ r.name = name ∧ r.heldByOther lease s.now then none else some s

/-- Re-key a folder, where the name is free. -/
def rekey (s : FolderState) (id sessionKey : Nat) : Option FolderState :=
  (s.rows.get id).bind fun r =>
    if ∃ q ∈ s.rows, q.sessionKey = sessionKey ∧ q.name = r.name then none
    else some { s with rows := s.rows.modify id (FolderRow.setKey sessionKey) (FolderRow.setKey_id _) }

/-- The step function. -/
def step (s : FolderState) : FolderAct → Option FolderState
  | .pass ms => some { s with now := s.now + ms }
  | .attach id userId sessionKey name => s.attach id userId sessionKey name
  | .detach id => some { s with rows := s.rows.erase id }
  | .rekey id sessionKey => s.rekey id sessionKey
  | .acquire id caller token expiresAt started => s.acquire id caller token expiresAt started
  | .renew id caller token expiresAt => s.renew id caller token expiresAt
  | .release id caller token => s.release id caller token
  | .read id caller => s.read id caller
  | .put id caller token expectedRev state started => s.put id caller token expectedRev state started
  | .upload sessionKey name lease => s.upload sessionKey name lease

end FolderState

end Capka

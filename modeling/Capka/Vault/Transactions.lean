import Capka.Vault.Operations

/-!
# Transactions on the memory

Writers, creators of spaces and passes of `retireProjectSpace`, each a transaction under READ COMMITTED: a statement sees what is committed
and the transaction's own changes, and a commit writes the changes over what is committed by then. A row that an open transaction changed is
locked. `FOR SHARE` and `FOR UPDATE` on a space exclude each other, and an insert waits for an open one of the same scope.
-/

namespace Capka

/-- The tables whose rows a retirement removes. -/
inductive Shelf where
  | claims
  | notes
  | candidates
  deriving DecidableEq, Repr

def Shelf.all : List Shelf := [.claims, .notes, .candidates]

namespace Vault

/-- The two memories have the same row, or none, under the id. -/
def Same (v w : Vault) (id : String) : Shelf → Prop
  | .claims => v.claims.get id = w.claims.get id
  | .notes => v.notes.get id = w.notes.get id
  | .candidates => v.candidates.get id = w.candidates.get id

instance (v w : Vault) (id : String) (shelf : Shelf) : Decidable (v.Same w id shelf) := by
  cases shelf <;> exact inferInstanceAs (Decidable (_ = _))

/-- The space of the row under an id. -/
def spaceAt (v : Vault) (id : String) : Shelf → Option String
  | .claims => (v.claims.get id).map VaultClaim.spaceId
  | .notes => (v.notes.get id).map VaultNote.spaceId
  | .candidates => (v.candidates.get id).map MemoryCandidate.spaceId

def idsAt (v : Vault) : Shelf → List String
  | .claims => v.claims.keys
  | .notes => v.notes.keys
  | .candidates => v.candidates.keys

/-- A memory with the changes that turned `seen` into `mine`. -/
def merge (now seen mine : Vault) : Vault where
  graph :=
    { nodes := now.graph.nodes.merge seen.graph.nodes mine.graph.nodes
      edges := now.graph.edges.merge seen.graph.edges mine.graph.edges }
  notes := now.notes.merge seen.notes mine.notes
  noteVersions := now.noteVersions.merge seen.noteVersions mine.noteVersions
  claims := now.claims.merge seen.claims mine.claims
  noteClaims := now.noteClaims.merge seen.noteClaims mine.noteClaims
  candidates := now.candidates.merge seen.candidates mine.candidates
  auditEvents := now.auditEvents ++ mine.auditEvents.drop seen.auditEvents.length

end Vault

/-- How far a pass of `retireProjectSpace` is: it read for the space, found none, made sure there is one, holds the space locked, has removed
its memory, or ended without a space. -/
inductive PassPhase where
  | started
  | missing
  | planted
  | locked (spaceId : String)
  | swept (spaceId : String) (stamp : Nat)
  | ended
  deriving DecidableEq

structure Pass where
  projectId : String
  phase : PassPhase
  deriving DecidableEq

/-- An open transaction: a writer, or a pass. -/
structure Tx where
  id : Nat
  pass : Option Pass
  shares : List String
  opened : List SpaceRow
  seen : Vault
  mine : Vault

namespace Tx

/-- The space the transaction holds `FOR UPDATE`. -/
def exclusive (t : Tx) : Option String :=
  match t.pass with
  | some ⟨_, .locked spaceId⟩ => some spaceId
  | some ⟨_, .swept spaceId _⟩ => some spaceId
  | _ => none

/-- The space whose memory the pass has removed. -/
def sweeps (t : Tx) : Option String :=
  match t.pass with
  | some ⟨_, .swept spaceId _⟩ => some spaceId
  | _ => none

/-- What a statement of the transaction sees. -/
def view (t : Tx) (committed : Vault) : Vault := committed.merge t.seen t.mine

end Tx

/-- A tombstoned project. -/
structure ProjectRow where
  id : String
  userId : String
  deriving DecidableEq, Repr

/-- The database. The passes that have committed, and what each was to stamp the space with, are on record for the statements only. -/
structure MemoryDb where
  projects : Table ProjectRow ProjectRow.id
  spaces : Spaces
  vault : Vault
  txs : Table Tx Tx.id
  passes : List String
  retirements : List (String × Nat)

inductive DbAct where
  | deleteProject (project : ProjectRow)
  | dropProject (projectId : String)
  | start (id : Nat)
  | startPass (id : Nat) (projectId : String)
  | openSpace (id : Nat) (space : SpaceRow)
  | fence (id : Nat) (spaceId : String)
  | write (id : Nat) (op : VaultOp)
  | restoreFrom (id : Nat) (claimId spaceId : String) (stamp : Nat)
  | find (id : Nat)
  | plant (id : Nat) (spaceId : String) (now : Nat)
  | sweep (id : Nat) (now : Nat)
  | commit (id : Nat)
  | abort (id : Nat)

/-- The columns of `uniq_spaces_type_ref`. -/
def SpaceRow.sameScope (a b : SpaceRow) : Prop := a.type = b.type ∧ a.refId = b.refId

instance (a b : SpaceRow) : Decidable (a.sameScope b) := by
  unfold SpaceRow.sameScope
  infer_instance

/-- The space is the project's. -/
def SpaceRow.ofProject (projectId : String) (a : SpaceRow) : Prop := a.type = .project ∧ a.refId = projectId

instance (projectId : String) (a : SpaceRow) : Decidable (a.ofProject projectId) := by
  unfold SpaceRow.ofProject
  infer_instance

/-- Insert spaces, one after another. -/
def Spaces.insertAll : List SpaceRow → Spaces → Option Spaces
  | [], spaces => some spaces
  | a :: rest, spaces => (spaces.insert a).bind fun spaces => insertAll rest spaces

namespace MemoryDb

def setTx (t : Tx) (db : MemoryDb) : MemoryDb := { db with txs := db.txs.put t }

def endTx (id : Nat) (db : MemoryDb) : MemoryDb := { db with txs := db.txs.erase id }

/-- No other open transaction changed a row that the statement, which turns `v` into `w`, changes. -/
def Unlocked (db : MemoryDb) (id : Nat) (v w : Vault) : Prop :=
  ∀ u ∈ db.txs, u.id ≠ id → ∀ shelf ∈ Shelf.all, ∀ k ∈ u.seen.idsAt shelf ++ u.mine.idsAt shelf,
    u.seen.Same u.mine k shelf ∨ v.Same w k shelf

instance (db : MemoryDb) (id : Nat) (v w : Vault) : Decidable (db.Unlocked id v w) := by
  unfold Unlocked
  infer_instance

/-- The statement's changes, on top of what the transaction saw. -/
def apply (t : Tx) (w : Vault) (db : MemoryDb) : Option MemoryDb :=
  if db.Unlocked t.id (t.view db.vault) w then some (db.setTx { t with
    seen := db.vault
    mine := w }) else none

/-- The row is one that the database, or the transaction besides, has. -/
def Sees (db : MemoryDb) (t : Tx) (p : SpaceRow → Prop) : Prop := (∃ a ∈ db.spaces, p a) ∨ ∃ a ∈ t.opened, p a

instance (db : MemoryDb) (t : Tx) (p : SpaceRow → Prop) [DecidablePred p] : Decidable (db.Sees t p) := by
  unfold Sees
  infer_instance

/-- Insert a space unless its scope is taken; an open transaction that is inserting the scope is waited for. -/
def insertSpace (t : Tx) (space : SpaceRow) (db : MemoryDb) : Option Tx :=
  if db.Sees t (fun a => a.sameScope space) then some t
  else if ∃ u ∈ db.txs, ∃ a ∈ u.opened, a.sameScope space then none
  else if (∃ a ∈ db.spaces, a.id = space.id) ∨ ∃ u ∈ db.txs, ∃ a ∈ u.opened, a.id = space.id then none
  else some { t with opened := t.opened ++ [space] }

/-- `spaceAcceptsWrites`: it waits for a pass that holds the space, and takes the lock if the space is live. -/
def fence (t : Tx) (spaceId : String) (db : MemoryDb) : Option Tx :=
  if ∃ u ∈ db.txs, u.exclusive = some spaceId then none
  else if db.Sees t (fun a => a.id = spaceId ∧ a.retiredAt = none) then some { t with shares := spaceId :: t.shares }
  else some t

/-- The locking read of `retireProjectSpace`, which waits for whoever holds the space. -/
def findSpace (t : Tx) (projectId : String) (missing : PassPhase) (db : MemoryDb) : Option Tx :=
  match (db.spaces.rows ++ t.opened).find? fun a => a.ofProject projectId with
  | none => some { t with pass := some ⟨projectId, missing⟩ }
  | some a =>
    if ∃ u ∈ db.txs, u.id ≠ t.id ∧ (a.id ∈ u.shares ∨ u.exclusive = some a.id) then none
    else some { t with pass := some ⟨projectId, .locked a.id⟩ }

/-- The tombstone of a deleted project that has no space. -/
def plant (t : Tx) (projectId spaceId : String) (now : Nat) (db : MemoryDb) : Option Tx :=
  match db.projects.get projectId with
  | none => some { t with pass := some ⟨projectId, .ended⟩ }
  | some project =>
    (db.insertSpace t { id := spaceId, type := .project, refId := projectId, ownerUserId := project.userId, retiredAt := some now }).map
      fun t => { t with pass := some ⟨projectId, .planted⟩ }

/-- The stamp of a pass: that of its tombstone, or the time at which it closes the space. -/
def stampFor (t : Tx) (now : Nat) : Nat := (t.opened.findSome? SpaceRow.retiredAt).getD now

/-- A commit: the transaction's spaces and its changes. -/
def commitTx (t : Tx) (db : MemoryDb) : Option MemoryDb :=
  (db.spaces.insertAll t.opened).map fun spaces => { db.endTx t.id with
    spaces
    vault := t.view db.vault }

/-- A commit, with what a pass closes besides. -/
def commit (t : Tx) (db : MemoryDb) : Option MemoryDb :=
  match t.pass with
  | none => db.commitTx t
  | some ⟨projectId, .swept spaceId stamp⟩ =>
    (db.commitTx t).map fun after => { after with
      spaces := after.spaces.close spaceId stamp
      passes := db.passes ++ [projectId]
      retirements := db.retirements ++ [(projectId, stamp)] }
  | some ⟨projectId, .ended⟩ => some { db.endTx t.id with passes := db.passes ++ [projectId] }
  | _ => none

/-- A statement of a writer. -/
def writer (id : Nat) (f : Tx → Option MemoryDb) (db : MemoryDb) : Option MemoryDb :=
  (db.txs.get id).bind fun t => if t.pass = none then f t else none

def step (env : VaultEnv) (db : MemoryDb) : DbAct → Option MemoryDb
  | .deleteProject project =>
    if project.id ∈ db.passes then none else (db.projects.insert project).map fun projects => { db with projects }
  | .dropProject projectId => if projectId ∈ db.passes then some { db with projects := db.projects.erase projectId } else none
  | .start id =>
    if ∃ u ∈ db.txs, u.id = id then none
    else some (db.setTx { id, pass := none, shares := [], opened := [], seen := db.vault, mine := db.vault })
  | .startPass id projectId =>
    if ∃ u ∈ db.txs, u.id = id then none
    else if (∃ project ∈ db.projects, project.id = projectId) ∨ projectId ∈ db.passes then
      some (db.setTx { id, pass := some ⟨projectId, .started⟩, shares := [], opened := [], seen := db.vault, mine := db.vault })
    else none
  | .openSpace id space => db.writer id fun t => if space.retiredAt = none then (db.insertSpace t space).map fun t => db.setTx t else none
  | .fence id spaceId => db.writer id fun t => (db.fence t spaceId).map fun t => db.setTx t
  | .write id op =>
    db.writer id fun t =>
      if ∀ spaceId ∈ op.fences (t.view db.vault), spaceId ∈ t.shares then (op.run env (t.view db.vault)).bind fun w => db.apply t w else none
  | .restoreFrom id claimId spaceId stamp =>
    db.writer id fun t => ((t.view db.vault).restoreClaimFrom claimId spaceId stamp).bind fun r => db.apply t r.1
  | .find id =>
    (db.txs.get id).bind fun t =>
      match t.pass with
      | some ⟨projectId, .started⟩ => (db.findSpace t projectId .missing).map fun t => db.setTx t
      | some ⟨projectId, .planted⟩ => (db.findSpace t projectId .ended).map fun t => db.setTx t
      | _ => none
  | .plant id spaceId now =>
    (db.txs.get id).bind fun t =>
      match t.pass with
      | some ⟨projectId, .missing⟩ => (db.plant t projectId spaceId now).map fun t => db.setTx t
      | _ => none
  | .sweep id now =>
    (db.txs.get id).bind fun t =>
      match t.pass with
      | some ⟨projectId, .locked spaceId⟩ =>
        db.apply { t with pass := some ⟨projectId, .swept spaceId (stampFor t now)⟩ } ((t.view db.vault).retire spaceId now)
      | _ => none
  | .commit id => (db.txs.get id).bind fun t => db.commit t
  | .abort id => if ∃ u ∈ db.txs, u.id = id then some (db.endTx id) else none

/-- No project was deleted, and nothing is there. -/
def empty : MemoryDb where
  projects := Table.empty
  spaces := Table.empty
  vault := Vault.empty
  txs := Table.empty
  passes := []
  retirements := []

end MemoryDb

end Capka

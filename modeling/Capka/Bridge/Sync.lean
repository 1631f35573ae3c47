import Capka.Bridge.Plan
import Capka.Lib.Steps

/-!
# Folder syncs

The computer's directory, the workspace copy of the folder and the merge ancestor in the folder's row, with a sync that runs against
them one request or file operation at a time. Between any two of its steps the user works on the computer, the agent works in the
workspace, and the controller may wipe the workspace; a sync may end at any point. The folder's lease lets one sync run at a time.
-/

namespace Capka

/-! ## Trees -/

/-- A directory tree: its files and its directories, its root left out. -/
structure Tree where
  files : Manifest
  dirs : List Path

namespace Tree

/-- An empty directory. -/
def empty : Tree := { files := Table.empty, dirs := [] }

/-- Write a file, making the directories it lies in. -/
def write (path : Path) (entry : Entry) (t : Tree) : Tree :=
  { files := t.files.put ⟨path, entry⟩, dirs := t.dirs ∪ parents path }

/-- Make a directory and those it lies in. -/
def mkdir (d : Path) (t : Tree) : Tree := { t with dirs := t.dirs ∪ (parents d ++ [d]) }

/-- Remove what is at a path and everything under it. -/
def remove (path : Path) (t : Tree) : Tree :=
  { files := Table.filter (fun r => decide (¬ path <+: r.path)) t.files, dirs := t.dirs.filter fun d => ¬ path <+: d }

def removeFile (path : Path) (t : Tree) : Tree := { t with files := Table.erase path t.files }

def under (path : Path) (t : Tree) : List Path := t.files.keys.filter fun q => path <+: q

/-- The directories the files lie in are there. -/
def WF (t : Tree) : Prop := ∀ q ∈ t.files.keys, ∀ d ∈ parents q, d ∈ t.dirs

end Tree

/-- The computer's files, less what is skipped. -/
def walkLocal (t : Tree) : Manifest := Table.filter (fun r => walks r.path && !oversized r.entry.size) t.files

/-- The computer's files over the size cap. -/
def walkExcluded (t : Tree) : List Path :=
  (Table.filter (fun r : FileRow => walks r.path && oversized r.entry.size) t.files).keys

/-- The computer's directories, less what is skipped. -/
def walkLocalDirs (t : Tree) : List Path := t.dirs.filter fun d => d ≠ [] && walks d

/-- The workspace copy as a sync lists it; `missing` says that there is no copy. -/
structure Listing where
  files : Manifest
  dirs : List Path
  excluded : List Path
  missing : Bool

/-- List the workspace copy. -/
def serverTree : Option Tree → Listing
  | none => { files := Table.empty, dirs := [], excluded := [], missing := true }
  | some t =>
    { files := Table.filter (fun r => !ignoredPath r.path && !oversized r.entry.size) t.files
      dirs := t.dirs.filter fun d => !ignoredPath d
      excluded := (Table.filter (fun r : FileRow => !ignoredPath r.path && oversized r.entry.size) t.files).keys
      missing := false }

/-! ## The state -/

/-- The merge ancestor and its revision. -/
structure Ancestor where
  rev : Nat
  files : Manifest
  dirs : List Path

/-- The ancestor that remembers nothing. -/
def Ancestor.empty (rev : Nat) : Ancestor := { rev, files := Table.empty, dirs := [] }

/-- One operation of a sync. -/
inductive Op where
  | copy (c : ConflictCopy)
  | upload (path : Path)
  | download (path : Path)
  | deleteRemote (path : Path)
  | deleteLocal (path : Path)
  | deleteRemoteDir (d : Path)
  | deleteLocalDir (d : Path)
  | createLocalDir (d : Path)
  deriving DecidableEq

/-- The order of the phases. Within one, the pools take the operations in any order. -/
def Op.phase : Op → Nat
  | .copy _ => 0
  | .upload _ => 1
  | .download _ => 2
  | .deleteRemote _ => 3
  | .deleteLocal _ => 4
  | .deleteRemoteDir _ => 5
  | .deleteLocalDir _ => 6
  | .createLocalDir _ => 7

/-- A sync that carries out its plan: what it walked and listed, the ancestor it read, the plans, the paths a conflict copy may not
land on, what is left to do, and the uploads that were answered. -/
structure Merge where
  local_ : Manifest
  remote : Listing
  excluded : List Path
  base : Ancestor
  plan : SyncPlan
  dirPlan : DirPlan
  stamp : String
  claimed : List Path
  todo : List Op
  sent : List Path

/-- How far the sync that runs has come. -/
inductive SyncRun where
  | walked (local_ : Manifest) (excluded : List Path)
  | scanned (local_ : Manifest) (excluded : List Path) (localDirs : List Path)
  | listed (local_ : Manifest) (excluded : List Path) (localDirs : List Path) (remote : Listing)
  | merging (m : Merge)
  | rewalked (m : Merge) (files : Manifest)
  | reconciled (m : Merge) (files : Manifest) (dirs : List Path)

/-- A file of the computer a sync deleted: was that very path explicitly deleted in the workspace since the last sync that stored an
ancestor listing it? -/
structure LocalDelete where
  path : Path
  explicit : Bool
  deriving DecidableEq

/-- One folder: the computer's directory, the workspace copy (`none` when it is not there), the stored ancestor, the sync that runs.
The rest records what happened: the paths some stored ancestor listed, those of them explicitly deleted in the workspace since the
last such sync listed it, the explicit deletions since the running sync's listing, the paths on the computer the running sync
has not settled (a save brought them into its view, or their removal failed), whether the workspace was wiped since that listing, and
the computer's files that syncs deleted. -/
structure BridgeState where
  disk : Tree
  copy : Option Tree
  row : Option Ancestor
  run : Option SyncRun
  listed : List Path
  gone : List Path
  since : List Path
  strays : List Path
  wiped : Bool
  deleted : List LocalDelete

/-- Nothing is there yet. -/
def BridgeState.initial : BridgeState :=
  { disk := .empty, copy := none, row := none, run := none, listed := [], gone := [], since := [], strays := [], wiped := false,
    deleted := [] }

/-- What can happen. -/
inductive BridgeAction where
  /-- The user saves a file on the computer. -/
  | userWrite (path : Path) (entry : Entry)
  /-- The user makes a directory on the computer. -/
  | userMkdir (d : Path)
  /-- The user removes a file or a directory on the computer. -/
  | userDelete (path : Path)
  /-- The agent writes a file of the workspace copy. -/
  | agentWrite (path : Path) (entry : Entry)
  /-- The agent makes a directory of the workspace copy, or the copy itself. -/
  | agentMkdir (d : Path)
  /-- The agent, or the user in the file browser, removes a file or a directory of the workspace copy, or the copy itself. -/
  | agentDelete (path : Path)
  /-- The controller wipes the workspace. -/
  | wipe
  /-- A sync starts: it walks the computer's files. -/
  | walk
  /-- It walks the computer's directories. -/
  | walkDirs
  /-- It lists the workspace copy. -/
  | list
  /-- It loads the ancestor, which could be read or not, and plans. -/
  | load (readable : Bool) (stamp : String)
  /-- It carries out an operation; a file it writes gets this time. -/
  | perform (op : Op) (mtime : Nat)
  /-- An operation on the computer's directory fails, and the failure is swallowed. -/
  | swallow (op : Op)
  /-- It walks the computer's files again. -/
  | rewalk
  /-- It walks the computer's directories again. -/
  | rewalkDirs
  /-- It stores the new ancestor. -/
  | store
  /-- It ends here: a lost lease, a failed request, a closed tab, or its end. -/
  | stop

/-! ## The steps -/

namespace BridgeState

/-- The revision of the row, zero where nothing is stored. -/
def rev (s : BridgeState) : Nat := (s.row.map Ancestor.rev).getD 0

/-- The paths the stored ancestor lists. -/
def stored (s : BridgeState) : List Path := (s.row.map fun a => a.files.keys).getD []

/-- Record that these paths of the workspace copy were explicitly deleted. -/
def noteDeleted (paths : List Path) (s : BridgeState) : BridgeState :=
  { s with since := s.since ++ paths, gone := s.gone ++ paths.filter fun q => q ∈ s.listed }

/-- An explicit deletion in the workspace, of a file, a directory or the copy itself. -/
def deleteInWorkspace (path : Path) (s : BridgeState) : BridgeState :=
  match s.copy with
  | none => s
  | some t => { s.noteDeleted (t.under path) with copy := if path = [] then none else some (t.remove path) }

/-- Write a file of the workspace copy, which is made if it is not there. -/
def writeInWorkspace (path : Path) (entry : Entry) (s : BridgeState) : BridgeState :=
  { s with copy := some ((s.copy.getD .empty).write path entry) }

/-- A save on the computer. One that brings a file into a sync's view is not settled by the sync that runs. -/
def save (path : Path) (entry : Entry) (s : BridgeState) : BridgeState :=
  let enters := walks path && !oversized entry.size && decide (path ∉ (walkLocal s.disk).keys)
  { s with disk := s.disk.write path entry, strays := if enters then s.strays ++ [path] else s.strays }

/-- Record that a sync deletes these files of the computer. -/
def noteRemoved (paths : List Path) (s : BridgeState) : BridgeState :=
  { s with deleted := s.deleted ++ paths.map fun q => ⟨q, decide (q ∈ s.gone)⟩ }

end BridgeState

/-- The operations of a plan, phase after phase. -/
def planOps (plan : SyncPlan) (dirPlan : DirPlan) : List Op :=
  let localWins := plan.conflicts.filterMap fun c => if c.2 = .local_ then some c.1 else none
  let remoteWins := plan.conflicts.filterMap fun c => if c.2 = .remote then some c.1 else none
  plan.conflictCopies.map .copy ++ (plan.upload ++ localWins).map .upload ++ (plan.download ++ remoteWins).map .download ++
    plan.deleteRemote.map .deleteRemote ++ plan.deleteLocal.map .deleteLocal ++ dirPlan.deleteRemote.map .deleteRemoteDir ++
    dirPlan.deleteLocal.map .deleteLocalDir ++ dirPlan.createLocal.map .createLocalDir

/-- The paths a plan writes on one side or the other. -/
def planWrites (plan : SyncPlan) : List Path :=
  plan.upload ++ plan.download ++ plan.conflicts.map Prod.fst ++ plan.conflictCopies.map ConflictCopy.keepAs

/-- The merge a sync plans from what it walked, listed and loaded. -/
def planMerge (local_ : Manifest) (localExcluded localDirs : List Path) (remote : Listing) (base : Ancestor) (stamp : String) :
    Merge :=
  let excluded := localExcluded ++ remote.excluded
  let plan := planSync local_ remote.files base.files excluded stamp
  let dirPlan := planDirs localDirs remote.dirs base.dirs (planWrites plan)
  { local_, remote, excluded, base, plan, dirPlan, stamp
    claimed := local_.keys ++ remote.files.keys ++ base.files.keys ++ localDirs ++ remote.dirs
    todo := planOps plan dirPlan
    sent := [] }

/-- How many names are tried for a conflict copy. -/
def NAME_TRIES : Nat := 100

/-- The first of the names for a conflict copy that is not taken. -/
def resolveConflictName (path : Path) (stamp : String) (taken : Path → Bool) : Option Path :=
  ((List.range NAME_TRIES).map fun i => conflictName path stamp (i + 1)).find? fun name => !taken name

/-- The ancestor a sync plans against, and the row as the load leaves it. Over a missing copy the stored ancestor is reset first, unless
there is nothing to forget, and a reset that does not land fails the sync. -/
def loadAncestor (row : Option Ancestor) (readable missing : Bool) : Option (Ancestor × Option Ancestor) :=
  let stored := if readable then some (row.getD (.empty 0)) else none
  let base := stored.getD (.empty 0)
  if missing && !(stored.any fun a => a.files.keys.isEmpty && a.dirs.isEmpty) then
    if (row.map Ancestor.rev).getD 0 = base.rev then some (.empty (base.rev + 1), some (.empty (base.rev + 1))) else none
  else some (base, row)

namespace BridgeState

/-- Carry out one operation: the state after it and what became of the merge. -/
def performOp (m : Merge) (mtime : Nat) (s : BridgeState) : Op → Option (BridgeState × Merge)
  | .copy c =>
    let taken (name : Path) : Bool := decide (name ∈ m.claimed) || (s.disk.files.entry name).isSome
    let losing := match c.source with
      | .local_ => s.disk.files.entry c.path
      | .remote => s.copy.bind fun t => t.files.entry c.path
    match resolveConflictName c.path m.stamp taken, losing with
    | some keepAs, some entry =>
      some ({ s with disk := s.disk.write keepAs { entry with mtime } },
        { m with claimed := m.claimed ++ [keepAs], todo := m.todo.erase (.copy c) ++ [.upload keepAs] })
    | _, _ => none
  | .upload path =>
    match s.disk.files.entry path with
    | none => none
    | some entry =>
      -- The upload route applies the skip-list and the size cap again and drops what they catch.
      let s' := if ignoredPath path || oversized entry.size then s else s.writeInWorkspace path { entry with mtime }
      some (s', { m with todo := m.todo.erase (.upload path), sent := m.sent ++ [path] })
  | .download path =>
    match s.copy.bind fun t => t.files.entry path with
    | none => none
    | some entry =>
      some ({ s with disk := s.disk.write path { entry with mtime } }, { m with todo := m.todo.erase (.download path) })
  | .deleteRemote path => some (s.deleteInWorkspace path, { m with todo := m.todo.erase (.deleteRemote path) })
  | .deleteLocal path =>
    let s' := if (s.disk.files.entry path).isSome then s.noteRemoved [path] else s
    some ({ s' with disk := s.disk.removeFile path }, { m with todo := m.todo.erase (.deleteLocal path) })
  | .deleteRemoteDir d => some (s.deleteInWorkspace d, { m with todo := m.todo.erase (.deleteRemoteDir d) })
  | .deleteLocalDir d =>
    some ({ s.noteRemoved (s.disk.under d) with disk := s.disk.remove d }, { m with todo := m.todo.erase (.deleteLocalDir d) })
  | .createLocalDir d => some ({ s with disk := s.disk.mkdir d }, { m with todo := m.todo.erase (.createLocalDir d) })

/-- An operation whose failure is swallowed: a file that could not be removed stays. -/
def swallowOp (m : Merge) (s : BridgeState) : Op → Option (BridgeState × Merge)
  | .deleteLocal path => some ({ s with strays := s.strays ++ [path] }, { m with todo := m.todo.erase (.deleteLocal path) })
  | .deleteLocalDir d => some (s, { m with todo := m.todo.erase (.deleteLocalDir d) })
  | .createLocalDir d => some (s, { m with todo := m.todo.erase (.createLocalDir d) })
  | _ => none

/-- An operation may be taken when it is left to do and no earlier phase is unfinished. -/
def Ready (m : Merge) (op : Op) : Prop := op ∈ m.todo ∧ ∀ o ∈ m.todo, op.phase ≤ o.phase

instance (m : Merge) (op : Op) : Decidable (Ready m op) := inferInstanceAs (Decidable (_ ∧ _))

/-- The ancestor was stored: its paths are listed from now on, and of their deletions only those since this sync's listing count. -/
def recordAncestor (a : Ancestor) (s : BridgeState) : BridgeState :=
  { s with
    row := some a
    listed := s.listed ++ a.files.keys
    gone := (s.gone.filter fun q => q ∉ a.files.keys) ++ s.since.filter fun q => q ∈ a.files.keys }

/-- The step function. -/
def step (s : BridgeState) : BridgeAction → Option BridgeState
  | .userWrite path entry => some (s.save path entry)
  | .userMkdir d => some { s with disk := s.disk.mkdir d }
  | .userDelete path => some { s with disk := s.disk.remove path }
  | .agentWrite path entry => some (s.writeInWorkspace path entry)
  | .agentMkdir d => some { s with copy := some ((s.copy.getD .empty).mkdir d) }
  | .agentDelete path => some (s.deleteInWorkspace path)
  | .wipe => some { s with copy := none, wiped := true }
  | .walk =>
    match s.run with
    | none => some { s with run := some (.walked (walkLocal s.disk) (walkExcluded s.disk)), strays := [] }
    | some _ => none
  | .walkDirs =>
    match s.run with
    | some (.walked local_ excluded) => some { s with run := some (.scanned local_ excluded (walkLocalDirs s.disk)) }
    | _ => none
  | .list =>
    match s.run with
    | some (.scanned local_ excluded dirs) =>
      some { s with run := some (.listed local_ excluded dirs (serverTree s.copy)), since := [], wiped := false }
    | _ => none
  | .load readable stamp =>
    match s.run with
    | some (.listed local_ excluded dirs remote) =>
      match loadAncestor s.row readable remote.missing with
      | some (base, row) =>
        some { s with row := row, run := some (.merging (planMerge local_ excluded dirs remote base stamp)) }
      | none => none
    | _ => none
  | .perform op mtime =>
    match s.run with
    | some (.merging m) =>
      if Ready m op then (s.performOp m mtime op).map fun r => { r.1 with run := some (.merging r.2) } else none
    | _ => none
  | .swallow op =>
    match s.run with
    | some (.merging m) => if Ready m op then (s.swallowOp m op).map fun r => { r.1 with run := some (.merging r.2) } else none
    | _ => none
  | .rewalk =>
    match s.run with
    | some (.merging m) => if m.todo = [] then some { s with run := some (.rewalked m (walkLocal s.disk)) } else none
    | _ => none
  | .rewalkDirs =>
    match s.run with
    | some (.rewalked m files) => some { s with run := some (.reconciled m files (walkLocalDirs s.disk)) }
    | _ => none
  | .store =>
    match s.run with
    | some (.reconciled m files dirs) =>
      -- The swap lands only on the revision the sync loaded.
      if s.rev = m.base.rev then some { s.recordAncestor { rev := m.base.rev + 1, files, dirs } with run := none } else none
    | _ => none
  | .stop => some { s with run := none }

end BridgeState

end Capka

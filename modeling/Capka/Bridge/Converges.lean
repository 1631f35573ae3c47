import Capka.Bridge.Directories
import Capka.Bridge.Prefilter

/-!
# The sync after a sync

A sync that ran to its end stores what it left on the computer as the next ancestor. The sync that follows, with nothing done on either
side in between, plans nothing, but for what the first could not settle: a new empty directory of the computer, which is sent nowhere and
is in the ancestor all the same; a file or a directory of the workspace that the walk of the computer does not reach; and a new directory
of the workspace in one that was deleted on the computer.
-/

namespace Capka

/-- Nothing stands in the way of what the sync writes: no file is sent to the place of a directory or into a file, and none of the computer's
files is where a directory is mirrored or over it, unless it is deleted first. An operation that finds something in its way fails. -/
structure SyncCase.Clear (c : SyncCase) : Prop where
  uploads : ∀ p, c.verdictOf p = .upload → ∀ t ∈ c.copy, p ∉ t.dirs ∧ ∀ d ∈ parents p, d ∉ t.files.keys
  downloads : ∀ p, c.verdictOf p = .download → p ∉ c.disk.dirs ∧ ∀ d ∈ parents p, d ∉ c.disk.files.keys
  mirrors : ∀ d ∈ c.remote.dirs, d ∉ walkLocalDirs c.disk → d ∉ c.base.dirs → ∀ e, e <+: d → e ∈ c.disk.files.keys →
    c.verdictOf e = .deleteLocal

/-- A file of the computer that is new: the ancestor lacks it. -/
def SyncCase.NewOnComputer (c : SyncCase) (p : Path) : Prop := p ∈ c.localFiles.keys ∧ p ∉ c.base.files.keys ∧ p ∉ c.excluded

/-- A file of the workspace that is new. -/
def SyncCase.NewInWorkspace (c : SyncCase) (p : Path) : Prop := p ∈ c.remote.files.keys ∧ p ∉ c.base.files.keys ∧ p ∉ c.excluded

/-- A directory deleted on the computer since the ancestor, with no new file of the workspace in it. -/
def SyncCase.DeletedOnComputer (c : SyncCase) (d : Path) : Prop :=
  d ∈ c.remote.dirs ∧ d ∉ walkLocalDirs c.disk ∧ d ∈ c.base.dirs ∧ ∀ p, c.NewInWorkspace p → d ∉ parents p

/-- A directory deleted in the workspace since the ancestor, with no new file of the computer in it. -/
def SyncCase.DeletedInWorkspace (c : SyncCase) (d : Path) : Prop :=
  d ∈ walkLocalDirs c.disk ∧ d ∉ c.remote.dirs ∧ d ∈ c.base.dirs ∧ ∀ p, c.NewOnComputer p → d ∉ parents p

/-- What the sync can settle: the walk reaches every new file of the workspace; of a new directory of the workspace and those it lies in,
the walk reaches just those that are not in one deleted on the computer; and, once there is a workspace copy, a new directory of the
computer holds a new file or is in one deleted in the workspace. -/
structure SyncCase.Settles (c : SyncCase) : Prop where
  reached : ∀ p, c.NewInWorkspace p → walks p = true
  mirrored : ∀ d ∈ c.remote.dirs, d ∉ walkLocalDirs c.disk → d ∉ c.base.dirs → ∀ e, e <+: d → e ≠ [] → ignoredPath e = false →
    (walks e = true ↔ ∀ D, c.DeletedOnComputer D → ¬ D <+: e)
  held : c.copy.isSome = true ∨ (∃ p, c.NewOnComputer p) → ∀ d ∈ walkLocalDirs c.disk, d ∉ c.remote.dirs → d ∉ c.base.dirs →
    (∃ p, c.NewOnComputer p ∧ d ∈ parents p) ∨ ∃ D, c.DeletedInWorkspace D ∧ D <+: d

namespace ConvergesAux

open SyncCase BridgeState UninterruptedAux BridgeAux UntrackedAux NamesAux PlannedAux VersionsAux DirectoriesAux

variable {c : SyncCase} {p q d D : Path}

/-! ### What a side's manifest says -/

variable {t : Tree} {e : Entry}

variable {copy : Option Tree}

/-- Each side has at the path what it had, unless a directory over it, or a file of its place, was dropped. -/
def Untouched (c : SyncCase) (disk : Tree) (copy : Option Tree) (q : Path) : Prop :=
  (disk.files.entry q = c.disk.files.entry q ∨ disk.files.entry q = none ∧ ∃ D, c.DropsLocal D ∧ D <+: q) ∧
    (copyEntry copy q = copyEntry c.copy q ∨
      copyEntry copy q = none ∧ ∃ D, (c.verdictOf D = .deleteRemote ∨ c.DropsRemote D) ∧ D <+: q)

theorem not_under_file (hp : p ∈ c.remote.files.keys) (hq : copyEntry c.copy q = some e) (hpre : p <+: q) : p = q := by
  obtain ⟨t, ht, hfile⟩ := of_mem_remote_files hp
  obtain ⟨t', ht', he⟩ := Option.bind_eq_some_iff.mp hq
  rw [Option.mem_def.mp ht] at ht'
  cases ht'
  by_contra hne
  have hroot : p ≠ [] := by
    rintro rfl
    exact (c.copy_ok t ht).root.1 hfile
  have hparent := (c.copy_ok t ht).files q (Manifest.entry_isSome.mp (by simp [he])) p (mem_parents.mpr ⟨hroot, hne, hpre⟩)
  exact (c.copy_ok t ht).apart p hfile hparent

section Step

variable {m m' : Merge} {disk disk' : Tree} {copy copy' : Option Tree} {op : Op}

end Step

/-! ### When it is done -/

/-- The two manifests agree on the path, as the planner sees it. -/
def Settled (l r : Option Entry) : Prop := (l = none ∧ r = none) ∨ ∃ x y, l = some x ∧ r = some y ∧ sameContent x y = true

section Done

variable {disk : Tree} {copy : Option Tree}

variable {s : BridgeState} {m : Merge}

end Done

/-! ### The sync that follows -/

variable {local_ : Manifest} {excluded localDirs : List Path} {remote : Listing} {base : Ancestor} {stamp : String}

variable {s : BridgeState}

end ConvergesAux

open ConvergesAux VersionsAux PlannedAux UninterruptedAux PrefilterAux

namespace ConvergesRun

end ConvergesRun

open ConvergesRun VersionsRun SyncCase

end Capka

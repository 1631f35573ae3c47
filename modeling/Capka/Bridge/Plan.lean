import Capka.Lib.Table
import Mathlib

/-!
# The folder planner

A PC folder is kept in two places, on the computer and in the workspace, and reconciled against the tree both agreed on last. The
planner compares three manifests path by path: a file on one side only is new there, or was deleted on the other, and the stored
ancestor tells which. Directories are compared by presence. What a sync does not look at (dependency trees, junk, files over the
size cap) is kept out of both manifests, and the paths over the cap are named so that their absence is not read as a deletion.
-/

namespace Capka

/-- A path relative to the folder, by its segments. -/
abbrev Path := List String

instance : LawfulBEq Path := inferInstance

/-- What a manifest says of a file: the time and size it was seen with and the hash of its content, where one was taken. -/
structure Entry where
  mtime : Nat
  size : Nat
  hash : Option Nat
  deriving DecidableEq

/-- A file of a tree. -/
structure FileRow where
  path : Path
  entry : Entry
  deriving DecidableEq

/-- Files by their paths. -/
abbrev Manifest := Table FileRow FileRow.path

def Manifest.entry (m : Manifest) (path : Path) : Option Entry := (Table.get m path).map FileRow.entry

/-- The directories a path lies in, outermost first. -/
def parents (path : Path) : List Path := (List.range (path.length - 1)).map fun i => path.take (i + 1)

theorem mem_parents {d path : Path} : d ∈ parents path ↔ d ≠ [] ∧ d ≠ path ∧ d <+: path := by
  simp only [parents, List.mem_map, List.mem_range]
  constructor
  · rintro ⟨i, hi, rfl⟩
    refine ⟨?_, ?_, List.take_prefix _ _⟩
    · intro h
      have hlen := congrArg List.length h
      simp only [List.length_take, List.length_nil] at hlen
      omega
    · intro h
      have hlen := congrArg List.length h
      simp only [List.length_take] at hlen
      omega
  · rintro ⟨hne, hneq, hpre⟩
    have hpos : 0 < d.length := List.length_pos_iff.mpr hne
    have hlt : d.length < path.length := by
      rcases Nat.lt_or_ge d.length path.length with h | h
      · exact h
      · exact absurd (hpre.eq_of_length_le h) hneq
    refine ⟨d.length - 1, by omega, ?_⟩
    rw [show d.length - 1 + 1 = d.length by omega]
    exact (List.prefix_iff_eq_take.mp hpre).symm

/-! ## What a sync skips -/

/-- Names of directories and files never worth syncing, wherever they stand in a path. -/
def IGNORE_SEGMENTS : List String :=
  ["node_modules", "bower_components", "jspm_packages", ".git", ".hg", ".svn", ".bzr", "_darcs", ".venv", "venv", "__pycache__",
    ".mypy_cache", ".pytest_cache", ".tox", ".eggs", ".ipynb_checkpoints", ".dart_tool", ".pub-cache", ".next", ".nuxt",
    ".svelte-kit", ".angular", ".expo", ".output", ".vercel", ".netlify", ".turbo", ".parcel-cache", ".nyc_output", ".cache",
    "dist", "build", "target", ".gradle", ".settings", ".idea", ".vscode", ".terraform", ".serverless", ".DS_Store",
    ".AppleDouble", ".Spotlight-V100", ".Trashes", ".fseventsd", ".TemporaryItems", ".Trash", "__MACOSX", "$RECYCLE.BIN",
    "System Volume Information"]

/-- Extensions of model weights and disk images. -/
def IGNORE_EXT : List String :=
  [".safetensors", ".gguf", ".ggml", ".pt", ".pth", ".onnx", ".ckpt", ".tflite", ".mlmodel", ".caffemodel", ".iso", ".dmg", ".img",
    ".vmdk", ".qcow2", ".vdi", ".vhd", ".vhdx", ".ova"]

/-- The cap on one file, in megabytes. -/
def FOLDER_MAX_FILE_MB : Nat := 100

/-- A file too big to sync. -/
def oversized (size : Nat) : Bool := decide (FOLDER_MAX_FILE_MB * 1024 * 1024 < size)

/-- One string begins with another. -/
def startsWith (s start : String) : Bool := decide (start.toList <+: s.toList)

/-- One string ends with another. -/
def endsWith (s suffix : String) : Bool := decide (suffix.toList <:+ s.toList)

/-- A path, of a file or a directory, that is never synced. -/
def ignoredPath (path : Path) : Bool :=
  let base := path.getLast?.getD ""
  let lower := String.ofList (base.toList.map Char.toLower)
  if startsWith base "._" || startsWith base "~$" || startsWith base ".~lock." || endsWith base "~" || lower == "thumbs.db" ||
      lower == "ehthumbs.db" || lower == "desktop.ini" || lower == ".localized" || endsWith lower ".swp" || endsWith lower ".swo" ||
      endsWith lower ".tmp" || endsWith lower ".temp" then true
  else if path.any IGNORE_SEGMENTS.contains then true
  else IGNORE_EXT.any (endsWith lower)

/-- A path the walk of the computer reaches: neither it nor a directory it lies in is skipped. -/
def walks (path : Path) : Bool := !ignoredPath path && (parents path).all fun d => !ignoredPath d

theorem ignoredPath_of_walks {path : Path} (h : walks path = true) : ignoredPath path = false := by
  simp only [walks, Bool.and_eq_true, Bool.not_eq_true'] at h
  exact h.1

/-! ## The planner -/

/-- The side a version is on. -/
inductive Side where
  | local_
  | remote
  deriving DecidableEq

/-- A losing version to keep beside the winner, the name it is proposed to be kept under, the side its bytes are still on. -/
structure ConflictCopy where
  path : Path
  keepAs : Path
  source : Side
  deriving DecidableEq

/-- What a sync moves each way. -/
structure SyncPlan where
  upload : List Path
  download : List Path
  deleteRemote : List Path
  deleteLocal : List Path
  conflicts : List (Path × Side)
  conflictCopies : List ConflictCopy

/-- A name's stem and extension: the extension begins at the last dot, unless the name begins with it. -/
def stemExt (base : String) : String × String :=
  let chars := base.toList.reverse
  let ext := chars.takeWhile (· ≠ '.')
  let stem := (chars.dropWhile (· ≠ '.')).drop 1
  if stem = [] then (base, "") else (String.ofList stem.reverse, String.ofList ('.' :: ext.reverse))

/-- The name a losing version is kept under, in the directory of its file; `stamp` is the time of the plan as it is written. -/
def conflictName (path : Path) (stamp : String) (nth : Nat) : Path :=
  let (stem, ext) := stemExt (path.getLast?.getD "")
  path.dropLast ++ [stem ++ ".conflict-" ++ stamp ++ (if nth > 1 then "-" ++ toString nth else "") ++ ext]

/-- Two versions of one content: by their hashes when both carry one, else by their sizes. -/
def sameContent (a b : Entry) : Bool :=
  match a.hash, b.hash with
  | some x, some y => x == y
  | _, _ => a.size == b.size

/-- A version that differs from the base, or that the base lacks. -/
def changed (entry : Entry) (base : Option Entry) : Bool :=
  match base with
  | none => true
  | some b => !sameContent entry b

/-- What the planner does about one path. -/
inductive SyncVerdict where
  | nothing
  | upload
  | download
  | deleteRemote
  | deleteLocal
  | conflict (winner : Side)
  deriving DecidableEq

/-- The three-way comparison of one path. -/
def verdict (l r b : Option Entry) : SyncVerdict :=
  match l, r with
  | some l, some r =>
    if sameContent l r then .nothing
    else if changed l b && changed r b then .conflict (if l.mtime ≥ r.mtime then .local_ else .remote)
    else if changed l b then .upload
    else .download
  | some _, none => if b.isSome then .deleteLocal else .upload
  | none, some _ => if b.isSome then .deleteRemote else .download
  | none, none => .nothing

/-- The verdict on a path of three manifests, unless the path was deliberately not looked at. -/
def pathVerdict (local_ remote base : Manifest) (excluded : List Path) (path : Path) : SyncVerdict :=
  if path ∈ excluded then .nothing else verdict (local_.entry path) (remote.entry path) (base.entry path)

/-- The loser of a conflict, to be kept. -/
def conflictCopyOf (stamp : String) (path : Path) : SyncVerdict → Option ConflictCopy
  | .conflict .local_ => some { path, keepAs := conflictName path stamp 1, source := .remote }
  | .conflict .remote => some { path, keepAs := conflictName path stamp 1, source := .local_ }
  | _ => none

/-- The three-way plan over every path of the three manifests. -/
def planSync (local_ remote base : Manifest) (excluded : List Path) (stamp : String) : SyncPlan :=
  let paths := (local_.keys ++ remote.keys ++ base.keys).dedup
  let verdictOf := pathVerdict local_ remote base excluded
  { upload := paths.filter fun path => verdictOf path = .upload
    download := paths.filter fun path => verdictOf path = .download
    deleteRemote := paths.filter fun path => verdictOf path = .deleteRemote
    deleteLocal := paths.filter fun path => verdictOf path = .deleteLocal
    conflicts := paths.filterMap fun path =>
      match verdictOf path with
      | .conflict winner => some (path, winner)
      | _ => none
    conflictCopies := paths.filterMap fun path => conflictCopyOf stamp path (verdictOf path) }

/-- What a sync does about directories. -/
structure DirPlan where
  createLocal : List Path
  deleteRemote : List Path
  deleteLocal : List Path

/-- The three-way plan of directories, by presence. A directory that holds a file this sync writes is deleted on neither side. -/
def planDirs (local_ remote base keepPaths : List Path) : DirPlan :=
  let keep := keepPaths.flatMap parents
  let dirs := (local_ ++ remote ++ base).dedup
  { createLocal := dirs.filter fun d => d ∈ remote ∧ d ∉ local_ ∧ d ∉ base
    deleteRemote := dirs.filter fun d => d ∉ keep ∧ d ∈ remote ∧ d ∉ local_ ∧ d ∈ base
    deleteLocal := dirs.filter fun d => d ∉ keep ∧ d ∉ remote ∧ d ∈ local_ ∧ d ∈ base }

/-! ## What a plan says of a path -/

section Plan

variable {local_ remote base : Manifest} {excluded : List Path} {stamp : String} {path : Path}

theorem Manifest.entry_isSome {m : Manifest} : (m.entry path).isSome ↔ path ∈ m.keys := by
  rw [Manifest.entry, Option.isSome_map, Table.get_isSome_iff]

theorem Manifest.entry_eq_none {m : Manifest} : m.entry path = none ↔ path ∉ m.keys := by
  rw [← Manifest.entry_isSome, Bool.not_eq_true, Option.isSome_eq_false_iff, Option.isNone_iff_eq_none]

theorem of_mem_deleteLocal (h : path ∈ (planSync local_ remote base excluded stamp).deleteLocal) :
    path ∉ excluded ∧ path ∉ remote.keys ∧ path ∈ base.keys := by
  have hv : pathVerdict local_ remote base excluded path = .deleteLocal := by
    simpa using (List.mem_filter.mp h).2
  unfold pathVerdict at hv
  split at hv
  · cases hv
  · rename_i hex
    refine ⟨hex, ?_, ?_⟩
    · rw [← Manifest.entry_eq_none]
      cases hr : remote.entry path with
      | none => rfl
      | some r =>
        rw [hr] at hv
        cases hl : local_.entry path with
        | none =>
          rw [hl] at hv
          simp only [verdict] at hv
          split at hv <;> cases hv
        | some l =>
          rw [hl] at hv
          simp only [verdict] at hv
          split at hv
          · cases hv
          · split at hv
            · cases hv
            · split at hv <;> cases hv
    · rw [← Manifest.entry_isSome]
      cases hb : base.entry path with
      | some b => rfl
      | none =>
        rw [hb] at hv
        cases hl : local_.entry path <;> cases hr : remote.entry path <;> rw [hl, hr] at hv
        · cases hv
        · cases hv
        · cases hv
        · simp only [verdict] at hv
          split at hv
          · cases hv
          · split at hv
            · cases hv
            · split at hv <;> cases hv

theorem localOnly_planned (hl : path ∈ local_.keys) (hr : path ∉ remote.keys) (hex : path ∉ excluded) :
    (path ∉ base.keys → path ∈ (planSync local_ remote base excluded stamp).upload) ∧
      (path ∈ base.keys → path ∈ (planSync local_ remote base excluded stamp).deleteLocal) := by
  have hpaths : path ∈ (local_.keys ++ remote.keys ++ base.keys).dedup := by
    rw [List.mem_dedup]
    exact List.mem_append_left _ (List.mem_append_left _ hl)
  obtain ⟨l, hl⟩ := Option.isSome_iff_exists.mp (Manifest.entry_isSome.mpr hl)
  have hr := Manifest.entry_eq_none.mpr hr
  have hv : pathVerdict local_ remote base excluded path = if (base.entry path).isSome then .deleteLocal else .upload := by
    rw [pathVerdict, if_neg hex, hl, hr]
    rfl
  constructor
  · intro hb
    refine List.mem_filter.mpr ⟨hpaths, ?_⟩
    rw [hv, Manifest.entry_eq_none.mpr hb]
    rfl
  · intro hb
    refine List.mem_filter.mpr ⟨hpaths, ?_⟩
    rw [hv, Manifest.entry_isSome.mpr hb]
    rfl

theorem of_mem_dirs_deleteLocal {local_ remote base keepPaths : List Path} {d : Path}
    (h : d ∈ (planDirs local_ remote base keepPaths).deleteLocal) :
    d ∈ local_ ∧ d ∉ remote ∧ ∀ p ∈ keepPaths, d ∉ parents p := by
  have hd := (List.mem_filter.mp h).2
  simp only [decide_eq_true_eq, List.mem_flatMap, not_exists, not_and] at hd
  exact ⟨hd.2.2.1, hd.2.1, hd.1⟩

end Plan

end Capka

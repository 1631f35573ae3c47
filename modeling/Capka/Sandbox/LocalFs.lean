import Mathlib

/-!
# Listing a workspace

`safeRealPath` resolves a path under the workspace and refuses one that leaves it, and `#listAt` walks a directory breadth first. The
operating system is what it answers: the real path, the names, the metadata and the content it has for a path, and which of its calls
fail for a reason that says nothing about what is there.
-/

namespace Capka.LocalFs

/-- A path: its segments, as they stand between the slashes. An absolute one starts with the empty segment or is a result of
`resolve`. -/
abbrev Segments := List String

/-- The codes that mean that there is nothing: `ENOENT`, `ENOTDIR`, `ELOOP`. -/
inductive Absence
  | enoent
  | enotdir
  | eloop
  deriving Repr, DecidableEq

/-- Why a call failed: there is nothing, another code, or a refusal of `path-safety`, which carries no code. -/
inductive Failure
  | absent (why : Absence)
  | fault
  | refused
  deriving Repr, DecidableEq

/-- What `stat` answers. -/
structure Stat where
  isDirectory : Bool
  size : Nat
  mtimeMs : Nat
  deriving Repr, DecidableEq

/-- What is on the disk, by absolute path: a directory does not name itself, its parent or a name twice, and only a directory has
names. -/
structure Disk where
  realpath : Segments → Except Absence Segments
  readdir : Segments → Except Absence (List String)
  stat : Segments → Except Absence Stat
  hash : Segments → Nat
  names : ∀ path names, readdir path = .ok names → names.Nodup ∧ ∀ name ∈ names, name ≠ "" ∧ name ≠ "." ∧ name ≠ ".."
  dirs : ∀ path names st, readdir path = .ok names → stat path = .ok st → st.isDirectory = true

/-- The calls of the walk. -/
inductive Syscall
  | realpath
  | readdir
  | stat
  | read
  deriving Repr, DecidableEq

/-- Which calls fail with another code, for want of permission, of descriptors, of a working disk. -/
abbrev Faults := Syscall → Segments → Bool

/-- What a call answers. -/
def ask {α : Type} (F : Faults) (call : Syscall) (path : Segments) (truth : Except Absence α) : Except Failure α :=
  if F call path then .error .fault
  else
    match truth with
    | .ok a => .ok a
    | .error why => .error (.absent why)

/-- One segment of `path.resolve`. -/
def push (acc : Segments) (segment : String) : Segments :=
  if segment = "" ∨ segment = "." then acc else if segment = ".." then acc.dropLast else acc ++ [segment]

/-- The path starts with a slash. -/
def absolute (path : Segments) : Bool := path.head? = some "" && decide (2 ≤ path.length)

/-- `path.resolve(base, path)`. -/
def resolve (base path : Segments) : Segments := path.foldl push (if absolute path then [] else base)

def safeJoin (base userPath : Segments) : Except Failure Segments :=
  if base.isPrefixOf (resolve base userPath) then .ok (resolve base userPath) else .error .refused

/-- The loop of `safeRealPath`: up to the first component that exists. The path is given from its end. -/
def climb (D : Disk) (F : Faults) (realBase : Segments) : List String → Segments → Except Failure Segments
  | [], trailing =>
    match ask F .realpath [] (D.realpath []) with
    | .error (.absent .enoent) => .error .refused
    | .error e => .error e
    | .ok real => if realBase.isPrefixOf real then .ok (real ++ trailing) else .error .refused
  | segment :: parent, trailing =>
    match ask F .realpath (segment :: parent).reverse (D.realpath (segment :: parent).reverse) with
    | .error (.absent .enoent) => climb D F realBase parent (segment :: trailing)
    | .error e => .error e
    | .ok real => if realBase.isPrefixOf real then .ok (real ++ trailing) else .error .refused

def safeRealPath (D : Disk) (F : Faults) (base userPath : Segments) : Except Failure Segments :=
  match safeJoin base userPath with
  | .error e => .error e
  | .ok full =>
    match ask F .realpath base (D.realpath base) with
    | .error (.absent .enoent) => .ok full
    | .error e => .error e
    | .ok realBase => climb D F realBase (realBase ++ full.drop base.length).reverse []

/-- An entry of the listing. -/
structure Entry where
  name : String
  path : Segments
  isDirectory : Bool
  size : Nat
  modifiedAt : Nat
  hash : Option Nat
  deriving Repr, DecidableEq

/-- What the walk has so far; `queued` holds the directories of the next level, one less deep. -/
structure Walk where
  entries : List Entry
  truncated : Bool
  missing : Bool
  queued : List Segments
  deriving Repr, DecidableEq

/-- The path of a child. -/
def childRel (rel : Segments) (name : String) : Segments := if rel = ["."] then [name] else rel ++ [name]

section

variable (D : Disk) (F : Faults) (base : Segments) (withHash : Bool)

/-- What the walk makes of a name: the child is resolved and contained before its metadata and its content are read. -/
def entryOf (rel : Segments) (name : String) : Except Failure (Entry × Segments) :=
  match safeRealPath D F base (childRel rel name) with
  | .error e => .error e
  | .ok full =>
    match ask F .stat full (D.stat full) with
    | .error e => .error e
    | .ok s =>
      if s.isDirectory || !withHash then .ok (⟨name, childRel rel name, s.isDirectory, s.size, s.mtimeMs, none⟩, full)
      else if F .read full then .error .fault
      else .ok (⟨name, childRel rel name, s.isDirectory, s.size, s.mtimeMs, some (D.hash full)⟩, full)

end

end Capka.LocalFs

import Mathlib.Data.List.Induction
import Mathlib.Data.List.Infix

/-!
# Trees with symbolic links

A path is followed from a directory, name by name, and through the links on the way, of which it takes only so many. What it leads to has a
real path, which no link is on; a path that leads nowhere does so however it goes on.
-/

namespace Symlinks

/-- What an entry is. -/
inductive Node
  | dir
  | file
  | link (target : List String)
  deriving DecidableEq

/-- Why a path leads nowhere. -/
inductive PathError
  | enoent
  | enotdir
  | eloop
  deriving Repr, DecidableEq

/-- A segment that names an entry. -/
def IsName (s : String) : Prop := s ≠ "" ∧ s ≠ "." ∧ s ≠ ".."

instance : DecidablePred IsName := fun s => inferInstanceAs (Decidable (s ≠ "" ∧ s ≠ "." ∧ s ≠ ".."))

/-- The entries of a disk by their real paths: each is in a directory, and the root is one. -/
structure Tree where
  node : List String → Option Node
  root : node [] = some .dir
  inDir : ∀ p s, node (p ++ [s]) ≠ none → node p = some .dir

/-- The target of a link starts at the root. -/
def fromRoot (target : List String) : Bool := target.head? = some ""

namespace Tree

variable (T : Tree)

/-- The way along a path from a directory, up to its first link. -/
def go (onLink : List String → List String → Except PathError (List String)) : List String → List String → Except PathError (List String)
  | cur, [] => .ok cur
  | cur, s :: rest =>
    if s = "" ∨ s = "." then go onLink cur rest
    else if s = ".." then go onLink cur.dropLast rest
    else
      match T.node (cur ++ [s]) with
      | none => .error .enoent
      | some .dir => go onLink (cur ++ [s]) rest
      | some .file => if rest = [] then .ok (cur ++ [s]) else .error .enotdir
      | some (.link target) => onLink (if fromRoot target then [] else cur) (target ++ rest)

/-- The real path of what a path leads to from a directory, with so many links to take. -/
def walk : Nat → List String → List String → Except PathError (List String)
  | 0 => T.go fun _ _ => .error .eloop
  | links + 1 => T.go (walk links)

/-- The links a path may take. -/
def maxLinks : Nat := 40

def realpath (path : List String) : Except PathError (List String) := T.walk maxLinks [] path

/-- The real path of a name in what a path leads to: its last name is not followed. -/
def entryAt (path : List String) : Except PathError (List String) :=
  match path.getLast? with
  | none => .ok []
  | some leaf =>
    match T.realpath path.dropLast with
    | .error e => .error e
    | .ok dir => if T.node dir = some .dir then .ok (dir ++ [leaf]) else .error .enotdir

def lstat (path : List String) : Except PathError Node :=
  match T.entryAt path with
  | .error e => .error e
  | .ok entry =>
    match T.node entry with
    | none => .error .enoent
    | some node => .ok node

/-- The real path of a directory: it consists of names of directories. -/
def RealDir (p : List String) : Prop := (∀ s ∈ p, IsName s) ∧ ∀ q, q <+: p → T.node q = some .dir

variable {T}

/-! ## Real paths -/

variable {p : List String}

theorem RealDir.node (h : T.RealDir p) : T.node p = some .dir := h.2 p List.prefix_rfl

variable {s : String}

theorem RealDir.concat (h : T.RealDir p) (hs : IsName s) (hdir : T.node (p ++ [s]) = some .dir) :
    T.RealDir (p ++ [s]) := by
  refine ⟨fun t ht => ?_, fun q hq => ?_⟩
  · rcases List.mem_append.mp ht with ht | ht
    · exact h.1 t ht
    · rw [List.mem_singleton.mp ht]
      exact hs
  · rcases List.prefix_concat_iff.mp hq with rfl | hq
    · exact hdir
    · exact h.2 q hq

/-- What is followed at a link, with so many left. -/
def onLink (T : Tree) : Nat → List String → List String → Except PathError (List String)
  | 0 => fun _ _ => .error .eloop
  | links + 1 => T.walk links

variable {links : Nat} {cur rest : List String}

variable {path : List String}

end Tree

end Symlinks

import Capka.Lib.Symlinks
import Capka.Sandbox.LocalFs

/-!
# Paths that stay in a workspace

A path that is asked for is resolved through its links, and refused where it leaves the workspace; before a write, a delete or a copy the
directories above it are checked once more. The operations are what they touch on the disk: a file, or a directory with all below it.
-/

namespace Capka.LocalFs

open Symlinks

/-- No call fails for another reason. -/
def steady : Faults := fun _ _ => false

/-- `path.relative`. -/
def relative : Segments → Segments → Segments
  | a :: start, b :: full => if a = b then relative start full else List.replicate (start.length + 1) ".." ++ b :: full
  | start, full => List.replicate start.length ".." ++ full

/-- `rel.startsWith("..")`. -/
def startsUp (rel : Segments) : Bool := rel.head?.any (·.startsWith "..")

section

variable (T : Symlinks.Tree)

/-- The loop of `assertNoSymlinkEscape`, over the directories above the path. -/
def checkAncestors : Segments → List String → Except Failure Unit
  | _, [] => .ok ()
  | cur, part :: parts =>
    match T.lstat (push cur part) with
    | .error .enoent => checkAncestors (push cur part) parts
    | .error .enotdir => .error (.absent .enotdir)
    | .error .eloop => .error (.absent .eloop)
    | .ok (.link _) => .error .refused
    | .ok .dir => checkAncestors (push cur part) parts
    | .ok .file => checkAncestors (push cur part) parts

def assertNoSymlinkEscape (base full : Segments) : Except Failure Unit :=
  let realBase := match T.realpath base with
    | .ok real => real
    | .error _ => base
  let rel := relative realBase full
  if rel = [] ∨ rel = ["."] then .ok ()
  else if startsUp rel = true ∨ resolve realBase rel ≠ full then .error .refused
  else checkAncestors T realBase (rel.filter (· ≠ "")).dropLast

/-- What `mkdir -p` comes to: a directory, and the names it makes below it. A link on the way is followed. -/
def mkdirMissing : Segments → Segments → Segments × Segments
  | cur, [] => (cur, [])
  | cur, s :: rest =>
    match T.node (cur ++ [s]) with
    | none => (cur, s :: rest)
    | some .dir => mkdirMissing (cur ++ [s]) rest
    | some .file => (cur, [])
    | some (.link _) =>
      match T.walk Symlinks.Tree.maxLinks cur [s] with
      | .error _ => (cur, [])
      | .ok p => if T.node p = some .dir then mkdirMissing p rest else (cur, [])

/-- The directories made below a directory. -/
def madeDirs (made : Segments × Segments) : List Segments := made.2.inits.tail.map (made.1 ++ ·)

/-- The tree with them. -/
def addDirs (made : Segments × Segments) : Symlinks.Tree :=
  if h : T.node made.1 = some .dir then
    { node := fun q => if made.1 <+: q ∧ q ≠ made.1 ∧ q <+: made.1 ++ made.2 then some .dir else T.node q
      root := by
        split
        · rfl
        · exact T.root
      inDir := by
        intro p s hne
        split
        · rfl
        · rename_i hp
          split at hne
          · rename_i hq
            obtain ⟨hbelow, hother, hwithin⟩ := hq
            rcases List.prefix_concat_iff.mp hbelow with heq | hbelow
            · exact absurd heq.symm hother
            · by_cases heq : p = made.1
              · rw [heq]
                exact h
              · exact absurd ⟨hbelow, heq, (List.prefix_append p [s]).trans hwithin⟩ hp
          · exact T.inDir p s hne }
  else T

/-- `open` for writing, with `O_NOFOLLOW`: the file that is there, or a new one. -/
def openNoFollow (full : Segments) : Option Segments :=
  match T.entryAt full with
  | .error _ => none
  | .ok entry =>
    match T.node entry with
    | none => some entry
    | some .file => some entry
    | some .dir => none
    | some (.link _) => none

variable (D : Disk) (base : Segments)

/-- The checks of `write` on a path, with what was made before the second one. -/
def checkWrite (relPath : Segments) : Except Failure (Segments × Symlinks.Tree) × List Segments :=
  match safeRealPath D steady base relPath with
  | .error e => (.error e, [])
  | .ok full =>
    let made := mkdirMissing T [] full.dropLast
    match assertNoSymlinkEscape (addDirs T made) base full with
    | .error e => (.error e, madeDirs made)
    | .ok () => (.ok (full, addDirs T made), madeDirs made)

def write (relPath : Segments) : List Segments :=
  match checkWrite T D base relPath with
  | (.error _, made) => made
  | (.ok (full, T), made) => made ++ (openNoFollow T full).toList

end

end Capka.LocalFs

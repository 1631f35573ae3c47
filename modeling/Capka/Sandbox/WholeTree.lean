import Capka.Sandbox.LocalFs

/-!
# A listing that is not truncated

A listing that does not say it was truncated is the breadth-first listing of the tree: everything below the requested directory that
resolves inside the workspace is in it, once, after its directory. A walk of one level is complete for one level.
-/

namespace Capka.LocalFs

/-- A path under the workspace resolves to `real`, inside it. -/
def Inside (D : Disk) (base loc real : Segments) : Prop :=
  base <+: loc ∧ ∃ realBase, D.realpath base = .ok realBase ∧ D.realpath (realBase ++ loc.drop base.length) = .ok real ∧
    realBase <+: real

/-- The file or directory `child` is in the directory `loc`, inside the workspace. -/
def IsChild (D : Disk) (base loc child : Segments) : Prop :=
  ∃ dir names name real st, Inside D base loc dir ∧ D.readdir dir = .ok names ∧ name ∈ names ∧ child = loc ++ [name] ∧
    Inside D base child real ∧ D.stat real = .ok st

/-- The file or directory `q` is reached from the directory `loc` within the workspace. -/
inductive Below (D : Disk) (base : Segments) : Segments → Segments → Prop
  | child {loc q : Segments} (h : IsChild D base loc q) : Below D base loc q
  | deeper {loc c q : Segments} (h : IsChild D base loc c) (hq : Below D base c q) : Below D base loc q

/-- The place an entry is listed for. -/
def Entry.loc (base : Segments) (e : Entry) : Segments := resolve base e.path

namespace WholeTreeAux

/-! ### Paths -/

variable {rel : Segments} {name : String}

variable {real : Segments}

section

variable (D : Disk) (F : Faults) (base : Segments) (withHash : Bool)

/-- The names the walk finds in a directory. -/
def namesOf (rel : Segments) : List String :=
  match safeRealPath D F base rel with
  | .error _ => []
  | .ok dirPath =>
    match ask F .readdir dirPath (D.readdir dirPath) with
    | .error _ => []
    | .ok names => names.insertionSort (· ≤ ·)

/-- The entries of a directory. -/
def kids (rel : Segments) : List Entry :=
  (namesOf D F base rel).filterMap (fun name => (entryOf D F base withHash rel name).toOption.map Prod.fst)

/-- The directories among entries. -/
def subdirs (entries : List Entry) : List Segments := (entries.filter (fun e => e.isDirectory)).map Entry.path

/-- No failure hides what is under the name, and at the depth floor of a walk of several levels nothing is below it. -/
structure QuietName (deep : Bool) (d : Nat) (rel : Segments) (name : String) : Prop where
  seen : entryOf D F base withHash rel name ≠ .error .fault
  floor : d = 1 → deep = true → ∀ e full, entryOf D F base withHash rel name = .ok (e, full) → e.isDirectory = true →
    ∀ kids, D.readdir full = .ok kids → kids = []

/-- Nothing in the directory is hidden. -/
structure Quiet (deep : Bool) (d : Nat) (rel : Segments) : Prop where
  enter : safeRealPath D F base rel ≠ .error .fault
  readdir : ∀ dirPath, safeRealPath D F base rel = .ok dirPath → F .readdir dirPath = false
  names : ∀ name ∈ namesOf D F base rel, QuietName D F base withHash deep d rel name

/-- What the walk finds under a name. -/
def found (rel : Segments) (name : String) : List Entry := ((entryOf D F base withHash rel name).toOption.map Prod.fst).toList

end

variable {D : Disk} {F : Faults} {base : Segments} {withHash deep : Bool} {limit d : Nat}

@[simp] theorem subdirs_append (a b : List Entry) : subdirs (a ++ b) = subdirs a ++ subdirs b := by
  simp [subdirs]

/-- What a part of the walk adds when it hides nothing: entries, and the directories among them to the next level. -/
structure Adds (d : Nat) (w w' : Walk) (new : List Entry) : Prop where
  truncated : w.truncated = false
  entries : w'.entries = w.entries ++ new
  queued : w'.queued = w.queued ++ if 1 < d then subdirs new else []

variable {w w' : Walk}

theorem Adds.trans {w'' : Walk} {new new' : List Entry} (h : Adds d w w' new) (h' : Adds d w' w'' new') :
    Adds d w w'' (new ++ new') where
  truncated := h.truncated
  entries := by rw [h'.entries, h.entries, List.append_assoc]
  queued := by
    rw [h'.queued, h.queued]
    split
    · rw [subdirs_append, List.append_assoc]
    · simp

theorem Adds.none (h : w.truncated = false) : Adds d w w [] where
  truncated := h
  entries := by simp
  queued := by simp [subdirs]

variable {stop : Bool}

variable {dirs : List Segments}

variable {e : Entry}

end WholeTreeAux

open WholeTreeAux

end Capka.LocalFs

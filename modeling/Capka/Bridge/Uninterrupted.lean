import Capka.Bridge.WipeSafe

/-!
# A sync left to itself

A sync that has walked both sides and planned, and that carries its plan out while nobody else works on either side. What an
operation does to the two trees is stated once, and so is what the operations left to do may be.
-/

namespace Capka

/-- A file tree: what a path lies in is a directory, no path is a file and a directory, and the root is neither. -/
structure Tree.Ok (t : Tree) : Prop where
  files : t.WF
  dirs : ∀ q ∈ t.dirs, ∀ d ∈ parents q, d ∈ t.dirs
  apart : ∀ q ∈ t.files.keys, q ∉ t.dirs
  root : [] ∉ t.files.keys ∧ [] ∉ t.dirs

/-- What a sync is planned from: the two trees, the ancestor, the time of the plan. -/
structure SyncCase where
  disk : Tree
  copy : Option Tree
  base : Ancestor
  stamp : String
  disk_ok : disk.Ok
  copy_ok : ∀ t ∈ copy, t.Ok

namespace SyncCase

/-- The computer's manifest. -/
def localFiles (c : SyncCase) : Manifest := walkLocal c.disk

/-- The workspace copy as it is listed. -/
def remote (c : SyncCase) : Listing := serverTree c.copy

/-- The merge planned. -/
def merge (c : SyncCase) : Merge :=
  planMerge c.localFiles (walkExcluded c.disk) (walkLocalDirs c.disk) c.remote c.base c.stamp

/-- The state in which the sync begins to carry out its plan. -/
def start (c : SyncCase) : BridgeState :=
  { BridgeState.initial with disk := c.disk, copy := c.copy, run := some (.merging c.merge) }

/-- The sync's operations are all that happens. -/
def Performs (_ : BridgeState) (a : BridgeAction) : Prop := ∃ op mtime, a = .perform op mtime

/-- The sync has carried out its whole plan, and nothing else happened meanwhile. -/
def Completes (c : SyncCase) (s : BridgeState) : Prop :=
  Steps.Reaches BridgeState.step Performs c.start s ∧ ∃ m, s.run = some (.merging m) ∧ m.todo = []

instance (s : BridgeState) : (a : BridgeAction) → Decidable (Performs s a)
  | .perform op mtime => isTrue ⟨op, mtime, rfl⟩
  | .userWrite .. | .userMkdir _ | .userDelete _ | .agentWrite .. | .agentMkdir _ | .agentDelete _ | .wipe | .walk | .walkDirs | .list
  | .load .. | .swallow _ | .rewalk | .rewalkDirs | .store | .stop => isFalse (by
      rintro ⟨_, _, h⟩
      cases h)

/-- Nothing of the plan is left to do. -/
def finished (s : BridgeState) : Bool :=
  match s.run with
  | some (.merging m) => m.todo.isEmpty
  | _ => false

theorem of_finished {s : BridgeState} (h : finished s = true) : ∃ m, s.run = some (.merging m) ∧ m.todo = [] := by
  unfold finished at h
  split at h
  · rename_i m hm
    exact ⟨m, hm, List.isEmpty_iff.mp h⟩
  · cases h

end SyncCase

/-! ## What is planned -/

section Verdicts

variable {l r b : Option Entry}

theorem verdict_eq_deleteLocal : verdict l r b = .deleteLocal ↔ l.isSome = true ∧ r = none ∧ b.isSome = true := by
  cases l with
  | none =>
    cases r with
    | none => simp [verdict]
    | some r =>
      simp only [verdict]
      split <;> simp
  | some l =>
    cases r with
    | none => simp [verdict, Option.isSome_iff_ne_none]
    | some r =>
      simp only [verdict]
      split
      · simp
      · split
        · simp
        · split <;> simp

theorem verdict_eq_deleteRemote : verdict l r b = .deleteRemote ↔ l = none ∧ r.isSome = true ∧ b.isSome = true := by
  cases l with
  | none =>
    cases r with
    | none => simp [verdict]
    | some r => simp [verdict, Option.isSome_iff_ne_none]
  | some l =>
    cases r with
    | none =>
      simp only [verdict]
      split <;> simp
    | some r =>
      simp only [verdict]
      split
      · simp
      · split
        · simp
        · split <;> simp

end Verdicts

namespace SyncCase

variable {c : SyncCase} {path d : Path}

def verdictOf (c : SyncCase) (path : Path) : SyncVerdict :=
  pathVerdict c.localFiles c.remote.files c.base.files (walkExcluded c.disk ++ c.remote.excluded) path

theorem verdictOf_eq {v : SyncVerdict} (hv : c.verdictOf path = v) (hne : v ≠ .nothing) :
    path ∉ walkExcluded c.disk ++ c.remote.excluded ∧
      verdict (c.localFiles.entry path) (c.remote.files.entry path) (c.base.files.entry path) = v := by
  unfold verdictOf pathVerdict at hv
  split at hv
  · exact absurd hv.symm hne
  · rename_i hex
    exact ⟨hex, hv⟩

theorem of_mem_todo_deleteLocal (h : .deleteLocal path ∈ c.merge.todo) : c.verdictOf path = .deleteLocal ∧ path ∈ c.localFiles.keys := by
  have hmem : path ∈ c.merge.plan.deleteLocal := BridgeAux.deleteLocal_mem_planMerge.mp h
  have hv : c.verdictOf path = .deleteLocal := by
    have hfilter := (List.mem_filter.mp hmem).2
    exact of_decide_eq_true hfilter
  obtain ⟨_, hver⟩ := verdictOf_eq hv (by simp)
  exact ⟨hv, Manifest.entry_isSome.mp (verdict_eq_deleteLocal.mp hver).1⟩

theorem of_mem_todo_deleteRemote (h : .deleteRemote path ∈ c.merge.todo) :
    c.verdictOf path = .deleteRemote ∧ path ∈ c.remote.files.keys := by
  have hmem : path ∈ c.merge.plan.deleteRemote := by simpa [merge, planMerge, planOps] using h
  have hv : c.verdictOf path = .deleteRemote := by
    have hfilter := (List.mem_filter.mp hmem).2
    exact of_decide_eq_true hfilter
  obtain ⟨_, hver⟩ := verdictOf_eq hv (by simp)
  exact ⟨hv, Manifest.entry_isSome.mp (verdict_eq_deleteRemote.mp hver).2.1⟩

/-- The directory is deleted on the computer: it is there and in the ancestor, the workspace lacks it, and it holds no file the sync
writes. -/
def DropsLocal (c : SyncCase) (d : Path) : Prop :=
  d ∈ walkLocalDirs c.disk ∧ d ∉ c.remote.dirs ∧ d ∈ c.base.dirs ∧ ∀ p ∈ planWrites c.merge.plan, d ∉ parents p

/-- The directory is deleted in the workspace. -/
def DropsRemote (c : SyncCase) (d : Path) : Prop :=
  d ∈ c.remote.dirs ∧ d ∉ walkLocalDirs c.disk ∧ d ∈ c.base.dirs ∧ ∀ p ∈ planWrites c.merge.plan, d ∉ parents p

theorem mem_todo_deleteLocalDir : .deleteLocalDir d ∈ c.merge.todo ↔ c.DropsLocal d := by
  refine BridgeAux.deleteLocalDir_mem_planMerge.trans ?_
  constructor
  · intro h
    have hd := of_decide_eq_true (List.mem_filter.mp h).2
    refine ⟨hd.2.2.1, hd.2.1, hd.2.2.2, fun p hp hin => hd.1 (List.mem_flatMap.mpr ⟨p, hp, hin⟩)⟩
  · rintro ⟨hl, hr, hb, hkeep⟩
    refine List.mem_filter.mpr ⟨?_, decide_eq_true ⟨fun h => ?_, hr, hl, hb⟩⟩
    · rw [List.mem_dedup]
      exact List.mem_append_right _ hb
    · obtain ⟨p, hp, hin⟩ := List.mem_flatMap.mp h
      exact hkeep p hp hin

theorem mem_todo_deleteRemoteDir : .deleteRemoteDir d ∈ c.merge.todo ↔ c.DropsRemote d := by
  have hmem : .deleteRemoteDir d ∈ c.merge.todo ↔ d ∈ c.merge.dirPlan.deleteRemote := by simp [merge, planMerge, planOps]
  refine hmem.trans ?_
  constructor
  · intro h
    have hd := of_decide_eq_true (List.mem_filter.mp h).2
    refine ⟨hd.2.1, hd.2.2.1, hd.2.2.2, fun p hp hin => hd.1 (List.mem_flatMap.mpr ⟨p, hp, hin⟩)⟩
  · rintro ⟨hr, hl, hb, hkeep⟩
    refine List.mem_filter.mpr ⟨?_, decide_eq_true ⟨fun h => ?_, hr, hl, hb⟩⟩
    · rw [List.mem_dedup]
      exact List.mem_append_right _ hb
    · obtain ⟨p, hp, hin⟩ := List.mem_flatMap.mp h
      exact hkeep p hp hin

theorem of_mem_todo_createLocalDir (h : .createLocalDir d ∈ c.merge.todo) : d ∈ c.remote.dirs := by
  have hmem : d ∈ c.merge.dirPlan.createLocal := by simpa [merge, planMerge, planOps] using h
  exact (of_decide_eq_true (List.mem_filter.mp hmem).2).1

theorem mem_remote_dirs : d ∈ c.remote.dirs ↔ ∃ t ∈ c.copy, d ∈ t.dirs ∧ ignoredPath d = false := by
  unfold remote serverTree
  cases c.copy with
  | none => simp
  | some t => simp [List.mem_filter]

theorem of_mem_remote_files (h : path ∈ c.remote.files.keys) : ∃ t ∈ c.copy, path ∈ t.files.keys := by
  unfold remote serverTree at h
  cases hc : c.copy with
  | none =>
    rw [hc] at h
    obtain ⟨r, hr, _⟩ := Table.mem_keys.mp h
    exact absurd hr (Table.not_mem_empty r)
  | some t =>
    rw [hc] at h
    obtain ⟨r, hr, _, rfl⟩ := BridgeAux.mem_keys_filter.mp h
    exact ⟨t, rfl, Table.mem_keys_of_mem hr⟩

end SyncCase

namespace UninterruptedAux

open BridgeState BridgeAux

/-- What one operation does to the two trees and to what is left to do. -/
inductive Did (m : Merge) (disk : Tree) (copy : Option Tree) : Op → Tree → Option Tree → Merge → Prop
  | kept {c : ConflictCopy} {nth : Nat} {e : Entry} {mtime : Nat} (free : conflictName c.path m.stamp nth ∉ m.claimed)
      (absent : disk.files.entry (conflictName c.path m.stamp nth) = none)
      (losing : (c.source = .local_ ∧ disk.files.entry c.path = some e) ∨
        c.source = .remote ∧ ∃ t, copy = some t ∧ t.files.entry c.path = some e) :
      Did m disk copy (.copy c) (disk.write (conflictName c.path m.stamp nth) { e with mtime }) copy
        { m with
          claimed := m.claimed ++ [conflictName c.path m.stamp nth]
          todo := m.todo.erase (.copy c) ++ [.upload (conflictName c.path m.stamp nth)] }
  | refused {path : Path} {e : Entry} (found : disk.files.entry path = some e)
      (skipped : (ignoredPath path || oversized e.size) = true) :
      Did m disk copy (.upload path) disk copy { m with todo := m.todo.erase (.upload path), sent := m.sent ++ [path] }
  | uploaded {path : Path} {e : Entry} {mtime : Nat} (found : disk.files.entry path = some e)
      (taken : (ignoredPath path || oversized e.size) = false) :
      Did m disk copy (.upload path) disk (some ((copy.getD .empty).write path { e with mtime }))
        { m with todo := m.todo.erase (.upload path), sent := m.sent ++ [path] }
  | downloaded {path : Path} {e : Entry} {mtime : Nat} (found : ∃ t, copy = some t ∧ t.files.entry path = some e) :
      Did m disk copy (.download path) (disk.write path { e with mtime }) copy { m with todo := m.todo.erase (.download path) }
  | deletedRemote {path : Path} :
      Did m disk copy (.deleteRemote path) disk (copy.bind fun t => if path = [] then none else some (t.remove path))
        { m with todo := m.todo.erase (.deleteRemote path) }
  | deletedLocal {path : Path} :
      Did m disk copy (.deleteLocal path) (disk.removeFile path) copy { m with todo := m.todo.erase (.deleteLocal path) }
  | deletedRemoteDir {d : Path} :
      Did m disk copy (.deleteRemoteDir d) disk (copy.bind fun t => if d = [] then none else some (t.remove d))
        { m with todo := m.todo.erase (.deleteRemoteDir d) }
  | deletedLocalDir {d : Path} :
      Did m disk copy (.deleteLocalDir d) (disk.remove d) copy { m with todo := m.todo.erase (.deleteLocalDir d) }
  | createdLocalDir {d : Path} :
      Did m disk copy (.createLocalDir d) (disk.mkdir d) copy { m with todo := m.todo.erase (.createLocalDir d) }

theorem copy_deleteInWorkspace (s : BridgeState) (p : Path) :
    (s.deleteInWorkspace p).copy = s.copy.bind fun t => if p = [] then none else some (t.remove p) := by
  unfold deleteInWorkspace
  cases hc : s.copy with
  | none => simp [hc]
  | some t => rfl

theorem disk_deleteInWorkspace (s : BridgeState) (p : Path) : (s.deleteInWorkspace p).disk = s.disk := by
  unfold deleteInWorkspace
  split <;> rfl

theorem of_resolveConflictName {path n : Path} {stamp : String} {taken : Path → Bool}
    (h : resolveConflictName path stamp taken = some n) : ∃ nth, n = conflictName path stamp nth ∧ taken n = false := by
  have hmem := List.mem_of_find?_eq_some h
  have hfree := List.find?_some h
  obtain ⟨i, _, rfl⟩ := List.mem_map.mp hmem
  exact ⟨i + 1, rfl, by simpa using hfree⟩

theorem did_of_performOp {s s' : BridgeState} {m m' : Merge} {op : Op} {mtime : Nat} (h : s.performOp m mtime op = some (s', m')) :
    Did m s.disk s.copy op s'.disk s'.copy m' := by
  cases op with
  | copy c =>
    simp only [performOp] at h
    split at h
    · rename_i n e hname hlosing
      cases h
      obtain ⟨nth, rfl, hfree⟩ := of_resolveConflictName hname
      simp only [Bool.or_eq_false_iff, decide_eq_false_iff_not] at hfree
      refine .kept hfree.1 ?_ ?_
      · rw [← Option.not_isSome_iff_eq_none, hfree.2]
        exact Bool.false_ne_true
      · cases hsource : c.source with
        | local_ =>
          rw [hsource] at hlosing
          exact .inl ⟨rfl, hlosing⟩
        | remote =>
          rw [hsource] at hlosing
          exact .inr ⟨rfl, Option.bind_eq_some_iff.mp hlosing⟩
    · cases h
  | upload path =>
    simp only [performOp] at h
    split at h
    · cases h
    · rename_i e he
      cases h
      split
      · rename_i hskip
        exact .refused he hskip
      · rename_i htaken
        exact .uploaded he (by simpa using htaken)
  | download path =>
    simp only [performOp] at h
    split at h
    · cases h
    · rename_i e he
      cases h
      exact .downloaded (Option.bind_eq_some_iff.mp he)
  | deleteRemote path =>
    cases h
    rw [copy_deleteInWorkspace, disk_deleteInWorkspace]
    exact .deletedRemote
  | deleteLocal path =>
    simp only [performOp] at h
    cases h
    dsimp only
    split
    · exact .deletedLocal
    · exact .deletedLocal
  | deleteRemoteDir d =>
    cases h
    rw [copy_deleteInWorkspace, disk_deleteInWorkspace]
    exact .deletedRemoteDir
  | deleteLocalDir d =>
    cases h
    exact .deletedLocalDir
  | createLocalDir d =>
    cases h
    exact .createdLocalDir

theorem Did.todo {m m' : Merge} {disk disk' : Tree} {copy copy' : Option Tree} {op : Op} (h : Did m disk copy op disk' copy' m') :
    (∃ c nth, op = .copy c ∧ m'.todo = m.todo.erase op ++ [.upload (conflictName c.path m.stamp nth)]) ∨
      m'.todo = m.todo.erase op := by
  cases h
  case kept => exact .inl ⟨_, _, rfl, rfl⟩
  all_goals exact .inr rfl

/-- What is left to do was planned, or is the upload of a conflict copy. -/
def FromPlan (c : SyncCase) (m : Merge) : Prop := ∀ o ∈ m.todo, o ∈ c.merge.todo ∨ ∃ n, o = .upload n

theorem Did.fromPlan {c : SyncCase} {m m' : Merge} {disk disk' : Tree} {copy copy' : Option Tree} {op : Op}
    (h : Did m disk copy op disk' copy' m') (hm : FromPlan c m) : FromPlan c m' := by
  intro o ho
  rcases h.todo with ⟨_, _, _, htodo⟩ | htodo
  · rw [htodo] at ho
    rcases List.mem_append.mp ho with ho | ho
    · exact hm o (List.mem_of_mem_erase ho)
    · exact .inr ⟨_, List.mem_singleton.mp ho⟩
  · rw [htodo] at ho
    exact hm o (List.mem_of_mem_erase ho)

theorem Did.mem_todo {m m' : Merge} {disk disk' : Tree} {copy copy' : Option Tree} {op o : Op}
    (h : Did m disk copy op disk' copy' m') (ho : o ∈ m.todo) (hne : o ≠ op) : o ∈ m'.todo := by
  have hmem : o ∈ m.todo.erase op := (List.mem_erase_of_ne hne).mpr ho
  rcases h.todo with ⟨_, _, _, htodo⟩ | htodo
  · rw [htodo]
    exact List.mem_append_left _ hmem
  · rw [htodo]
    exact hmem

theorem of_performs {s s' : BridgeState} {a : BridgeAction} (ha : SyncCase.Performs s a) (h : BridgeState.step s a = some s') :
    ∃ m op m', s.run = some (.merging m) ∧ Ready m op ∧ Did m s.disk s.copy op s'.disk s'.copy m' ∧ s'.run = some (.merging m') := by
  obtain ⟨op, mtime, rfl⟩ := ha
  simp only [BridgeState.step] at h
  split at h
  · rename_i m hm
    split at h
    · rename_i hready
      obtain ⟨r, hr, rfl⟩ := Option.map_eq_some_iff.mp h
      have hdid := did_of_performOp hr
      exact ⟨m, op, r.2, hm, hready, hdid, rfl⟩
    · cases h
  · cases h

/-- The invariant rule for a sync left to itself: what holds of the trees and the merge when it begins, and is kept by every operation
that is due, holds when it is done. -/
theorem invariant {c : SyncCase} {s : BridgeState} {I : Tree → Option Tree → Merge → Prop} (h : c.Completes s)
    (hstart : I c.disk c.copy c.merge)
    (hstep : ∀ disk copy m op disk' copy' m', I disk copy m → Ready m op → Did m disk copy op disk' copy' m' → I disk' copy' m') :
    ∃ m, m.todo = [] ∧ I s.disk s.copy m := by
  obtain ⟨hreach, m, hm, htodo⟩ := h
  have hinv : ∃ m, s.run = some (.merging m) ∧ I s.disk s.copy m := by
    refine hreach.invariant (I := fun s : BridgeState => ∃ m, s.run = some (.merging m) ∧ I s.disk s.copy m) ?_ ⟨_, rfl, hstart⟩
    rintro x a y ⟨m, hm, hx⟩ ha hy
    obtain ⟨m₁, op, m', hm₁, hready, hdid, hrun⟩ := of_performs ha hy
    rw [hm] at hm₁
    cases hm₁
    exact ⟨m', hrun, hstep _ _ _ _ _ _ _ hx hready hdid⟩
  obtain ⟨m', hm', hI⟩ := hinv
  rw [hm] at hm'
  cases hm'
  exact ⟨m, htodo, hI⟩

end UninterruptedAux

end Capka

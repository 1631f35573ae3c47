import Capka.Bridge.Untracked

/-!
# What is planned, and what is done at a path

The plan of a sync left to itself, read path by path: what each verdict tells of the three versions, and which operations it leaves to
do. Each operation changes a path of a side in few ways, and they are listed once.
-/

namespace Capka

/-- The content of a file of a tree, by its hash. -/
def Tree.content (t : Tree) (path : Path) : Option (Option Nat) := (t.files.entry path).map Entry.hash

/-- The content of a file of the workspace copy. -/
def copyContent (copy : Option Tree) (path : Path) : Option (Option Nat) := copy.bind fun t => t.content path

namespace SyncCase

/-- The paths deliberately not looked at. -/
def excluded (c : SyncCase) : List Path := walkExcluded c.disk ++ c.remote.excluded

/-- Neither side leaves the path out: it is not excluded, it is not skipped, and a file the computer has there is one its walk
reaches. -/
def LooksAt (c : SyncCase) (p : Path) : Prop :=
  p ∉ c.excluded ∧ ignoredPath p = false ∧ (p ∈ c.disk.files.keys → walks p = true)

end SyncCase

namespace PlannedAux

open SyncCase BridgeState UninterruptedAux BridgeAux UntrackedAux

/-! ### What is planned of a path -/

/-- What each verdict tells of the three versions. -/
def Meaning (l r b : Option Entry) : SyncVerdict → Prop
  | .nothing => (l = none ∧ r = none) ∨ ∃ x y, l = some x ∧ r = some y ∧ sameContent x y = true
  | .upload => ∃ x, l = some x ∧ ∀ y, r = some y → sameContent x y = false ∧ changed y b = false
  | .download => ∃ y, r = some y ∧ ∀ x, l = some x → sameContent x y = false ∧ changed x b = false
  | .deleteRemote => l = none ∧ r.isSome = true
  | .deleteLocal => l.isSome = true ∧ r = none
  | .conflict _ => ∃ x y, l = some x ∧ r = some y ∧ sameContent x y = false ∧ changed x b = true ∧ changed y b = true

theorem verdict_meaning (l r b : Option Entry) : Meaning l r b (verdict l r b) := by
  cases l with
  | none =>
    cases r with
    | none => exact .inl ⟨rfl, rfl⟩
    | some y =>
      simp only [verdict]
      split
      · exact ⟨rfl, rfl⟩
      · exact ⟨y, rfl, fun x hx => by cases hx⟩
  | some x =>
    cases r with
    | none =>
      simp only [verdict]
      split
      · exact ⟨rfl, rfl⟩
      · exact ⟨x, rfl, fun y hy => by cases hy⟩
    | some y =>
      simp only [verdict]
      split
      · rename_i hsame
        exact .inr ⟨x, y, rfl, rfl, hsame⟩
      · rename_i hsame
        have hsame : sameContent x y = false := by simpa using hsame
        split
        · rename_i hboth
          obtain ⟨hx, hy⟩ := Bool.and_eq_true_iff.mp hboth
          exact ⟨x, y, rfl, rfl, hsame, hx, hy⟩
        · rename_i hboth
          split
          · rename_i hx
            refine ⟨x, rfl, fun y' hy' => ?_⟩
            cases hy'
            exact ⟨hsame, by simpa [hx] using hboth⟩
          · rename_i hx
            refine ⟨y, rfl, fun x' hx' => ?_⟩
            cases hx'
            exact ⟨hsame, by simpa using hx⟩

/-! ### What is left to do at the start -/

variable {c : SyncCase} {p : Path}

theorem meaning (hex : p ∉ c.excluded) :
    Meaning (c.localFiles.entry p) (c.remote.files.entry p) (c.base.files.entry p) (c.verdictOf p) := by
  have hv : c.verdictOf p = verdict (c.localFiles.entry p) (c.remote.files.entry p) (c.base.files.entry p) := if_neg hex
  rw [hv]
  exact verdict_meaning _ _ _

theorem not_excluded (h : c.verdictOf p ≠ .nothing) : p ∉ c.excluded := (verdictOf_eq rfl h).1

theorem meaning_of {v : SyncVerdict} (h : c.verdictOf p = v) (hv : v ≠ .nothing) :
    Meaning (c.localFiles.entry p) (c.remote.files.entry p) (c.base.files.entry p) v := by
  subst h
  exact meaning (not_excluded hv)

theorem mem_keys_of_verdict (h : c.verdictOf p ≠ .nothing) : p ∈ c.localFiles.keys ∨ p ∈ c.remote.files.keys := by
  rw [← Manifest.entry_isSome, ← Manifest.entry_isSome]
  have hmeaning := meaning (not_excluded h)
  revert hmeaning
  cases hv : c.verdictOf p with
  | nothing => exact absurd hv h
  | upload =>
    rintro ⟨x, hx, _⟩
    exact .inl (by simp [hx])
  | download =>
    rintro ⟨y, hy, _⟩
    exact .inr (by simp [hy])
  | deleteRemote => exact fun hs => .inr hs.2
  | deleteLocal => exact fun hs => .inl hs.1
  | conflict w =>
    rintro ⟨x, y, hx, _⟩
    exact .inl (by simp [hx])

/-- The paths a sync plans for. -/
def planned (c : SyncCase) : List Path := (c.localFiles.keys ++ c.remote.files.keys ++ c.base.files.keys).dedup

theorem mem_planned (h : c.verdictOf p ≠ .nothing) : p ∈ planned c := by
  rw [planned, List.mem_dedup]
  exact List.mem_append_left _ (List.mem_append.mpr (mem_keys_of_verdict h))

theorem mem_filter_planned {v : SyncVerdict} (hv : v ≠ .nothing) :
    p ∈ (planned c).filter (fun p => decide (c.verdictOf p = v)) ↔ c.verdictOf p = v := by
  rw [List.mem_filter, decide_eq_true_eq]
  exact ⟨fun h => h.2, fun h => ⟨mem_planned (by rwa [h]), h⟩⟩

theorem mem_conflicts {w : Side} : (p, w) ∈ c.merge.plan.conflicts ↔ c.verdictOf p = .conflict w := by
  refine List.mem_filterMap.trans ?_
  constructor
  · rintro ⟨q, _, hq⟩
    split at hq
    · rename_i winner hw
      cases hq
      exact hw
    · cases hq
  · intro h
    refine ⟨p, mem_planned (by simp [h]), ?_⟩
    rw [SyncCase.verdictOf] at h
    rw [h]

theorem mem_conflictCopies {cc : ConflictCopy} :
    cc ∈ c.merge.plan.conflictCopies ↔ conflictCopyOf c.stamp cc.path (c.verdictOf cc.path) = some cc := by
  have hdef : c.merge.plan.conflictCopies = (planned c).filterMap fun path => conflictCopyOf c.stamp path (c.verdictOf path) := rfl
  rw [hdef, List.mem_filterMap]
  constructor
  · rintro ⟨q, _, hq⟩
    have hpath : cc.path = q := by
      revert hq
      unfold conflictCopyOf
      split
      · rintro ⟨⟩
        rfl
      · rintro ⟨⟩
        rfl
      · intro hq
        cases hq
    rw [hpath]
    exact hq
  · intro h
    refine ⟨cc.path, mem_planned fun hv => ?_, h⟩
    rw [hv] at h
    cases h

theorem conflictCopyOf_eq {v : SyncVerdict} {cc : ConflictCopy} (h : conflictCopyOf c.stamp cc.path v = some cc) :
    (v = .conflict .local_ ∧ cc.source = .remote) ∨ (v = .conflict .remote ∧ cc.source = .local_) := by
  unfold conflictCopyOf at h
  split at h
  · refine .inl ⟨rfl, ?_⟩
    rw [← Option.some.inj h]
  · refine .inr ⟨rfl, ?_⟩
    rw [← Option.some.inj h]
  · cases h

theorem mem_todo_copy {cc : ConflictCopy} :
    .copy cc ∈ c.merge.todo ↔ conflictCopyOf c.stamp cc.path (c.verdictOf cc.path) = some cc := by
  rw [← mem_conflictCopies]
  simp [merge, planMerge, planOps]

theorem mem_todo_upload : .upload p ∈ c.merge.todo ↔ c.verdictOf p = .upload ∨ c.verdictOf p = .conflict .local_ := by
  rw [← mem_conflicts, ← mem_filter_planned (by simp : SyncVerdict.upload ≠ .nothing)]
  have hdef : c.merge.plan.upload = (planned c).filter fun p => decide (c.verdictOf p = .upload) := rfl
  rw [← hdef]
  simp [merge, planMerge, planOps]

theorem mem_todo_download : .download p ∈ c.merge.todo ↔ c.verdictOf p = .download ∨ c.verdictOf p = .conflict .remote := by
  rw [← mem_conflicts, ← mem_filter_planned (by simp : SyncVerdict.download ≠ .nothing)]
  have hdef : c.merge.plan.download = (planned c).filter fun p => decide (c.verdictOf p = .download) := rfl
  rw [← hdef]
  simp [merge, planMerge, planOps]

theorem mem_todo_deleteRemote : .deleteRemote p ∈ c.merge.todo ↔ c.verdictOf p = .deleteRemote := by
  rw [← mem_filter_planned (by simp : SyncVerdict.deleteRemote ≠ .nothing)]
  have hdef : c.merge.plan.deleteRemote = (planned c).filter fun p => decide (c.verdictOf p = .deleteRemote) := rfl
  rw [← hdef]
  simp [merge, planMerge, planOps]

theorem mem_todo_deleteLocal : .deleteLocal p ∈ c.merge.todo ↔ c.verdictOf p = .deleteLocal := by
  rw [← mem_filter_planned (by simp : SyncVerdict.deleteLocal ≠ .nothing)]
  have hdef : c.merge.plan.deleteLocal = (planned c).filter fun p => decide (c.verdictOf p = .deleteLocal) := rfl
  rw [← hdef]
  simp [merge, planMerge, planOps]

theorem mem_planWrites (h : c.verdictOf p = .upload ∨ c.verdictOf p = .download ∨ ∃ w, c.verdictOf p = .conflict w) :
    p ∈ planWrites c.merge.plan := by
  have hup : c.merge.plan.upload = (planned c).filter fun p => decide (c.verdictOf p = .upload) := rfl
  have hdown : c.merge.plan.download = (planned c).filter fun p => decide (c.verdictOf p = .download) := rfl
  simp only [planWrites, List.mem_append, List.mem_map]
  rcases h with h | h | ⟨w, h⟩
  · refine .inl (.inl (.inl ?_))
    rw [hup]
    exact (mem_filter_planned (by simp)).mpr h
  · refine .inl (.inl (.inr ?_))
    rw [hdown]
    exact (mem_filter_planned (by simp)).mpr h
  · exact .inl (.inr ⟨(p, w), mem_conflicts.mpr h, rfl⟩)

/-! ### What the trees hold -/

theorem entry_eq_some {m : Manifest} {e : Entry} : m.entry p = some e ↔ (⟨p, e⟩ : FileRow) ∈ m := by
  rw [Manifest.entry, Option.map_eq_some_iff]
  constructor
  · rintro ⟨r, hr, rfl⟩
    obtain ⟨hmem, rfl⟩ := Table.get_eq_some_iff.mp hr
    exact hmem
  · intro h
    exact ⟨_, Table.get_eq_some_iff.mpr ⟨h, rfl⟩, rfl⟩

theorem entry_filter {m : Manifest} {f : FileRow → Bool} {e : Entry} :
    Manifest.entry (Table.filter f m) p = some e ↔ m.entry p = some e ∧ f ⟨p, e⟩ = true := by
  rw [entry_eq_some, entry_eq_some, Table.mem_filter]

theorem entry_write {t : Tree} {q : Path} {e : Entry} :
    (t.write p e).files.entry q = if q = p then some e else t.files.entry q := by
  refine Option.ext fun e' => ?_
  rw [entry_eq_some]
  refine Table.mem_put.trans ?_
  split
  · rename_i heq
    subst heq
    simp [eq_comm]
  · rename_i hne
    rw [entry_eq_some]
    exact ⟨fun h => (h.resolve_left fun h => hne (congrArg FileRow.path h)).1, fun h => .inr ⟨h, hne⟩⟩

theorem entry_remove {t : Tree} {d : Path} : (t.remove d).files.entry p = if d <+: p then none else t.files.entry p := by
  refine Option.ext fun e => ?_
  refine entry_filter.trans ?_
  split
  · rename_i hpre
    simp [hpre]
  · rename_i hpre
    simp [hpre]

theorem entry_removeFile {t : Tree} {q : Path} :
    (t.removeFile p).files.entry q = if q = p then none else t.files.entry q := by
  refine Option.ext fun e => ?_
  rw [entry_eq_some]
  refine Table.mem_erase.trans ?_
  split
  · rename_i heq
    simp [heq]
  · rename_i hne
    rw [entry_eq_some]
    exact ⟨fun h => h.1, fun h => ⟨h, hne⟩⟩

/-- The entry of a file of the workspace copy. -/
def copyEntry (copy : Option Tree) (p : Path) : Option Entry := copy.bind fun t => t.files.entry p

theorem copyContent_eq (copy : Option Tree) (p : Path) : copyContent copy p = (copyEntry copy p).map Entry.hash := by
  cases copy <;> rfl

theorem content_eq (t : Tree) (p : Path) : t.content p = (t.files.entry p).map Entry.hash := rfl

theorem localFiles_entry {e : Entry} :
    c.localFiles.entry p = some e ↔ c.disk.files.entry p = some e ∧ walks p = true ∧ oversized e.size = false := by
  refine entry_filter.trans ?_
  simp

theorem remote_entry {e : Entry} :
    c.remote.files.entry p = some e ↔ copyEntry c.copy p = some e ∧ ignoredPath p = false ∧ oversized e.size = false := by
  unfold remote serverTree copyEntry
  cases c.copy with
  | none => simp [entry_eq_some]
  | some t =>
    refine entry_filter.trans ?_
    simp

theorem walks_of_local {e : Entry} (h : c.localFiles.entry p = some e) : walks p = true := (localFiles_entry.mp h).2.1

theorem disk_entry_of_looksAt (h : c.LooksAt p) : c.disk.files.entry p = c.localFiles.entry p := by
  refine Option.ext fun e => ⟨fun he => localFiles_entry.mpr ?_, fun he => (localFiles_entry.mp he).1⟩
  have hwalks := h.2.2 (Manifest.entry_isSome.mp (by simp [he]))
  refine ⟨he, hwalks, ?_⟩
  rw [← Bool.not_eq_true]
  intro hbig
  refine h.1 (List.mem_append_left _ (Table.mem_keys.mpr ⟨⟨p, e⟩, Table.mem_filter.mpr ⟨entry_eq_some.mp he, ?_⟩, rfl⟩))
  simp [hwalks, hbig]

theorem copy_entry_of_looked (hex : p ∉ c.excluded) (hig : ignoredPath p = false) :
    copyEntry c.copy p = c.remote.files.entry p := by
  refine Option.ext fun e => ⟨fun he => remote_entry.mpr ⟨he, hig, ?_⟩, fun he => (remote_entry.mp he).1⟩
  obtain ⟨t, ht, he⟩ := Option.bind_eq_some_iff.mp he
  rw [← Bool.not_eq_true]
  intro hbig
  refine hex (List.mem_append_right _ ?_)
  unfold remote serverTree
  rw [ht]
  refine Table.mem_keys.mpr ⟨⟨p, e⟩, Table.mem_filter.mpr ⟨entry_eq_some.mp he, ?_⟩, rfl⟩
  simp [hig, hbig]

/-! ### What an operation does at a path -/

section Steps

variable {m m' : Merge} {disk disk' : Tree} {copy copy' : Option Tree} {op : Op} {q : Path}

theorem copyEntry_remove {d : Path} (hd : d ≠ []) :
    copyEntry (copy.bind fun t => if d = [] then none else some (t.remove d)) q = if d <+: q then none else copyEntry copy q := by
  cases copy with
  | none => simp [copyEntry]
  | some t => simp [copyEntry, hd, entry_remove]

theorem copyEntry_write {p : Path} {e : Entry} :
    copyEntry (some ((copy.getD .empty).write p e)) q = if q = p then some e else copyEntry copy q := by
  cases copy with
  | none =>
    have hempty : Tree.empty.files.entry q = none := by simp [Tree.empty, Manifest.entry_eq_none, Table.mem_keys]
    simp [copyEntry, entry_write, hempty]
  | some t => simp [copyEntry, entry_write]

/-- A conflict copy kept under a name: the name was free, and holds what the losing side held. -/
structure Keeps (m : Merge) (disk : Tree) (copy : Option Tree) (disk' : Tree) (m' : Merge) (cc : ConflictCopy) (n : Path) : Prop where
  named : ∃ nth, n = conflictName cc.path m.stamp nth
  free : n ∉ m.claimed
  absent : disk.files.entry n = none
  held : ∃ e mtime, ((cc.source = .local_ ∧ disk.files.entry cc.path = some e) ∨
    cc.source = .remote ∧ copyEntry copy cc.path = some e) ∧ disk'.files.entry n = some { e with mtime }
  queued : .upload n ∈ m'.todo

theorem disk_entry_cases (h : Did m disk copy op disk' copy' m') (q : Path) :
    disk'.files.entry q = disk.files.entry q ∨ op = .download q ∨ op = .deleteLocal q ∨
      (∃ d, op = .deleteLocalDir d ∧ d <+: q ∧ disk'.files.entry q = none) ∨
        ∃ cc, op = .copy cc ∧ Keeps m disk copy disk' m' cc q := by
  cases h with
  | @kept cc nth e mtime free absent losing =>
    by_cases heq : q = conflictName cc.path m.stamp nth
    · subst heq
      refine .inr (.inr (.inr (.inr ⟨cc, rfl, ⟨nth, rfl⟩, free, absent, ⟨e, mtime, ?_, ?_⟩, ?_⟩)))
      · refine losing.imp_right fun ⟨hs, t, ht, he⟩ => ⟨hs, ?_⟩
        rw [ht]
        exact he
      · rw [entry_write, if_pos rfl]
      · exact List.mem_append_right _ (List.mem_singleton.mpr rfl)
    · exact .inl (by rw [entry_write, if_neg heq])
  | refused _ _ | uploaded _ _ | deletedRemote | deletedRemoteDir | createdLocalDir => exact .inl rfl
  | @downloaded path e mtime found =>
    by_cases heq : q = path
    · exact .inr (.inl (by rw [heq]))
    · exact .inl (by rw [entry_write, if_neg heq])
  | @deletedLocal path =>
    by_cases heq : q = path
    · exact .inr (.inr (.inl (by rw [heq])))
    · exact .inl (by rw [entry_removeFile, if_neg heq])
  | @deletedLocalDir d =>
    rw [entry_remove]
    split
    · rename_i hpre
      exact .inr (.inr (.inr (.inl ⟨d, rfl, hpre, rfl⟩)))
    · exact .inl rfl

theorem exists_keeps {cc : ConflictCopy} (h : Did m disk copy (.copy cc) disk' copy' m') :
    copy' = copy ∧ ∃ n, Keeps m disk copy disk' m' cc n := by
  cases h with
  | @kept _ nth e mtime free absent losing =>
    refine ⟨rfl, conflictName cc.path m.stamp nth, ⟨nth, rfl⟩, free, absent, ⟨e, mtime, ?_, ?_⟩, ?_⟩
    · refine losing.imp_right fun ⟨hs, t, ht, he⟩ => ⟨hs, ?_⟩
      rw [ht]
      exact he
    · rw [entry_write, if_pos rfl]
    · exact List.mem_append_right _ (List.mem_singleton.mpr rfl)

theorem copy_entry_cases (h : Did m disk copy op disk' copy' m') (hroot : op ≠ .deleteRemote [] ∧ op ≠ .deleteRemoteDir [])
    (q : Path) :
    copyEntry copy' q = copyEntry copy q ∨ op = .upload q ∨
      ∃ d, (op = .deleteRemote d ∨ op = .deleteRemoteDir d) ∧ d <+: q ∧ copyEntry copy' q = none := by
  cases h with
  | kept _ _ _ | refused _ _ | downloaded _ | deletedLocal | deletedLocalDir | createdLocalDir => exact .inl rfl
  | @uploaded path e mtime found taken =>
    by_cases heq : q = path
    · exact .inr (.inl (by rw [heq]))
    · exact .inl (by rw [copyEntry_write, if_neg heq])
  | @deletedRemote d =>
    have hd : d ≠ [] := fun h => hroot.1 (by rw [h])
    rw [copyEntry_remove hd]
    split
    · rename_i hpre
      exact .inr (.inr ⟨d, .inl rfl, hpre, rfl⟩)
    · exact .inl rfl
  | @deletedRemoteDir d =>
    have hd : d ≠ [] := fun h => hroot.2 (by rw [h])
    rw [copyEntry_remove hd]
    split
    · rename_i hpre
      exact .inr (.inr ⟨d, .inr rfl, hpre, rfl⟩)
    · exact .inl rfl

end Steps

end PlannedAux

end Capka

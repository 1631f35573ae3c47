import Capka.Bridge.ConflictNames
import Capka.Bridge.Planned

/-!
# What becomes of a version

A sync left to itself makes the two sides agree, and keeps the version that loses a conflict beside the one that wins. What it does not
keep is an edit of a file that the other side deleted since the ancestor: a deletion is carried out whatever the file holds.
-/

namespace Capka

/-- A version that differs from the one of the ancestor, or that the ancestor lacks, as the planner sees it. -/
def Edited (entry base : Option Entry) : Prop := ∃ e, entry = some e ∧ changed e base = true

instance (entry base : Option Entry) : Decidable (Edited entry base) :=
  match entry with
  | none => isFalse fun ⟨_, h, _⟩ => by cases h
  | some e => decidable_of_iff (changed e base = true) ⟨fun h => ⟨e, rfl, h⟩, fun ⟨_, h, hc⟩ => by cases h; exact hc⟩

namespace SyncCase

/-- The manifests and the ancestor carry the hashes of what they list. -/
def Hashed (c : SyncCase) : Prop :=
  (∀ p e, c.localFiles.entry p = some e → e.hash.isSome = true) ∧ (∀ p e, c.remote.files.entry p = some e → e.hash.isSome = true) ∧
    ∀ p e, c.base.files.entry p = some e → e.hash.isSome = true

/-- No path is a file on one side and a directory on the other. -/
def Apart (c : SyncCase) : Prop :=
  (∀ p ∈ c.localFiles.keys, p ∉ c.remote.dirs) ∧ ∀ p ∈ c.remote.files.keys, p ∉ walkLocalDirs c.disk

/-- The sync was planned at some time. -/
def Timed (c : SyncCase) : Prop :=
  ∃ year month day hours minutes seconds : Nat, c.stamp = stampOf year month day hours minutes seconds

/-- No file had the name before the sync, as far as the sync looks at files. -/
def FreeName (c : SyncCase) (n : Path) : Prop :=
  n ∉ c.disk.files.keys ∧ ∀ t ∈ c.copy, n ∈ t.files.keys → n ∈ c.remote.excluded

/-- Both sides hold the content at the path. -/
def Holds (s : BridgeState) (p : Path) (e : Entry) : Prop := s.disk.content p = some e.hash ∧ copyContent s.copy p = some e.hash

/-- The version exists on both sides, under its own path or, where the path is in conflict, under a name for its conflict copy. -/
def Survives (c : SyncCase) (s : BridgeState) (p : Path) (e : Entry) : Prop :=
  Holds s p e ∨ (∃ winner, c.verdictOf p = .conflict winner) ∧
    ∃ nth, c.FreeName (conflictName p c.stamp nth) ∧ Holds s (conflictName p c.stamp nth) e

/-- What is promised: the sides agree on every path that neither leaves out, and every version of a side's manifest that differs from
the ancestor's survives. -/
structure KeepsVersions (c : SyncCase) (s : BridgeState) : Prop where
  agree : ∀ p, c.LooksAt p → s.disk.content p = copyContent s.copy p
  localKept : ∀ p e, p ∉ c.excluded → c.localFiles.entry p = some e → changed e (c.base.files.entry p) = true → c.Survives s p e
  remoteKept : ∀ p e, p ∉ c.excluded → c.remote.files.entry p = some e → changed e (c.base.files.entry p) = true → c.Survives s p e

/-- No file deleted on one side was edited on the other, and no file in conflict is called `.~lock`. -/
structure NoneEdited (c : SyncCase) : Prop where
  onComputer : ∀ p, c.verdictOf p = .deleteLocal → ¬Edited (c.localFiles.entry p) (c.base.files.entry p)
  inWorkspace : ∀ p, c.verdictOf p = .deleteRemote → ¬Edited (c.remote.files.entry p) (c.base.files.entry p)
  named : ∀ p winner, c.verdictOf p = .conflict winner → p.getLast? ≠ some ".~lock"

end SyncCase

namespace VersionsAux

open SyncCase BridgeState UninterruptedAux BridgeAux UntrackedAux NamesAux PlannedAux

variable {c : SyncCase} {p : Path}

/-! ### What a path ends as -/

/-- The content a path is to end with on both sides. -/
def target (c : SyncCase) (p : Path) : Option (Option Nat) :=
  match c.verdictOf p with
  | .nothing | .upload | .conflict .local_ => (c.localFiles.entry p).map Entry.hash
  | .download | .conflict .remote => (c.remote.files.entry p).map Entry.hash
  | .deleteRemote | .deleteLocal => none

theorem target_eq_none (hl : c.localFiles.entry p = none) (hr : c.remote.files.entry p = none) : target c p = none := by
  unfold target
  split <;> simp [hl, hr]

variable {d : Path}

theorem walks_of_parent (hp : walks p = true) (hd : d ∈ parents p) : walks d = true := by
  obtain ⟨hne, hneq, hpre⟩ := mem_parents.mp hd
  simp only [walks, Bool.and_eq_true, Bool.not_eq_true', List.all_eq_true] at hp ⊢
  refine ⟨hp.2 d hd, fun d' hd' => ?_⟩
  obtain ⟨hne', hneq', hpre'⟩ := mem_parents.mp hd'
  refine hp.2 d' (mem_parents.mpr ⟨hne', fun heq => hneq' ?_, hpre'.trans hpre⟩)
  exact hpre'.eq_of_length_le (heq ▸ hpre.length_le)

theorem mem_walkLocalDirs (hp : p ∈ c.localFiles.keys) (hd : d ∈ parents p) : d ∈ walkLocalDirs c.disk := by
  have hwalks := walks_of_parent (walks_of_mem_walkLocal hp) hd
  refine List.mem_filter.mpr ⟨c.disk_ok.files p (walkLocal_subset hp) d hd, ?_⟩
  simp [(mem_parents.mp hd).1, hwalks]

theorem mem_copy_dirs (hp : p ∈ c.remote.files.keys) (hd : d ∈ parents p) : ∃ t ∈ c.copy, d ∈ t.dirs := by
  obtain ⟨t, ht, hfile⟩ := of_mem_remote_files hp
  exact ⟨t, ht, (c.copy_ok t ht).files p hfile d hd⟩

theorem target_of_localOnly (hex : p ∉ c.excluded) (hr : c.remote.files.entry p = none) : c.verdictOf p = .upload ∨ target c p = none := by
  have hmeaning := meaning hex
  cases hv : c.verdictOf p with
  | nothing =>
    rw [hv] at hmeaning
    rcases hmeaning with ⟨hl, _⟩ | ⟨_, y, _, hy, _⟩
    · exact .inr (target_eq_none hl hr)
    · rw [hr] at hy
      cases hy
  | upload => exact .inl rfl
  | download => exact .inr (by simp [target, hv, hr])
  | deleteRemote => exact .inr (by rw [target, hv])
  | deleteLocal => exact .inr (by rw [target, hv])
  | conflict w =>
    rw [hv] at hmeaning
    obtain ⟨_, y, _, hy, _⟩ := hmeaning
    rw [hr] at hy
    cases hy

theorem target_of_remoteOnly (hl : c.localFiles.entry p = none) : c.verdictOf p = .download ∨ target c p = none := by
  cases hv : c.verdictOf p with
  | nothing | upload => exact .inr (by simp [target, hv, hl])
  | download => exact .inl rfl
  | deleteRemote | deleteLocal => exact .inr (by rw [target, hv])
  | conflict w =>
    obtain ⟨x, _, hx, _⟩ := meaning_of hv (by simp)
    rw [hl] at hx
    cases hx

/-- No file is sent to the place of a directory of the other side, nor into a file of the workspace. -/
def Fits (c : SyncCase) : Prop :=
  (∀ p, c.verdictOf p = .upload → p ∉ c.remote.dirs ∧ ∀ d ∈ parents p, d ∉ c.remote.files.keys) ∧
    ∀ p, c.verdictOf p = .download → p ∉ walkLocalDirs c.disk

theorem fits_of_apart (ha : c.Apart) : Fits c := by
  refine ⟨fun p hv => ?_, fun p hv => ?_⟩
  · obtain ⟨x, hx, _⟩ := meaning_of hv (by simp)
    have hin : p ∈ c.localFiles.keys := Manifest.entry_isSome.mp (by simp [hx])
    exact ⟨ha.1 p hin, fun d hd hfile => ha.2 d hfile (mem_walkLocalDirs hin hd)⟩
  · obtain ⟨y, hy, _⟩ := meaning_of hv (by simp)
    exact ha.2 p (Manifest.entry_isSome.mp (by simp [hy]))

/-- Nothing that lies in a directory dropped on the computer, and nothing at its place, is to stay. -/
theorem target_of_dropsLocal (hf : Fits c) (hd : c.DropsLocal d) (hpre : d <+: p) (hex : p ∉ c.excluded) :
    target c p = none := by
  obtain ⟨hdir, hwalks⟩ := List.mem_filter.mp hd.1
  simp only [Bool.and_eq_true, decide_eq_true_eq] at hwalks
  by_cases heq : d = p
  · subst heq
    have hl : c.localFiles.entry d = none := by
      rw [Manifest.entry_eq_none]
      exact fun hin => c.disk_ok.apart d (walkLocal_subset hin) hdir
    exact (target_of_remoteOnly hl).resolve_left fun hv => hf.2 d hv hd.1
  · have hparent : d ∈ parents p := mem_parents.mpr ⟨hwalks.1, heq, hpre⟩
    have hmeaning := meaning hex
    have hwrites : ∀ v, c.verdictOf p = v → v = .upload ∨ v = .download ∨ (∃ w, v = .conflict w) → False := by
      rintro v rfl hv
      exact hd.2.2.2 p (mem_planWrites hv) hparent
    cases hv : c.verdictOf p with
    | nothing =>
      rw [hv] at hmeaning
      rcases hmeaning with ⟨hl, hr⟩ | ⟨x, y, _, hy, _⟩
      · exact target_eq_none hl hr
      · have hin : p ∈ c.remote.files.keys := Manifest.entry_isSome.mp (by simp [hy])
        obtain ⟨t, ht, hin⟩ := mem_copy_dirs hin hparent
        exact absurd (mem_remote_dirs.mpr ⟨t, ht, hin, ignoredPath_of_walks hwalks.2⟩) hd.2.1
    | upload => exact (hwrites _ hv (.inl rfl)).elim
    | download => exact (hwrites _ hv (.inr (.inl rfl))).elim
    | conflict w => exact (hwrites _ hv (.inr (.inr ⟨w, rfl⟩))).elim
    | deleteRemote => rw [target, hv]
    | deleteLocal => rw [target, hv]

/-- Nothing that lies in a directory dropped in the workspace, and nothing at its place, is to stay. -/
theorem target_of_dropsRemote (hf : Fits c) (hd : c.DropsRemote d) (hpre : d <+: p) (hex : p ∉ c.excluded) :
    target c p = none := by
  obtain ⟨t, ht, hdir, _⟩ := mem_remote_dirs.mp hd.1
  by_cases heq : d = p
  · subst heq
    have hr : c.remote.files.entry d = none := by
      rw [Manifest.entry_eq_none]
      intro hin
      obtain ⟨t', ht', hfile⟩ := of_mem_remote_files hin
      rw [Option.mem_def.mp ht] at ht'
      cases ht'
      exact (c.copy_ok t ht).apart d hfile hdir
    exact (target_of_localOnly hex hr).resolve_left fun hv => (hf.1 d hv).1 hd.1
  · have hne : d ≠ [] := by
      rintro rfl
      exact (c.copy_ok t ht).root.2 hdir
    have hparent : d ∈ parents p := mem_parents.mpr ⟨hne, heq, hpre⟩
    have hmeaning := meaning hex
    have hwrites : ∀ v, c.verdictOf p = v → v = .upload ∨ v = .download ∨ (∃ w, v = .conflict w) → False := by
      rintro v rfl hv
      exact hd.2.2.2 p (mem_planWrites hv) hparent
    cases hv : c.verdictOf p with
    | nothing =>
      rw [hv] at hmeaning
      rcases hmeaning with ⟨hl, hr⟩ | ⟨x, y, hx, _, _⟩
      · exact target_eq_none hl hr
      · have hin : p ∈ c.localFiles.keys := Manifest.entry_isSome.mp (by simp [hx])
        exact absurd (mem_walkLocalDirs hin hparent) hd.2.1
    | upload => exact (hwrites _ hv (.inl rfl)).elim
    | download => exact (hwrites _ hv (.inr (.inl rfl))).elim
    | conflict w => exact (hwrites _ hv (.inr (.inr ⟨w, rfl⟩))).elim
    | deleteRemote => rw [target, hv]
    | deleteLocal => rw [target, hv]

theorem mem_parents_of_file (hd : d ∈ c.remote.files.keys) (hpre : d <+: p) (hne : d ≠ p) : d ∈ parents p := by
  obtain ⟨t, ht, hfile⟩ := of_mem_remote_files hd
  refine mem_parents.mpr ⟨?_, hne, hpre⟩
  rintro rfl
  exact (c.copy_ok t ht).root.1 hfile

theorem absent_under (hd : d ∈ c.remote.files.keys) (hpre : d <+: p) (hne : d ≠ p) : c.remote.files.entry p = none := by
  obtain ⟨t, ht, hfile⟩ := of_mem_remote_files hd
  rw [Manifest.entry_eq_none]
  intro hin
  obtain ⟨t', ht', hdir⟩ := mem_copy_dirs hin (mem_parents_of_file hd hpre hne)
  rw [Option.mem_def.mp ht] at ht'
  cases ht'
  exact (c.copy_ok t ht).apart d hfile hdir

theorem target_under (hf : Fits c) (hd : d ∈ c.remote.files.keys) (hpre : d <+: p) (hne : d ≠ p) (hex : p ∉ c.excluded) :
    target c p = none :=
  (target_of_localOnly hex (absent_under hd hpre hne)).resolve_left fun hv => (hf.1 p hv).2 d (mem_parents_of_file hd hpre hne) hd

/-! ### While the plan is carried out -/

/-- The path is one of the three manifests. -/
def Listed (c : SyncCase) (p : Path) : Prop := p ∈ c.localFiles.keys ∨ p ∈ c.remote.files.keys ∨ p ∈ c.base.files.keys

theorem listed_of_verdict (h : c.verdictOf p ≠ .nothing) : Listed c p :=
  (mem_keys_of_verdict h).elim .inl fun h => .inr (.inl h)

theorem mem_claimed_of_listed (h : Listed c p) : p ∈ c.merge.claimed := by
  have hdef : c.merge.claimed = c.localFiles.keys ++ c.remote.files.keys ++ c.base.files.keys ++ walkLocalDirs c.disk ++ c.remote.dirs :=
    rfl
  rw [hdef]
  refine List.mem_append_left _ (List.mem_append_left _ ?_)
  rcases h with h | h | h
  · exact List.mem_append_left _ (List.mem_append_left _ h)
  · exact List.mem_append_left _ (List.mem_append_right _ h)
  · exact List.mem_append_right _ h

theorem mem_claimed_of_dir (h : p ∈ walkLocalDirs c.disk ∨ p ∈ c.remote.dirs) : p ∈ c.merge.claimed := by
  have hdef : c.merge.claimed = c.localFiles.keys ++ c.remote.files.keys ++ c.base.files.keys ++ walkLocalDirs c.disk ++ c.remote.dirs :=
    rfl
  rw [hdef]
  rcases h with h | h
  · exact List.mem_append_left _ (List.mem_append_right _ h)
  · exact List.mem_append_right _ h

/-- The planned conflict copy of a loser. -/
def Planned (c : SyncCase) (cc : ConflictCopy) : Prop := conflictCopyOf c.stamp cc.path (c.verdictOf cc.path) = some cc

/-- The entry of the version that loses. -/
def loser (c : SyncCase) (cc : ConflictCopy) : Option Entry :=
  match cc.source with
  | .local_ => c.localFiles.entry cc.path
  | .remote => c.remote.files.entry cc.path

/-- The loser is kept under the name on the computer, and is in the workspace too or is to be uploaded. -/
def KeptAs (c : SyncCase) (disk : Tree) (copy : Option Tree) (m : Merge) (cc : ConflictCopy) (n : Path) : Prop :=
  (∃ nth, n = conflictName cc.path c.stamp nth) ∧ n ∉ c.merge.claimed ∧ n ∉ c.disk.files.keys ∧
    ∃ e, disk.files.entry n = some e ∧ oversized e.size = false ∧ (loser c cc).map Entry.hash = some e.hash ∧
      (.upload n ∈ m.todo ∨ copyContent copy n = some e.hash)

/-- What holds while the plan is carried out: what the operations left to do read is what was walked and listed; a listed path holds
what it is to end with, on each side, or an operation at it is left to do; a path that is not listed is a conflict copy or is absent;
and each loser is still to be kept or is kept. -/
structure VersionsInv (c : SyncCase) (disk : Tree) (copy : Option Tree) (m : Merge) : Prop where
  stamp : m.stamp = c.stamp
  claimed : ∀ q ∈ c.merge.claimed, q ∈ m.claimed
  plan : ∀ o ∈ m.todo, o ∈ c.merge.todo ∨ ∃ n, o = .upload n ∧ n ∉ c.merge.claimed
  copies : ∀ cc, .copy cc ∈ m.todo → (∀ q ∈ c.merge.claimed, disk.files.entry q = c.disk.files.entry q) ∧ copy = c.copy ∧
    ∀ q ∈ c.disk.files.keys, q ∈ disk.files.keys
  uploads : ∀ q ∈ c.merge.claimed, .upload q ∈ m.todo → disk.files.entry q = c.localFiles.entry q
  downloads : ∀ q, .download q ∈ m.todo → copyEntry copy q = c.remote.files.entry q
  onDisk : ∀ q, q ∉ c.excluded → Listed c q → c.LooksAt q ∨ c.verdictOf q = .download →
    disk.content q = target c q ∨ .download q ∈ m.todo ∨ .deleteLocal q ∈ m.todo
  inCopy : ∀ q, q ∉ c.excluded → Listed c q → ignoredPath q = false →
    copyContent copy q = target c q ∨ .upload q ∈ m.todo ∨ .deleteRemote q ∈ m.todo
  unlisted : ∀ q, c.LooksAt q → ¬Listed c q → (disk.files.entry q = none ∧ copyEntry copy q = none) ∨
    ∃ cc, Planned c cc ∧ KeptAs c disk copy m cc q
  kept : (∀ p winner, c.verdictOf p = .conflict winner → p.getLast? ≠ some ".~lock") → ∀ cc, Planned c cc →
    .copy cc ∈ m.todo ∨ ∃ n, KeptAs c disk copy m cc n
  skipped : ∀ q, ignoredPath q = true → copyEntry c.copy q = none → copyEntry copy q = none

theorem of_conflict {w : Side} (h : c.verdictOf p = .conflict w) :
    ∃ x y, c.localFiles.entry p = some x ∧ c.remote.files.entry p = some y ∧ sameContent x y = false := by
  obtain ⟨x, y, hx, hy, hdiff, _⟩ := meaning_of h (by simp)
  exact ⟨x, y, hx, hy, hdiff⟩

theorem local_of_upload (h : c.verdictOf p = .upload ∨ c.verdictOf p = .conflict .local_) :
    ∃ x, c.localFiles.entry p = some x ∧ target c p = some x.hash := by
  rcases h with h | h
  · obtain ⟨x, hx, _⟩ := meaning_of h (by simp)
    exact ⟨x, hx, by simp [target, h, hx]⟩
  · obtain ⟨x, y, hx, _⟩ := of_conflict h
    exact ⟨x, hx, by simp [target, h, hx]⟩

theorem remote_of_download (h : c.verdictOf p = .download ∨ c.verdictOf p = .conflict .remote) :
    ∃ y, c.remote.files.entry p = some y ∧ target c p = some y.hash := by
  rcases h with h | h
  · obtain ⟨y, hy, _⟩ := meaning_of h (by simp)
    exact ⟨y, hy, by simp [target, h, hy]⟩
  · obtain ⟨x, y, _, hy, _⟩ := of_conflict h
    exact ⟨y, hy, by simp [target, h, hy]⟩

theorem hash_eq_of_sameContent {x y : Entry} (hx : x.hash.isSome = true) (hy : y.hash.isSome = true) :
    sameContent x y = true ↔ x.hash = y.hash := by
  obtain ⟨a, ha⟩ := Option.isSome_iff_exists.mp hx
  obtain ⟨b, hb⟩ := Option.isSome_iff_exists.mp hy
  simp [sameContent, ha, hb]

theorem onDisk_start {q : Path} (hex : q ∉ c.excluded) (hq : c.LooksAt q ∨ c.verdictOf q = .download) :
    c.disk.content q = target c q ∨ .download q ∈ c.merge.todo ∨ .deleteLocal q ∈ c.merge.todo := by
  by_cases hdown : c.verdictOf q = .download ∨ c.verdictOf q = .conflict .remote
  · exact .inr (.inl (mem_todo_download.mpr hdown))
  · have hlooks := hq.resolve_right fun h => hdown (.inl h)
    rw [content_eq, disk_entry_of_looksAt hlooks]
    have hmeaning := meaning hex
    cases hv : c.verdictOf q with
    | nothing => exact .inl (by simp [target, hv])
    | upload => exact .inl (by simp [target, hv])
    | download => exact absurd (.inl hv) hdown
    | deleteRemote =>
      rw [hv] at hmeaning
      exact .inl (by simp [target, hv, hmeaning.1])
    | deleteLocal => exact .inr (.inr (mem_todo_deleteLocal.mpr hv))
    | conflict w =>
      cases w with
      | local_ => exact .inl (by simp [target, hv])
      | remote => exact absurd (.inr hv) hdown

theorem inCopy_start {q : Path} (hh : c.Hashed) (hex : q ∉ c.excluded) (hig : ignoredPath q = false) :
    copyContent c.copy q = target c q ∨ .upload q ∈ c.merge.todo ∨ .deleteRemote q ∈ c.merge.todo := by
  rw [copyContent_eq, copy_entry_of_looked hex hig]
  have hmeaning := meaning hex
  cases hv : c.verdictOf q with
  | nothing =>
    rw [hv] at hmeaning
    rcases hmeaning with ⟨hl, hr⟩ | ⟨x, y, hx, hy, hsame⟩
    · exact .inl (by simp [target, hv, hl, hr])
    · have heq := (hash_eq_of_sameContent (hh.1 q x hx) (hh.2.1 q y hy)).mp hsame
      exact .inl (by simp [target, hv, hx, hy, heq])
  | upload => exact .inr (.inl (mem_todo_upload.mpr (.inl hv)))
  | download => exact .inl (by simp [target, hv])
  | deleteRemote => exact .inr (.inr (mem_todo_deleteRemote.mpr hv))
  | deleteLocal =>
    rw [hv] at hmeaning
    exact .inl (by simp [target, hv, hmeaning.2])
  | conflict w =>
    cases w with
    | local_ => exact .inr (.inl (mem_todo_upload.mpr (.inr hv)))
    | remote => exact .inl (by simp [target, hv])

theorem versionsInv_start (hh : c.Hashed) : VersionsInv c c.disk c.copy c.merge where
  stamp := rfl
  claimed := fun _ hq => hq
  plan := fun _ ho => .inl ho
  copies := fun _ _ => ⟨fun _ _ => rfl, rfl, fun _ hq => hq⟩
  uploads := by
    intro q _ hq
    obtain ⟨x, hx, _⟩ := local_of_upload (mem_todo_upload.mp hq)
    rw [hx, (localFiles_entry.mp hx).1]
  downloads := by
    intro q hq
    obtain ⟨y, hy, _⟩ := remote_of_download (mem_todo_download.mp hq)
    rw [hy, (remote_entry.mp hy).1]
  onDisk := fun _ hex _ hq => onDisk_start hex hq
  inCopy := fun _ hex _ hig => inCopy_start hh hex hig
  unlisted := by
    intro q hlooks hnot
    rw [disk_entry_of_looksAt hlooks, copy_entry_of_looked hlooks.1 hlooks.2.1, Manifest.entry_eq_none, Manifest.entry_eq_none]
    exact .inl ⟨fun h => hnot (.inl h), fun h => hnot (.inr (.inl h))⟩
  kept := fun _ _ hcc => .inl (mem_todo_copy.mpr hcc)
  skipped := fun _ _ h => h

section Step

variable {m m' : Merge} {disk disk' : Tree} {copy copy' : Option Tree} {op : Op} {q n : Path}

variable {o : Op}

theorem not_todo (hready : Ready m op) (h : o.phase < op.phase) : o ∉ m.todo :=
  fun ho => absurd (hready.2 o ho) (Nat.not_le.mpr h)

theorem VersionsInv.of_todo (h : VersionsInv c disk copy m) (ho : o ∈ m.todo) (hop : ∀ n, o ≠ .upload n) : o ∈ c.merge.todo := by
  rcases h.plan o ho with hplan | ⟨n, hn, _⟩
  · exact hplan
  · exact absurd hn (hop n)

theorem VersionsInv.listed_of_download (h : VersionsInv c disk copy m) (hq : .download q ∈ m.todo) : Listed c q := by
  have hv := mem_todo_download.mp (h.of_todo hq (by simp))
  exact listed_of_verdict (by rcases hv with hv | hv <;> simp [hv])

theorem VersionsInv.listed_of_deleteLocal (h : VersionsInv c disk copy m) (hq : .deleteLocal q ∈ m.todo) : Listed c q := by
  have hv := mem_todo_deleteLocal.mp (h.of_todo hq (by simp))
  exact listed_of_verdict (by simp [hv])

theorem VersionsInv.root (h : VersionsInv c disk copy m) (hop : op ∈ m.todo) : op ≠ .deleteRemote [] ∧ op ≠ .deleteRemoteDir [] := by
  constructor
  · rintro rfl
    obtain ⟨t, ht, hfile⟩ := of_mem_remote_files (of_mem_todo_deleteRemote (h.of_todo hop (by simp))).2
    exact (c.copy_ok t ht).root.1 hfile
  · rintro rfl
    exact ne_nil_of_dropsRemote (mem_todo_deleteRemoteDir.mp (h.of_todo hop (by simp))) rfl

theorem VersionsInv.copy_cases (h : VersionsInv c disk copy m) (hready : Ready m op) (hdid : Did m disk copy op disk' copy' m') (q : Path) :
    copyEntry copy' q = copyEntry copy q ∨ op = .upload q ∨
      ∃ d, ((op = .deleteRemote d ∧ c.verdictOf d = .deleteRemote) ∨ (op = .deleteRemoteDir d ∧ c.DropsRemote d)) ∧ d <+: q ∧
        copyEntry copy' q = none := by
  rcases copy_entry_cases hdid (h.root hready.1) q with hsame | hup | ⟨d, hop | hop, hpre, hnone⟩
  · exact .inl hsame
  · exact .inr (.inl hup)
  · refine .inr (.inr ⟨d, .inl ⟨hop, ?_⟩, hpre, hnone⟩)
    exact mem_todo_deleteRemote.mp (h.of_todo (hop ▸ hready.1) (by simp))
  · refine .inr (.inr ⟨d, .inr ⟨hop, ?_⟩, hpre, hnone⟩)
    exact mem_todo_deleteRemoteDir.mp (h.of_todo (hop ▸ hready.1) (by simp))

theorem todo_cases (hdid : Did m disk copy op disk' copy' m') (ho : o ∈ m'.todo) :
    o ∈ m.todo ∨ ∃ n, o = .upload n ∧ n ∉ m.claimed := by
  cases hdid
  case kept free _ _ =>
    rcases List.mem_append.mp ho with ho | ho
    · exact .inl (List.mem_of_mem_erase ho)
    · exact .inr ⟨_, List.mem_singleton.mp ho, free⟩
  all_goals exact .inl (List.mem_of_mem_erase ho)

theorem claimed_step (hdid : Did m disk copy op disk' copy' m') : m'.stamp = m.stamp ∧ ∀ q ∈ m.claimed, q ∈ m'.claimed := by
  cases hdid
  case kept => exact ⟨rfl, fun q hq => List.mem_append_left _ hq⟩
  all_goals exact ⟨rfl, fun q hq => hq⟩

theorem plan_step (h : VersionsInv c disk copy m) (hdid : Did m disk copy op disk' copy' m') :
    ∀ o ∈ m'.todo, o ∈ c.merge.todo ∨ ∃ n, o = .upload n ∧ n ∉ c.merge.claimed := by
  intro o ho
  rcases todo_cases hdid ho with ho | ⟨n, hn, hfree⟩
  · exact h.plan o ho
  · exact .inr ⟨n, hn, fun hin => hfree (h.claimed n hin)⟩

theorem uploads_step (h : VersionsInv c disk copy m) (hready : Ready m op) (hdid : Did m disk copy op disk' copy' m')
    (hq : q ∈ c.merge.claimed) (hup : .upload q ∈ m'.todo) : disk'.files.entry q = c.localFiles.entry q := by
  have hbefore : .upload q ∈ m.todo := by
    rcases todo_cases hdid hup with hup | ⟨n, hn, hfree⟩
    · exact hup
    · cases hn
      exact absurd (h.claimed q hq) hfree
  rw [← h.uploads q hq hbefore]
  rcases disk_entry_cases hdid q with hsame | rfl | rfl | ⟨d, rfl, _⟩ | ⟨cc, rfl, hkeeps⟩
  · exact hsame
  · exact absurd hbefore (not_todo hready (by simp [Op.phase]))
  · exact absurd hbefore (not_todo hready (by simp [Op.phase]))
  · exact absurd hbefore (not_todo hready (by simp [Op.phase]))
  · exact absurd (h.claimed q hq) hkeeps.free

theorem downloads_step (h : VersionsInv c disk copy m) (hready : Ready m op) (hdid : Did m disk copy op disk' copy' m')
    (hdown : .download q ∈ m'.todo) : copyEntry copy' q = c.remote.files.entry q := by
  have hbefore : .download q ∈ m.todo := by
    rcases todo_cases hdid hdown with hdown | ⟨n, hn, _⟩
    · exact hdown
    · cases hn
  rw [← h.downloads q hbefore]
  rcases h.copy_cases hready hdid q with hsame | rfl | ⟨d, ⟨rfl, _⟩ | ⟨rfl, _⟩, _⟩
  · exact hsame
  · have hv := mem_todo_download.mp (h.of_todo hbefore (by simp))
    rcases h.plan _ hready.1 with hplan | ⟨n, hn, hfree⟩
    · rcases mem_todo_upload.mp hplan with hu | hu <;> rcases hv with hd | hd <;> rw [hu] at hd <;> cases hd
    · cases hn
      exact absurd (mem_claimed_of_listed (h.listed_of_download hbefore)) hfree
  · exact absurd hbefore (not_todo hready (by simp [Op.phase]))
  · exact absurd hbefore (not_todo hready (by simp [Op.phase]))

variable {cc : ConflictCopy}

theorem copies_step (h : VersionsInv c disk copy m) (hready : Ready m op) (hdid : Did m disk copy op disk' copy' m')
    (hcopy : .copy cc ∈ m'.todo) : (∀ q ∈ c.merge.claimed, disk'.files.entry q = c.disk.files.entry q) ∧ copy' = c.copy ∧
      ∀ q ∈ c.disk.files.keys, q ∈ disk'.files.keys := by
  have hbefore : .copy cc ∈ m.todo := by
    rcases todo_cases hdid hcopy with hcopy | ⟨n, hn, _⟩
    · exact hcopy
    · cases hn
  obtain ⟨hdisk, hsame, hgrows⟩ := h.copies cc hbefore
  have hphase := hready.2 _ hbefore
  cases hdid
  case kept free absent losing =>
    refine ⟨fun q hq => ?_, hsame, fun q hq => mem_keys_write.mpr (.inr (hgrows q hq))⟩
    refine (entry_write.trans (if_neg fun heq => ?_)).trans (hdisk q hq)
    exact free (heq ▸ h.claimed q hq)
  all_goals exact absurd hphase (by simp [Op.phase])

theorem content_of_downloaded (h : VersionsInv c disk copy m) (hready : Ready m (.download q))
    (hdid : Did m disk copy (.download q) disk' copy' m') : disk'.content q = target c q := by
  obtain ⟨y, hy, htarget⟩ := remote_of_download (mem_todo_download.mp (h.of_todo hready.1 (by simp)))
  have hread := h.downloads q hready.1
  cases hdid with
  | @downloaded _ e mtime found =>
    obtain ⟨t, ht, he⟩ := found
    rw [hy, ht] at hread
    have heq : e = y := Option.some.inj (he.symm.trans hread)
    rw [content_eq, entry_write, if_pos rfl, htarget, ← heq]
    rfl

theorem content_of_deletedLocal (h : VersionsInv c disk copy m) (hready : Ready m (.deleteLocal q))
    (hdid : Did m disk copy (.deleteLocal q) disk' copy' m') : disk'.content q = target c q := by
  have hv := mem_todo_deleteLocal.mp (h.of_todo hready.1 (by simp))
  cases hdid with
  | deletedLocal =>
    rw [content_eq, entry_removeFile, if_pos rfl, target, hv]
    rfl

theorem onDisk_step (hf : Fits c) (h : VersionsInv c disk copy m) (hready : Ready m op) (hdid : Did m disk copy op disk' copy' m')
    (hex : q ∉ c.excluded) (hlisted : Listed c q) (hq : c.LooksAt q ∨ c.verdictOf q = .download) :
    disk'.content q = target c q ∨ .download q ∈ m'.todo ∨ .deleteLocal q ∈ m'.todo := by
  by_cases hdown : op = .download q
  · subst hdown
    exact .inl (content_of_downloaded h hready hdid)
  by_cases hdel : op = .deleteLocal q
  · subst hdel
    exact .inl (content_of_deletedLocal h hready hdid)
  rcases disk_entry_cases hdid q with hsame | hop | hop | ⟨d, rfl, hpre, hnone⟩ | ⟨cc, rfl, hkeeps⟩
  · rcases h.onDisk q hex hlisted hq with hdone | hleft | hleft
    · exact .inl (by rw [content_eq, hsame]; exact hdone)
    · exact .inr (.inl (hdid.mem_todo hleft fun heq => hdown heq.symm))
    · exact .inr (.inr (hdid.mem_todo hleft fun heq => hdel heq.symm))
  · exact absurd hop hdown
  · exact absurd hop hdel
  · have hdrops := mem_todo_deleteLocalDir.mp (h.of_todo hready.1 (by simp))
    rw [content_eq, hnone, target_of_dropsLocal hf hdrops hpre hex]
    exact .inl rfl
  · exact absurd (h.claimed q (mem_claimed_of_listed hlisted)) hkeeps.free

theorem content_of_uploaded (hdid : Did m disk copy (.upload q) disk' copy' m') :
    ∃ e, disk.files.entry q = some e ∧ disk' = disk ∧
      (((ignoredPath q || oversized e.size) = true ∧ copy' = copy) ∨ copyContent copy' q = some e.hash) := by
  cases hdid with
  | refused found skipped => exact ⟨_, found, rfl, .inl ⟨skipped, rfl⟩⟩
  | uploaded found taken =>
    refine ⟨_, found, rfl, .inr ?_⟩
    rw [copyContent_eq, copyEntry_write, if_pos rfl]
    rfl

theorem copy_of_deletedRemote (hq : q ≠ []) (hdid : Did m disk copy (.deleteRemote q) disk' copy' m') : copyEntry copy' q = none := by
  cases hdid with
  | deletedRemote => rw [copyEntry_remove hq, if_pos (List.prefix_refl q)]

theorem inCopy_step (hf : Fits c) (h : VersionsInv c disk copy m) (hready : Ready m op) (hdid : Did m disk copy op disk' copy' m')
    (hex : q ∉ c.excluded) (hlisted : Listed c q) (hig : ignoredPath q = false) :
    copyContent copy' q = target c q ∨ .upload q ∈ m'.todo ∨ .deleteRemote q ∈ m'.todo := by
  by_cases hup : op = .upload q
  · subst hup
    obtain ⟨e, he, _, hsent⟩ := content_of_uploaded hdid
    have hclaimed := mem_claimed_of_listed hlisted
    have hplan : .upload q ∈ c.merge.todo := by
      rcases h.plan _ hready.1 with hplan | ⟨n, hn, hfree⟩
      · exact hplan
      · cases hn
        exact absurd hclaimed hfree
    obtain ⟨x, hx, htarget⟩ := local_of_upload (mem_todo_upload.mp hplan)
    rw [h.uploads q hclaimed hready.1, hx] at he
    cases he
    rcases hsent with ⟨hskip, _⟩ | hsent
    · obtain ⟨_, hwalks, hsize⟩ := localFiles_entry.mp hx
      simp [ignoredPath_of_walks hwalks, hsize] at hskip
    · exact .inl (hsent.trans htarget.symm)
  · rcases h.copy_cases hready hdid q with hsame | hop | ⟨d, hd, hpre, hnone⟩
    · rcases h.inCopy q hex hlisted hig with hdone | hleft | hleft
      · exact .inl (by rw [copyContent_eq, hsame, ← copyContent_eq]; exact hdone)
      · exact .inr (.inl (hdid.mem_todo hleft fun heq => hup heq.symm))
      · by_cases hdel : op = .deleteRemote q
        · subst hdel
          have hq : q ≠ [] := fun heq => (h.root hready.1).1 (by rw [heq])
          have hv := mem_todo_deleteRemote.mp (h.of_todo hready.1 (by simp))
          rw [copyContent_eq, copy_of_deletedRemote hq hdid, target, hv]
          exact .inl rfl
        · exact .inr (.inr (hdid.mem_todo hleft fun heq => hdel heq.symm))
    · exact absurd hop hup
    · rw [copyContent_eq, hnone]
      refine .inl ?_
      rcases hd with ⟨_, hv⟩ | ⟨_, hdrops⟩
      · by_cases heq : d = q
        · rw [← heq, target, hv]
          rfl
        · have hmem : d ∈ c.remote.files.keys := (of_mem_todo_deleteRemote (mem_todo_deleteRemote.mpr hv)).2
          exact (target_under hf hmem hpre heq hex).symm
      · exact (target_of_dropsRemote hf hdrops hpre hex).symm

theorem of_planned (hcc : Planned c cc) :
    (∃ w, c.verdictOf cc.path = .conflict w) ∧ ∃ x y, c.localFiles.entry cc.path = some x ∧ c.remote.files.entry cc.path = some y ∧
      sameContent x y = false ∧ loser c cc = if cc.source = .local_ then some x else some y := by
  have hw : ∃ w, c.verdictOf cc.path = .conflict w := by
    rcases conflictCopyOf_eq hcc with ⟨h, _⟩ | ⟨h, _⟩
    · exact ⟨_, h⟩
    · exact ⟨_, h⟩
  obtain ⟨w, hv⟩ := hw
  obtain ⟨x, y, hx, hy, hdiff⟩ := of_conflict hv
  refine ⟨⟨w, hv⟩, x, y, hx, hy, hdiff, ?_⟩
  unfold loser
  cases cc.source with
  | local_ => simp [hx]
  | remote => simp [hy]

theorem parents_of_keptAs (hcc : Planned c cc) (hk : KeptAs c disk copy m cc n) :
    parents n = parents cc.path ∧ cc.path ≠ [] := by
  obtain ⟨⟨nth, rfl⟩, _⟩ := hk
  obtain ⟨_, x, y, hx, _⟩ := of_planned hcc
  have hne : cc.path ≠ [] := by
    intro heq
    have hin : cc.path ∈ c.disk.files.keys := Manifest.entry_isSome.mp (by simp [(localFiles_entry.mp hx).1])
    exact c.disk_ok.root.1 (heq ▸ hin)
  exact ⟨parents_conflictName _ _ hne, hne⟩

theorem keptAs_of_keeps (h : VersionsInv c disk copy m) (hready : Ready m (.copy cc))
    (hk : Keeps m disk copy disk' m' cc n) : KeptAs c disk' copy' m' cc n := by
  have hcc : Planned c cc := mem_todo_copy.mp (h.of_todo hready.1 (by simp))
  obtain ⟨hdisk, hcopy, hgrows⟩ := h.copies cc hready.1
  obtain ⟨⟨w, hv⟩, x, y, hx, hy, _, hloser⟩ := of_planned hcc
  obtain ⟨nth, hn⟩ := hk.named
  obtain ⟨e, mtime, hlosing, hheld⟩ := hk.held
  have hlisted : cc.path ∈ c.merge.claimed := mem_claimed_of_listed (.inl (Manifest.entry_isSome.mp (by simp [hx])))
  have hsame : loser c cc = some e := by
    rcases hlosing with ⟨hs, he⟩ | ⟨hs, he⟩
    · rw [hdisk _ hlisted, (localFiles_entry.mp hx).1] at he
      rw [hloser, if_pos hs, he]
    · rw [hcopy, (remote_entry.mp hy).1] at he
      rw [hloser, if_neg (by simp [hs]), he]
  have hsize : oversized e.size = false := by
    rw [hloser] at hsame
    split at hsame
    · rw [← Option.some.inj hsame]
      exact (localFiles_entry.mp hx).2.2
    · rw [← Option.some.inj hsame]
      exact (remote_entry.mp hy).2.2
  refine ⟨⟨nth, by rw [hn, h.stamp]⟩, fun hin => hk.free (h.claimed n hin), fun hin => ?_, _, hheld, hsize, ?_, .inl hk.queued⟩
  · have hthere := Manifest.entry_isSome.mpr (hgrows n hin)
    rw [hk.absent] at hthere
    cases hthere
  · rw [hsame]
    rfl

theorem keptAs_step (hf : Fits c) (h : VersionsInv c disk copy m) (hready : Ready m op)
    (hdid : Did m disk copy op disk' copy' m') (hcc : Planned c cc) (hig : ignoredPath n = false)
    (hk : KeptAs c disk copy m cc n) : KeptAs c disk' copy' m' cc n := by
  obtain ⟨hparents, hne⟩ := parents_of_keptAs hcc hk
  obtain ⟨⟨w, hv⟩, x, y, hx, hy, _⟩ := of_planned hcc
  have hwrites : cc.path ∈ planWrites c.merge.plan := mem_planWrites (.inr (.inr ⟨w, hv⟩))
  obtain ⟨hnamed, hfree, habsent, e, he, hsize, hloser, hsent⟩ := hk
  -- a path over the name that was claimed is a directory the conflicting file lies in
  have hbelow : ∀ {d : Path}, d <+: n → d ∈ c.merge.claimed → d ≠ [] → d ∈ parents cc.path := by
    intro d hpre hin hroot
    rw [← hparents]
    exact mem_parents.mpr ⟨hroot, fun heq => hfree (heq ▸ hin), hpre⟩
  have hnotroot : ∀ {d : Path}, d ∈ c.remote.files.keys → d ≠ [] := by
    rintro d hmem rfl
    obtain ⟨t, ht, hfile⟩ := of_mem_remote_files hmem
    exact (c.copy_ok t ht).root.1 hfile
  have hdisk : disk'.files.entry n = some e := by
    rcases disk_entry_cases hdid n with hsame | rfl | rfl | ⟨d, rfl, hpre, _⟩ | ⟨cc', rfl, hkeeps⟩
    · rw [hsame, he]
    · exact absurd (mem_claimed_of_listed (h.listed_of_download hready.1)) hfree
    · exact absurd (mem_claimed_of_listed (h.listed_of_deleteLocal hready.1)) hfree
    · have hdrops := mem_todo_deleteLocalDir.mp (h.of_todo hready.1 (by simp))
      have hroot : d ≠ [] := by
        have hd := (List.mem_filter.mp hdrops.1).2
        simp only [Bool.and_eq_true, decide_eq_true_eq] at hd
        exact hd.1
      exact absurd (hbelow hpre (mem_claimed_of_dir (.inl hdrops.1)) hroot) (hdrops.2.2.2 _ hwrites)
    · rw [hkeeps.absent] at he
      cases he
  refine ⟨hnamed, hfree, habsent, e, hdisk, hsize, hloser, ?_⟩
  by_cases hup : op = .upload n
  · subst hup
    obtain ⟨e', he', _, hdone⟩ := content_of_uploaded hdid
    rw [he] at he'
    cases he'
    rcases hdone with ⟨hskip, _⟩ | hdone
    · simp [hig, hsize] at hskip
    · exact .inr hdone
  · rcases hsent with hsent | hsent
    · exact .inl (hdid.mem_todo hsent fun heq => hup heq.symm)
    · rcases h.copy_cases hready hdid n with hsame | hop | ⟨d, hd, hpre, _⟩
      · exact .inr (by rw [copyContent_eq, hsame, ← copyContent_eq, hsent])
      · exact absurd hop hup
      · rcases hd with ⟨_, hdel⟩ | ⟨_, hdrops⟩
        · have hmem : d ∈ c.remote.files.keys := (of_mem_todo_deleteRemote (mem_todo_deleteRemote.mpr hdel)).2
          have hin : d ∈ c.merge.claimed := mem_claimed_of_listed (.inr (.inl hmem))
          obtain ⟨_, hother, hunder⟩ := mem_parents.mp (hbelow hpre hin (hnotroot hmem))
          have hnone := absent_under hmem hunder hother
          rw [hy] at hnone
          cases hnone
        · exact absurd (hbelow hpre (mem_claimed_of_dir (.inr hdrops.1)) (ne_nil_of_dropsRemote hdrops)) (hdrops.2.2.2 _ hwrites)

theorem unlisted_step (hf : Fits c) (h : VersionsInv c disk copy m) (hready : Ready m op)
    (hdid : Did m disk copy op disk' copy' m') (hlooks : c.LooksAt q) (hnot : ¬Listed c q) :
    (disk'.files.entry q = none ∧ copyEntry copy' q = none) ∨ ∃ cc, Planned c cc ∧ KeptAs c disk' copy' m' cc q := by
  rcases h.unlisted q hlooks hnot with ⟨hdisk, hcopy⟩ | ⟨cc, hcc, hk⟩
  · have hcopy' : copyEntry copy' q = none := by
      rcases h.copy_cases hready hdid q with hsame | rfl | ⟨d, _, _, hnone⟩
      · rw [hsame, hcopy]
      · obtain ⟨e, he, _⟩ := content_of_uploaded hdid
        rw [hdisk] at he
        cases he
      · exact hnone
    rcases disk_entry_cases hdid q with hsame | rfl | rfl | ⟨d, _, _, hnone⟩ | ⟨cc, rfl, hkeeps⟩
    · exact .inl ⟨by rw [hsame, hdisk], hcopy'⟩
    · exact absurd (h.listed_of_download hready.1) hnot
    · exact absurd (h.listed_of_deleteLocal hready.1) hnot
    · exact .inl ⟨hnone, hcopy'⟩
    · exact .inr ⟨cc, mem_todo_copy.mp (h.of_todo hready.1 (by simp)), keptAs_of_keeps h hready hkeeps⟩
  · exact .inr ⟨cc, hcc, keptAs_step hf h hready hdid hcc hlooks.2.1 hk⟩

theorem walks_of_planned (hcc : Planned c cc) : walks cc.path = true := by
  obtain ⟨_, x, _, hx, _⟩ := of_planned hcc
  exact walks_of_local hx

theorem kept_step (hf : Fits c) (ht : c.Timed) (h : VersionsInv c disk copy m) (hready : Ready m op)
    (hdid : Did m disk copy op disk' copy' m') (hnamed : ∀ p winner, c.verdictOf p = .conflict winner → p.getLast? ≠ some ".~lock")
    (hcc : Planned c cc) : .copy cc ∈ m'.todo ∨ ∃ n, KeptAs c disk' copy' m' cc n := by
  rcases h.kept hnamed cc hcc with hleft | ⟨n, hk⟩
  · by_cases hop : op = .copy cc
    · subst hop
      obtain ⟨_, n, hkeeps⟩ := exists_keeps hdid
      exact .inr ⟨n, keptAs_of_keeps h hready hkeeps⟩
    · exact .inl (hdid.mem_todo hleft fun heq => hop heq.symm)
  · obtain ⟨⟨w, hv⟩, _⟩ := of_planned hcc
    obtain ⟨_, hne⟩ := parents_of_keptAs hcc hk
    have hig : ignoredPath n = false := by
      obtain ⟨nth, rfl⟩ := hk.1
      obtain ⟨year, month, day, hours, minutes, seconds, hstamp⟩ := ht
      rw [← Bool.not_eq_true, hstamp,
        ignoredPath_conflictName (dated_stampOf year month day hours minutes seconds) hne (ignoredPath_of_walks (walks_of_planned hcc))]
      exact hnamed _ w hv
    exact .inr ⟨n, keptAs_step hf h hready hdid hcc hig hk⟩

theorem skipped_step (h : VersionsInv c disk copy m) (hready : Ready m op) (hdid : Did m disk copy op disk' copy' m')
    (hig : ignoredPath q = true) (hq : copyEntry copy q = none) : copyEntry copy' q = none := by
  rcases h.copy_cases hready hdid q with hsame | rfl | ⟨d, _, _, hnone⟩
  · rw [hsame, hq]
  · cases hdid with
    | refused _ _ => exact hq
    | uploaded _ taken => simp [hig] at taken
  · exact hnone

theorem versionsInv_step (hf : Fits c) (ht : c.Timed) (h : VersionsInv c disk copy m) (hready : Ready m op)
    (hdid : Did m disk copy op disk' copy' m') : VersionsInv c disk' copy' m' where
  stamp := (claimed_step hdid).1.trans h.stamp
  claimed := fun q hq => (claimed_step hdid).2 q (h.claimed q hq)
  plan := plan_step h hdid
  copies := fun _ hcc => copies_step h hready hdid hcc
  uploads := fun _ hq hup => uploads_step h hready hdid hq hup
  downloads := fun _ hdown => downloads_step h hready hdid hdown
  onDisk := fun _ hex hlisted hq => onDisk_step hf h hready hdid hex hlisted hq
  inCopy := fun _ hex hlisted hig => inCopy_step hf h hready hdid hex hlisted hig
  unlisted := fun _ hlooks hnot => unlisted_step hf h hready hdid hlooks hnot
  kept := fun hnamed _ hcc => kept_step hf ht h hready hdid hnamed hcc
  skipped := fun q hig hq => skipped_step h hready hdid hig (h.skipped q hig hq)

end Step

/-! ### When it is done -/

section Done

variable {s : BridgeState} {m : Merge}

theorem VersionsInv.onDisk_done (h : VersionsInv c s.disk s.copy m) (htodo : m.todo = []) (hex : p ∉ c.excluded) (hlisted : Listed c p)
    (hq : c.LooksAt p ∨ c.verdictOf p = .download) : s.disk.content p = target c p := by
  rcases h.onDisk p hex hlisted hq with hdone | hleft | hleft
  · exact hdone
  · rw [htodo] at hleft
    cases hleft
  · rw [htodo] at hleft
    cases hleft

theorem VersionsInv.inCopy_done (h : VersionsInv c s.disk s.copy m) (htodo : m.todo = []) (hex : p ∉ c.excluded) (hlisted : Listed c p)
    (hig : ignoredPath p = false) : copyContent s.copy p = target c p := by
  rcases h.inCopy p hex hlisted hig with hdone | hleft | hleft
  · exact hdone
  · rw [htodo] at hleft
    cases hleft
  · rw [htodo] at hleft
    cases hleft

variable {e : Entry}

theorem holds_of_target (h : VersionsInv c s.disk s.copy m) (htodo : m.todo = []) (hex : p ∉ c.excluded)
    (hq : c.LooksAt p ∨ c.verdictOf p = .download) (hig : ignoredPath p = false) (htarget : target c p = some e.hash)
    (hlisted : Listed c p) : Holds s p e :=
  ⟨(h.onDisk_done htodo hex hlisted hq).trans htarget, (h.inCopy_done htodo hex hlisted hig).trans htarget⟩

theorem of_mem_remote_excluded (h : p ∈ c.remote.excluded) : ignoredPath p = false := by
  unfold remote serverTree at h
  cases hc : c.copy with
  | none =>
    rw [hc] at h
    cases h
  | some t =>
    rw [hc] at h
    obtain ⟨r, _, hr, rfl⟩ := mem_keys_filter.mp h
    simp only [Bool.and_eq_true, Bool.not_eq_true'] at hr
    exact hr.1

theorem looksAt_of_local (hex : p ∉ c.excluded) (he : c.localFiles.entry p = some e) : c.LooksAt p :=
  ⟨hex, ignoredPath_of_walks (walks_of_local he), fun _ => walks_of_local he⟩

theorem ignoredPath_of_remote (he : c.remote.files.entry p = some e) : ignoredPath p = false := (remote_entry.mp he).2.1

theorem listed_of_local (he : c.localFiles.entry p = some e) : Listed c p :=
  .inl (Manifest.entry_isSome.mp (by simp [he]))

theorem listed_of_remote (he : c.remote.files.entry p = some e) : Listed c p :=
  .inr (.inl (Manifest.entry_isSome.mp (by simp [he])))

theorem survives_of_keptAs {cc : ConflictCopy} {n : Path} (htodo : m.todo = []) (hcc : Planned c cc)
    (hk : KeptAs c s.disk s.copy m cc n) (hloser : loser c cc = some e) (hig : ignoredPath n = false) : c.Survives s cc.path e := by
  obtain ⟨⟨nth, rfl⟩, hfree, habsent, e', he', _, hsame, hsent⟩ := hk
  have hcopy := hsent.resolve_left (by simp [htodo])
  have hash : e'.hash = e.hash := by
    rw [hloser] at hsame
    exact (Option.some.inj hsame).symm
  refine .inr ⟨(of_planned hcc).1, nth, ⟨habsent, fun t ht hin => ?_⟩, ?_, ?_⟩
  · by_contra hnot
    have hex : conflictName cc.path c.stamp nth ∉ c.excluded := by
      intro h
      rcases List.mem_append.mp h with h | h
      · obtain ⟨r, hr, _, hr'⟩ := mem_keys_filter.mp h
        exact habsent (hr' ▸ Table.mem_keys_of_mem hr)
      · exact hnot h
    have hsome : (copyEntry c.copy (conflictName cc.path c.stamp nth)).isSome = true := by
      rw [Option.mem_def.mp ht]
      exact Manifest.entry_isSome.mpr hin
    rw [copy_entry_of_looked hex hig] at hsome
    exact hfree (mem_claimed_of_listed (.inr (.inl (Manifest.entry_isSome.mp hsome))))
  · rw [content_eq, he', ← hash]
    rfl
  · rw [hcopy, hash]

theorem agree_of_inv (h : VersionsInv c s.disk s.copy m) (htodo : m.todo = []) (hlooks : c.LooksAt p) :
    s.disk.content p = copyContent s.copy p := by
  by_cases hlisted : Listed c p
  · rw [h.onDisk_done htodo hlooks.1 hlisted (.inl hlooks), h.inCopy_done htodo hlooks.1 hlisted hlooks.2.1]
  · rcases h.unlisted p hlooks hlisted with ⟨hdisk, hcopy⟩ | ⟨cc, _, _, _, _, e, he, _, _, hsent⟩
    · rw [content_eq, copyContent_eq, hdisk, hcopy]
    · rw [content_eq, he, hsent.resolve_left (by simp [htodo])]
      rfl

end Done

variable {s : BridgeState} {m : Merge} {cc : ConflictCopy} {e : Entry}

theorem survives_of_loser (ht : c.Timed)
    (h : VersionsInv c s.disk s.copy m) (htodo : m.todo = []) (hnone : c.NoneEdited) (hcc : Planned c cc) (hloser : loser c cc = some e) :
    c.Survives s cc.path e := by
  obtain ⟨n, hk⟩ := (h.kept hnone.named cc hcc).resolve_left (by simp [htodo])
  obtain ⟨⟨w, hv⟩, _⟩ := of_planned hcc
  refine survives_of_keptAs htodo hcc hk hloser ?_
  obtain ⟨_, hne⟩ := parents_of_keptAs hcc hk
  obtain ⟨nth, rfl⟩ := hk.1
  obtain ⟨year, month, day, hours, minutes, seconds, hstamp⟩ := ht
  rw [← Bool.not_eq_true, hstamp,
    ignoredPath_conflictName (dated_stampOf year month day hours minutes seconds) hne (ignoredPath_of_walks (walks_of_planned hcc))]
  exact hnone.named _ w hv

theorem localKept_of_noneEdited (ht : c.Timed)
    (h : VersionsInv c s.disk s.copy m) (htodo : m.todo = []) (hnone : c.NoneEdited) (hex : p ∉ c.excluded)
    (he : c.localFiles.entry p = some e) (hchanged : changed e (c.base.files.entry p) = true) : c.Survives s p e := by
  have hlooks := looksAt_of_local hex he
  have hholds : target c p = some e.hash → c.Survives s p e := fun htarget =>
    .inl (holds_of_target h htodo hex (.inl hlooks) hlooks.2.1 htarget (listed_of_local he))
  have hmeaning := meaning hex
  rw [he] at hmeaning
  cases hv : c.verdictOf p with
  | nothing => exact hholds (by simp [target, hv, he])
  | upload => exact hholds (by simp [target, hv, he])
  | download =>
    rw [hv] at hmeaning
    obtain ⟨y, _, hy⟩ := hmeaning
    rw [(hy e rfl).2] at hchanged
    cases hchanged
  | deleteRemote =>
    rw [hv] at hmeaning
    cases hmeaning.1
  | deleteLocal => exact absurd ⟨e, he, hchanged⟩ (hnone.onComputer p hv)
  | conflict w =>
    cases w with
    | local_ => exact hholds (by simp [target, hv, he])
    | remote =>
      have hcc : Planned c ⟨p, conflictName p c.stamp 1, .local_⟩ := by
        unfold Planned
        rw [hv]
        rfl
      exact survives_of_loser ht h htodo hnone hcc he

theorem remoteKept_of_noneEdited (hh : c.Hashed) (ht : c.Timed)
    (h : VersionsInv c s.disk s.copy m) (htodo : m.todo = []) (hnone : c.NoneEdited) (hex : p ∉ c.excluded)
    (he : c.remote.files.entry p = some e) (hchanged : changed e (c.base.files.entry p) = true) : c.Survives s p e := by
  have hig := ignoredPath_of_remote he
  have hholds : target c p = some e.hash → c.LooksAt p ∨ c.verdictOf p = .download → c.Survives s p e := fun htarget hq =>
    .inl (holds_of_target h htodo hex hq hig htarget (listed_of_remote he))
  have hmeaning := meaning hex
  rw [he] at hmeaning
  cases hv : c.verdictOf p with
  | nothing =>
    rw [hv] at hmeaning
    rcases hmeaning with ⟨_, hr⟩ | ⟨x, y, hx, hy, hsame⟩
    · cases hr
    · cases hy
      have heq := (hash_eq_of_sameContent (hh.1 p x hx) (hh.2.1 p e he)).mp hsame
      exact hholds (by simp [target, hv, hx, heq]) (.inl (looksAt_of_local hex hx))
  | upload =>
    rw [hv] at hmeaning
    obtain ⟨x, _, hx⟩ := hmeaning
    rw [(hx e rfl).2] at hchanged
    cases hchanged
  | download => exact hholds (by simp [target, hv, he]) (.inr hv)
  | deleteRemote => exact absurd ⟨e, he, hchanged⟩ (hnone.inWorkspace p hv)
  | deleteLocal =>
    rw [hv] at hmeaning
    cases hmeaning.2
  | conflict w =>
    obtain ⟨x, _, hx, _⟩ := of_conflict hv
    cases w with
    | local_ =>
      have hcc : Planned c ⟨p, conflictName p c.stamp 1, .remote⟩ := by
        unfold Planned
        rw [hv]
        rfl
      exact survives_of_loser ht h htodo hnone hcc he
    | remote => exact hholds (by simp [target, hv, he]) (.inl (looksAt_of_local hex hx))

theorem not_holds_of_loser (hh : c.Hashed)
    (h : VersionsInv c s.disk s.copy m) (htodo : m.todo = []) (hcc : Planned c cc) (hloser : loser c cc = some e) :
    ¬Holds s cc.path e := by
  obtain ⟨_, x, y, hx, hy, hdiff, hside⟩ := of_planned hcc
  have hne : x.hash ≠ y.hash := by
    intro heq
    rw [(hash_eq_of_sameContent (hh.1 _ x hx) (hh.2.1 _ y hy)).mpr heq] at hdiff
    cases hdiff
  have hex : cc.path ∉ c.excluded := by
    obtain ⟨⟨w, hv⟩, _⟩ := of_planned hcc
    exact not_excluded (by simp [hv])
  have hlooks := looksAt_of_local hex hx
  intro hholds
  have hdisk := h.onDisk_done htodo hex (listed_of_local hx) (.inl hlooks)
  have htarget := hdisk.symm.trans hholds.1
  rw [hloser] at hside
  rcases conflictCopyOf_eq hcc with ⟨hv, hs⟩ | ⟨hv, hs⟩
  · rw [if_neg (by simp [hs])] at hside
    rw [target, hv, hx] at htarget
    cases hside
    exact hne (Option.some.inj htarget)
  · rw [if_pos hs] at hside
    rw [target, hv, hy] at htarget
    cases hside
    exact hne (Option.some.inj htarget).symm

theorem not_survives_of_lock (hh : c.Hashed) (ht : c.Timed)
    (h : VersionsInv c s.disk s.copy m) (htodo : m.todo = []) (hcc : Planned c cc) (hloser : loser c cc = some e)
    (hlock : cc.path.getLast? = some ".~lock") : ¬c.Survives s cc.path e := by
  rintro (hholds | ⟨_, nth, hfree, hholds⟩)
  · exact not_holds_of_loser hh h htodo hcc hloser hholds
  · have hne : cc.path ≠ [] := by
      intro heq
      rw [heq] at hlock
      cases hlock
    have hig : ignoredPath (conflictName cc.path c.stamp nth) = true := by
      obtain ⟨year, month, day, hours, minutes, seconds, hstamp⟩ := ht
      rw [hstamp, ignoredPath_conflictName (dated_stampOf year month day hours minutes seconds) hne
        (ignoredPath_of_walks (walks_of_planned hcc))]
      exact hlock
    have habsent : copyEntry c.copy (conflictName cc.path c.stamp nth) = none := by
      rw [← Option.not_isSome_iff_eq_none]
      intro hsome
      obtain ⟨x, hx⟩ := Option.isSome_iff_exists.mp hsome
      obtain ⟨t, htree, hx⟩ := Option.bind_eq_some_iff.mp hx
      have hex := hfree.2 t htree (Manifest.entry_isSome.mp (by simp [hx]))
      rw [of_mem_remote_excluded hex] at hig
      cases hig
    have hcopy := hholds.2
    rw [copyContent_eq, h.skipped _ hig habsent] at hcopy
    cases hcopy

end VersionsAux

open VersionsAux PlannedAux UninterruptedAux

/-- A sync that carries out its plan undisturbed makes the sides agree and keeps every edited version exactly when no file deleted on one
side was edited on the other, and no file in conflict is called `.~lock`. -/
theorem SyncCase.keeps_versions_iff (c : SyncCase) (s : BridgeState) (hh : c.Hashed) (ha : c.Apart) (ht : c.Timed) (h : c.Completes s) :
    c.KeepsVersions s ↔ c.NoneEdited := by
  obtain ⟨m, htodo, hinv⟩ := invariant (I := fun disk copy m => VersionsInv c disk copy m) h (versionsInv_start hh)
    fun _ _ _ _ _ _ _ hI hready hdid => versionsInv_step (fits_of_apart ha) ht hI hready hdid
  constructor
  · intro hkeeps
    refine ⟨fun p hv => ?_, fun p hv => ?_, fun p w hv hlock => ?_⟩
    · rintro ⟨e, he, hchanged⟩
      have hex : p ∉ c.excluded := not_excluded (by simp [hv])
      rcases hkeeps.localKept p e hex he hchanged with hholds | ⟨⟨w, hw⟩, _⟩
      · have hdisk := hinv.onDisk_done htodo hex (listed_of_local he) (.inl (looksAt_of_local hex he))
        rw [hholds.1, target, hv] at hdisk
        cases hdisk
      · rw [hv] at hw
        cases hw
    · rintro ⟨e, he, hchanged⟩
      have hex : p ∉ c.excluded := not_excluded (by simp [hv])
      rcases hkeeps.remoteKept p e hex he hchanged with hholds | ⟨⟨w, hw⟩, _⟩
      · have hcopy := hinv.inCopy_done htodo hex (listed_of_remote he) (ignoredPath_of_remote he)
        rw [hholds.2, target, hv] at hcopy
        cases hcopy
      · rw [hv] at hw
        cases hw
    · obtain ⟨x, y, hx, hy, _, hxc, hyc⟩ := meaning_of hv (by simp)
      have hex : p ∉ c.excluded := not_excluded (by simp [hv])
      cases w with
      | local_ =>
        have hcc : Planned c ⟨p, conflictName p c.stamp 1, .remote⟩ := by
          unfold Planned
          rw [hv]
          rfl
        exact not_survives_of_lock hh ht hinv htodo hcc hy hlock (hkeeps.remoteKept p y hex hy hyc)
      | remote =>
        have hcc : Planned c ⟨p, conflictName p c.stamp 1, .local_⟩ := by
          unfold Planned
          rw [hv]
          rfl
        exact not_survives_of_lock hh ht hinv htodo hcc hx hlock (hkeeps.localKept p x hex hx hxc)
  · intro hnone
    exact ⟨fun p hlooks => agree_of_inv hinv htodo hlooks,
      fun p e hex he hchanged => localKept_of_noneEdited ht hinv htodo hnone hex he hchanged,
      fun p e hex he hchanged => remoteKept_of_noneEdited hh ht hinv htodo hnone hex he hchanged⟩

namespace VersionsRun

/-- One note in a folder. -/
def note (mtime hash : Nat) : Tree where
  files := ⟨[⟨["note.md"], ⟨mtime, 10, some hash⟩⟩], by simp⟩
  dirs := []

theorem note_ok (mtime hash : Nat) : (note mtime hash).Ok := by
  have hkeys : (note mtime hash).files.keys = [["note.md"]] := rfl
  have hdirs : (note mtime hash).dirs = [] := rfl
  refine ⟨?_, ?_, ?_, ?_⟩
  · unfold Tree.WF
    rw [hkeys, hdirs]
    decide
  · rw [hdirs]
    decide
  · rw [hkeys, hdirs]
    decide
  · rw [hkeys, hdirs]
    decide

/-- The note was edited on the computer; the workspace has this copy. -/
def edited (copy : Tree) (hcopy : copy.Ok) : SyncCase where
  disk := note 5 8
  copy := some copy
  base := { rev := 1, files := (note 1 7).files, dirs := [] }
  stamp := stampOf 2026 9 7 14 32 0
  disk_ok := note_ok 5 8
  copy_ok := by
    rintro t ⟨⟩
    exact hcopy

theorem empty_ok : Tree.empty.Ok := ⟨by unfold Tree.WF; decide, by decide, by decide, by decide⟩

/-- Deleted in the workspace since. -/
def deleted : SyncCase := edited .empty empty_ok

/-- Edited in the workspace too. -/
def conflicting : SyncCase := edited (note 3 9) (note_ok 3 9)

theorem hashed_of_rows {m : Manifest} (h : ∀ r ∈ m.rows, r.entry.hash.isSome = true) (p : Path) (e : Entry) (he : m.entry p = some e) :
    e.hash.isSome = true := h _ (entry_eq_some.mp he)

theorem deleted_hashed : deleted.Hashed :=
  ⟨hashed_of_rows (by decide), hashed_of_rows (by decide), hashed_of_rows (by decide)⟩

theorem conflicting_hashed : conflicting.Hashed :=
  ⟨hashed_of_rows (by decide), hashed_of_rows (by decide), hashed_of_rows (by decide)⟩

end VersionsRun

open VersionsRun

/-- A note edited on the computer and deleted in the workspace since the last sync is deleted on the computer, edit and all. -/
theorem SyncCase.keeps_versions_false :
    deleted.Hashed ∧ deleted.Apart ∧ deleted.Timed ∧ ∃ s : BridgeState, deleted.Completes s ∧ ¬deleted.KeepsVersions s := by
  refine ⟨deleted_hashed, ⟨by decide, by decide⟩, ⟨2026, 9, 7, 14, 32, 0, rfl⟩, ?_⟩
  obtain ⟨s, hs, hdone, hgone⟩ := Steps.exists_of_execOk BridgeState.step SyncCase.Performs deleted.start
    [.perform (.deleteLocal ["note.md"]) 6]
    (P := fun s : BridgeState => finished s = true ∧ s.disk.content ["note.md"] = none) (by decide)
  refine ⟨s, ⟨hs, of_finished hdone⟩, fun h => ?_⟩
  rcases h.localKept ["note.md"] ⟨5, 10, some 8⟩ (by decide) (by decide) (by decide) with hholds | ⟨⟨w, hw⟩, _⟩
  · have hdisk := hholds.1
    rw [hgone] at hdisk
    cases hdisk
  · have hv : deleted.verdictOf ["note.md"] = .deleteLocal := by decide
    rw [hv] at hw
    cases hw

/-- A note edited on both sides is kept twice on both. -/
theorem SyncCase.keeps_versions_conflicting :
    ∃ s : BridgeState, conflicting.Completes s ∧ (conflicting.KeepsVersions s ↔ conflicting.NoneEdited) ∧
      s.disk.content ["note.conflict-2026-09-07-143200.md"] = some (some 9) ∧
        copyContent s.copy ["note.conflict-2026-09-07-143200.md"] = some (some 9) ∧ copyContent s.copy ["note.md"] = some (some 8) := by
  obtain ⟨s, hs, hdone, hkept⟩ := Steps.exists_of_execOk BridgeState.step SyncCase.Performs conflicting.start
    [.perform (.copy ⟨["note.md"], ["note.conflict-2026-09-07-143200.md"], .remote⟩) 6, .perform (.upload ["note.md"]) 6,
      .perform (.upload ["note.conflict-2026-09-07-143200.md"]) 6]
    (P := fun s : BridgeState => finished s = true ∧ s.disk.content ["note.conflict-2026-09-07-143200.md"] = some (some 9) ∧
      copyContent s.copy ["note.conflict-2026-09-07-143200.md"] = some (some 9) ∧ copyContent s.copy ["note.md"] = some (some 8))
    (by decide)
  exact ⟨s, ⟨hs, of_finished hdone⟩, keeps_versions_iff conflicting s conflicting_hashed ⟨by decide, by decide⟩
    ⟨2026, 9, 7, 14, 32, 0, rfl⟩ ⟨hs, of_finished hdone⟩, hkept⟩

end Capka

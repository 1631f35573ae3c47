import Capka.Bridge.Uninterrupted

/-!
# What a sync does not track

Manifests leave out what is skipped and what is too big, but a directory is removed with everything in it. A sync left to itself
deletes an untracked file exactly where it lies under a directory the sync deletes.
-/

namespace Capka

namespace SyncCase

/-- Every file and every directory at the path and under it is one the manifests have. -/
def TrackedUnder (t : Tree) (files : Manifest) (dirs : List Path) (d : Path) : Prop :=
  (∀ u ∈ t.files.keys, d <+: u → u ∈ files.keys) ∧ ∀ u ∈ t.dirs, d <+: u → u ∈ dirs

/-- What is promised: a file left out of a side's manifest is still on that side, and a directory that is gone from a side held
nothing the side's manifest left out. -/
structure SparesUntracked (c : SyncCase) (s : BridgeState) : Prop where
  localFiles : ∀ u ∈ c.disk.files.keys, u ∉ c.localFiles.keys → u ∈ s.disk.files.keys
  remoteFiles : ∀ t ∈ c.copy, ∀ u ∈ t.files.keys, u ∉ c.remote.files.keys → ∃ t' ∈ s.copy, u ∈ t'.files.keys
  localDirs : ∀ d ∈ c.disk.dirs, d ∉ s.disk.dirs → TrackedUnder c.disk c.localFiles (walkLocalDirs c.disk) d
  remoteDirs : ∀ t ∈ c.copy, ∀ d ∈ t.dirs, (∀ t' ∈ s.copy, d ∉ t'.dirs) → TrackedUnder t c.remote.files c.remote.dirs d

/-- Nothing untracked lies under a directory the sync deletes. -/
structure DropsTracked (c : SyncCase) : Prop where
  onComputer : ∀ d, c.DropsLocal d → TrackedUnder c.disk c.localFiles (walkLocalDirs c.disk) d
  inWorkspace : ∀ d, c.DropsRemote d → ∀ t ∈ c.copy, TrackedUnder t c.remote.files c.remote.dirs d

end SyncCase

namespace UntrackedAux

open SyncCase BridgeState UninterruptedAux BridgeAux

variable {c : SyncCase}

/-- What holds on the computer while the plan is carried out: untracked files, and directories, are there unless a directory they are
in is one to be dropped; and a directory to be dropped is still to be, or nothing is left of it and no file is written any more. -/
structure LocalInv (c : SyncCase) (disk : Tree) (m : Merge) : Prop where
  plan : FromPlan c m
  files : ∀ u ∈ c.disk.files.keys, u ∉ c.localFiles.keys → u ∈ disk.files.keys ∨ ∃ d, c.DropsLocal d ∧ d <+: u
  dirs : ∀ u ∈ c.disk.dirs, u ∈ disk.dirs ∨ ∃ d, c.DropsLocal d ∧ d <+: u
  dropped : ∀ d, c.DropsLocal d → .deleteLocalDir d ∈ m.todo ∨
    ((∀ o ∈ m.todo, 6 ≤ o.phase) ∧ d ∉ disk.dirs ∧ ∀ u ∈ disk.files.keys, ¬d <+: u)

variable {d : Path}

theorem not_mem_of_createLocalDir {d' : Path} (hd : c.DropsLocal d) (hd' : .createLocalDir d' ∈ c.merge.todo) :
    d ∉ parents d' ++ [d'] := by
  intro h
  obtain ⟨t, ht, hdir, _⟩ := mem_remote_dirs.mp (of_mem_todo_createLocalDir hd')
  have hwalks := (List.mem_filter.mp hd.1).2
  simp only [Bool.and_eq_true] at hwalks
  refine hd.2.1 (mem_remote_dirs.mpr ⟨t, ht, ?_, ignoredPath_of_walks hwalks.2⟩)
  rcases List.mem_append.mp h with h | h
  · exact (c.copy_ok t ht).dirs d' hdir d h
  · rw [List.mem_singleton.mp h]
    exact hdir

theorem localInv_start (c : SyncCase) : LocalInv c c.disk c.merge where
  plan := fun _ ho => .inl ho
  files := fun _ hu _ => .inl hu
  dirs := fun _ hu => .inl hu
  dropped := fun _ hd => .inl (mem_todo_deleteLocalDir.mpr hd)

variable {m m' : Merge} {disk disk' : Tree} {copy copy' : Option Tree} {op : Op}

theorem still_dropped {P : Prop}
    (hdid : Did m disk copy op disk' copy' m') (hready : Ready m op) (hphase : op.phase < 6)
    (h : .deleteLocalDir d ∈ m.todo ∨ ((∀ o ∈ m.todo, 6 ≤ o.phase) ∧ P)) : .deleteLocalDir d ∈ m'.todo := by
  rcases h with h | ⟨hlate, _⟩
  · refine hdid.mem_todo h fun heq => ?_
    rw [← heq] at hphase
    exact absurd hphase (lt_irrefl 6)
  · exact absurd (hlate op hready.1) (Nat.not_le.mpr hphase)

theorem localInv_step
    (h : LocalInv c disk m) (hready : Ready m op) (hdid : Did m disk copy op disk' copy' m') : LocalInv c disk' m' := by
  have hplan := hdid.fromPlan h.plan
  -- the operations before the directory phases: a file that is written joins the tree, one that is deleted was tracked
  have hearly : op.phase < 6 → (∀ u, u ∈ disk.files.keys → u ∉ c.localFiles.keys → u ∈ disk'.files.keys) →
      (∀ u ∈ disk.dirs, u ∈ disk'.dirs) → LocalInv c disk' m' := by
    intro hphase hfiles hdirs
    refine ⟨hplan, fun u hu hnot => ?_, fun u hu => ?_, fun d hd => .inl (still_dropped hdid hready hphase (h.dropped d hd))⟩
    · exact (h.files u hu hnot).imp_left fun hin => hfiles u hin hnot
    · exact (h.dirs u hu).imp_left (hdirs u)
  cases hdid with
  | kept _ _ _ | downloaded _ =>
    refine hearly (by simp [Op.phase]) (fun u hu _ => mem_keys_write.mpr (.inr hu)) fun u hu => ?_
    exact List.mem_union_iff.mpr (.inl hu)
  | refused _ _
  | uploaded _ _
  | deletedRemote
  | deletedRemoteDir => exact hearly (by simp [Op.phase]) (fun u hu _ => hu) fun u hu => hu
  | @deletedLocal path =>
    refine hearly (by simp [Op.phase]) (fun u hu hnot => ?_) fun u hu => hu
    rcases h.plan _ hready.1 with hp | ⟨n, hn⟩
    · obtain ⟨r, hr, rfl⟩ := Table.mem_keys.mp hu
      refine Table.mem_keys_of_mem (Table.mem_erase.mpr ⟨hr, fun heq => hnot ?_⟩)
      rw [heq]
      exact (of_mem_todo_deleteLocal hp).2
    · cases hn
  | @deletedLocalDir d₀ =>
    have hd₀ : c.DropsLocal d₀ := by
      rcases h.plan _ hready.1 with hp | ⟨n, hn⟩
      · exact mem_todo_deleteLocalDir.mp hp
      · cases hn
    have hlate : ∀ o ∈ m.todo.erase (.deleteLocalDir d₀), 6 ≤ o.phase := fun o ho => hready.2 o (List.mem_of_mem_erase ho)
    refine ⟨hplan, fun u hu hnot => ?_, fun u hu => ?_, fun d hd => ?_⟩
    · rcases h.files u hu hnot with hin | hd
      · by_cases hpre : d₀ <+: u
        · exact .inr ⟨d₀, hd₀, hpre⟩
        · exact .inl (mem_keys_remove.mpr ⟨hin, hpre⟩)
      · exact .inr hd
    · rcases h.dirs u hu with hin | hd
      · by_cases hpre : d₀ <+: u
        · exact .inr ⟨d₀, hd₀, hpre⟩
        · exact .inl (List.mem_filter.mpr ⟨hin, by simpa using hpre⟩)
      · exact .inr hd
    · by_cases heq : d = d₀
      · subst heq
        refine .inr ⟨hlate, fun hin => ?_, fun u hu => (mem_keys_remove.mp hu).2⟩
        have hnot := (List.mem_filter.mp hin).2
        simp at hnot
      · rcases h.dropped d hd with hin | ⟨_, hdir, hfiles⟩
        · exact .inl ((List.mem_erase_of_ne fun h' => heq (Op.deleteLocalDir.inj h')).mpr hin)
        · exact .inr ⟨hlate, fun hin => hdir (List.mem_filter.mp hin).1, fun u hu => hfiles u (mem_keys_remove.mp hu).1⟩
  | @createdLocalDir d₀ =>
    have hlate : ∀ o ∈ m.todo.erase (.createLocalDir d₀), 7 ≤ o.phase := fun o ho => hready.2 o (List.mem_of_mem_erase ho)
    refine ⟨hplan, fun u hu hnot => h.files u hu hnot, fun u hu => ?_, fun d hd => ?_⟩
    · exact (h.dirs u hu).imp_left fun hin => List.mem_union_iff.mpr (.inl hin)
    · rcases h.dropped d hd with hin | ⟨_, hdir, hfiles⟩
      · exact absurd (hready.2 _ hin) (by simp [Op.phase])
      · refine .inr ⟨fun o ho => le_trans (by decide) (hlate o ho), fun hin => ?_, hfiles⟩
        rcases List.mem_union_iff.mp hin with hin | hin
        · exact hdir hin
        · rcases h.plan _ hready.1 with hp | ⟨n, hn⟩
          · exact not_mem_of_createLocalDir hd hp hin
          · cases hn

/-- What holds in the workspace meanwhile. -/
structure RemoteInv (c : SyncCase) (copy : Option Tree) (m : Merge) : Prop where
  plan : FromPlan c m
  files : ∀ t ∈ c.copy, ∀ u ∈ t.files.keys, u ∉ c.remote.files.keys →
    (∃ t' ∈ copy, u ∈ t'.files.keys) ∨ ∃ d, c.DropsRemote d ∧ d <+: u
  dirs : ∀ t ∈ c.copy, ∀ u ∈ t.dirs, (∃ t' ∈ copy, u ∈ t'.dirs) ∨ ∃ d, c.DropsRemote d ∧ d <+: u
  dropped : ∀ d, c.DropsRemote d → .deleteRemoteDir d ∈ m.todo ∨
    ((∀ o ∈ m.todo, 5 ≤ o.phase) ∧ ∀ t ∈ copy, d ∉ t.dirs ∧ ∀ u ∈ t.files.keys, ¬d <+: u)

theorem remoteInv_start (c : SyncCase) : RemoteInv c c.copy c.merge where
  plan := fun _ ho => .inl ho
  files := fun t ht _ hu _ => .inl ⟨t, ht, hu⟩
  dirs := fun t ht _ hu => .inl ⟨t, ht, hu⟩
  dropped := fun _ hd => .inl (mem_todo_deleteRemoteDir.mpr hd)

theorem ne_nil_of_dropsRemote (hd : c.DropsRemote d) : d ≠ [] := by
  obtain ⟨t, ht, hdir, _⟩ := mem_remote_dirs.mp hd.1
  rintro rfl
  exact (c.copy_ok t ht).root.2 hdir

theorem not_under_file {path u : Path} (hp : path ∈ c.remote.files.keys) {t : Tree} (ht : t ∈ c.copy)
    (hu : u ∈ t.files.keys ∨ u ∈ t.dirs) (hne : u ∈ t.files.keys → u ≠ path) : ¬path <+: u := by
  intro hpre
  obtain ⟨t', ht', hfile⟩ := of_mem_remote_files hp
  rw [Option.mem_def.mp ht] at ht'
  cases ht'
  have hok := c.copy_ok t ht
  have hroot : path ≠ [] := fun h => hok.root.1 (h ▸ hfile)
  have hdir : path ∈ t.dirs := by
    rcases hu with hu | hu
    · exact hok.files u hu path (mem_parents.mpr ⟨hroot, fun h => hne hu h.symm, hpre⟩)
    · by_cases heq : path = u
      · rw [heq]
        exact hu
      · exact hok.dirs u hu path (mem_parents.mpr ⟨hroot, heq, hpre⟩)
  exact hok.apart path hfile hdir

theorem remoteInv_step
    (h : RemoteInv c copy m) (hready : Ready m op) (hdid : Did m disk copy op disk' copy' m') : RemoteInv c copy' m' := by
  have hplan := hdid.fromPlan h.plan
  -- a directory to be dropped stays so while an operation of an earlier phase is carried out
  have hstill : op.phase < 5 → ∀ d, c.DropsRemote d → .deleteRemoteDir d ∈ m'.todo := by
    intro hphase d hd
    rcases h.dropped d hd with hin | ⟨hlate, _⟩
    · refine hdid.mem_todo hin fun heq => ?_
      rw [← heq] at hphase
      exact absurd hphase (lt_irrefl 5)
    · exact absurd (hlate op hready.1) (Nat.not_le.mpr hphase)
  -- the operations on the computer leave the workspace as it is
  have hsame : copy' = copy → op.phase < 5 ∨ (5 < op.phase ∧ ∀ o ∈ m'.todo, o ∈ m.todo) → RemoteInv c copy' m' := by
    rintro rfl hcases
    refine ⟨hplan, h.files, h.dirs, fun d hd => ?_⟩
    rcases hcases with hphase | ⟨hphase, htodo⟩
    · exact .inl (hstill hphase d hd)
    · rcases h.dropped d hd with hin | ⟨hlate, hgone⟩
      · exact absurd (hready.2 _ hin) (Nat.not_le.mpr hphase)
      · exact .inr ⟨fun o ho => hlate o (htodo o ho), hgone⟩
  cases hdid with
  | kept _ _ _ | refused _ _ | downloaded _ | deletedLocal => exact hsame rfl (.inl (by simp [Op.phase]))
  | deletedLocalDir | createdLocalDir => exact hsame rfl (.inr ⟨by simp [Op.phase], fun o ho => List.mem_of_mem_erase ho⟩)
  | uploaded _ _ =>
    refine ⟨hplan, fun t ht u hu hnot => ?_, fun t ht u hu => ?_, fun d hd => .inl (hstill (by simp [Op.phase]) d hd)⟩
    · refine (h.files t ht u hu hnot).imp_left ?_
      rintro ⟨t', ht', hin⟩
      refine ⟨_, rfl, mem_keys_write.mpr (.inr ?_)⟩
      rw [Option.mem_def.mp ht']
      exact hin
    · refine (h.dirs t ht u hu).imp_left ?_
      rintro ⟨t', ht', hin⟩
      refine ⟨_, rfl, List.mem_union_iff.mpr (.inl ?_)⟩
      rw [Option.mem_def.mp ht']
      exact hin
  | @deletedRemote path =>
    have hp : path ∈ c.remote.files.keys := by
      rcases h.plan _ hready.1 with hp | ⟨n, hn⟩
      · exact (of_mem_todo_deleteRemote hp).2
      · cases hn
    have hroot : path ≠ [] := by
      obtain ⟨t, ht, hfile⟩ := of_mem_remote_files hp
      rintro rfl
      exact (c.copy_ok t ht).root.1 hfile
    refine ⟨hplan, fun t ht u hu hnot => ?_, fun t ht u hu => ?_, fun d hd => .inl (hstill (by simp [Op.phase]) d hd)⟩
    · refine (h.files t ht u hu hnot).imp_left ?_
      rintro ⟨t', ht', hin⟩
      have hpre := not_under_file hp ht (.inl hu) fun _ heq => hnot (heq ▸ hp)
      refine ⟨t'.remove path, ?_, mem_keys_remove.mpr ⟨hin, hpre⟩⟩
      simp [Option.mem_def.mp ht', hroot]
    · refine (h.dirs t ht u hu).imp_left ?_
      rintro ⟨t', ht', hin⟩
      have hpre := not_under_file hp ht (.inr hu) fun hfile _ => (c.copy_ok t ht).apart u hfile hu
      refine ⟨t'.remove path, ?_, List.mem_filter.mpr ⟨hin, by simpa using hpre⟩⟩
      simp [Option.mem_def.mp ht', hroot]
  | @deletedRemoteDir d₀ =>
    have hd₀ : c.DropsRemote d₀ := by
      rcases h.plan _ hready.1 with hp | ⟨n, hn⟩
      · exact mem_todo_deleteRemoteDir.mp hp
      · cases hn
    have hroot := ne_nil_of_dropsRemote hd₀
    have hlate : ∀ o ∈ m.todo.erase (.deleteRemoteDir d₀), 5 ≤ o.phase := fun o ho => hready.2 o (List.mem_of_mem_erase ho)
    have hcopy : ∀ t', t' ∈ copy → t'.remove d₀ ∈ copy.bind fun t => if d₀ = [] then none else some (t.remove d₀) := by
      intro t' ht'
      simp [Option.mem_def.mp ht', hroot]
    refine ⟨hplan, fun t ht u hu hnot => ?_, fun t ht u hu => ?_, fun d hd => ?_⟩
    · rcases h.files t ht u hu hnot with ⟨t', ht', hin⟩ | hd
      · by_cases hpre : d₀ <+: u
        · exact .inr ⟨d₀, hd₀, hpre⟩
        · exact .inl ⟨_, hcopy t' ht', mem_keys_remove.mpr ⟨hin, hpre⟩⟩
      · exact .inr hd
    · rcases h.dirs t ht u hu with ⟨t', ht', hin⟩ | hd
      · by_cases hpre : d₀ <+: u
        · exact .inr ⟨d₀, hd₀, hpre⟩
        · exact .inl ⟨_, hcopy t' ht', List.mem_filter.mpr ⟨hin, by simpa using hpre⟩⟩
      · exact .inr hd
    · by_cases hin : .deleteRemoteDir d ∈ m.todo.erase (.deleteRemoteDir d₀)
      · exact .inl hin
      · refine .inr ⟨hlate, fun t' ht' => ?_⟩
        obtain ⟨t, ht, heq⟩ := Option.bind_eq_some_iff.mp (Option.mem_def.mp ht')
        rw [if_neg hroot] at heq
        cases heq
        by_cases hsame : d = d₀
        · subst hsame
          refine ⟨fun hdir => ?_, fun u hu => (mem_keys_remove.mp hu).2⟩
          have hnot := (List.mem_filter.mp hdir).2
          simp at hnot
        · have hgone := (h.dropped d hd).resolve_left fun h' =>
            hin ((List.mem_erase_of_ne fun h'' => hsame (Op.deleteRemoteDir.inj h'')).mpr h')
          obtain ⟨hdir, hfiles⟩ := hgone.2 t ht
          exact ⟨fun hd' => hdir (List.mem_filter.mp hd').1, fun u hu => hfiles u (mem_keys_remove.mp hu).1⟩

end UntrackedAux

open UntrackedAux UninterruptedAux SyncCase

/-- A sync that carries out its plan undisturbed spares what it does not track exactly when nothing untracked lies under a directory
it deletes. -/
theorem SyncCase.spares_untracked_iff (c : SyncCase) (s : BridgeState) (h : c.Completes s) :
    c.SparesUntracked s ↔ c.DropsTracked := by
  obtain ⟨m, htodo, hlocal⟩ := invariant (I := fun disk _ m => LocalInv c disk m) h (localInv_start c)
    fun _ _ _ _ _ _ _ hI hready hdid => localInv_step hI hready hdid
  obtain ⟨m', htodo', hremote⟩ := invariant (I := fun _ copy m => RemoteInv c copy m) h (remoteInv_start c)
    fun _ _ _ _ _ _ _ hI hready hdid => remoteInv_step hI hready hdid
  have hgoneLocal : ∀ d, c.DropsLocal d → d ∉ s.disk.dirs ∧ ∀ u ∈ s.disk.files.keys, ¬d <+: u := by
    intro d hd
    rcases hlocal.dropped d hd with hin | ⟨_, hgone⟩
    · rw [htodo] at hin
      cases hin
    · exact hgone
  have hgoneRemote : ∀ d, c.DropsRemote d → ∀ t ∈ s.copy, d ∉ t.dirs ∧ ∀ u ∈ t.files.keys, ¬d <+: u := by
    intro d hd
    rcases hremote.dropped d hd with hin | ⟨_, hgone⟩
    · rw [htodo'] at hin
      cases hin
    · exact hgone
  constructor
  · intro hspares
    refine ⟨fun d hd => ?_, fun d hd t ht => ?_⟩
    · exact hspares.localDirs d (List.mem_filter.mp hd.1).1 (hgoneLocal d hd).1
    · obtain ⟨t', ht', hdir, _⟩ := mem_remote_dirs.mp hd.1
      rw [Option.mem_def.mp ht] at ht'
      cases ht'
      exact hspares.remoteDirs t ht d hdir fun t' ht' => (hgoneRemote d hd t' ht').1
  · intro hdrops
    refine ⟨fun u hu hnot => ?_, fun t ht u hu hnot => ?_, fun d hd hgone => ?_, fun t ht d hd hgone => ?_⟩
    · refine (hlocal.files u hu hnot).resolve_right ?_
      rintro ⟨d, hd, hpre⟩
      exact hnot ((hdrops.onComputer d hd).1 u hu hpre)
    · refine (hremote.files t ht u hu hnot).resolve_right ?_
      rintro ⟨d, hd, hpre⟩
      exact hnot ((hdrops.inWorkspace d hd t ht).1 u hu hpre)
    · obtain ⟨d₀, hd₀, hpre⟩ := (hlocal.dirs d hd).resolve_left hgone
      obtain ⟨hfiles, hdirs⟩ := hdrops.onComputer d₀ hd₀
      exact ⟨fun u hu h' => hfiles u hu (hpre.trans h'), fun u hu h' => hdirs u hu (hpre.trans h')⟩
    · obtain ⟨d₀, hd₀, hpre⟩ := (hremote.dirs t ht d hd).resolve_left fun ⟨t', ht', hin⟩ => hgone t' ht' hin
      obtain ⟨hfiles, hdirs⟩ := hdrops.inWorkspace d₀ hd₀ t ht
      exact ⟨fun u hu h' => hfiles u hu (hpre.trans h'), fun u hu h' => hdirs u hu (hpre.trans h')⟩

namespace UntrackedRun

/-- A project on the computer with its dependencies. -/
def project : Tree where
  files := ⟨[⟨["app", "main.js"], ⟨1, 10, some 7⟩⟩, ⟨["app", "node_modules", "x.js"], ⟨1, 10, some 8⟩⟩], by decide⟩
  dirs := [["app"], ["app", "node_modules"]]

/-- The project without its dependencies. -/
def source : Tree where
  files := ⟨[⟨["app", "main.js"], ⟨1, 10, some 7⟩⟩], by decide⟩
  dirs := [["app"]]

/-- The ancestor both sides agreed on. -/
def agreed : Ancestor where
  rev := 1
  files := source.files
  dirs := source.dirs

/-- The directory was removed in the workspace since; the computer has this tree. -/
def removed (disk : Tree) (h : disk.Ok) : SyncCase where
  disk := disk
  copy := some .empty
  base := agreed
  stamp := "2026-09-07-143200"
  disk_ok := h
  copy_ok := by
    rintro t ⟨⟩
    exact ⟨by unfold Tree.WF; decide, by decide, by decide, by decide⟩

theorem project_ok : project.Ok := ⟨by unfold Tree.WF; decide, by decide, by decide, by decide⟩

theorem source_ok : source.Ok := ⟨by unfold Tree.WF; decide, by decide, by decide, by decide⟩

/-- What the sync carries out. -/
def acts : List BridgeAction := [.perform (.deleteLocal ["app", "main.js"]) 5, .perform (.deleteLocalDir ["app"]) 5]

end UntrackedRun

open UntrackedRun

/-- A directory removed in the workspace is removed on the computer with the dependencies in it, which no manifest ever listed. -/
theorem SyncCase.spares_untracked_false :
    ∃ s : BridgeState, (removed project project_ok).Completes s ∧ ¬(removed project project_ok).SparesUntracked s := by
  obtain ⟨s, hs, hdone, hgone⟩ := Steps.exists_of_execOk BridgeState.step SyncCase.Performs (removed project project_ok).start acts
    (P := fun s : BridgeState => finished s = true ∧ ["app", "node_modules", "x.js"] ∉ s.disk.files.keys) (by decide)
  refine ⟨s, ⟨hs, of_finished hdone⟩, fun h => hgone ?_⟩
  exact h.localFiles ["app", "node_modules", "x.js"] (by decide) (by decide)

/-- A directory that holds only what the manifests list is removed and takes nothing else with it. -/
theorem SyncCase.spares_untracked_source :
    ∃ s : BridgeState, (removed source source_ok).Completes s ∧
      ((removed source source_ok).SparesUntracked s ↔ (removed source source_ok).DropsTracked) ∧ ["app"] ∉ s.disk.dirs := by
  obtain ⟨s, hs, hdone, hgone⟩ := Steps.exists_of_execOk BridgeState.step SyncCase.Performs (removed source source_ok).start acts
    (P := fun s : BridgeState => finished s = true ∧ ["app"] ∉ s.disk.dirs) (by decide)
  exact ⟨s, ⟨hs, of_finished hdone⟩, spares_untracked_iff _ s ⟨hs, of_finished hdone⟩, hgone⟩

end Capka

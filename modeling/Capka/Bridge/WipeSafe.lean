import Capka.Bridge.Sync

/-!
# A wipe is not read as deletions

A sync deletes a file of the computer when the stored ancestor lists it and the workspace copy lacks it. That is right as long as the
copy, where it is there, holds every file the ancestor lists but those explicitly deleted since: the invariant here. A wipe keeps it,
because it takes the whole copy away and the next sync then resets the ancestor. What breaks it is a write that makes the copy anew
before a sync has seen it missing, and an ancestor stored over files its sync never brought into the workspace.
-/

namespace Capka

namespace Listing

/-- The files of the workspace copy a listing accounts for. -/
def seen (l : Listing) : List Path := l.files.keys ++ l.excluded

end Listing

namespace BridgeState

/-- What is promised: syncs delete only files explicitly deleted in the workspace since the last sync that stored an ancestor listing
them; a plan uploads every other file of the computer that the workspace lacks; and a sync that reaches its end has uploaded them. -/
structure WipeSafe (s : BridgeState) : Prop where
  deletes : ∀ d ∈ s.deleted, d.explicit = true
  reuploads : ∀ m, s.run = some (.merging m) → ∀ q ∈ m.local_.keys, q ∉ m.remote.files.keys → q ∉ m.excluded → q ∉ s.gone →
    q ∈ m.plan.upload
  uploaded : ∀ m files dirs, s.run = some (.reconciled m files dirs) → ∀ q ∈ m.plan.upload, q ∈ m.sent

/-- Every file the stored ancestor lists was explicitly deleted since, or is one of these. -/
def OnlyMisses (s : BridgeState) (paths : List Path) : Prop := ∀ q ∈ s.stored, q ∈ s.gone ∨ q ∈ paths

instance (s : BridgeState) (paths : List Path) : Decidable (s.OnlyMisses paths) :=
  inferInstanceAs (Decidable (∀ q ∈ s.stored, q ∈ s.gone ∨ q ∈ paths))

/-- The files under a directory are files the sync that runs walked. -/
def WalkedUnder (s : BridgeState) (r : Option SyncRun) (d : Path) : Prop :=
  match r with
  | some (.merging m) => ∀ q ∈ s.disk.under d, q ≠ d ∧ q ∈ m.local_.keys
  | _ => True

/-- The sync that runs has settled what its second walk found, over a workspace that was not wiped and made again since its listing. -/
def Settled (s : BridgeState) (r : Option SyncRun) : Prop :=
  match r with
  | some (.reconciled _ files _) => (s.wiped = true → s.copy.isNone) ∧ ∀ q ∈ files.keys, q ∉ s.strays
  | _ => True

/-- The steps of a sound run. A write makes a missing copy only when the stored ancestor lists no other file that was not deleted. A
directory removed on the computer holds only files the sync walked. An ancestor is stored only when the workspace was not wiped and made
again since the listing, and lists no file the sync has not settled. -/
def Sound (s : BridgeState) : BridgeAction → Prop
  | .agentWrite path _ => s.copy.isNone → s.OnlyMisses [path]
  | .agentMkdir _ => s.copy.isNone → s.OnlyMisses []
  | .perform (.upload path) _ => s.copy.isNone → s.OnlyMisses [path]
  | .perform (.deleteLocalDir d) _ => WalkedUnder s s.run d
  | .store => Settled s s.run
  | _ => True

instance (s : BridgeState) (r : Option SyncRun) (d : Path) : Decidable (WalkedUnder s r d) :=
  match r with
  | some (.merging m) => inferInstanceAs (Decidable (∀ q ∈ s.disk.under d, q ≠ d ∧ q ∈ m.local_.keys))
  | none | some (.walked ..) | some (.scanned ..) | some (.listed ..) | some (.rewalked ..) | some (.reconciled ..) => isTrue trivial

instance (s : BridgeState) (r : Option SyncRun) : Decidable (Settled s r) :=
  match r with
  | some (.reconciled _ files _) => inferInstanceAs (Decidable ((s.wiped = true → s.copy.isNone) ∧ ∀ q ∈ files.keys, q ∉ s.strays))
  | none | some (.walked ..) | some (.scanned ..) | some (.listed ..) | some (.merging _) | some (.rewalked ..) => isTrue trivial

instance (s : BridgeState) : (a : BridgeAction) → Decidable (s.Sound a)
  | .agentWrite path _ => inferInstanceAs (Decidable (s.copy.isNone → s.OnlyMisses [path]))
  | .agentMkdir _ => inferInstanceAs (Decidable (s.copy.isNone → s.OnlyMisses []))
  | .perform (.upload path) _ => inferInstanceAs (Decidable (s.copy.isNone → s.OnlyMisses [path]))
  | .perform (.deleteLocalDir d) _ => inferInstanceAs (Decidable (WalkedUnder s s.run d))
  | .store => inferInstanceAs (Decidable (Settled s s.run))
  | .userWrite .. | .userMkdir _ | .userDelete _ | .agentDelete _ | .wipe | .walk | .walkDirs | .list | .load .. | .perform (.copy _) _
  | .perform (.download _) _ | .perform (.deleteRemote _) _ | .perform (.deleteLocal _) _ | .perform (.deleteRemoteDir _) _
  | .perform (.createLocalDir _) _ | .swallow _ | .rewalk | .rewalkDirs | .stop => isTrue trivial

end BridgeState

namespace BridgeAux

open BridgeState

/-! ### Trees -/

variable {q : Path}

theorem mem_keys_filter {p : FileRow → Bool} {m : Manifest} :
    q ∈ (Table.filter p m).keys ↔ ∃ r ∈ m, p r = true ∧ r.path = q := by
  simp only [Table.mem_keys, Table.mem_filter, and_assoc]

variable {t : Tree} {p : Path} {e : Entry}

theorem mem_keys_write : q ∈ (t.write p e).files.keys ↔ q = p ∨ q ∈ t.files.keys :=
  Table.mem_keys_put

theorem mem_keys_remove : q ∈ (t.remove p).files.keys ↔ q ∈ t.files.keys ∧ ¬ p <+: q := by
  unfold Tree.remove
  rw [mem_keys_filter, Table.mem_keys]
  constructor
  · rintro ⟨r, hr, hp, rfl⟩
    exact ⟨⟨r, hr, rfl⟩, by simpa using hp⟩
  · rintro ⟨⟨r, hr, rfl⟩, hp⟩
    exact ⟨r, hr, by simpa using hp, rfl⟩

theorem mem_under : q ∈ t.under p ↔ q ∈ t.files.keys ∧ p <+: q := by
  simp [Tree.under, List.mem_filter]

theorem mem_under_or_remove (hq : q ∈ t.files.keys) : q ∈ t.under p ∨ q ∈ (t.remove p).files.keys := by
  by_cases hp : p <+: q
  · exact .inl (mem_under.mpr ⟨hq, hp⟩)
  · exact .inr (mem_keys_remove.mpr ⟨hq, hp⟩)

theorem wf_empty : Tree.empty.WF := by
  intro q hq
  obtain ⟨r, hr, _⟩ := Table.mem_keys.mp hq
  exact absurd hr (Table.not_mem_empty r)

theorem wf_write (h : t.WF) (p : Path) (e : Entry) : (t.write p e).WF := by
  intro q hq d hd
  rcases mem_keys_write.mp hq with rfl | hq
  · exact List.mem_union_iff.mpr (.inr hd)
  · exact List.mem_union_iff.mpr (.inl (h q hq d hd))

theorem wf_mkdir (h : t.WF) (d : Path) : (t.mkdir d).WF :=
  fun q hq d' hd' => List.mem_union_iff.mpr (.inl (h q hq d' hd'))

theorem wf_remove (h : t.WF) (p : Path) : (t.remove p).WF := by
  intro q hq d hd
  obtain ⟨hq, hp⟩ := mem_keys_remove.mp hq
  refine List.mem_filter.mpr ⟨h q hq d hd, ?_⟩
  have hnp : ¬ p <+: d := fun hpd => hp (hpd.trans (mem_parents.mp hd).2.2)
  simpa using hnp

/-! ### What the walk of the computer finds -/

theorem mem_walkLocal :
    q ∈ (walkLocal t).keys ↔ ∃ r ∈ t.files, r.path = q ∧ walks q = true ∧ oversized r.entry.size = false := by
  unfold walkLocal
  rw [mem_keys_filter]
  constructor
  · rintro ⟨r, hr, hp, rfl⟩
    simp only [Bool.and_eq_true, Bool.not_eq_true'] at hp
    exact ⟨r, hr, rfl, hp⟩
  · rintro ⟨r, hr, rfl, hp⟩
    exact ⟨r, hr, by simpa using hp, rfl⟩

theorem walks_of_mem_walkLocal (h : q ∈ (walkLocal t).keys) : walks q = true := by
  obtain ⟨_, _, _, hw, _⟩ := mem_walkLocal.mp h
  exact hw

theorem walkLocal_subset (h : q ∈ (walkLocal t).keys) : q ∈ t.files.keys := by
  obtain ⟨r, hr, rfl, _⟩ := mem_walkLocal.mp h
  exact Table.mem_keys_of_mem hr

theorem mem_walkLocal_write (h : q ∈ (walkLocal (t.write p e)).keys) :
    (q = p ∧ walks p = true ∧ oversized e.size = false) ∨ q ∈ (walkLocal t).keys := by
  obtain ⟨r, hr, rfl, hw, ho⟩ := mem_walkLocal.mp h
  rcases Table.mem_put.mp hr with rfl | ⟨hr, _⟩
  · exact .inl ⟨rfl, hw, ho⟩
  · exact .inr (mem_walkLocal.mpr ⟨r, hr, rfl, hw, ho⟩)

theorem mem_walkLocal_remove (h : q ∈ (walkLocal (t.remove p)).keys) : q ∈ (walkLocal t).keys := by
  obtain ⟨r, hr, rfl, hw⟩ := mem_walkLocal.mp h
  exact mem_walkLocal.mpr ⟨r, (Table.mem_filter.mp hr).1, rfl, hw⟩

theorem mem_walkLocal_removeFile (h : q ∈ (walkLocal (t.removeFile p)).keys) :
    q ∈ (walkLocal t).keys ∧ q ≠ p := by
  obtain ⟨r, hr, rfl, hw⟩ := mem_walkLocal.mp h
  obtain ⟨hr, hne⟩ := Table.mem_erase.mp hr
  exact ⟨mem_walkLocal.mpr ⟨r, hr, rfl, hw⟩, hne⟩

theorem not_mem_walkLocal_of_excluded (h : q ∈ walkExcluded t) : q ∉ (walkLocal t).keys := by
  intro hq
  obtain ⟨r, hr, hp, rfl⟩ := mem_keys_filter.mp h
  obtain ⟨r', hr', hk, _, ho⟩ := mem_walkLocal.mp hq
  rw [Table.eq_of_key hr' hr hk] at ho
  simp [ho] at hp

theorem entry_of_mem_walkLocal (h : q ∈ (walkLocal t).keys) (he : t.files.entry q = some e) :
    ignoredPath q = false ∧ oversized e.size = false := by
  obtain ⟨r, hr, rfl, hw, ho⟩ := mem_walkLocal.mp h
  refine ⟨ignoredPath_of_walks hw, ?_⟩
  have hg : Table.get t.files r.path = some r := Table.get_eq_some_iff.mpr ⟨hr, rfl⟩
  rw [Manifest.entry, hg] at he
  cases he
  exact ho

/-! ### What a listing accounts for -/

theorem mem_seen_of_mem (hq : q ∈ t.files.keys) (hi : ignoredPath q = false) :
    q ∈ (serverTree (some t)).seen := by
  obtain ⟨r, hr, rfl⟩ := Table.mem_keys.mp hq
  refine List.mem_append.mpr ?_
  cases ho : oversized r.entry.size with
  | false => exact .inl (mem_keys_filter.mpr ⟨r, hr, by simp [hi, ho], rfl⟩)
  | true => exact .inr (mem_keys_filter.mpr ⟨r, hr, by simp [hi, ho], rfl⟩)

theorem exists_of_mem_seen {copy : Option Tree} (hq : q ∈ (serverTree copy).seen) :
    ∃ t, copy = some t ∧ q ∈ t.files.keys := by
  cases copy with
  | none =>
    rcases List.mem_append.mp hq with hq | hq
    · obtain ⟨r, hr, _⟩ := Table.mem_keys.mp hq
      exact absurd hr (Table.not_mem_empty r)
    · exact absurd hq List.not_mem_nil
  | some t =>
    refine ⟨t, rfl, ?_⟩
    rcases List.mem_append.mp hq with hq | hq
    all_goals
      obtain ⟨r, hr, _, rfl⟩ := mem_keys_filter.mp hq
      exact Table.mem_keys_of_mem hr

/-! ### The invariant -/

/-- The path is in the copy, or was explicitly deleted since the running sync's listing, or the workspace was wiped since. -/
def Accounted (s : BridgeState) (q : Path) : Prop := s.wiped = true ∨ q ∈ s.since ∨ ∃ t, s.copy = some t ∧ q ∈ t.files.keys

/-- What the walk of the computer finds now it found before, or the running sync has not settled it. -/
def InView (s : BridgeState) (local_ : Manifest) : Prop := ∀ q ∈ (walkLocal s.disk).keys, q ∈ local_.keys ∨ q ∈ s.strays

/-- What a listing still says of the workspace: every file it accounts for is accounted for, with the directories it lies in. -/
structure ListingInv (s : BridgeState) (l : Listing) : Prop where
  seen : ∀ q ∈ l.seen, Accounted s q
  dirs : ∀ q ∈ l.seen, ∀ d ∈ parents q, ignoredPath d = false → d ∈ l.dirs
  stored : l.missing = false → ∀ q ∈ s.stored, q ∈ s.gone ∨ q ∈ l.seen

/-- What holds while a sync carries out its plan: every file it deletes was explicitly deleted, and every file of the computer is to be
uploaded, to be deleted, accounted for, or not settled. -/
structure MergeInv (s : BridgeState) (m : Merge) : Prop where
  base : ∀ q ∈ m.base.files.keys, q ∈ s.gone ∨ q ∈ m.remote.seen
  planned : m.plan = planSync m.local_ m.remote.files m.base.files m.excluded m.stamp
  excluded : ∀ q ∈ m.remote.excluded, q ∈ m.excluded
  settled : ∀ q ∈ (walkLocal s.disk).keys, q ∉ s.strays → .upload q ∈ m.todo ∨ .deleteLocal q ∈ m.todo ∨ Accounted s q
  deletes : ∀ q, .deleteLocal q ∈ m.todo → q ∈ s.gone
  dirs : ∀ d, .deleteLocalDir d ∈ m.todo → ∀ q ∈ m.local_.keys, d <+: q → q ≠ d → q ∈ s.gone
  uploads : ∀ q ∈ m.plan.upload, .upload q ∈ m.todo ∨ q ∈ m.sent

/-- What holds after the walk that ends a sync: the files found are settled and were uploaded. -/
structure DoneInv (s : BridgeState) (m : Merge) (files : Manifest) : Prop where
  settled : ∀ q ∈ files.keys, q ∉ s.strays → Accounted s q
  walks : ∀ q ∈ files.keys, ignoredPath q = false
  uploads : ∀ q ∈ m.plan.upload, q ∈ m.sent

/-- What holds at each stage of a sync. -/
def RunInv (s : BridgeState) : SyncRun → Prop
  | .walked local_ excluded => InView s local_ ∧ ∀ q ∈ excluded, q ∉ local_.keys
  | .scanned local_ excluded dirs =>
    InView s local_ ∧ (∀ q ∈ excluded, q ∉ local_.keys) ∧ ∀ d ∈ dirs, d ≠ [] ∧ ignoredPath d = false
  | .listed local_ excluded dirs remote =>
    InView s local_ ∧ (∀ q ∈ excluded, q ∉ local_.keys) ∧ (∀ d ∈ dirs, d ≠ [] ∧ ignoredPath d = false) ∧ ListingInv s remote
  | .merging m => MergeInv s m
  | .rewalked m files => DoneInv s m files
  | .reconciled m files _ => DoneInv s m files

/-- What holds at every point. The copy, where it is there, holds every file the stored ancestor lists but those explicitly deleted
since. -/
structure WorldInv (s : BridgeState) : Prop where
  wf : ∀ t, s.copy = some t → t.WF
  stored : ∀ t, s.copy = some t → ∀ q ∈ s.stored, q ∈ s.gone ∨ q ∈ t.files.keys
  walks : ∀ q ∈ s.stored, ignoredPath q = false
  listed : ∀ q ∈ s.stored, q ∈ s.listed
  revs : ∀ a, s.row = some a → 0 < a.rev
  explicit : ∀ d ∈ s.deleted, d.explicit = true

/-- The invariant: of the world, and of the sync that runs. -/
def Inv (s : BridgeState) : Prop := WorldInv s ∧ ∀ r, s.run = some r → RunInv s r

/-- What every step but the storing of an ancestor keeps of what was noted. -/
structure Notes (s s' : BridgeState) : Prop where
  gone : ∀ q ∈ s.gone, q ∈ s'.gone
  strays : ∀ q ∈ s.strays, q ∈ s'.strays
  accounted : ∀ q, Accounted s q → Accounted s' q

theorem Notes.refl (s : BridgeState) : Notes s s := ⟨fun _ h => h, fun _ h => h, fun _ h => h⟩

variable {s s' : BridgeState}

theorem Notes.of_eq (hcopy : s'.copy = s.copy) (hgone : s'.gone = s.gone) (hsince : s'.since = s.since)
    (hwiped : s'.wiped = s.wiped) (hstrays : ∀ q ∈ s.strays, q ∈ s'.strays) : Notes s s' := by
  refine ⟨fun q hq => hgone ▸ hq, hstrays, fun q hq => ?_⟩
  unfold Accounted
  rw [hcopy, hsince, hwiped]
  exact hq

/-- A step that keeps the notes and the stored ancestor, and brings no settled file of the computer into view, keeps what holds of the
running sync. -/
theorem RunInv.mono {r : SyncRun} (h : RunInv s r) (hn : Notes s s') (hst : s'.stored = s.stored)
    (hv : ∀ q ∈ (walkLocal s'.disk).keys, q ∈ (walkLocal s.disk).keys ∨ q ∈ s'.strays) : RunInv s' r := by
  have hview : ∀ local_, InView s local_ → InView s' local_ := by
    intro local_ hl q hq
    rcases hv q hq with hq | hq
    · exact (hl q hq).imp_right (hn.strays q)
    · exact .inr hq
  have hdone : ∀ m files, DoneInv s m files → DoneInv s' m files := by
    intro m files hd
    exact ⟨fun q hq hns => hn.accounted q (hd.settled q hq fun hs => hns (hn.strays q hs)), hd.walks, hd.uploads⟩
  cases r with
  | walked local_ excluded => exact ⟨hview _ h.1, h.2⟩
  | scanned local_ excluded dirs => exact ⟨hview _ h.1, h.2⟩
  | listed local_ excluded dirs remote =>
    obtain ⟨hl, hex, hd, hr⟩ := h
    refine ⟨hview _ hl, hex, hd, fun q hq => hn.accounted q (hr.seen q hq), hr.dirs, fun hm q hq => ?_⟩
    rw [hst] at hq
    exact (hr.stored hm q hq).imp_left (hn.gone q)
  | merging m =>
    have hm : MergeInv s m := h
    refine ⟨fun q hq => (hm.base q hq).imp_left (hn.gone q), hm.planned, hm.excluded, fun q hq hns => ?_,
      fun q hq => hn.gone q (hm.deletes q hq), fun d hd q hq hpre hne => hn.gone q (hm.dirs d hd q hq hpre hne), hm.uploads⟩
    rcases hv q hq with hq | hq
    · rcases hm.settled q hq fun hs => hns (hn.strays q hs) with hup | hdel | hacc
      · exact .inl hup
      · exact .inr (.inl hdel)
      · exact .inr (.inr (hn.accounted q hacc))
    · exact absurd hq hns
  | rewalked m files => exact hdone m files h
  | reconciled m files dirs => exact hdone m files h

/-! ### Writes and deletions in the workspace -/

theorem notes_writeInWorkspace (s : BridgeState) (p : Path) (e : Entry) : Notes s (s.writeInWorkspace p e) := by
  refine ⟨fun _ h => h, fun _ h => h, fun q h => ?_⟩
  rcases h with hw | hq | ⟨t, ht, hq⟩
  · exact .inl hw
  · exact .inr (.inl hq)
  · refine .inr (.inr ⟨t.write p e, ?_, mem_keys_write.mpr (.inr hq)⟩)
    simp [writeInWorkspace, ht]

theorem accounted_writeInWorkspace (s : BridgeState) (p : Path) (e : Entry) : Accounted (s.writeInWorkspace p e) p :=
  .inr (.inr ⟨_, rfl, mem_keys_write.mpr (.inl rfl)⟩)

theorem deleteInWorkspace_frame (s : BridgeState) (p : Path) :
    (s.deleteInWorkspace p).disk = s.disk ∧ (s.deleteInWorkspace p).row = s.row ∧ (s.deleteInWorkspace p).run = s.run ∧
      (s.deleteInWorkspace p).listed = s.listed ∧ (s.deleteInWorkspace p).strays = s.strays ∧
      (s.deleteInWorkspace p).wiped = s.wiped ∧ (s.deleteInWorkspace p).deleted = s.deleted := by
  unfold deleteInWorkspace
  split
  · exact ⟨rfl, rfl, rfl, rfl, rfl, rfl, rfl⟩
  · exact ⟨rfl, rfl, rfl, rfl, rfl, rfl, rfl⟩

theorem mem_or_noted (ht : s.copy = some t) (hq : q ∈ t.files.keys) :
    (q ∈ (s.deleteInWorkspace p).since ∧ (q ∈ s.listed → q ∈ (s.deleteInWorkspace p).gone)) ∨
      ∃ t', (s.deleteInWorkspace p).copy = some t' ∧ q ∈ t'.files.keys := by
  unfold deleteInWorkspace
  rw [ht]
  rcases mem_under_or_remove hq with hu | hr
  · refine .inl ⟨List.mem_append_right _ hu, fun hl => List.mem_append_right _ (List.mem_filter.mpr ⟨hu, ?_⟩)⟩
    simpa using hl
  · refine .inr ⟨t.remove p, if_neg ?_, hr⟩
    rintro rfl
    exact (mem_keys_remove.mp hr).2 List.nil_prefix

theorem copy_deleteInWorkspace {t' : Tree} (h : (s.deleteInWorkspace p).copy = some t') :
    ∃ t, s.copy = some t ∧ t' = t.remove p := by
  unfold deleteInWorkspace at h
  split at h
  · rename_i hn
    rw [hn] at h
    cases h
  · rename_i t ht
    refine ⟨t, ht, ?_⟩
    simp only at h
    split at h
    · cases h
    · exact (Option.some.inj h).symm

theorem notes_deleteInWorkspace (s : BridgeState) (p : Path) : Notes s (s.deleteInWorkspace p) := by
  obtain ⟨_, _, _, _, hstrays, hwiped, _⟩ := deleteInWorkspace_frame s p
  have hgone : ∀ q ∈ s.gone, q ∈ (s.deleteInWorkspace p).gone := by
    intro q hq
    unfold deleteInWorkspace
    split
    · exact hq
    · exact List.mem_append_left _ hq
  have hsince : ∀ q ∈ s.since, q ∈ (s.deleteInWorkspace p).since := by
    intro q hq
    unfold deleteInWorkspace
    split
    · exact hq
    · exact List.mem_append_left _ hq
  refine ⟨hgone, fun q hq => hstrays ▸ hq, fun q h => ?_⟩
  rcases h with hw | hq | ⟨t, ht, hq⟩
  · exact .inl (hwiped ▸ hw)
  · exact .inr (.inl (hsince q hq))
  · rcases mem_or_noted ht hq with hq | hq
    · exact .inr (.inl hq.1)
    · exact .inr (.inr hq)

theorem WorldInv.deleteInWorkspace (h : WorldInv s) (p : Path) : WorldInv (s.deleteInWorkspace p) := by
  obtain ⟨_, hrow, _, hlisted, _, _, hdeleted⟩ := deleteInWorkspace_frame s p
  have hst : (s.deleteInWorkspace p).stored = s.stored := by rw [BridgeState.stored, hrow, ← BridgeState.stored]
  refine ⟨fun t' ht' => ?_, fun t' ht' q hq => ?_, fun q hq => h.walks q (hst ▸ hq), fun q hq => ?_, fun a ha => h.revs a (hrow ▸ ha),
    fun d hd => h.explicit d (hdeleted ▸ hd)⟩
  · obtain ⟨t, ht, rfl⟩ := copy_deleteInWorkspace ht'
    exact wf_remove (h.wf t ht) p
  · rw [hst] at hq
    obtain ⟨t, ht, _⟩ := copy_deleteInWorkspace ht'
    rcases h.stored t ht q hq with hg | hf
    · exact .inl ((notes_deleteInWorkspace s p).gone q hg)
    · rcases mem_or_noted (p := p) ht hf with hn | ⟨t'', ht'', hf⟩
      · exact .inl (hn.2 (h.listed q hq))
      · rw [ht'] at ht''
        cases ht''
        exact .inr hf
  · rw [hst] at hq
    rw [hlisted]
    exact h.listed q hq

theorem WorldInv.writeInWorkspace (h : WorldInv s) (p : Path) (e : Entry)
    (hc : s.copy.isNone → s.OnlyMisses [p]) : WorldInv (s.writeInWorkspace p e) := by
  refine ⟨fun t' ht' => ?_, fun t' ht' q hq => ?_, h.walks, h.listed, h.revs, h.explicit⟩
  · cases ht'
    cases hcopy : s.copy with
    | none => exact wf_write wf_empty p e
    | some t => exact wf_write (h.wf t hcopy) p e
  · cases ht'
    have hst : q ∈ s.stored := hq
    cases hcopy : s.copy with
    | none =>
      rcases hc (by rw [hcopy]; rfl) q hst with hg | hp
      · exact .inl hg
      · exact .inr (mem_keys_write.mpr (.inl (List.mem_singleton.mp hp)))
    | some t => exact (h.stored t hcopy q hst).imp_right fun hf => mem_keys_write.mpr (.inr hf)

theorem WorldInv.of_eq (h : WorldInv s) (hcopy : s'.copy = s.copy) (hrow : s'.row = s.row)
    (hgone : s'.gone = s.gone) (hlisted : s'.listed = s.listed) (hexp : ∀ d ∈ s'.deleted, d.explicit = true) : WorldInv s' := by
  have hst : s'.stored = s.stored := by rw [BridgeState.stored, hrow, ← BridgeState.stored]
  refine ⟨fun t ht => h.wf t (hcopy ▸ ht), fun t ht q hq => ?_, fun q hq => h.walks q (hst ▸ hq), fun q hq => ?_,
    fun a ha => h.revs a (hrow ▸ ha), hexp⟩
  · rw [hgone]
    exact h.stored t (hcopy ▸ ht) q (hst ▸ hq)
  · rw [hlisted]
    exact h.listed q (hst ▸ hq)

theorem explicit_noteRemoved (h : WorldInv s) (paths : List Path) (hp : ∀ q ∈ paths, q ∈ s.gone) :
    ∀ d ∈ (s.noteRemoved paths).deleted, d.explicit = true := by
  intro d hd
  rcases List.mem_append.mp hd with hd | hd
  · exact h.explicit d hd
  · obtain ⟨q, hq, rfl⟩ := List.mem_map.mp hd
    simpa using hp q hq

/-! ### The operations of a sync -/

variable {m : Merge}

theorem MergeInv.advance (op : Op) {claimed sent : List Path} {todo : List Op}
    (hm : MergeInv s m) (hn : Notes s s') (hkeep : ∀ o ∈ m.todo, o ≠ op → o ∈ todo) (hnew : ∀ o ∈ todo, o ∈ m.todo ∨ ∃ q, o = .upload q)
    (hsent : ∀ q, q ∈ m.sent ∨ op = .upload q → q ∈ sent)
    (hset : ∀ q ∈ (walkLocal s'.disk).keys, q ∉ s'.strays →
      (q ∈ (walkLocal s.disk).keys ∧ op ≠ .upload q ∧ op ≠ .deleteLocal q) ∨ .upload q ∈ todo ∨ Accounted s' q) :
    MergeInv s' { m with claimed := claimed, todo := todo, sent := sent } := by
  refine ⟨fun q hq => (hm.base q hq).imp_left (hn.gone q), hm.planned, hm.excluded, fun q hq hns => ?_, fun q hq => ?_,
    fun d hd q hq hpre hne => ?_, fun q hq => ?_⟩
  · rcases hset q hq hns with ⟨hq, hup, hdel⟩ | hup | hacc
    · rcases hm.settled q hq fun hs => hns (hn.strays q hs) with h | h | h
      · exact .inl (hkeep _ h hup.symm)
      · exact .inr (.inl (hkeep _ h hdel.symm))
      · exact .inr (.inr (hn.accounted q h))
    · exact .inl hup
    · exact .inr (.inr hacc)
  · rcases hnew _ hq with hq | ⟨_, hq⟩
    · exact hn.gone q (hm.deletes q hq)
    · cases hq
  · rcases hnew _ hd with hd | ⟨_, hd⟩
    · exact hn.gone q (hm.dirs d hd q hq hpre hne)
    · cases hd
  · rcases hm.uploads q hq with h | h
    · by_cases ho : Op.upload q = op
      · exact .inr (hsent q (.inr ho.symm))
      · exact .inl (hkeep _ h ho)
    · exact .inr (hsent q (.inl h))

theorem MergeInv.advance_erase (op : Op) (hm : MergeInv s m) (hn : Notes s s')
    (hup : ∀ q, op ≠ .upload q) (hdel : ∀ q, op ≠ .deleteLocal q)
    (hset : ∀ q ∈ (walkLocal s'.disk).keys, q ∈ (walkLocal s.disk).keys ∨ Accounted s' q) :
    MergeInv s' { m with todo := m.todo.erase op } := by
  refine hm.advance op hn (fun o ho hne => (List.mem_erase_of_ne hne).mpr ho) (fun o ho => .inl (List.mem_of_mem_erase ho))
    (fun q hq => hq.resolve_right (hup q)) fun q hq _ => ?_
  rcases hset q hq with hq | hq
  · exact .inl ⟨hq, hup q, hdel q⟩
  · exact .inr (.inr hq)

theorem MergeInv.advance_local (op : Op) (hm : MergeInv s m) (hcopy : s'.copy = s.copy)
    (hgone : s'.gone = s.gone) (hsince : s'.since = s.since) (hwiped : s'.wiped = s.wiped) (hstrays : s'.strays = s.strays)
    (hup : ∀ q, op ≠ .upload q) (hdel : ∀ q, op ≠ .deleteLocal q)
    (hset : ∀ q ∈ (walkLocal s'.disk).keys, q ∈ (walkLocal s.disk).keys ∨ Accounted s' q) :
    MergeInv s' { m with todo := m.todo.erase op } :=
  hm.advance_erase op (Notes.of_eq hcopy hgone hsince hwiped fun _ hq => hstrays ▸ hq) hup hdel hset

theorem MergeInv.advance_deleteLocal (p : Path) (hm : MergeInv s m) (hn : Notes s s')
    (hset : ∀ q ∈ (walkLocal s'.disk).keys, q ∉ s'.strays → q ∈ (walkLocal s.disk).keys ∧ q ≠ p) :
    MergeInv s' { m with todo := m.todo.erase (.deleteLocal p) } := by
  refine hm.advance (.deleteLocal p) hn (fun o ho hne => (List.mem_erase_of_ne hne).mpr ho)
    (fun o ho => .inl (List.mem_of_mem_erase ho)) (fun q hq => hq.resolve_right nofun) fun q hq hns => ?_
  obtain ⟨hq, hne⟩ := hset q hq hns
  exact .inl ⟨hq, nofun, fun h => hne (Op.deleteLocal.inj h).symm⟩

theorem performOp_inv {m' : Merge} {op : Op} {mtime : Nat} (hw : WorldInv s) (hm : MergeInv s m)
    (hrun : s.run = some (.merging m)) (hready : op ∈ m.todo) (hok : s.Sound (.perform op mtime))
    (h : s.performOp m mtime op = some (s', m')) : WorldInv s' ∧ MergeInv s' m' := by
  cases op with
  | copy c =>
    simp only [performOp] at h
    split at h
    · rename_i keepAs entry _ _
      cases h
      refine ⟨hw.of_eq rfl rfl rfl rfl hw.explicit, ?_⟩
      refine MergeInv.advance (.copy c) hm (Notes.of_eq rfl rfl rfl rfl fun _ hq => hq)
        (fun o ho hne => List.mem_append_left _ ((List.mem_erase_of_ne hne).mpr ho)) (fun o ho => ?_)
        (fun q hq => hq.resolve_right nofun) fun q hq _ => ?_
      · rcases List.mem_append.mp ho with ho | ho
        · exact .inl (List.mem_of_mem_erase ho)
        · exact .inr ⟨keepAs, List.mem_singleton.mp ho⟩
      · rcases mem_walkLocal_write hq with ⟨rfl, _⟩ | hq
        · exact .inr (.inl (List.mem_append_right _ (List.mem_singleton.mpr rfl)))
        · exact .inl ⟨hq, nofun, nofun⟩
    · cases h
  | upload p =>
    simp only [performOp] at h
    split at h
    · cases h
    · rename_i entry hentry
      cases h
      have hkeep : ∀ o ∈ m.todo, o ≠ Op.upload p → o ∈ m.todo.erase (.upload p) := fun o ho hne => (List.mem_erase_of_ne hne).mpr ho
      have hnew : ∀ o ∈ m.todo.erase (.upload p), o ∈ m.todo ∨ ∃ q, o = .upload q := fun o ho => .inl (List.mem_of_mem_erase ho)
      have hsent : ∀ q, q ∈ m.sent ∨ Op.upload p = .upload q → q ∈ m.sent ++ [p] := by
        rintro q (hq | hq)
        · exact List.mem_append_left _ hq
        · cases hq
          exact List.mem_append_right _ (List.mem_singleton.mpr rfl)
      split
      · -- What the route drops the walk does not find.
        rename_i hdrop
        refine ⟨hw, MergeInv.advance (.upload p) hm (Notes.refl s) hkeep hnew hsent fun q hq _ => .inl ⟨hq, ?_, nofun⟩⟩
        rintro heq
        cases heq
        obtain ⟨hi, ho⟩ := entry_of_mem_walkLocal hq hentry
        simp [hi, ho] at hdrop
      · refine ⟨hw.writeInWorkspace p _ hok, ?_⟩
        refine MergeInv.advance (.upload p) hm (notes_writeInWorkspace s p _) hkeep hnew hsent fun q hq _ => ?_
        by_cases heq : p = q
        · subst heq
          exact .inr (.inr (accounted_writeInWorkspace s p _))
        · exact .inl ⟨hq, fun h => heq (Op.upload.inj h), nofun⟩
  | download p =>
    simp only [performOp] at h
    split at h
    · cases h
    · rename_i entry hentry
      cases h
      refine ⟨hw.of_eq rfl rfl rfl rfl hw.explicit, ?_⟩
      refine MergeInv.advance_local (.download p) hm rfl rfl rfl rfl rfl (fun _ => nofun) (fun _ => nofun) fun q hq => ?_
      rcases mem_walkLocal_write hq with ⟨rfl, _⟩ | hq
      · obtain ⟨t, ht, he⟩ := Option.bind_eq_some_iff.mp hentry
        exact .inr (.inr (.inr ⟨t, ht, Manifest.entry_isSome.mp (by rw [he]; rfl)⟩))
      · exact .inl hq
  | deleteRemote p =>
    cases h
    refine ⟨hw.deleteInWorkspace p, ?_⟩
    refine MergeInv.advance_erase _ hm (notes_deleteInWorkspace s p) (fun _ => nofun) (fun _ => nofun) fun q hq => .inl ?_
    rwa [(deleteInWorkspace_frame s p).1] at hq
  | deleteLocal p =>
    cases h
    have hexp := explicit_noteRemoved hw [p] fun q hq => List.mem_singleton.mp hq ▸ hm.deletes p hready
    split
    · refine ⟨hw.of_eq rfl rfl rfl rfl hexp, ?_⟩
      refine MergeInv.advance_deleteLocal p hm (Notes.of_eq rfl rfl rfl rfl fun _ hq => hq) fun q hq _ => ?_
      exact mem_walkLocal_removeFile hq
    · refine ⟨hw.of_eq rfl rfl rfl rfl hw.explicit, ?_⟩
      refine MergeInv.advance_deleteLocal p hm (Notes.of_eq rfl rfl rfl rfl fun _ hq => hq) fun q hq _ => ?_
      exact mem_walkLocal_removeFile hq
  | deleteRemoteDir d =>
    cases h
    refine ⟨hw.deleteInWorkspace d, ?_⟩
    refine MergeInv.advance_erase _ hm (notes_deleteInWorkspace s d) (fun _ => nofun) (fun _ => nofun) fun q hq => .inl ?_
    rwa [(deleteInWorkspace_frame s d).1] at hq
  | deleteLocalDir d =>
    cases h
    have hok : ∀ q ∈ s.disk.under d, q ≠ d ∧ q ∈ m.local_.keys := by
      simpa only [Sound, WalkedUnder, Settled, hrun] using hok
    have hgone : ∀ q ∈ s.disk.under d, q ∈ s.gone := by
      intro q hq
      obtain ⟨hne, hl⟩ := hok q hq
      exact hm.dirs d hready q hl (mem_under.mp hq).2 hne
    refine ⟨hw.of_eq rfl rfl rfl rfl (explicit_noteRemoved hw _ hgone), ?_⟩
    exact MergeInv.advance_local _ hm rfl rfl rfl rfl rfl (fun _ => nofun) (fun _ => nofun) fun q hq => .inl (mem_walkLocal_remove hq)
  | createLocalDir d =>
    cases h
    refine ⟨hw.of_eq rfl rfl rfl rfl hw.explicit, ?_⟩
    exact MergeInv.advance_local _ hm rfl rfl rfl rfl rfl (fun _ => nofun) (fun _ => nofun) fun q hq => .inl hq

theorem swallowOp_inv {m' : Merge} {op : Op} (hw : WorldInv s) (hm : MergeInv s m)
    (h : s.swallowOp m op = some (s', m')) : WorldInv s' ∧ MergeInv s' m' := by
  cases op with
  | deleteLocal p =>
    cases h
    refine ⟨hw.of_eq rfl rfl rfl rfl hw.explicit, ?_⟩
    refine MergeInv.advance_deleteLocal p hm (Notes.of_eq rfl rfl rfl rfl fun _ hq => List.mem_append_left _ hq) fun q hq hns => ?_
    refine ⟨hq, fun heq => ?_⟩
    subst heq
    exact hns (List.mem_append_right _ (List.mem_singleton.mpr rfl))
  | deleteLocalDir d | createLocalDir d =>
    cases h
    exact ⟨hw, MergeInv.advance_local _ hm rfl rfl rfl rfl rfl (fun _ => nofun) (fun _ => nofun) fun q hq => .inl hq⟩
  | copy _ | upload _ | download _ | deleteRemote _ | deleteRemoteDir _ => cases h

/-! ### The plan -/

/-- The ancestor a sync plans against lists only what the stored one did, and nothing over a missing copy. The load leaves the row as it
was, or resets it. -/
theorem of_loadAncestor {row row' : Option Ancestor} {readable missing : Bool} {base : Ancestor}
    (h : loadAncestor row readable missing = some (base, row')) :
    (∀ q ∈ base.files.keys, q ∈ (row.map fun a => a.files.keys).getD []) ∧ (missing = true → base.files.keys = []) ∧
      (row' = row ∨ row' = some (.empty (base.rev)) ∧ 0 < base.rev) := by
  have hstored : ∀ a, (if readable then some (row.getD (Ancestor.empty 0)) else none) = some a →
      ∀ q ∈ a.files.keys, q ∈ (row.map fun a => a.files.keys).getD [] := by
    intro a ha q hq
    obtain ⟨_, heq⟩ := Option.ite_none_right_eq_some.mp ha
    cases heq
    cases row with
    | none => exact absurd hq List.not_mem_nil
    | some a => exact hq
  unfold loadAncestor at h
  generalize (if readable then some (row.getD (Ancestor.empty 0)) else none) = stored at h hstored
  simp only at h
  split at h
  · obtain ⟨_, heq⟩ := Option.ite_none_right_eq_some.mp h
    cases heq
    exact ⟨fun q hq => absurd hq List.not_mem_nil, fun _ => rfl, .inr ⟨rfl, Nat.succ_pos _⟩⟩
  · rename_i hcond
    cases h
    refine ⟨fun q hq => ?_, fun hm => ?_, .inl rfl⟩
    · cases stored with
      | none => exact absurd hq List.not_mem_nil
      | some a => exact hstored a rfl q hq
    · subst hm
      cases stored with
      | none => simp at hcond
      | some a =>
        simp only [Option.any_some, Bool.true_and, Bool.not_eq_true', Bool.not_eq_false, Bool.and_eq_true,
          List.isEmpty_iff] at hcond
        exact hcond.1

section Plan

variable {local_ : Manifest} {excluded localDirs : List Path} {remote : Listing} {base : Ancestor} {stamp : String} {q d : Path}

theorem upload_mem_planMerge (h : q ∈ (planMerge local_ excluded localDirs remote base stamp).plan.upload) :
    .upload q ∈ (planMerge local_ excluded localDirs remote base stamp).todo := by
  have h' : q ∈ (planSync local_ remote.files base.files (excluded ++ remote.excluded) stamp).upload := h
  simp [planMerge, planOps, h']

theorem deleteLocal_mem_planMerge : .deleteLocal q ∈ (planMerge local_ excluded localDirs remote base stamp).todo ↔
    q ∈ (planMerge local_ excluded localDirs remote base stamp).plan.deleteLocal := by
  simp [planMerge, planOps]

theorem deleteLocalDir_mem_planMerge : .deleteLocalDir d ∈ (planMerge local_ excluded localDirs remote base stamp).todo ↔
    d ∈ (planMerge local_ excluded localDirs remote base stamp).dirPlan.deleteLocal := by
  simp [planMerge, planOps]

end Plan

theorem planMerge_inv {local_ : Manifest} {excluded localDirs : List Path} {remote : Listing} {base : Ancestor}
    {stamp : String} (hview : InView s local_) (hex : ∀ q ∈ excluded, q ∉ local_.keys)
    (hdirs : ∀ d ∈ localDirs, d ≠ [] ∧ ignoredPath d = false) (hl : ListingInv s remote)
    (hbase : ∀ q ∈ base.files.keys, q ∈ s.stored) (hmiss : remote.missing = true → base.files.keys = []) :
    MergeInv s (planMerge local_ excluded localDirs remote base stamp) := by
  have hgone : ∀ q ∈ base.files.keys, q ∈ s.gone ∨ q ∈ remote.seen := by
    intro q hq
    cases hm : remote.missing with
    | true => exact absurd (hmiss hm ▸ hq) List.not_mem_nil
    | false => exact hl.stored hm q (hbase q hq)
  -- What was walked and not listed was looked at: the planner uploads it or deletes it.
  have hplan : ∀ q ∈ local_.keys, q ∉ remote.seen →
      (q ∉ base.files.keys → q ∈ (planMerge local_ excluded localDirs remote base stamp).plan.upload) ∧
        (q ∈ base.files.keys → q ∈ (planMerge local_ excluded localDirs remote base stamp).plan.deleteLocal) := by
    intro q hq hns
    refine localOnly_planned hq (fun h => hns (List.mem_append_left _ h)) fun h => ?_
    rcases List.mem_append.mp h with h | h
    · exact hex q h hq
    · exact hns (List.mem_append_right _ h)
  refine ⟨hgone, rfl, fun q hq => List.mem_append_right _ hq, fun q hq hns => ?_, fun q hq => ?_, fun d hd q hq hpre hne => ?_,
    fun q hq => .inl (upload_mem_planMerge hq)⟩
  · have hq := (hview q hq).resolve_right hns
    by_cases hs : q ∈ remote.seen
    · exact .inr (.inr (hl.seen q hs))
    · by_cases hb : q ∈ base.files.keys
      · exact .inr (.inl (deleteLocal_mem_planMerge.mpr ((hplan q hq hs).2 hb)))
      · exact .inl (upload_mem_planMerge ((hplan q hq hs).1 hb))
  · obtain ⟨hne, hnr, hb⟩ := of_mem_deleteLocal (deleteLocal_mem_planMerge.mp hq)
    refine (hgone q hb).resolve_right fun hs => ?_
    rcases List.mem_append.mp hs with h | h
    · exact hnr h
    · exact hne (List.mem_append_right _ h)
  · obtain ⟨hdl, hdr, hkeep⟩ := of_mem_dirs_deleteLocal (deleteLocalDir_mem_planMerge.mp hd)
    obtain ⟨hd0, hdi⟩ := hdirs d hdl
    have hpar : d ∈ parents q := mem_parents.mpr ⟨hd0, hne.symm, hpre⟩
    have hns : q ∉ remote.seen := fun hs => hdr (hl.dirs q hs d hpar hdi)
    by_cases hb : q ∈ base.files.keys
    · exact (hgone q hb).resolve_right hns
    · -- A file to be uploaded keeps its directories.
      have hup := (hplan q hq hns).1 hb
      exact absurd hpar (hkeep q (List.mem_append_left _ (List.mem_append_left _ (List.mem_append_left _ hup))))

/-! ### Every step keeps the invariant -/

theorem Inv.env (h : Inv s) (hw : WorldInv s') (hrun : s'.run = s.run) (hrow : s'.row = s.row) (hn : Notes s s')
    (hv : ∀ q ∈ (walkLocal s'.disk).keys, q ∈ (walkLocal s.disk).keys ∨ q ∈ s'.strays) : Inv s' := by
  refine ⟨hw, fun r hr => ?_⟩
  rw [hrun] at hr
  exact (h.2 r hr).mono hn (by rw [BridgeState.stored, hrow, ← BridgeState.stored]) hv

theorem save_view (s : BridgeState) (p : Path) (e : Entry) :
    ∀ q ∈ (walkLocal (s.save p e).disk).keys, q ∈ (walkLocal s.disk).keys ∨ q ∈ (s.save p e).strays := by
  intro q hq
  rcases mem_walkLocal_write hq with ⟨rfl, hw, ho⟩ | hq
  · by_cases hin : q ∈ (walkLocal s.disk).keys
    · exact .inl hin
    · refine .inr ?_
      simp [save, hw, ho, hin]
  · exact .inl hq

theorem save_strays (s : BridgeState) (p : Path) (e : Entry) : ∀ q ∈ s.strays, q ∈ (s.save p e).strays := by
  intro q hq
  simp only [save]
  split
  · exact List.mem_append_left _ hq
  · exact hq

/-- A directory made in the workspace keeps the invariant of the world, unless it makes the copy anew without the files the ancestor
lists. -/
theorem world_agentMkdir (h : WorldInv s) (d : Path) (hc : s.copy.isNone → s.OnlyMisses []) :
    WorldInv { s with copy := some ((s.copy.getD .empty).mkdir d) } := by
  refine ⟨fun t' ht' => ?_, fun t' ht' q hq => ?_, h.walks, h.listed, h.revs, h.explicit⟩
  · cases ht'
    cases hcopy : s.copy with
    | none => exact wf_mkdir wf_empty d
    | some t => exact wf_mkdir (h.wf t hcopy) d
  · cases ht'
    cases hcopy : s.copy with
    | none => exact .inl ((hc (by rw [hcopy]; rfl) q hq).resolve_right List.not_mem_nil)
    | some t => exact h.stored t hcopy q hq

theorem notes_agentMkdir (s : BridgeState) (d : Path) : Notes s { s with copy := some ((s.copy.getD .empty).mkdir d) } := by
  refine ⟨fun _ h => h, fun _ h => h, fun q h => ?_⟩
  rcases h with hw | hq | ⟨t, ht, hq⟩
  · exact .inl hw
  · exact .inr (.inl hq)
  · refine .inr (.inr ⟨t.mkdir d, ?_, hq⟩)
    simp [ht]

theorem serverTree_inv (hw : WorldInv s) : ListingInv { s with since := [], wiped := false } (serverTree s.copy) := by
  refine ⟨fun q hq => .inr (.inr (exists_of_mem_seen hq)), fun q hq d hd hi => ?_, fun hm q hq => ?_⟩
  · obtain ⟨t, ht, hf⟩ := exists_of_mem_seen hq
    rw [ht]
    exact List.mem_filter.mpr ⟨hw.wf t ht q hf d hd, by simp [hi]⟩
  · cases hcopy : s.copy with
    | none =>
      rw [hcopy] at hm
      cases hm
    | some t => exact (hw.stored t hcopy q hq).imp_right fun hf => mem_seen_of_mem hf (hw.walks q hq)

theorem recordAncestor_inv {files : Manifest} (dirs : List Path) (hw : WorldInv s) (hd : DoneInv s m files)
    (hwiped : s.wiped = true → s.copy.isNone) (hns : ∀ q ∈ files.keys, q ∉ s.strays) :
    WorldInv (s.recordAncestor { rev := m.base.rev + 1, files, dirs }) := by
  refine ⟨hw.wf, fun t ht q hq => ?_, hd.walks, fun q hq => List.mem_append_right _ hq, fun a ha => ?_, hw.explicit⟩
  · have hcopy : s.copy = some t := ht
    have hq : q ∈ files.keys := hq
    rcases hd.settled q hq (hns q hq) with hwp | hs | ⟨t', ht', hf⟩
    · have hnone := hwiped hwp
      rw [hcopy] at hnone
      cases hnone
    · exact .inl (List.mem_append_right _ (List.mem_filter.mpr ⟨hs, by simpa using hq⟩))
    · rw [hcopy] at ht'
      cases ht'
      exact .inr hf
  · cases ha
    exact Nat.succ_pos _

theorem inv_step {a : BridgeAction} (h : Inv s) (hok : s.Sound a) (hs : s.step a = some s') :
    Inv s' := by
  obtain ⟨hw, hr⟩ := h
  have hfix : ∀ q ∈ (walkLocal s.disk).keys, q ∈ (walkLocal s.disk).keys ∨ q ∈ s.strays := fun q hq => .inl hq
  cases a with
  | userWrite p e =>
    cases hs
    exact Inv.env ⟨hw, hr⟩ (hw.of_eq rfl rfl rfl rfl hw.explicit) rfl rfl (Notes.of_eq rfl rfl rfl rfl (save_strays s p e))
      (save_view s p e)
  | userMkdir d =>
    cases hs
    exact Inv.env ⟨hw, hr⟩ (hw.of_eq rfl rfl rfl rfl hw.explicit) rfl rfl (Notes.of_eq rfl rfl rfl rfl fun _ hq => hq) hfix
  | userDelete p =>
    cases hs
    exact Inv.env ⟨hw, hr⟩ (hw.of_eq rfl rfl rfl rfl hw.explicit) rfl rfl (Notes.of_eq rfl rfl rfl rfl fun _ hq => hq)
      fun q hq => .inl (mem_walkLocal_remove hq)
  | agentWrite p e =>
    cases hs
    exact Inv.env ⟨hw, hr⟩ (hw.writeInWorkspace p e hok) rfl rfl (notes_writeInWorkspace s p e) hfix
  | agentMkdir d =>
    cases hs
    exact Inv.env ⟨hw, hr⟩ (world_agentMkdir hw d hok) rfl rfl (notes_agentMkdir s d) hfix
  | agentDelete p =>
    cases hs
    obtain ⟨hdisk, hrow, hrun, _⟩ := deleteInWorkspace_frame s p
    refine Inv.env ⟨hw, hr⟩ (hw.deleteInWorkspace p) hrun hrow (notes_deleteInWorkspace s p) fun q hq => .inl ?_
    rwa [hdisk] at hq
  | wipe =>
    cases hs
    exact Inv.env ⟨hw, hr⟩ ⟨fun _ ht => (by cases ht), fun _ ht => (by cases ht), hw.walks, hw.listed, hw.revs, hw.explicit⟩ rfl rfl
      ⟨fun _ hq => hq, fun _ hq => hq, fun _ _ => .inl rfl⟩ hfix
  | walk =>
    simp only [step] at hs
    split at hs
    · cases hs
      refine ⟨hw.of_eq rfl rfl rfl rfl hw.explicit, fun r hr => ?_⟩
      cases hr
      exact ⟨fun q hq => .inl hq, fun q hq => not_mem_walkLocal_of_excluded hq⟩
    · cases hs
  | walkDirs =>
    simp only [step] at hs
    split at hs
    · rename_i local_ excluded hrun
      cases hs
      obtain ⟨hview, hex⟩ : InView s local_ ∧ ∀ q ∈ excluded, q ∉ local_.keys := hr _ hrun
      refine ⟨hw.of_eq rfl rfl rfl rfl hw.explicit, fun r hr => ?_⟩
      cases hr
      refine ⟨hview, hex, fun d hd => ?_⟩
      have hd := (List.mem_filter.mp hd).2
      simp only [decide_not, Bool.and_eq_true, Bool.not_eq_true', decide_eq_false_iff_not] at hd
      exact ⟨hd.1, ignoredPath_of_walks hd.2⟩
    · cases hs
  | list =>
    simp only [step] at hs
    split at hs
    · rename_i local_ excluded dirs hrun
      cases hs
      obtain ⟨hview, hex, hdirs⟩ := show RunInv s (.scanned local_ excluded dirs) from hr _ hrun
      refine ⟨hw.of_eq rfl rfl rfl rfl hw.explicit, fun r hr => ?_⟩
      cases hr
      have hl := serverTree_inv hw
      exact ⟨hview, hex, hdirs, hl.seen, hl.dirs, hl.stored⟩
    · cases hs
  | load readable stamp =>
    simp only [step] at hs
    split at hs
    · rename_i local_ excluded dirs remote hrun
      split at hs
      · rename_i base row' hload
        cases hs
        obtain ⟨hview, hex, hdirs, hl⟩ := show RunInv s (.listed local_ excluded dirs remote) from hr _ hrun
        obtain ⟨hbase, hmiss, hrow⟩ := of_loadAncestor hload
        have hm : MergeInv s (planMerge local_ excluded dirs remote base stamp) := planMerge_inv hview hex hdirs hl hbase hmiss
        refine ⟨?_, fun r hr => ?_⟩
        · rcases hrow with rfl | ⟨rfl, hpos⟩
          · exact hw.of_eq rfl rfl rfl rfl hw.explicit
          · refine ⟨hw.wf, fun _ _ q hq => absurd hq List.not_mem_nil, fun q hq => absurd hq List.not_mem_nil,
              fun q hq => absurd hq List.not_mem_nil, fun a ha => ?_, hw.explicit⟩
            cases ha
            exact hpos
        · cases hr
          exact ⟨hm.base, hm.planned, hm.excluded, hm.settled, hm.deletes, hm.dirs, hm.uploads⟩
      · cases hs
    · cases hs
  | perform op mtime =>
    simp only [step] at hs
    split at hs
    · rename_i m hrun
      split at hs
      · rename_i hready
        obtain ⟨⟨s₁, m₁⟩, hop, rfl⟩ := Option.map_eq_some_iff.mp hs
        obtain ⟨hw₁, hm₁⟩ := performOp_inv hw (hr _ hrun) hrun hready.1 hok hop
        refine ⟨hw₁.of_eq rfl rfl rfl rfl hw₁.explicit, fun r hr => ?_⟩
        cases hr
        exact ⟨hm₁.base, hm₁.planned, hm₁.excluded, hm₁.settled, hm₁.deletes, hm₁.dirs, hm₁.uploads⟩
      · cases hs
    · cases hs
  | swallow op =>
    simp only [step] at hs
    split at hs
    · rename_i m hrun
      split at hs
      · obtain ⟨⟨s₁, m₁⟩, hop, rfl⟩ := Option.map_eq_some_iff.mp hs
        obtain ⟨hw₁, hm₁⟩ := swallowOp_inv hw (hr _ hrun) hop
        refine ⟨hw₁.of_eq rfl rfl rfl rfl hw₁.explicit, fun r hr => ?_⟩
        cases hr
        exact ⟨hm₁.base, hm₁.planned, hm₁.excluded, hm₁.settled, hm₁.deletes, hm₁.dirs, hm₁.uploads⟩
      · cases hs
    · cases hs
  | rewalk =>
    simp only [step] at hs
    split at hs
    · rename_i m hrun
      split at hs
      · rename_i hdone
        cases hs
        have hm : MergeInv s m := hr _ hrun
        refine ⟨hw.of_eq rfl rfl rfl rfl hw.explicit, fun r hr => ?_⟩
        cases hr
        refine ⟨fun q hq hns => ?_, fun q hq => ignoredPath_of_walks (walks_of_mem_walkLocal hq), fun q hq => ?_⟩
        · rcases hm.settled q hq hns with h | h | h
          · exact absurd (hdone ▸ h) List.not_mem_nil
          · exact absurd (hdone ▸ h) List.not_mem_nil
          · exact h
        · rcases hm.uploads q hq with h | h
          · exact absurd (hdone ▸ h) List.not_mem_nil
          · exact h
      · cases hs
    · cases hs
  | rewalkDirs =>
    simp only [step] at hs
    split at hs
    · rename_i m files hrun
      cases hs
      have hd : DoneInv s m files := hr _ hrun
      refine ⟨hw.of_eq rfl rfl rfl rfl hw.explicit, fun r hr => ?_⟩
      cases hr
      exact ⟨hd.settled, hd.walks, hd.uploads⟩
    · cases hs
  | store =>
    simp only [step] at hs
    split at hs
    · rename_i m files dirs hrun
      split at hs
      · cases hs
        obtain ⟨hwiped, hns⟩ : (s.wiped = true → s.copy.isNone) ∧ ∀ q ∈ files.keys, q ∉ s.strays := by
          simpa only [Sound, WalkedUnder, Settled, hrun] using hok
        have hd : DoneInv s m files := hr _ hrun
        have hrec := recordAncestor_inv dirs hw hd hwiped hns
        exact ⟨hrec.of_eq rfl rfl rfl rfl hrec.explicit, fun r hr => by cases hr⟩
      · cases hs
    · cases hs
  | stop =>
    cases hs
    exact ⟨hw.of_eq rfl rfl rfl rfl hw.explicit, fun r hr => by cases hr⟩

theorem inv_initial : Inv BridgeState.initial :=
  ⟨⟨nofun, nofun, nofun, nofun, nofun, nofun⟩, nofun⟩

theorem Inv.wipeSafe (h : Inv s) : s.WipeSafe := by
  refine ⟨h.1.explicit, fun m hm q hq hnr hex hng => ?_, fun m files dirs hm => ?_⟩
  · have hi : MergeInv s m := h.2 _ hm
    rw [hi.planned]
    refine (localOnly_planned hq hnr hex).1 fun hb => ?_
    rcases hi.base q hb with hg | hs
    · exact hng hg
    · rcases List.mem_append.mp hs with h | h
      · exact hnr h
      · exact hex (hi.excluded q h)
  · have hi : DoneInv s m files := h.2 _ hm
    exact hi.uploads

end BridgeAux

namespace BridgeState

open BridgeAux

/-- In every run whose steps are sound, syncs delete on the computer only what was explicitly deleted in the workspace since the last
sync that stored an ancestor listing it, and what a wipe took away is uploaded again. -/
theorem wipe_never_deletes_of_sound {s : BridgeState} (h : Steps.Reaches step Sound initial s) : s.WipeSafe := by
  have hinv : Inv s := h.invariant (fun _ _ _ hx hok hy => inv_step hx hok hy) inv_initial
  exact hinv.wipeSafe

/-- A sound run in which the agent deletes a file, the next sync deletes it on the computer, and after a wipe the other file is uploaded
again. -/
theorem wipe_never_deletes_reuploaded :
    ∃ s : BridgeState, s.WipeSafe ∧ s.deleted = [⟨["a"], true⟩] ∧ s.copy.any fun t => decide (t.files.keys = [["b"]]) := by
  obtain ⟨s, hs, hd⟩ := Steps.exists_of_execOk step Sound initial
    [.userWrite ["a"] ⟨1, 10, some 1⟩, .userWrite ["b"] ⟨1, 20, some 2⟩, .walk, .walkDirs, .list, .load true "1",
      .perform (.upload ["a"]) 2, .perform (.upload ["b"]) 2, .rewalk, .rewalkDirs, .store, .agentDelete ["a"], .walk, .walkDirs, .list,
      .load true "2", .perform (.deleteLocal ["a"]) 3, .rewalk, .rewalkDirs, .store, .wipe, .walk, .walkDirs, .list, .load true "3",
      .perform (.upload ["b"]) 4]
    (P := fun s : BridgeState => s.deleted = [⟨["a"], true⟩] ∧ s.copy.any (fun t => decide (t.files.keys = [["b"]])) = true) (by decide)
  exact ⟨s, wipe_never_deletes_of_sound hs, hd⟩

/-- The promise fails: a sync uploads a file and stores the ancestor that lists it, the workspace is wiped, the agent writes another file
of the folder, and the next sync deletes the first file on the computer. -/
theorem wipe_never_deletes_false : ¬ ∀ s : BridgeState, Steps.Reaches step Steps.Free initial s → s.WipeSafe := by
  intro h
  obtain ⟨s, hs, d, hd, he⟩ := Steps.exists_of_exec step initial
    [.userWrite ["a"] ⟨1, 10, some 1⟩, .walk, .walkDirs, .list, .load true "1", .perform (.upload ["a"]) 2, .rewalk, .rewalkDirs, .store,
      .wipe, .agentWrite ["c"] ⟨3, 5, some 2⟩, .walk, .walkDirs, .list, .load true "2", .perform (.download ["c"]) 4,
      .perform (.deleteLocal ["a"]) 5]
    (P := fun s : BridgeState => ∃ d ∈ s.deleted, d.explicit = false) (by decide)
  have := (h s hs).deletes d hd
  rw [he] at this
  cases this

end BridgeState

end Capka

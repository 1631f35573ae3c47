import Capka.Bridge.Lease

/-!
# Fencing of a folder

A token that is not the last one granted is dead for good: the lease in the row is always the last grant, and the renewal and the
ancestor's swap match it. The revision does as much for the ancestor as the writers let it: the swap compares the stored revision with
the one expected, and stores whatever revision the body brings. Where every body brings the next one, a revision that was read once and
is still there says that nothing was written in between.
-/

namespace Capka

namespace FolderState

/-- The token is the live lease of the folder. -/
def Live (s : FolderState) (id token : Nat) : Prop := ∃ r ∈ s.rows, r.id = id ∧ r.liveLease token s.now = true

/-- Another token was granted on the folder after this one. -/
def Superseded (s : FolderState) (id token : Nat) : Prop :=
  ∃ before after, s.granted id = before ++ token :: after ∧ after ≠ []

/-- The text of a folder's revision. -/
def revOf (s : FolderState) (id : Nat) : Option String := (s.rows.get id).map FolderRow.rev

/-- What a request that succeeds must respect. A token it names was not superseded; an upload names the lease that is live; a swap that
expects a revision moves the ancestor from it to the next, with nothing written since any read that saw it. -/
def Upholds (s t : FolderState) : FolderAct → Prop
  | .renew id _ token _ => ¬s.Superseded id token
  | .put id _ token expectedRev _ _ =>
    ¬s.Superseded id token ∧
      ∀ n ∈ expectedRev, s.revOf id = some (Nat.repr n) ∧ t.revOf id = some (Nat.repr (n + 1)) ∧
        ∀ q ∈ s.reads, q.folderId = id → q.rev = Nat.repr n → q.writes = s.writesOf id
  | .upload sessionKey name lease =>
    ∀ r ∈ s.rows, r.sessionKey = sessionKey → r.name = name → ∀ token, s.Live r.id token → lease = some token
  | _ => True

/-- The bodies of a sound run. A swap that expects a revision brings the next; one that expects none brings a later one than is there. -/
def NextRev (s : FolderState) (id : Nat) (expectedRev : Option Nat) (state : StoredState) : Prop :=
  match expectedRev with
  | some n => state.rev = some (Nat.repr (n + 1))
  | none => ∃ n m, s.revOf id = some (Nat.repr n) ∧ state.rev = some (Nat.repr m) ∧ n < m

/-- The steps of a sound run. -/
def Sound (s : FolderState) : FolderAct → Prop
  | .put id _ _ expectedRev state _ => s.NextRev id expectedRev state
  | _ => True

end FolderState

namespace FolderAux

open FolderState

/-! ### Rows -/

variable {s : FolderState} {id : Nat} {caller : Caller} {r : FolderRow}

theorem owned_eq (h : s.owned id caller = some r) :
    s.rows.get id = some r := by
  rw [owned, Option.filter_eq_some_iff] at h
  exact h.1

theorem mem_of_get {T : FolderRows} (h : T.get id = some r) : r ∈ T ∧ r.id = id :=
  Table.get_eq_some_iff.mp h

variable {token : Nat}

theorem lease_of_liveLease {now : Nat} (h : r.liveLease token now = true) :
    ∃ l, r.syncLease = some l ∧ l.token = token ∧ now < l.expiresAt := by
  unfold FolderRow.liveLease at h
  split at h
  · rename_i l hl
    simp only [Bool.and_eq_true, decide_eq_true_eq] at h
    exact ⟨l, hl, h.1, h.2⟩
  · cases h

theorem lease_of_holds (h : r.holds token = true) : ∃ l, r.syncLease = some l ∧ l.token = token := by
  unfold FolderRow.holds at h
  split at h
  · rename_i l hl
    exact ⟨l, hl, by simpa using h⟩
  · cases h

/-! ### The invariant -/

/-- A revision that was read, against the one that is there: it is no later, and if it is the same, nothing was written since. -/
def Unmoved (s : FolderState) (id n : Nat) : Prop :=
  ∀ q ∈ s.reads, q.folderId = id → ∃ m, q.rev = Nat.repr m ∧ m ≤ n ∧ (m = n → q.writes = s.writesOf id)

/-- The invariant: the lease in a row is the last grant, no token was granted twice, what is on record is about folders that were
attached, and the revisions only rise. -/
structure Inv (s : FolderState) : Prop where
  lease : ∀ r ∈ s.rows, ∀ l, r.syncLease = some l → (s.granted r.id).getLast? = some l.token
  once : (s.grants.map Prod.snd).Nodup
  rows : ∀ r ∈ s.rows, r.id ∈ s.attached
  reads : ∀ q ∈ s.reads, q.folderId ∈ s.attached
  revs : ∀ r ∈ s.rows, ∃ n, r.rev = Nat.repr n ∧ Unmoved s r.id n

theorem granted_nodup (hI : Inv s) (id : Nat) : (s.granted id).Nodup :=
  hI.once.sublist (List.filter_sublist.map Prod.snd)

theorem not_superseded (hI : Inv s) (hr : r ∈ s.rows) {l : SyncLease} (hl : r.syncLease = some l) :
    ¬s.Superseded r.id l.token := by
  rintro ⟨before, after, heq, hne⟩
  have hlast := hI.lease r hr l hl
  have hnodup := granted_nodup hI r.id
  rw [heq] at hlast hnodup
  rw [List.getLast?_append_of_ne_nil _ (List.cons_ne_nil _ _), List.getLast?_cons, Option.some.injEq] at hlast
  have hmem : l.token ∈ after := by
    cases hlast' : after.getLast? with
    | none => exact absurd (List.getLast?_eq_none_iff.mp hlast') hne
    | some x =>
      rw [hlast', Option.getD_some] at hlast
      exact hlast ▸ List.mem_of_getLast? hlast'
  exact (List.nodup_cons.mp (List.nodup_append.mp hnodup).2.1).1 hmem

theorem live_unique {token' : Nat} (h : s.Live id token) (h' : s.Live id token') : token = token' := by
  obtain ⟨r, hr, hid, hl⟩ := h
  obtain ⟨r', hr', hid', hl'⟩ := h'
  obtain ⟨l, hlease, htok, _⟩ := lease_of_liveLease hl
  obtain ⟨l', hlease', htok', _⟩ := lease_of_liveLease hl'
  rw [Table.eq_of_key hr hr' (hid.trans hid'.symm), hlease'] at hlease
  cases hlease
  exact htok.symm.trans htok'

/-! ### Steps -/

variable {t : FolderState}

theorem inv_frame (hI : Inv s) (hg : t.grants = s.grants) (hw : t.writes = s.writes) (hq : t.reads = s.reads)
    (ha : t.attached = s.attached)
    (hrows : ∀ r ∈ t.rows, ∃ r₀ ∈ s.rows, r₀.id = r.id ∧ r.rev = r₀.rev ∧
      ∀ l, r.syncLease = some l → ∃ l₀, r₀.syncLease = some l₀ ∧ l₀.token = l.token) : Inv t := by
  refine ⟨fun r hr l hl => ?_, hg ▸ hI.once, fun r hr => ?_, fun q h => ?_, fun r hr => ?_⟩
  · obtain ⟨r₀, hr₀, hid, _, hlease⟩ := hrows r hr
    obtain ⟨l₀, hl₀, htok⟩ := hlease l hl
    rw [granted, hg, ← hid, ← htok]
    exact hI.lease r₀ hr₀ l₀ hl₀
  · obtain ⟨r₀, hr₀, hid, _⟩ := hrows r hr
    rw [ha, ← hid]
    exact hI.rows r₀ hr₀
  · rw [ha]
    exact hI.reads q (hq ▸ h)
  · obtain ⟨r₀, hr₀, hid, hrev, _⟩ := hrows r hr
    obtain ⟨n, hn, hun⟩ := hI.revs r₀ hr₀
    refine ⟨n, hrev.trans hn, fun q h hf => ?_⟩
    obtain ⟨m, hm, hle, hsame⟩ := hun q (hq ▸ h) (hf.trans hid.symm)
    refine ⟨m, hm, hle, fun heq => ?_⟩
    rw [writesOf, hw, ← hid]
    exact hsame heq

theorem inv_attach {userId sessionKey : Nat} {name : String} (hI : Inv s)
    (h : s.attach id userId sessionKey name = some t) : Inv t := by
  rw [attach, Option.ite_none_left_eq_some] at h
  obtain ⟨hfree, h⟩ := h
  obtain ⟨rows, hins, rfl⟩ := Option.map_eq_some_iff.mp h
  have hnew : id ∉ s.attached := fun hin => hfree (.inl hin)
  refine ⟨fun r hr l hl => ?_, hI.once, fun r hr => ?_, fun q hq => List.mem_append_left _ (hI.reads q hq), fun r hr => ?_⟩
  · rcases (Table.mem_of_insert hins).mp hr with hr | rfl
    · exact hI.lease r hr l hl
    · cases hl
  · rcases (Table.mem_of_insert hins).mp hr with hr | rfl
    · exact List.mem_append_left _ (hI.rows r hr)
    · exact List.mem_append_right _ (List.mem_singleton.mpr rfl)
  · rcases (Table.mem_of_insert hins).mp hr with hr | rfl
    · exact hI.revs r hr
    · refine ⟨0, rfl, fun q hq hf => ?_⟩
      have hid : q.folderId = id := hf
      exact absurd (hid ▸ hI.reads q hq) hnew

variable {started : Nat}

theorem inv_acquire {expiresAt : Nat} (hI : Inv s)
    (h : s.acquire id caller token expiresAt started = some t) : Inv t := by
  obtain ⟨r₁, hr₁, h⟩ := Option.bind_eq_some_iff.mp h
  rw [Option.ite_none_right_eq_some] at h
  obtain ⟨⟨hfresh, _⟩, h⟩ := h
  cases h
  have hself : ∀ r ∈ s.rows, r.id ≠ id → FolderState.granted { s with grants := s.grants ++ [(id, token)] } r.id = s.granted r.id := by
    intro r _ hne
    simp [granted, List.filter_append, Ne.symm hne]
  have hmod : ∀ r ∈ s.rows.modify id (FolderRow.setLease (some { token, expiresAt })) (FolderRow.setLease_id _),
      (∃ r₀ ∈ s.rows, r₀.id = id ∧ r = r₀.setLease (some { token, expiresAt })) ∨ (r ∈ s.rows ∧ r.id ≠ id) :=
    fun r hr => Table.mem_modify.mp hr
  refine ⟨fun r hr l hl => ?_, ?_, fun r hr => ?_, hI.reads, fun r hr => ?_⟩
  · rcases hmod r hr with ⟨r₀, hr₀, hid, rfl⟩ | ⟨hr, hne⟩
    · cases hl
      rw [FolderRow.setLease_id, hid]
      simp [granted, List.filter_append]
    · exact (congrArg List.getLast? (hself r hr hne)).trans (hI.lease r hr l hl)
  · rw [List.map_append, List.nodup_append]
    refine ⟨hI.once, List.nodup_singleton _, fun x hx y hy => ?_⟩
    rw [List.map_singleton, List.mem_singleton] at hy
    subst hy
    rintro rfl
    exact hfresh hx
  · rcases hmod r hr with ⟨r₀, hr₀, _, rfl⟩ | ⟨hr, _⟩
    · exact hI.rows r₀ hr₀
    · exact hI.rows r hr
  · rcases hmod r hr with ⟨r₀, hr₀, _, rfl⟩ | ⟨hr, _⟩
    · exact hI.revs r₀ hr₀
    · exact hI.revs r hr

theorem inv_read (hI : Inv s) (h : s.read id caller = some t) : Inv t := by
  obtain ⟨r₁, hown, rfl⟩ := Option.map_eq_some_iff.mp h
  obtain ⟨hr₁, hid₁⟩ := mem_of_get (owned_eq hown)
  refine ⟨hI.lease, hI.once, hI.rows, fun q hq => ?_, fun r hr => ?_⟩
  · rcases List.mem_append.mp hq with hq | hq
    · exact hI.reads q hq
    · rw [List.mem_singleton] at hq
      subst hq
      exact hid₁ ▸ hI.rows r₁ hr₁
  · obtain ⟨n, hn, hun⟩ := hI.revs r hr
    refine ⟨n, hn, fun q hq hf => ?_⟩
    rcases List.mem_append.mp hq with hq | hq
    · exact hun q hq hf
    · rw [List.mem_singleton] at hq
      subst hq
      have hsame : r₁ = r := Table.eq_of_key hr₁ hr (hid₁.trans hf)
      refine ⟨n, hsame ▸ hn, Nat.le_refl n, fun _ => ?_⟩
      rw [← hf]
      rfl

variable {expectedRev : Option Nat} {state : StoredState}

theorem next_of_sound {n : Nat}
    (hget : s.rows.get id = some r) (hn : r.rev = Nat.repr n) (hexp : ∀ k ∈ expectedRev, r.rev = Nat.repr k)
    (hok : s.NextRev id expectedRev state) : ∃ m, state.rev = some (Nat.repr m) ∧ n < m := by
  cases expectedRev with
  | some k =>
    have hk : n = k := Nat.repr_injective (hn.symm.trans (hexp k rfl))
    exact ⟨k + 1, hok, by omega⟩
  | none =>
    obtain ⟨k, m, hk, hm, hlt⟩ := hok
    rw [revOf, hget, Option.map_some, Option.some.injEq, hn] at hk
    exact ⟨m, hm, Nat.repr_injective hk ▸ hlt⟩

theorem put_cases
    (h : s.put id caller token expectedRev state started = some t) :
    ∃ r, s.rows.get id = some r ∧ r.liveLease token started = true ∧ (∀ k ∈ expectedRev, r.rev = Nat.repr k) ∧
      t = { s with
        rows := s.rows.modify id (FolderRow.setState state) (FolderRow.setState_id _)
        writes := s.writes ++ [id] } := by
  obtain ⟨r, hown, h⟩ := Option.bind_eq_some_iff.mp h
  rw [Option.ite_none_right_eq_some, Option.some.injEq] at h
  obtain ⟨⟨_, _, hlive, hexp⟩, rfl⟩ := h
  exact ⟨r, owned_eq hown, hlive, hexp, rfl⟩

/-- A sound swap raises the revision, so no earlier read saw the one it stores. -/
theorem inv_put
    (hI : Inv s) (hok : s.NextRev id expectedRev state)
    (h : s.put id caller token expectedRev state started = some t) : Inv t := by
  obtain ⟨r₁, hget, _, hexp, rfl⟩ := put_cases h
  obtain ⟨hr₁, hid₁⟩ := mem_of_get hget
  have hmod : ∀ r ∈ s.rows.modify id (FolderRow.setState state) (FolderRow.setState_id _),
      (∃ r₀ ∈ s.rows, r₀.id = id ∧ r = r₀.setState state) ∨ (r ∈ s.rows ∧ r.id ≠ id) := fun r hr => Table.mem_modify.mp hr
  refine ⟨fun r hr l hl => ?_, hI.once, fun r hr => ?_, hI.reads, fun r hr => ?_⟩
  · rcases hmod r hr with ⟨r₀, hr₀, _, rfl⟩ | ⟨hr, _⟩
    · exact hI.lease r₀ hr₀ l hl
    · exact hI.lease r hr l hl
  · rcases hmod r hr with ⟨r₀, hr₀, _, rfl⟩ | ⟨hr, _⟩
    · exact hI.rows r₀ hr₀
    · exact hI.rows r hr
  · rcases hmod r hr with ⟨r₀, hr₀, hid, rfl⟩ | ⟨hr, hne⟩
    · have hsame : r₀ = r₁ := Table.eq_of_key hr₀ hr₁ (hid.trans hid₁.symm)
      subst hsame
      obtain ⟨n, hn, hun⟩ := hI.revs r₀ hr₀
      obtain ⟨m, hm, hlt⟩ := next_of_sound hget hn hexp hok
      refine ⟨m, by simp [FolderRow.rev, FolderRow.setState, hm], fun q hq hf => ?_⟩
      obtain ⟨k, hk, hle, _⟩ := hun q hq hf
      exact ⟨k, hk, by omega, fun heq => by omega⟩
    · obtain ⟨n, hn, hun⟩ := hI.revs r hr
      refine ⟨n, hn, fun q hq hf => ?_⟩
      obtain ⟨k, hk, hle, hsame⟩ := hun q hq hf
      refine ⟨k, hk, hle, fun heq => ?_⟩
      rw [hsame heq]
      simp [writesOf, List.count_append, Ne.symm hne]

theorem inv_step {a : FolderAct} (hI : Inv s) (hok : s.Sound a) (h : s.step a = some t) : Inv t := by
  cases a with
  | pass ms =>
    cases h
    exact ⟨hI.lease, hI.once, hI.rows, hI.reads, hI.revs⟩
  | attach id userId sessionKey name => exact inv_attach hI h
  | detach id =>
    cases h
    exact inv_frame hI rfl rfl rfl rfl fun r hr => ⟨r, (Table.mem_erase.mp hr).1, rfl, rfl, fun l hl => ⟨l, hl, rfl⟩⟩
  | rekey id sessionKey =>
    obtain ⟨_, _, h⟩ := Option.bind_eq_some_iff.mp h
    rw [Option.ite_none_left_eq_some, Option.some.injEq] at h
    obtain ⟨_, rfl⟩ := h
    refine inv_frame hI rfl rfl rfl rfl fun r hr => ?_
    have hr' : r ∈ s.rows.modify id (FolderRow.setKey sessionKey) (FolderRow.setKey_id _) := hr
    rcases Table.mem_modify.mp hr' with ⟨r₀, hr₀, _, rfl⟩ | ⟨hr, _⟩
    · exact ⟨r₀, hr₀, rfl, rfl, fun l hl => ⟨l, hl, rfl⟩⟩
    · exact ⟨r, hr, rfl, rfl, fun l hl => ⟨l, hl, rfl⟩⟩
  | acquire id caller token expiresAt started => exact inv_acquire hI h
  | renew id caller token expiresAt =>
    obtain ⟨r₁, hown, h⟩ := Option.bind_eq_some_iff.mp h
    rw [Option.ite_none_right_eq_some, Option.some.injEq] at h
    obtain ⟨hholds, rfl⟩ := h
    obtain ⟨hr₁, hid₁⟩ := mem_of_get (owned_eq hown)
    obtain ⟨l₁, hl₁, htok⟩ := lease_of_holds hholds
    refine inv_frame hI rfl rfl rfl rfl fun r hr => ?_
    have hr' : r ∈ s.rows.modify id (FolderRow.setLease (some { token, expiresAt })) (FolderRow.setLease_id _) := hr
    rcases Table.mem_modify.mp hr' with ⟨r₀, hr₀, hid, rfl⟩ | ⟨hr, _⟩
    · have hsame : r₀ = r₁ := Table.eq_of_key hr₀ hr₁ (hid.trans hid₁.symm)
      refine ⟨r₀, hr₀, rfl, rfl, fun l hl => ⟨l₁, hsame ▸ hl₁, ?_⟩⟩
      cases hl
      exact htok
    · exact ⟨r, hr, rfl, rfl, fun l hl => ⟨l, hl, rfl⟩⟩
  | release id caller token =>
    obtain ⟨_, _, rfl⟩ := Option.map_eq_some_iff.mp h
    split
    · refine inv_frame hI rfl rfl rfl rfl fun r hr => ?_
      have hr' : r ∈ s.rows.modify id (FolderRow.setLease none) (FolderRow.setLease_id _) := hr
      rcases Table.mem_modify.mp hr' with ⟨r₀, hr₀, _, rfl⟩ | ⟨hr, _⟩
      · exact ⟨r₀, hr₀, rfl, rfl, fun l hl => by cases hl⟩
      · exact ⟨r, hr, rfl, rfl, fun l hl => ⟨l, hl, rfl⟩⟩
    · exact hI
  | read id caller => exact inv_read hI h
  | put id caller token expectedRev state started => exact inv_put hI hok h
  | upload sessionKey name lease =>
    simp only [step, upload, Option.ite_none_left_eq_some, Option.some.injEq] at h
    exact h.2 ▸ hI

theorem inv_initial : Inv initial := by
  constructor
  · exact fun r hr => absurd hr (Table.not_mem_empty r)
  · exact List.nodup_nil
  · exact fun r hr => absurd hr (Table.not_mem_empty r)
  · exact fun q hq => absurd hq List.not_mem_nil
  · exact fun r hr => absurd hr (Table.not_mem_empty r)

/-! ### What every step upholds -/

theorem upholds_renew {expiresAt : Nat} (hI : Inv s)
    (h : s.renew id caller token expiresAt = some t) : ¬s.Superseded id token := by
  obtain ⟨r, hown, h⟩ := Option.bind_eq_some_iff.mp h
  obtain ⟨hholds, _⟩ := Option.ite_none_right_eq_some.mp h
  obtain ⟨hr, rfl⟩ := mem_of_get (owned_eq hown)
  obtain ⟨l, hl, rfl⟩ := lease_of_holds hholds
  exact not_superseded hI hr hl

theorem upholds_put
    (hI : Inv s) (hok : s.NextRev id expectedRev state)
    (h : s.put id caller token expectedRev state started = some t) :
    s.Upholds t (.put id caller token expectedRev state started) := by
  obtain ⟨r, hget, hlive, hexp, rfl⟩ := put_cases h
  obtain ⟨hr, rfl⟩ := mem_of_get hget
  obtain ⟨l, hl, rfl, _⟩ := lease_of_liveLease hlive
  refine ⟨not_superseded hI hr hl, fun n hn => ⟨?_, ?_, fun q hq hf hrev => ?_⟩⟩
  · rw [revOf, hget, Option.map_some, hexp n hn]
  · subst hn
    have hnext : state.rev = some (Nat.repr (n + 1)) := hok
    simp [revOf, Table.get_modify, hget, FolderRow.rev, FolderRow.setState, hnext]
  · obtain ⟨k, hk, hun⟩ := hI.revs r hr
    have hkn : k = n := Nat.repr_injective (hk.symm.trans (hexp n hn))
    obtain ⟨m, hm, _, hsame⟩ := hun q hq hf
    exact hsame ((Nat.repr_injective (hm.symm.trans hrev)).trans hkn.symm)

theorem upholds_upload {sessionKey : Nat} {name : String} {lease : Option Nat}
    (h : s.upload sessionKey name lease = some t) :
    ∀ r ∈ s.rows, r.sessionKey = sessionKey → r.name = name → ∀ token, s.Live r.id token → lease = some token := by
  obtain ⟨hfree, _⟩ := Option.ite_none_left_eq_some.mp h
  rintro r hr hkey hname token ⟨r', hr', hid, hlive⟩
  obtain rfl := Table.eq_of_key hr' hr hid
  obtain ⟨l, hl, rfl, hlt⟩ := lease_of_liveLease hlive
  by_contra hne
  refine hfree ⟨r', hr', hkey, hname, ?_⟩
  simp [FolderRow.heldByOther, hl, hlt, Ne.symm hne]

end FolderAux

open FolderAux

/-- In every run whose ancestor swaps bring the next revision, one token of a folder is live at a time, and every request that succeeds
respects the fence: no superseded token renews the lease or stores an ancestor, an upload to a folder under a live lease names it, and a
swap moves the ancestor from the revision its client read to the next with nothing written in between. -/
theorem FolderState.lease_fences_of_sound {s : FolderState} (h : Steps.Reaches FolderState.step FolderState.Sound .initial s) :
    (∀ id token token', s.Live id token → s.Live id token' → token = token') ∧
      ∀ a t, s.Sound a → s.step a = some t → s.Upholds t a := by
  have hI : Inv s := h.invariant (fun _ _ _ hx hok hy => inv_step hx hok hy) inv_initial
  refine ⟨fun _ _ _ => live_unique, fun a t hok ha => ?_⟩
  cases a with
  | renew id caller token expiresAt => exact upholds_renew hI ha
  | put id caller token expectedRev state started => exact upholds_put hI hok ha
  | upload sessionKey name lease => exact upholds_upload ha
  | pass _ | attach _ _ _ _ | detach _ | rekey _ _ | acquire _ _ _ _ _ | release _ _ _ | read _ _ => exact trivial

/-- A client takes the lease, reads revision 0 and stores revision 1. -/
theorem FolderState.lease_fences_of_sound_put :
    ∃ s t : FolderState, Steps.Reaches FolderState.step FolderState.Sound .initial s ∧
      s.step (.put 1 ⟨1, false⟩ 7 (some 0) ⟨some 1, some "1", .empty, []⟩ 5) = some t ∧
      ¬s.Superseded 1 7 ∧ t.revOf 1 = some "1" := by
  have h₁ : Steps.Reaches FolderState.step FolderState.Sound .initial _ :=
    (Steps.Reaches.refl _).snoc (a := FolderAct.attach 1 1 3 "notes") trivial rfl
  have h₂ := h₁.snoc (a := FolderAct.acquire 1 ⟨1, false⟩ 7 600 0) trivial rfl
  have h₃ := h₂.snoc (a := FolderAct.pass 5) trivial rfl
  have h₄ := h₃.snoc (a := FolderAct.read 1 ⟨1, false⟩) trivial rfl
  have hup := (FolderState.lease_fences_of_sound h₄).2 (.put 1 ⟨1, false⟩ 7 (some 0) ⟨some 1, some "1", .empty, []⟩ 5) _ rfl rfl
  exact ⟨_, _, h₄, rfl, hup.1, (hup.2 0 rfl).2.1⟩

/-- The holder of the lease expects revision 0 and brings a body of revision 0: the swap succeeds, and the ancestor does not move to 1. -/
theorem FolderState.lease_fences_false :
    ¬∀ s : FolderState, Steps.Reaches FolderState.step Steps.Free .initial s →
      ∀ a t, s.step a = some t → s.Upholds t a := by
  intro h
  have h₁ : Steps.Reaches FolderState.step Steps.Free .initial _ :=
    (Steps.Reaches.refl _).snoc (a := FolderAct.attach 1 1 3 "notes") trivial rfl
  have h₂ := h₁.snoc (a := FolderAct.acquire 1 ⟨1, false⟩ 7 600 0) trivial rfl
  have hup := h _ h₂ (.put 1 ⟨1, false⟩ 7 (some 0) ⟨some 1, some "0", .empty, []⟩ 0) _ rfl
  exact absurd (hup.2 0 rfl).2.1 (by decide)

end Capka

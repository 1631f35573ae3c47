import Capka.Vault.Writes

/-!
# A deleted project's memory stays gone

A writer shares the lock of its space from its fence to its commit, so no pass sweeps the space in between, and a row it changed is one that
a pass has to wait for. Once a pass has committed, the project's space is the one row of its scope, closed with the stamp of the first pass,
and no claim, note or candidate is in it, whatever is still open.
-/

namespace Capka

namespace Vault

variable {now seen mine v w : Vault} {k x : String} {shelf : Shelf}

theorem Same.spaceAt (h : v.Same w k shelf) : v.spaceAt k shelf = w.spaceAt k shelf := by
  cases shelf with
  | claims => exact congrArg (Option.map VaultClaim.spaceId) h
  | notes => exact congrArg (Option.map VaultNote.spaceId) h
  | candidates => exact congrArg (Option.map MemoryCandidate.spaceId) h

theorem Same.trans {u : Vault} (h : u.Same v k shelf) (h' : v.Same w k shelf) : u.Same w k shelf := by
  cases shelf with
  | claims => exact Eq.trans h h'
  | notes => exact Eq.trans h h'
  | candidates => exact Eq.trans h h'

theorem Same.symm (h : v.Same w k shelf) : w.Same v k shelf := by
  cases shelf with
  | claims => exact Eq.symm h
  | notes => exact Eq.symm h
  | candidates => exact Eq.symm h

theorem same_merge_of_same (h : seen.Same mine k shelf) : (merge now seen mine).Same now k shelf := by
  cases shelf with
  | claims | notes | candidates => exact (Table.get_merge _ _ _ _).trans (if_pos (Eq.symm h))

theorem same_merge_of_not (h : ¬seen.Same mine k shelf) : (merge now seen mine).Same mine k shelf := by
  cases shelf with
  | claims | notes | candidates => exact (Table.get_merge _ _ _ _).trans (if_neg fun heq => h (Eq.symm heq))

theorem same_of_not_mem (hv : k ∉ v.idsAt shelf) (hw : k ∉ w.idsAt shelf) : v.Same w k shelf := by
  have hnone : ∀ {ρ : Type} {key : ρ → String} {T : Table ρ key}, k ∉ T.keys → T.get k = none := by
    intro ρ key T hk
    rw [← Option.not_isSome_iff_eq_none, Table.get_isSome_iff]
    exact hk
  cases shelf with
  | claims | notes | candidates => exact (hnone hv).trans (hnone hw).symm

/-- The retirements of a space on record. -/
def retireCount (x : String) (events : List AuditEvent) : Nat :=
  (events.filter fun e => e.spaceId = x ∧ e.action = .spaceRetire).length

theorem retireCount_append (x : String) (l l' : List AuditEvent) : retireCount x (l ++ l') = retireCount x l + retireCount x l' := by
  simp [retireCount]

theorem retireCount_eq_zero {l : List AuditEvent} (h : ∀ e ∈ l, e.action ≠ .spaceRetire) : retireCount x l = 0 := by
  unfold retireCount
  rw [List.length_eq_zero_iff, List.filter_eq_nil_iff]
  intro e he
  simp only [decide_eq_true_eq, not_and]
  exact fun _ => h e he

theorem spaceAt_retire {stamp : Nat} {y : String} (h : (v.retire x stamp).spaceAt k shelf = some y) : y ≠ x ∧ v.spaceAt k shelf = some y := by
  have hswept : ∀ {ρ : Type} {key : ρ → String} {space : ρ → String} {T : Table ρ key},
      ((T.filter fun r => decide (space r ≠ x)).get k).map space = some y → y ≠ x ∧ (T.get k).map space = some y := by
    intro ρ key space T hy
    obtain ⟨r, hr, rfl⟩ := Option.map_eq_some_iff.mp hy
    obtain ⟨hmem, hk⟩ := Table.get_eq_some_iff.mp hr
    obtain ⟨hmem, hne⟩ := Table.mem_filter.mp hmem
    exact ⟨by simpa using hne, Option.map_eq_some_iff.mpr ⟨r, Table.get_eq_some_iff.mpr ⟨hmem, hk⟩, rfl⟩⟩
  unfold retire at h
  split at h
  · cases shelf with
    | claims => exact hswept h
    | notes => exact hswept h
    | candidates => exact hswept h
  · cases shelf with
    | claims => exact hswept h
    | notes => exact hswept h
    | candidates => exact hswept h

theorem auditEvents_retire (v : Vault) (x : String) (stamp : Nat) :
    ∃ own, (v.retire x stamp).auditEvents = v.auditEvents ++ own ∧
      ∀ y, retireCount y own = if y = x ∧ retireCount y v.auditEvents = 0 then 1 else 0 := by
  unfold retire
  split
  · rename_i hnone
    refine ⟨[{ spaceId := x, action := .spaceRetire, subjectId := x }], rfl, fun y => ?_⟩
    by_cases hy : y = x
    · subst hy
      have hzero : retireCount y v.auditEvents = 0 := congrArg List.length hnone
      rw [if_pos ⟨rfl, hzero⟩]
      simp [retireCount]
    · rw [if_neg fun h => hy h.1]
      simp [retireCount, Ne.symm hy]
  · rename_i hsome
    refine ⟨[], (List.append_nil _).symm, fun y => ?_⟩
    rw [if_neg]
    · rfl
    · rintro ⟨rfl, hzero⟩
      exact hsome (List.length_eq_zero_iff.mp hzero)

end Vault

open Vault

namespace Tx

/-- The transaction changed the row under the id. -/
def Changes (t : Tx) (k : String) (shelf : Shelf) : Prop := ¬t.seen.Same t.mine k shelf

end Tx

namespace MemoryDb

/-- What a pass keeps to, by how far it is. -/
def PassOk (db : MemoryDb) (t : Tx) (pass : Pass) : Prop :=
  (t.shares = [] ∧ (∀ a ∈ t.opened, a.ofProject pass.projectId ∧ a.retiredAt ≠ none) ∧
    ((∃ project ∈ db.projects, project.id = pass.projectId) ∨ pass.projectId ∈ db.passes)) ∧
    match pass.phase with
    | .started => t.opened = []
    | .missing => t.opened = []
    | .planted => db.Sees t fun a => a.ofProject pass.projectId
    | .locked spaceId => db.Sees t fun a => a.id = spaceId ∧ a.ofProject pass.projectId
    | .swept spaceId stamp => (db.Sees t fun a => a.id = spaceId ∧ a.ofProject pass.projectId) ∧
        (∀ a ∈ t.opened, a.retiredAt = some stamp) ∧ (∀ k shelf, t.mine.spaceAt k shelf ≠ some spaceId) ∧
        ∀ k shelf, db.vault.spaceAt k shelf = some spaceId → t.Changes k shelf
    | .ended => t.opened = [] ∧ pass.projectId ∈ db.passes

/-- What an open transaction keeps to. -/
structure TxOk (db : MemoryDb) (t : Tx) : Prop where
  pass : ∀ pass, t.pass = some pass → db.PassOk t pass
  writer : t.pass = none → ∀ a ∈ t.opened, a.retiredAt = none
  openedFree : ∀ a ∈ t.opened, ∀ b ∈ db.spaces, ¬a.sameScope b ∧ a.id ≠ b.id
  openedOnce : ∀ a ∈ t.opened, ∀ b ∈ t.opened, a.sameScope b ∨ a.id = b.id → a = b
  sharesLive : ∀ x ∈ t.shares, db.Sees t fun a => a.id = x ∧ a.retiredAt = none
  held : ∀ k shelf, t.Changes k shelf → db.vault.Same t.seen k shelf
  apart : ∀ k shelf x, t.mine.spaceAt k shelf = some x → x ∈ t.shares ∨ t.seen.spaceAt k shelf = some x
  events : ∃ own, t.mine.auditEvents = t.seen.auditEvents ++ own ∧
    ∀ x, retireCount x own = if t.sweeps = some x ∧ retireCount x db.vault.auditEvents = 0 then 1 else 0

/-- Two open transactions insert different spaces, change different rows and exclude each other from what one holds for itself. -/
structure Pair (t u : Tx) : Prop where
  opened : ∀ a ∈ t.opened, ∀ b ∈ u.opened, ¬a.sameScope b ∧ a.id ≠ b.id
  rows : ∀ k shelf, ¬(t.Changes k shelf ∧ u.Changes k shelf)
  shares : ∀ x, t.exclusive = some x → x ∉ u.shares
  exclusive : ∀ x, t.exclusive = some x → u.exclusive ≠ some x

/-- What holds of the database between any two statements. -/
structure DbOk (db : MemoryDb) : Prop where
  scopes : ∀ a ∈ db.spaces, ∀ b ∈ db.spaces, a.sameScope b → a = b
  closed : ∀ a ∈ db.spaces, a.retiredAt ≠ none → ∀ k shelf, db.vault.spaceAt k shelf ≠ some a.id
  counted : ∀ x, retireCount x db.vault.auditEvents = if ∃ a ∈ db.spaces, a.id = x ∧ a.retiredAt ≠ none then 1 else 0
  stamped : ∀ a ∈ db.spaces, a.retiredAt =
    if a.type = .project then (db.retirements.find? fun r => r.1 = a.refId).map Prod.snd else none
  logged : ∀ r ∈ db.retirements, ∃ a ∈ db.spaces, a.ofProject r.1
  passes : ∀ p ∈ db.passes, ∃ r ∈ db.retirements, r.1 = p
  txs : ∀ t ∈ db.txs, db.TxOk t
  pairs : ∀ t ∈ db.txs, ∀ u ∈ db.txs, t.id ≠ u.id → Pair t u

namespace RetiredAux

variable {db db' : MemoryDb} {t t' u : Tx}

theorem Sees.mono {p : SpaceRow → Prop} (h : db.Sees t p) (hle : ∀ a ∈ t.opened, a ∈ t'.opened) : db.Sees t' p := by
  rcases h with hdb | ⟨a, ha, hp⟩
  · exact .inl hdb
  · exact .inr ⟨a, hle a ha, hp⟩

/-- What an open transaction keeps to survives what others do to the database: spaces are added, or closed where it shares no lock, rows are
changed where it changed none, and none comes into a space that it swept. -/
theorem TxOk.moved (h : db.TxOk u) (hnew : ∀ a ∈ u.opened, ∀ b ∈ db'.spaces, ¬a.sameScope b ∧ a.id ≠ b.id)
    (hkeep : ∀ a ∈ db.spaces, ∃ b ∈ db'.spaces, b.id = a.id ∧ b.type = a.type ∧ b.refId = a.refId ∧
      (a.id ∈ u.shares → a.retiredAt = none → b.retiredAt = none))
    (hheld : ∀ k shelf, u.Changes k shelf → db'.vault.Same db.vault k shelf)
    (hswept : ∀ k shelf x, u.sweeps = some x → db'.vault.spaceAt k shelf = some x → u.Changes k shelf)
    (hevents : ∀ x, u.sweeps = some x → retireCount x db'.vault.auditEvents = retireCount x db.vault.auditEvents)
    (hproject : ∀ p, (∃ project ∈ db.projects, project.id = p) ∨ p ∈ db.passes → (∃ project ∈ db'.projects, project.id = p) ∨ p ∈ db'.passes)
    (hpasses : ∀ p ∈ db.passes, p ∈ db'.passes) : db'.TxOk u := by
  have hsees : ∀ {p : SpaceRow → Prop}, (∀ a b : SpaceRow, b.id = a.id → b.type = a.type → b.refId = a.refId → p a → p b) →
      db.Sees u p → db'.Sees u p := by
    rintro p hp (⟨a, ha, hpa⟩ | hown)
    · obtain ⟨b, hb, hid, htype, href, _⟩ := hkeep a ha
      exact .inl ⟨b, hb, hp a b hid htype href hpa⟩
    · exact .inr hown
  have hproj : ∀ (p : String) (a b : SpaceRow), b.type = a.type → b.refId = a.refId → a.ofProject p → b.ofProject p :=
    fun p a b htype href ha => ⟨htype.trans ha.1, href.trans ha.2⟩
  refine { pass := ?_, writer := h.writer, openedFree := hnew, openedOnce := h.openedOnce, sharesLive := ?_, held := ?_,
           apart := h.apart, events := ?_ }
  · intro pass hpass
    obtain ⟨⟨hshares, hopened, hknown⟩, hphase⟩ := h.pass pass hpass
    refine ⟨⟨hshares, hopened, hproject _ hknown⟩, ?_⟩
    obtain ⟨projectId, phase⟩ := pass
    cases phase with
    | started => exact hphase
    | missing => exact hphase
    | planted => exact hsees (fun a b _ => hproj projectId a b) hphase
    | locked spaceId => exact hsees (fun a b hid htype href ha => ⟨hid.trans ha.1, hproj projectId a b htype href ha.2⟩) hphase
    | swept spaceId stamp =>
      obtain ⟨hsee, hstamp, hmine, _⟩ := hphase
      refine ⟨hsees (fun a b hid htype href ha => ⟨hid.trans ha.1, hproj projectId a b htype href ha.2⟩) hsee, hstamp, hmine, ?_⟩
      intro k shelf hx
      exact hswept k shelf spaceId (by rw [Tx.sweeps, hpass]) hx
    | ended => exact ⟨hphase.1, hpasses _ hphase.2⟩
  · intro x hx
    rcases h.sharesLive x hx with ⟨a, ha, rfl, hlive⟩ | hown
    · obtain ⟨b, hb, hid, _, _, hl⟩ := hkeep a ha
      exact .inl ⟨b, hb, hid, hl hx hlive⟩
    · exact .inr hown
  · intro k shelf hch
    exact (hheld k shelf hch).trans (h.held k shelf hch)
  · obtain ⟨own, heq, hown⟩ := h.events
    refine ⟨own, heq, fun x => ?_⟩
    rw [hown x]
    by_cases hx : u.sweeps = some x
    · rw [hevents x hx]
    · rw [if_neg fun h => hx h.1, if_neg fun h => hx h.1]

theorem TxOk.of_eq (h : db.TxOk u) (hspaces : db'.spaces = db.spaces) (hvault : db'.vault = db.vault)
    (hproject : ∀ p, (∃ project ∈ db.projects, project.id = p) ∨ p ∈ db.passes → (∃ project ∈ db'.projects, project.id = p) ∨ p ∈ db'.passes)
    (hpasses : ∀ p ∈ db.passes, p ∈ db'.passes) : db'.TxOk u := by
  refine TxOk.moved h ?_ ?_ ?_ ?_ ?_ hproject hpasses
  · rw [hspaces]
    exact h.openedFree
  · intro a ha
    exact ⟨a, hspaces ▸ ha, rfl, rfl, rfl, fun _ hlive => hlive⟩
  · intro k shelf _
    rw [hvault]
    cases shelf <;> rfl
  · intro k shelf x hsweeps hx
    rw [hvault] at hx
    unfold Tx.sweeps at hsweeps
    split at hsweeps
    · rename_i projectId spaceId stamp hpass
      cases hsweeps
      exact (h.pass _ hpass).2.2.2.2 k shelf hx
    · cases hsweeps
  · intro x _
    rw [hvault]

theorem dbOk_setTx (h : DbOk db) (ht : db.TxOk t) (hpair : ∀ u ∈ db.txs, u.id ≠ t.id → Pair t u ∧ Pair u t) : DbOk (db.setTx t) := by
  have hok : ∀ {u}, db.TxOk u → (db.setTx t).TxOk u := fun hu => TxOk.of_eq hu rfl rfl (fun _ hp => hp) fun _ hp => hp
  refine { scopes := h.scopes, closed := h.closed, counted := h.counted, stamped := h.stamped, logged := h.logged, passes := h.passes,
           txs := ?_, pairs := ?_ }
  · intro u hu
    rcases Table.mem_put.mp hu with rfl | ⟨hmem, _⟩
    · exact hok ht
    · exact hok (h.txs u hmem)
  · intro u hu x hx hne
    rcases Table.mem_put.mp hu with hut | ⟨hmem, hut⟩
    · rcases Table.mem_put.mp hx with hxt | ⟨hmemx, hxt⟩
      · exact absurd (hut ▸ hxt ▸ rfl) hne
      · exact hut ▸ (hpair x hmemx hxt).1
    · rcases Table.mem_put.mp hx with hxt | ⟨hmemx, hxt⟩
      · exact hxt ▸ (hpair u hmem hut).2
      · exact h.pairs u hmem x hmemx hne

variable {k : String} {shelf : Shelf}

theorem changes_view (hch : ¬db.vault.Same (t.view db.vault) k shelf) : t.Changes k shelf := by
  intro hsame
  exact hch (same_merge_of_same hsame).symm

theorem spaceAt_view (h : db.TxOk t) {x : String} (hx : (t.view db.vault).spaceAt k shelf = some x) :
    x ∈ t.shares ∨ db.vault.spaceAt k shelf = some x := by
  by_cases hch : t.Changes k shelf
  · have hmine : (t.view db.vault).spaceAt k shelf = t.mine.spaceAt k shelf := (same_merge_of_not hch).spaceAt
    rw [hmine] at hx
    rcases h.apart k shelf x hx with hS | hseen
    · exact .inl hS
    · rw [(h.held k shelf hch).spaceAt]
      exact .inr hseen
  · have hnow : (t.view db.vault).spaceAt k shelf = db.vault.spaceAt k shelf := (same_merge_of_same (not_not.mp hch)).spaceAt
    exact .inr (hnow ▸ hx)

theorem events_view (h : db.TxOk t) : ∃ own, (t.view db.vault).auditEvents = db.vault.auditEvents ++ own ∧
    ∀ x, retireCount x own = if t.sweeps = some x ∧ retireCount x db.vault.auditEvents = 0 then 1 else 0 := by
  obtain ⟨own, heq, hown⟩ := h.events
  refine ⟨own, ?_, hown⟩
  change db.vault.auditEvents ++ t.mine.auditEvents.drop t.seen.auditEvents.length = _
  rw [heq, List.drop_left]

variable {w : Vault}

theorem rows_of_unlocked (hunlocked : db.Unlocked t.id (t.view db.vault) w) (hu : u ∈ db.txs)
    (hne : u.id ≠ t.id) (hrows : ∀ k shelf, ¬(t.Changes k shelf ∧ u.Changes k shelf))
    (hch : ¬db.vault.Same w k shelf) : ¬u.Changes k shelf := by
  intro huch
  by_cases hview : (t.view db.vault).Same w k shelf
  · have htch : t.Changes k shelf := changes_view fun hsame => hch (hsame.trans hview)
    exact hrows k shelf ⟨htch, huch⟩
  · have hmem : k ∈ u.seen.idsAt shelf ++ u.mine.idsAt shelf := by
      by_contra hk
      rw [List.mem_append, not_or] at hk
      exact huch (same_of_not_mem hk.1 hk.2)
    have hshelf : shelf ∈ Shelf.all := by cases shelf <;> decide
    rcases hunlocked u hu hne shelf hshelf k hmem with hsame | hsame
    · exact huch hsame
    · exact hview hsame

theorem pairs_of_mem (h : DbOk db) (ht : t ∈ db.txs) : ∀ u ∈ db.txs, u.id ≠ t.id → Pair t u ∧ Pair u t :=
  fun u hu hne => ⟨h.pairs t ht u hu (Ne.symm hne), h.pairs u hu t ht hne⟩

/-! ### Spaces -/

variable {space : SpaceRow}

theorem insertSpace_cases (h : db.insertSpace t space = some t') :
    (t' = t ∧ db.Sees t fun a => a.sameScope space) ∨ (t' = { t with opened := t.opened ++ [space] } ∧
      (∀ a ∈ db.spaces, ¬a.sameScope space ∧ a.id ≠ space.id) ∧ ∀ u ∈ db.txs, ∀ a ∈ u.opened, ¬a.sameScope space ∧ a.id ≠ space.id) := by
  unfold insertSpace at h
  split at h
  · rename_i hsees
    exact .inl ⟨(Option.some.inj h).symm, hsees⟩
  · rename_i hsees
    split at h
    · cases h
    · rename_i hwait
      split at h
      · cases h
      · rename_i hid
        refine .inr ⟨(Option.some.inj h).symm, ?_, ?_⟩
        · exact fun a ha => ⟨fun hs => hsees (.inl ⟨a, ha, hs⟩), fun hk => hid (.inl ⟨a, ha, hk⟩)⟩
        · exact fun u hu a ha => ⟨fun hs => hwait ⟨u, hu, a, ha, hs⟩, fun hk => hid (.inr ⟨u, hu, a, ha, hk⟩)⟩

variable {a : SpaceRow}

theorem sameScope_symm {b : SpaceRow} (h : a.sameScope b) : b.sameScope a := ⟨h.1.symm, h.2.symm⟩

theorem txOk_opened (pass : Option Pass) (h : DbOk db) (ht : t ∈ db.txs)
    (hdb : ∀ a ∈ db.spaces, ¬a.sameScope space ∧ a.id ≠ space.id)
    (hopen : ∀ u ∈ db.txs, ∀ a ∈ u.opened, ¬a.sameScope space ∧ a.id ≠ space.id) (hs : t' = { t with
      opened := t.opened ++ [space]
      pass })
    (hpass : ∀ pass, t'.pass = some pass → db.PassOk t' pass) (hwriter : t'.pass = none → ∀ a ∈ t'.opened, a.retiredAt = none)
    (hsweeps : t'.sweeps = t.sweeps) (hexclusive : t'.exclusive = t.exclusive) :
    db.TxOk t' ∧ ∀ u ∈ db.txs, u.id ≠ t'.id → Pair t' u ∧ Pair u t' := by
  have hok := h.txs t ht
  have hopened : t'.opened = t.opened ++ [space] := by rw [hs]
  have hmem : ∀ {a}, a ∈ t'.opened → a ∈ t.opened ∨ a = space := by
    intro a ha
    rw [hopened] at ha
    simpa using ha
  have hseen : t'.seen = t.seen := by rw [hs]
  have hmine : t'.mine = t.mine := by rw [hs]
  have hshares : t'.shares = t.shares := by rw [hs]
  have hchanges : ∀ k shelf, t'.Changes k shelf ↔ t.Changes k shelf := fun k shelf => by rw [Tx.Changes, Tx.Changes, hseen, hmine]
  refine ⟨{ pass := hpass, writer := hwriter, openedFree := ?_, openedOnce := ?_, sharesLive := ?_, held := ?_, apart := ?_, events := ?_ }, ?_⟩
  · intro a ha b hb
    rcases hmem ha with ha | rfl
    · exact hok.openedFree a ha b hb
    · exact ⟨fun hx => (hdb b hb).1 (sameScope_symm hx), fun hx => (hdb b hb).2 hx.symm⟩
  · intro a ha b hb hab
    rcases hmem ha with ha | rfl
    · rcases hmem hb with hb | rfl
      · exact hok.openedOnce a ha b hb hab
      · exact absurd hab (not_or.mpr (hopen t ht a ha))
    · rcases hmem hb with hb | rfl
      · exact absurd (hab.imp sameScope_symm Eq.symm) (not_or.mpr (hopen t ht b hb))
      · rfl
  · intro x hx
    rw [hshares] at hx
    exact Sees.mono (hok.sharesLive x hx) fun a ha => hopened ▸ List.mem_append_left _ ha
  · intro k shelf hch
    rw [hseen]
    exact hok.held k shelf ((hchanges k shelf).mp hch)
  · rw [hmine, hseen, hshares]
    exact hok.apart
  · rw [hmine, hseen, hsweeps]
    exact hok.events
  · intro u hu hne
    have hid : t'.id = t.id := by rw [hs]
    obtain ⟨htu, hut⟩ := pairs_of_mem h ht u hu (hid ▸ hne)
    constructor
    · refine { opened := ?_, rows := fun k shelf hx => htu.rows k shelf ⟨(hchanges k shelf).mp hx.1, hx.2⟩, shares := ?_, exclusive := ?_ }
      · intro a ha b hb
        rcases hmem ha with ha | rfl
        · exact htu.opened a ha b hb
        · exact ⟨fun hx => (hopen u hu b hb).1 (sameScope_symm hx), fun hx => (hopen u hu b hb).2 hx.symm⟩
      · rw [hexclusive]
        exact htu.shares
      · rw [hexclusive]
        exact htu.exclusive
    · refine { opened := ?_, rows := fun k shelf hx => hut.rows k shelf ⟨hx.1, (hchanges k shelf).mp hx.2⟩, shares := ?_, exclusive := ?_ }
      · intro a ha b hb
        rcases hmem hb with hb | rfl
        · exact hut.opened a ha b hb
        · exact hopen u hu a ha
      · rw [hshares]
        exact hut.shares
      · rw [hexclusive]
        exact hut.exclusive

theorem dbOk_openSpace (h : DbOk db) (ht : t ∈ db.txs) (hpass : t.pass = none) (hlive : space.retiredAt = none)
    (hins : db.insertSpace t space = some t') : DbOk (db.setTx t') := by
  rcases insertSpace_cases hins with ⟨rfl, _⟩ | ⟨heq, hdb, hopen⟩
  · exact dbOk_setTx h (h.txs t' ht) (pairs_of_mem h ht)
  · have hpass' : t'.pass = none := by rw [heq, ← hpass]
    have hsame : t' = { t with opened := t.opened ++ [space], pass := none } := by rw [heq, ← hpass]
    have hx := txOk_opened none h ht hdb hopen hsame ?_ ?_ ?_ ?_
    · exact dbOk_setTx h hx.1 hx.2
    · intro pass hp
      rw [hpass'] at hp
      cases hp
    · intro _ a ha
      rw [heq] at ha
      rcases List.mem_append.mp ha with ha | ha
      · exact (h.txs t ht).writer hpass a ha
      · rw [List.mem_singleton.mp ha]
        exact hlive
    · rw [Tx.sweeps, Tx.sweeps, hpass, hpass']
    · rw [Tx.exclusive, Tx.exclusive, hpass, hpass']

variable {spaceId : String}

theorem dbOk_fence (h : DbOk db) (ht : t ∈ db.txs) (hpass : t.pass = none) (hf : db.fence t spaceId = some t') :
    DbOk (db.setTx t') := by
  unfold fence at hf
  split at hf
  · cases hf
  · rename_i hfree
    split at hf
    · rename_i hsees
      cases hf
      have hok := h.txs t ht
      refine dbOk_setTx h ?_ ?_
      · refine { pass := ?_, writer := hok.writer, openedFree := hok.openedFree, openedOnce := hok.openedOnce, sharesLive := ?_,
                 held := hok.held, apart := fun k shelf x hx => (hok.apart k shelf x hx).imp_left (List.mem_cons_of_mem _), events := hok.events }
        · intro pass hp
          rw [hpass] at hp
          cases hp
        · intro x hx
          rcases List.mem_cons.mp hx with rfl | hx
          · exact hsees
          · exact hok.sharesLive x hx
      · intro u hu hne
        obtain ⟨htu, hut⟩ := pairs_of_mem h ht u hu hne
        refine ⟨⟨htu.opened, htu.rows, htu.shares, htu.exclusive⟩, ⟨hut.opened, hut.rows, ?_, hut.exclusive⟩⟩
        intro x hx hmem
        rcases List.mem_cons.mp hmem with rfl | hmem
        · exact hfree ⟨u, hu, hx⟩
        · exact hut.shares x hx hmem
    · cases hf
      exact dbOk_setTx h (h.txs t ht) (pairs_of_mem h ht)

/-! ### Rows -/

theorem dbOk_write (h : DbOk db) (ht : t ∈ db.txs) (hpass : t.pass = none) (hw : Writes t.shares (t.view db.vault) w)
    (happly : db.apply t w = some db') : DbOk db' := by
  unfold apply at happly
  split at happly
  · rename_i hunlocked
    cases happly
    have hok := h.txs t ht
    refine dbOk_setTx h ?_ ?_
    · refine { pass := ?_, writer := hok.writer, openedFree := hok.openedFree, openedOnce := hok.openedOnce, sharesLive := hok.sharesLive,
               held := ?_, apart := ?_, events := ?_ }
      · intro pass hp
        rw [hpass] at hp
        cases hp
      · intro k shelf _
        cases shelf <;> rfl
      · intro k shelf x hx
        rcases hw.spaces shelf k x hx with hS | hx
        · exact .inl hS
        · exact spaceAt_view hok hx
      · obtain ⟨own, heq, hown⟩ := events_view hok
        obtain ⟨own', heq', hown'⟩ := hw.events
        refine ⟨own ++ own', by rw [heq', heq, List.append_assoc], fun x => ?_⟩
        rw [retireCount_append, retireCount_eq_zero hown', hown x]
        rfl
    · intro u hu hne
      obtain ⟨htu, hut⟩ := pairs_of_mem h ht u hu hne
      have hrows : ∀ k shelf, ¬db.vault.Same w k shelf → ¬u.Changes k shelf :=
        fun k shelf hch => rows_of_unlocked hunlocked hu hne htu.rows hch
      exact ⟨⟨htu.opened, fun k shelf hx => hrows k shelf hx.1 hx.2, htu.shares, htu.exclusive⟩,
        ⟨hut.opened, fun k shelf hx => hrows k shelf hx.2 hx.1, hut.shares, hut.exclusive⟩⟩
  · cases happly

/-! ### Passes -/

theorem sees_iff {p : SpaceRow → Prop} : db.Sees t p ↔ ∃ a ∈ db.spaces.rows ++ t.opened, p a := by
  unfold Sees
  simp only [List.mem_append]
  constructor
  · rintro (⟨a, ha, hp⟩ | ⟨a, ha, hp⟩)
    · exact ⟨a, .inl ha, hp⟩
    · exact ⟨a, .inr ha, hp⟩
  · rintro ⟨a, ha | ha, hp⟩
    · exact .inl ⟨a, ha, hp⟩
    · exact .inr ⟨a, ha, hp⟩

theorem dbOk_phase {pass : Pass} (h : DbOk db) (ht : t ∈ db.txs) (hpass : db.PassOk { t with pass := some pass } pass)
    (hold : ∃ pass, t.pass = some pass) (hsweeps : ({ t with pass := some pass } : Tx).sweeps = t.sweeps)
    (hexclusive : ∀ x, ({ t with pass := some pass } : Tx).exclusive = some x →
      ∀ u ∈ db.txs, u.id ≠ t.id → x ∉ u.shares ∧ u.exclusive ≠ some x) : DbOk (db.setTx { t with pass := some pass }) := by
  have hok := h.txs t ht
  have hshares : t.shares = [] := by
    obtain ⟨old, hold⟩ := hold
    exact (hok.pass old hold).1.1
  refine dbOk_setTx h ?_ ?_
  · refine { pass := ?_, writer := ?_, openedFree := hok.openedFree, openedOnce := hok.openedOnce,
             sharesLive := hok.sharesLive, held := hok.held, apart := hok.apart, events := ?_ }
    · intro pass' hp
      cases hp
      exact hpass
    · intro hx
      cases hx
    · rw [hsweeps]
      exact hok.events
  · intro u hu hne
    obtain ⟨htu, hut⟩ := pairs_of_mem h ht u hu hne
    refine ⟨⟨htu.opened, htu.rows, fun x hx => (hexclusive x hx u hu hne).1, fun x hx => (hexclusive x hx u hu hne).2⟩,
      ⟨hut.opened, hut.rows, hut.shares, fun x hx hx' => (hexclusive x hx' u hu hne).2 hx⟩⟩

variable {projectId : String}

theorem dbOk_findSpace {phase missing : PassPhase} (h : DbOk db) (ht : t ∈ db.txs) (hpass : t.pass = some ⟨projectId, phase⟩)
    (hphase : (phase = .started ∧ missing = .missing) ∨ (phase = .planted ∧ missing = .ended))
    (hf : db.findSpace t projectId missing = some t') : DbOk (db.setTx t') := by
  obtain ⟨⟨hshares, hopened, hknown⟩, hok⟩ := (h.txs t ht).pass _ hpass
  have hnotswept : t.sweeps = none := by
    rcases hphase with ⟨rfl, _⟩ | ⟨rfl, _⟩
    · rw [Tx.sweeps, hpass]
    · rw [Tx.sweeps, hpass]
  unfold findSpace at hf
  split at hf
  · rename_i hnone
    cases hf
    have hunseen : ¬db.Sees t fun a => a.ofProject projectId := by
      rw [sees_iff]
      rintro ⟨a, ha, hp⟩
      have := List.find?_eq_none.mp hnone a ha
      exact this (by simpa using hp)
    rcases hphase with ⟨rfl, rfl⟩ | ⟨rfl, rfl⟩
    · refine dbOk_phase h ht ⟨⟨hshares, hopened, hknown⟩, hok⟩ ⟨_, hpass⟩ ?_ ?_
      · rw [hnotswept]
        rfl
      · intro x hx
        cases hx
    · -- the tombstone, or a space that was there before it, is found
      exact absurd hok hunseen
  · rename_i a ha
    split at hf
    · cases hf
    · rename_i hfree
      cases hf
      have hmem := List.mem_of_find?_eq_some ha
      have hof := List.find?_some ha
      simp only [decide_eq_true_eq] at hof
      refine dbOk_phase h ht ⟨⟨hshares, hopened, hknown⟩, ?_⟩ ⟨_, hpass⟩ ?_ ?_
      · exact sees_iff.mpr ⟨a, hmem, rfl, hof⟩
      · rw [hnotswept]
        rfl
      · intro x hx u hu hne
        have hid : a.id = x := Option.some.inj hx
        subst hid
        exact ⟨fun hs => hfree ⟨u, hu, hne, .inl hs⟩, fun hs => hfree ⟨u, hu, hne, .inr hs⟩⟩

theorem dbOk_plant {now : Nat} (h : DbOk db) (ht : t ∈ db.txs) (hpass : t.pass = some ⟨projectId, .missing⟩)
    (hf : db.plant t projectId spaceId now = some t') : DbOk (db.setTx t') := by
  obtain ⟨⟨hshares, hopened, hknown⟩, hnil⟩ := (h.txs t ht).pass _ hpass
  unfold plant at hf
  split at hf
  · rename_i hnone
    cases hf
    refine dbOk_phase h ht ⟨⟨hshares, hopened, hknown⟩, hnil, ?_⟩ ⟨_, hpass⟩ ?_ ?_
    · rcases hknown with ⟨project, hproject, hid⟩ | hknown
      · exact absurd hid (Table.get_eq_none_iff.mp hnone project hproject)
      · exact hknown
    · rw [Tx.sweeps, Tx.sweeps, hpass]
    · intro x hx
      cases hx
  · rename_i project hproject
    obtain ⟨x, hx, rfl⟩ := Option.map_eq_some_iff.mp hf
    rcases insertSpace_cases hx with ⟨rfl, hsees⟩ | ⟨rfl, hdb, hopen⟩
    · refine dbOk_phase h ht ⟨⟨hshares, hopened, hknown⟩, ?_⟩ ⟨_, hpass⟩ ?_ ?_
      · rcases hsees with ⟨a, ha, hs⟩ | ⟨a, ha, hs⟩
        · exact .inl ⟨a, ha, hs⟩
        · exact .inr ⟨a, ha, hs⟩
      · rw [Tx.sweeps, Tx.sweeps, hpass]
      · intro y hy
        cases hy
    · have hy := txOk_opened (some ⟨projectId, .planted⟩) h ht hdb hopen rfl ?_ ?_ ?_ ?_
      · exact dbOk_setTx h hy.1 hy.2
      · intro pass hp
        cases hp
        have hmem : ∀ a ∈ t.opened ++ [(⟨spaceId, .project, projectId, project.userId, some now⟩ : SpaceRow)],
            a.ofProject projectId ∧ a.retiredAt ≠ none := by
          intro a ha
          rcases List.mem_append.mp ha with ha | ha
          · exact hopened a ha
          · rw [List.mem_singleton.mp ha]
            exact ⟨⟨rfl, rfl⟩, by simp⟩
        exact ⟨⟨hshares, hmem, hknown⟩, .inr ⟨_, List.mem_append_right _ (List.mem_singleton.mpr rfl), rfl, rfl⟩⟩
      · intro hp
        cases hp
      · rw [Tx.sweeps, Tx.sweeps, hpass]
      · rw [Tx.exclusive, Tx.exclusive, hpass]

theorem dbOk_sweep {now : Nat} (h : DbOk db) (ht : t ∈ db.txs) (hpass : t.pass = some ⟨projectId, .locked spaceId⟩)
    (happly : db.apply { t with pass := some ⟨projectId, .swept spaceId (stampFor t now)⟩ } ((t.view db.vault).retire spaceId now) = some db') :
    DbOk db' := by
  have hok := h.txs t ht
  obtain ⟨⟨hshares, hopened, hknown⟩, hsees⟩ := hok.pass _ hpass
  unfold apply at happly
  split at happly
  · rename_i hunlocked
    cases happly
    have hclean : ∀ k shelf, ((t.view db.vault).retire spaceId now).spaceAt k shelf ≠ some spaceId :=
      fun k shelf hx => (spaceAt_retire hx).1 rfl
    have hstamp : ∀ a ∈ t.opened, a.retiredAt = some (stampFor t now) := by
      -- a pass inserts one space at most, whose stamp is the first there is
      intro a ha
      have hall : ∀ b ∈ t.opened, b = a := by
        intro b hb
        have hs : b.sameScope a := ⟨(hopened b hb).1.1.trans (hopened a ha).1.1.symm, (hopened b hb).1.2.trans (hopened a ha).1.2.symm⟩
        exact hok.openedOnce b hb a ha (.inl hs)
      unfold stampFor
      cases hl : t.opened with
      | nil =>
        rw [hl] at ha
        cases ha
      | cons b rest =>
        have hb : b = a := hall b (hl ▸ List.mem_cons_self)
        subst hb
        obtain ⟨τ, hτ⟩ := Option.ne_none_iff_exists'.mp (hopened b ha).2
        rw [List.findSome?_cons, hτ]
        rfl
    refine dbOk_setTx h ?_ ?_
    · refine { pass := ?_, writer := ?_, openedFree := hok.openedFree, openedOnce := hok.openedOnce,
               sharesLive := hok.sharesLive, held := ?_, apart := ?_, events := ?_ }
      · intro pass hp
        cases hp
        refine ⟨⟨hshares, hopened, hknown⟩, hsees, hstamp, hclean, ?_⟩
        intro k shelf hx hsame
        rw [hsame.spaceAt] at hx
        exact hclean k shelf hx
      · intro hx
        cases hx
      · intro k shelf _
        cases shelf <;> rfl
      · intro k shelf x hx
        exact spaceAt_view hok (spaceAt_retire hx).2
      · obtain ⟨own, heq, hown⟩ := events_view hok
        obtain ⟨own', heq', hown'⟩ := auditEvents_retire (t.view db.vault) spaceId now
        have hzero : ∀ x, retireCount x own = 0 := by
          intro x
          rw [hown x, if_neg]
          rw [Tx.sweeps, hpass]
          rintro ⟨hx, _⟩
          cases hx
        refine ⟨own ++ own', by rw [heq', heq, List.append_assoc], fun x => ?_⟩
        rw [retireCount_append, hzero, hown', heq, retireCount_append, hzero]
        simp only [Tx.sweeps, Option.some.injEq, Nat.add_zero, Nat.zero_add, eq_comm]
    · intro u hu hne
      obtain ⟨htu, hut⟩ := pairs_of_mem h ht u hu hne
      have hrows : ∀ k shelf, ¬db.vault.Same ((t.view db.vault).retire spaceId now) k shelf → ¬u.Changes k shelf :=
        fun k shelf hch => rows_of_unlocked hunlocked hu hne htu.rows hch
      have hsame : t.exclusive = some spaceId := by rw [Tx.exclusive, hpass]
      refine ⟨⟨htu.opened, fun k shelf hx => hrows k shelf hx.1 hx.2, ?_, ?_⟩,
        ⟨hut.opened, fun k shelf hx => hrows k shelf hx.2 hx.1, hut.shares, ?_⟩⟩
      · intro x hx
        exact htu.shares x (hsame.trans hx)
      · intro x hx
        exact htu.exclusive x (hsame.trans hx)
      · intro x hx hx'
        exact hut.exclusive x hx (hsame.trans hx')
  · cases happly

/-! ### The beginning and the end of a transaction -/

variable {id : Nat}

theorem dbOk_start {pass : Option Pass} (h : DbOk db) (hpass : ∀ p, pass = some p → p.phase = .started ∧
    ((∃ project ∈ db.projects, project.id = p.projectId) ∨ p.projectId ∈ db.passes)) :
    DbOk (db.setTx { id, pass, shares := [], opened := [], seen := db.vault, mine := db.vault }) := by
  have hnone : ∀ v : Vault, ∀ k shelf, v.Same v k shelf := fun v k shelf => by cases shelf <;> rfl
  have hexclusive : ∀ x, (⟨id, pass, [], [], db.vault, db.vault⟩ : Tx).exclusive ≠ some x := by
    intro x hx
    unfold Tx.exclusive at hx
    split at hx
    · rename_i hp
      cases (hpass _ hp).1
    · rename_i hp
      cases (hpass _ hp).1
    · cases hx
  have hsweeps : (⟨id, pass, [], [], db.vault, db.vault⟩ : Tx).sweeps = none := by
    unfold Tx.sweeps
    split
    · rename_i hp
      cases (hpass _ hp).1
    · rfl
  refine dbOk_setTx h ?_ ?_
  · refine { pass := ?_, writer := ?_, openedFree := ?_, openedOnce := ?_, sharesLive := ?_, held := ?_, apart := ?_, events := ?_ }
    · intro p hp
      obtain ⟨hphase, hknown⟩ := hpass p hp
      refine ⟨⟨rfl, by simp, hknown⟩, ?_⟩
      rw [hphase]
    · simp
    · simp
    · simp
    · simp
    · exact fun k shelf hch => absurd (hnone _ k shelf) hch
    · exact fun k shelf x hx => .inr hx
    · refine ⟨[], (List.append_nil _).symm, fun x => ?_⟩
      rw [hsweeps, if_neg]
      · rfl
      · rintro ⟨hx, _⟩
        cases hx
  · intro u _ _
    refine ⟨⟨by simp, fun k shelf hx => hx.1 (hnone _ k shelf), fun x hx => absurd hx (hexclusive x), fun x hx => absurd hx (hexclusive x)⟩,
      ⟨by simp, fun k shelf hx => hx.2 (hnone _ k shelf), by simp, fun x _ => hexclusive x⟩⟩

theorem dbOk_endTx {passes : List String} (h : DbOk db) (hpasses : ∀ p ∈ passes, ∃ r ∈ db.retirements, r.1 = p)
    (hmono : ∀ p ∈ db.passes, p ∈ passes) : DbOk { db.endTx id with passes } := by
  refine { scopes := h.scopes, closed := h.closed, counted := h.counted, stamped := h.stamped, logged := h.logged, passes := hpasses,
           txs := ?_, pairs := ?_ }
  · intro u hu
    exact TxOk.of_eq (h.txs u (Table.mem_erase.mp hu).1) rfl rfl (fun p hp => hp.imp_right (hmono p)) hmono
  · exact fun u hu x hx => h.pairs u (Table.mem_erase.mp hu).1 x (Table.mem_erase.mp hx).1

variable {T : Spaces}

theorem mem_insertAll {l : List SpaceRow} {T' : Spaces} (h : T.insertAll l = some T') : a ∈ T' ↔ a ∈ T ∨ a ∈ l := by
  induction l generalizing T with
  | nil =>
    cases h
    simp
  | cons b l ih =>
    obtain ⟨T₁, hT₁, hrest⟩ := Option.bind_eq_some_iff.mp h
    rw [ih hrest, Table.mem_of_insert hT₁, List.mem_cons, or_assoc]

theorem exclusive_of_sweeps {x : String} (h : t.sweeps = some x) : t.exclusive = some x := by
  unfold Tx.sweeps at h
  split at h
  · rename_i hp
    rw [Tx.exclusive, hp]
    exact h
  · cases h

theorem txOk_committed (h : DbOk db) (ht : t ∈ db.txs) (hu : u ∈ db.txs) (hne : u.id ≠ t.id) (hvault : db'.vault = t.view db.vault)
    (hprojects : db'.projects = db.projects) (hpasses : ∀ p ∈ db.passes, p ∈ db'.passes)
    (hspaces : ∀ b ∈ db'.spaces, ∃ a, (a ∈ db.spaces ∨ a ∈ t.opened) ∧ b.id = a.id ∧ b.type = a.type ∧ b.refId = a.refId)
    (hkeep : ∀ a ∈ db.spaces, ∃ b ∈ db'.spaces, b.id = a.id ∧ b.type = a.type ∧ b.refId = a.refId ∧
      (t.exclusive ≠ some a.id → a.retiredAt = none → b.retiredAt = none)) : db'.TxOk u := by
  have hok := h.txs u hu
  obtain ⟨htu, hut⟩ := pairs_of_mem h ht u hu hne
  refine TxOk.moved hok ?_ ?_ ?_ ?_ ?_ ?_ hpasses
  · intro a ha b hb
    obtain ⟨c, hc, hid, htype, href⟩ := hspaces b hb
    have hfree : ¬a.sameScope c ∧ a.id ≠ c.id := by
      rcases hc with hc | hc
      · exact hok.openedFree a ha c hc
      · exact hut.opened a ha c hc
    exact ⟨fun hs => hfree.1 ⟨hs.1.trans htype, hs.2.trans href⟩, fun hk => hfree.2 (hk.trans hid)⟩
  · intro a ha
    obtain ⟨b, hb, hid, htype, href, hlive⟩ := hkeep a ha
    exact ⟨b, hb, hid, htype, href, fun hs => hlive fun hx => htu.shares _ hx hs⟩
  · intro k shelf hch
    rw [hvault]
    exact same_merge_of_same (not_not.mp fun htch => htu.rows k shelf ⟨htch, hch⟩)
  · intro k shelf x hsweeps hx
    rw [hvault] at hx
    have hexcl := exclusive_of_sweeps hsweeps
    rcases spaceAt_view (h.txs t ht) hx with hs | hx
    · exact absurd hs (hut.shares x hexcl)
    · unfold Tx.sweeps at hsweeps
      split at hsweeps
      · rename_i hp
        cases hsweeps
        exact (hok.pass _ hp).2.2.2.2 k shelf hx
      · cases hsweeps
  · intro x hsweeps
    obtain ⟨own, heq, hown⟩ := events_view (h.txs t ht)
    rw [hvault, heq, retireCount_append, hown x, if_neg]
    · exact Nat.add_zero _
    · rintro ⟨hx, _⟩
      exact htu.exclusive x (exclusive_of_sweeps hx) (exclusive_of_sweeps hsweeps)
  · intro p hp
    rw [hprojects]
    exact hp.imp_right (hpasses p)

theorem dbOk_commit_writer (h : DbOk db) (ht : t ∈ db.txs) (hpass : t.pass = none) (hc : db.commitTx t = some db') : DbOk db' := by
  obtain ⟨spaces, hspaces, rfl⟩ := Option.map_eq_some_iff.mp hc
  have hok := h.txs t ht
  have hmem : ∀ {a}, a ∈ spaces ↔ a ∈ db.spaces ∨ a ∈ t.opened := mem_insertAll hspaces
  have hlive := hok.writer hpass
  have hretired : ∀ a ∈ spaces, a.retiredAt ≠ none → a ∈ db.spaces := by
    intro a ha hr
    rcases hmem.mp ha with ha | ha
    · exact ha
    · exact absurd (hlive a ha) hr
  refine { scopes := ?_, closed := ?_, counted := ?_, stamped := ?_, logged := ?_, passes := h.passes, txs := ?_, pairs := ?_ }
  · intro a ha b hb hs
    rcases hmem.mp ha with ha | ha
    · rcases hmem.mp hb with hb | hb
      · exact h.scopes a ha b hb hs
      · exact absurd (sameScope_symm hs) (hok.openedFree b hb a ha).1
    · rcases hmem.mp hb with hb | hb
      · exact absurd hs (hok.openedFree a ha b hb).1
      · exact hok.openedOnce a ha b hb (.inl hs)
  · intro a ha hr k shelf hx
    have ha := hretired a ha hr
    rcases spaceAt_view hok hx with hs | hx
    · rcases hok.sharesLive _ hs with ⟨b, hb, hid, hbl⟩ | ⟨b, hb, hid, _⟩
      · have heq : b = a := Table.eq_of_key hb ha hid
        exact hr (heq ▸ hbl)
      · exact (hok.openedFree b hb a ha).2 hid
    · exact h.closed a ha hr k shelf hx
  · intro x
    obtain ⟨own, heq, hown⟩ := events_view hok
    have hzero : retireCount x own = 0 := by
      rw [hown x, if_neg]
      rw [Tx.sweeps, hpass]
      rintro ⟨hx, _⟩
      cases hx
    change retireCount x (t.view db.vault).auditEvents = _
    rw [heq, retireCount_append, hzero, Nat.add_zero, h.counted x]
    refine if_congr ⟨?_, ?_⟩ rfl rfl
    · rintro ⟨a, ha, hrest⟩
      exact ⟨a, hmem.mpr (.inl ha), hrest⟩
    · rintro ⟨a, ha, hid, hr⟩
      exact ⟨a, hretired a ha hr, hid, hr⟩
  · intro a ha
    rcases hmem.mp ha with ha | ha
    · exact h.stamped a ha
    · rw [hlive a ha]
      split
      · rename_i htype
        have hnone : db.retirements.find? (fun r => r.1 = a.refId) = none := by
          rw [List.find?_eq_none]
          intro r hr href
          obtain ⟨b, hb, hof⟩ := h.logged r hr
          simp only [decide_eq_true_eq] at href
          exact (hok.openedFree a ha b hb).1 ⟨htype.trans hof.1.symm, href.symm.trans hof.2.symm⟩
        rw [show (db.endTx t.id).retirements = db.retirements from rfl, hnone]
        rfl
      · rfl
  · intro r hr
    obtain ⟨a, ha, hof⟩ := h.logged r hr
    exact ⟨a, hmem.mpr (.inl ha), hof⟩
  · intro u hu
    obtain ⟨hu, hne⟩ := Table.mem_erase.mp hu
    refine txOk_committed h ht hu hne rfl rfl (fun _ hp => hp) ?_ ?_
    · intro b hb
      exact ⟨b, hmem.mp hb, rfl, rfl, rfl⟩
    · intro a ha
      exact ⟨a, hmem.mpr (.inl ha), rfl, rfl, rfl, fun _ hl => hl⟩
  · exact fun u hu x hx => h.pairs u (Table.mem_erase.mp hu).1 x (Table.mem_erase.mp hx).1

theorem mem_close {stamp : Nat} {b : SpaceRow} (h : b ∈ T.close spaceId stamp) :
    ∃ a ∈ T, b.id = a.id ∧ b.type = a.type ∧ b.refId = a.refId ∧
      b.retiredAt = if a.id = spaceId then a.retiredAt.or (some stamp) else a.retiredAt := by
  rcases (Table.mem_update (f := fun s : SpaceRow => { s with retiredAt := some stamp }) fun _ => rfl).mp h with
    ⟨a, ha, ⟨hid, hnone⟩, rfl⟩ | ⟨hb, hnot⟩
  · refine ⟨a, ha, rfl, rfl, rfl, ?_⟩
    rw [if_pos hid, hnone]
    rfl
  · refine ⟨b, hb, rfl, rfl, rfl, ?_⟩
    split
    · rename_i hid
      obtain ⟨τ, hτ⟩ := Option.ne_none_iff_exists'.mp fun hnone => hnot ⟨hid, hnone⟩
      rw [hτ]
      rfl
    · rfl

theorem exists_mem_close (spaceId : String) (stamp : Nat) (h : a ∈ T) :
    ∃ b ∈ T.close spaceId stamp, b.id = a.id ∧ b.type = a.type ∧ b.refId = a.refId := by
  obtain ⟨b, hb, hid, rfl | rfl⟩ := Table.exists_mem_update (fun s : SpaceRow => s.id = spaceId ∧ s.retiredAt = none)
    (f := fun s => { s with retiredAt := some stamp }) (fun _ => rfl) h
  · exact ⟨_, hb, hid, rfl, rfl⟩
  · exact ⟨_, hb, hid, rfl, rfl⟩

theorem dbOk_commit_pass {stamp : Nat} {after : MemoryDb} (h : DbOk db) (ht : t ∈ db.txs)
    (hpass : t.pass = some ⟨projectId, .swept spaceId stamp⟩) (hc : db.commitTx t = some after) :
    DbOk { after with
      spaces := after.spaces.close spaceId stamp
      passes := db.passes ++ [projectId]
      retirements := db.retirements ++ [(projectId, stamp)] } := by
  obtain ⟨spaces, hspaces, rfl⟩ := Option.map_eq_some_iff.mp hc
  have hok := h.txs t ht
  obtain ⟨⟨hshares, hopened, _⟩, hsees, hstamp, hmine, hcovered⟩ := hok.pass _ hpass
  have hmem : ∀ {a}, a ∈ spaces ↔ a ∈ db.spaces ∨ a ∈ t.opened := mem_insertAll hspaces
  have hscopes : ∀ a ∈ spaces, ∀ b ∈ spaces, a.sameScope b → a = b := by
    intro a ha b hb hs
    rcases hmem.mp ha with ha | ha
    · rcases hmem.mp hb with hb | hb
      · exact h.scopes a ha b hb hs
      · exact absurd (sameScope_symm hs) (hok.openedFree b hb a ha).1
    · rcases hmem.mp hb with hb | hb
      · exact absurd hs (hok.openedFree a ha b hb).1
      · exact hok.openedOnce a ha b hb (.inl hs)
  -- the space of the project, committed or the pass's own
  obtain ⟨a₀, ha₀, hid₀, hof₀⟩ : ∃ a ∈ spaces, a.id = spaceId ∧ a.ofProject projectId := by
    rcases hsees with ⟨a, ha, hrest⟩ | ⟨a, ha, hrest⟩
    · exact ⟨a, hmem.mpr (.inl ha), hrest⟩
    · exact ⟨a, hmem.mpr (.inr ha), hrest⟩
  have hscope : ∀ a ∈ spaces, a.ofProject projectId → a.id = spaceId := by
    intro a ha hof
    rw [hscopes a ha a₀ ha₀ ⟨hof.1.trans hof₀.1.symm, hof.2.trans hof₀.2.symm⟩]
    exact hid₀
  have hone : ∀ a ∈ spaces, a.id = spaceId → a.ofProject projectId := by
    intro a ha hid
    have heq : a = a₀ := Table.eq_of_key ha ha₀ (hid.trans hid₀.symm)
    rw [heq]
    exact hof₀
  have hold : ∀ a ∈ spaces, a.id ≠ spaceId → a ∈ db.spaces := by
    intro a ha hne
    rcases hmem.mp ha with hx | hx
    · exact hx
    · exact absurd (hscope a ha (hopened a hx).1) hne
  have hstamped : ∀ a ∈ spaces, a.retiredAt =
      if a.type = .project then ((db.retirements.find? fun r => r.1 = a.refId).map Prod.snd).or
        (if a ∈ t.opened then some stamp else none) else none := by
    intro a ha
    rcases hmem.mp ha with hx | hx
    · have hno : a ∉ t.opened := fun ho => (hok.openedFree a ho a hx).2 rfl
      rw [h.stamped a hx, if_neg hno]
      split
      · exact Option.or_none.symm
      · rfl
    · have hnone : db.retirements.find? (fun r => r.1 = a.refId) = none := by
        rw [List.find?_eq_none]
        intro r hr href
        obtain ⟨b, hb, hof⟩ := h.logged r hr
        simp only [decide_eq_true_eq] at href
        exact (hok.openedFree a hx b hb).1 ⟨(hopened a hx).1.1.trans hof.1.symm, href.symm.trans hof.2.symm⟩
      rw [if_pos (hopened a hx).1.1, hnone, if_pos hx, hstamp a hx]
      rfl
  refine { scopes := ?_, closed := ?_, counted := ?_, stamped := ?_, logged := ?_, passes := ?_, txs := ?_, pairs := ?_ }
  · intro b hb b' hb' hs
    obtain ⟨a, ha, hid, htype, href, _⟩ := mem_close hb
    obtain ⟨a', ha', hid', htype', href', _⟩ := mem_close hb'
    have heq : a = a' := hscopes a ha a' ha' ⟨htype.symm.trans (hs.1.trans htype'), href.symm.trans (hs.2.trans href')⟩
    exact Table.eq_of_key hb hb' (hid.trans (heq ▸ hid'.symm))
  · intro b hb hr k shelf hx
    obtain ⟨a, ha, hid, _, _, hstampb⟩ := mem_close hb
    by_cases hs : a.id = spaceId
    · rw [hid, hs] at hx
      by_cases hch : t.Changes k shelf
      · have hview : (t.view db.vault).spaceAt k shelf = t.mine.spaceAt k shelf := (same_merge_of_not hch).spaceAt
        exact hmine k shelf (hview ▸ hx)
      · have hview : (t.view db.vault).spaceAt k shelf = db.vault.spaceAt k shelf := (same_merge_of_same (not_not.mp hch)).spaceAt
        exact hch (hcovered k shelf (hview ▸ hx))
    · rw [if_neg hs] at hstampb
      rw [hid] at hx
      rcases spaceAt_view hok hx with hshare | hx
      · rw [hshares] at hshare
        cases hshare
      · exact h.closed a (hold a ha hs) (hstampb ▸ hr) k shelf hx
  · intro x
    obtain ⟨own, heq, hown⟩ := events_view hok
    change retireCount x (t.view db.vault).auditEvents = _
    rw [heq, retireCount_append, hown x, Tx.sweeps, hpass]
    have hcount := h.counted x
    by_cases hx : x = spaceId
    · have hclosed : ∃ b ∈ spaces.close spaceId stamp, b.id = x ∧ b.retiredAt ≠ none := by
        obtain ⟨b, hb, hid, _, _⟩ := exists_mem_close spaceId stamp ha₀
        refine ⟨b, hb, hid.trans (hid₀.trans hx.symm), ?_⟩
        obtain ⟨a, _, hid', _, _, hstampb⟩ := mem_close hb
        rw [hstampb, if_pos (hid'.symm.trans (hid.trans hid₀))]
        cases a.retiredAt with
        | none => simp
        | some τ => simp
      rw [if_pos hclosed]
      by_cases hzero : retireCount x db.vault.auditEvents = 0
      · rw [if_pos ⟨hx ▸ rfl, hzero⟩, hzero]
      · rw [if_neg fun hy => hzero hy.2]
        split at hcount
        · exact hcount
        · exact absurd hcount hzero
    · rw [if_neg fun hy => hx (Option.some.inj hy.1).symm, Nat.add_zero, hcount]
      refine if_congr ⟨?_, ?_⟩ rfl rfl
      · rintro ⟨a, ha, hid, hr⟩
        obtain ⟨b, hb, hbid, _, _⟩ := exists_mem_close spaceId stamp (hmem.mpr (.inl ha))
        obtain ⟨a', ha', hid', _, _, hstampb⟩ := mem_close hb
        have hsame : a' = a := Table.eq_of_key ha' (hmem.mpr (.inl ha)) (hid'.symm.trans hbid)
        rw [hsame, if_neg fun hy => hx (hid.symm.trans hy)] at hstampb
        exact ⟨b, hb, hbid.trans hid, hstampb ▸ hr⟩
      · rintro ⟨b, hb, hid, hr⟩
        obtain ⟨a, ha, hbid, _, _, hstampb⟩ := mem_close hb
        have hne : a.id ≠ spaceId := fun hy => hx (hid.symm.trans (hbid.trans hy))
        rw [if_neg hne] at hstampb
        exact ⟨a, hold a ha hne, hbid.symm.trans hid, hstampb ▸ hr⟩
  · intro b hb
    obtain ⟨a, ha, _, htype, href, hstampb⟩ := mem_close hb
    rw [hstampb, htype, href, hstamped a ha]
    by_cases hs : a.id = spaceId
    · obtain ⟨htypep, hrefp⟩ := hone a ha hs
      rw [if_pos hs, if_pos htypep, if_pos htypep, List.find?_append, hrefp]
      cases db.retirements.find? (fun r => r.1 = projectId) with
      | some r => rfl
      | none =>
        by_cases ho : a ∈ t.opened
        · simp [ho]
        · simp [ho]
    · have hno : a ∉ t.opened := fun ho => hs (hscope a ha (hopened a ho).1)
      rw [if_neg hs, if_neg hno]
      split
      · rename_i htypea
        have hne : projectId ≠ a.refId := fun hy => hs (hscope a ha ⟨htypea, hy.symm⟩)
        rw [List.find?_append]
        simp [hne]
      · rfl
  · intro r hr
    rcases List.mem_append.mp hr with hr | hr
    · obtain ⟨a, ha, hof⟩ := h.logged r hr
      obtain ⟨b, hb, _, htype, href⟩ := exists_mem_close spaceId stamp (hmem.mpr (.inl ha))
      exact ⟨b, hb, htype.trans hof.1, href.trans hof.2⟩
    · rw [List.mem_singleton.mp hr]
      obtain ⟨b, hb, _, htype, href⟩ := exists_mem_close spaceId stamp ha₀
      exact ⟨b, hb, htype.trans hof₀.1, href.trans hof₀.2⟩
  · intro p hp
    rcases List.mem_append.mp hp with hp | hp
    · obtain ⟨r, hr, hrp⟩ := h.passes p hp
      exact ⟨r, List.mem_append_left _ hr, hrp⟩
    · rw [List.mem_singleton.mp hp]
      exact ⟨_, List.mem_append_right _ (List.mem_singleton.mpr rfl), rfl⟩
  · intro u hu
    obtain ⟨hu, hne⟩ := Table.mem_erase.mp hu
    refine txOk_committed h ht hu hne rfl rfl (fun _ hp => List.mem_append_left _ hp) ?_ ?_
    · intro b hb
      obtain ⟨a, ha, hid, htype, href, _⟩ := mem_close hb
      exact ⟨a, hmem.mp ha, hid, htype, href⟩
    · intro a ha
      obtain ⟨b, hb, hid, htype, href⟩ := exists_mem_close spaceId stamp (hmem.mpr (.inl ha))
      refine ⟨b, hb, hid, htype, href, fun hexcl hl => ?_⟩
      obtain ⟨a', ha', hid', _, _, hstampb⟩ := mem_close hb
      have hsame : a' = a := Table.eq_of_key ha' (hmem.mpr (.inl ha)) (hid'.symm.trans hid)
      have hne' : a'.id ≠ spaceId := by
        intro hy
        refine hexcl ?_
        rw [Tx.exclusive, hpass, ← hsame, hy]
      rw [hstampb, if_neg hne', hsame]
      exact hl
  · exact fun u hu x hx => h.pairs u (Table.mem_erase.mp hu).1 x (Table.mem_erase.mp hx).1

theorem dbOk_projects {projects : Table ProjectRow ProjectRow.id} (h : DbOk db)
    (hproject : ∀ p, (∃ project ∈ db.projects, project.id = p) ∨ p ∈ db.passes → (∃ project ∈ projects, project.id = p) ∨ p ∈ db.passes) :
    DbOk { db with projects } := by
  refine { scopes := h.scopes, closed := h.closed, counted := h.counted, stamped := h.stamped, logged := h.logged, passes := h.passes,
           txs := ?_, pairs := h.pairs }
  intro u hu
  exact TxOk.of_eq (h.txs u hu) rfl rfl hproject fun _ hp => hp

theorem dbOk_empty : DbOk empty where
  scopes := fun a ha => absurd ha (Table.not_mem_empty a)
  closed := fun a ha => absurd ha (Table.not_mem_empty a)
  counted := fun x => by
    rw [if_neg]
    · rfl
    · rintro ⟨a, ha, _⟩
      exact Table.not_mem_empty a ha
  stamped := fun a ha => absurd ha (Table.not_mem_empty a)
  logged := fun r hr => by cases hr
  passes := fun p hp => by cases hp
  txs := fun t ht => absurd ht (Table.not_mem_empty t)
  pairs := fun t ht => absurd ht (Table.not_mem_empty t)

theorem mem_txs (h : db.txs.get id = some t) : t ∈ db.txs := (Table.get_eq_some_iff.mp h).1

theorem writer_cases {f : Tx → Option MemoryDb} (h : db.writer id f = some db') : ∃ t ∈ db.txs, t.pass = none ∧ f t = some db' := by
  obtain ⟨t, ht, h⟩ := Option.bind_eq_some_iff.mp h
  split at h
  · rename_i hpass
    exact ⟨t, mem_txs ht, hpass, h⟩
  · cases h

theorem passes_apply (h : db.apply t w = some db') : db'.passes = db.passes := by
  unfold apply at h
  split at h
  · cases h
    rfl
  · cases h

end RetiredAux

open RetiredAux

variable {db : MemoryDb}

theorem DbOk.step {env : VaultEnv} {db' : MemoryDb} {a : DbAct} (h : DbOk db) (hstep : db.step env a = some db') : DbOk db' := by
  cases a with
  | deleteProject project =>
    simp only [MemoryDb.step] at hstep
    split at hstep
    · cases hstep
    · obtain ⟨projects, hprojects, rfl⟩ := Option.map_eq_some_iff.mp hstep
      refine dbOk_projects h fun p hp => hp.imp_left ?_
      rintro ⟨x, hx, hid⟩
      exact ⟨x, (Table.mem_of_insert hprojects).mpr (.inl hx), hid⟩
  | dropProject projectId =>
    simp only [MemoryDb.step] at hstep
    split at hstep
    · rename_i hpassed
      cases hstep
      refine dbOk_projects h ?_
      rintro p (⟨x, hx, rfl⟩ | hp)
      · by_cases hid : x.id = projectId
        · exact .inr (hid ▸ hpassed)
        · exact .inl ⟨x, Table.mem_erase.mpr ⟨hx, hid⟩, rfl⟩
      · exact .inr hp
    · cases hstep
  | start id =>
    simp only [MemoryDb.step] at hstep
    split at hstep
    · cases hstep
    · cases hstep
      exact dbOk_start h fun p hp => by cases hp
  | startPass id projectId =>
    simp only [MemoryDb.step] at hstep
    split at hstep
    · cases hstep
    · split at hstep
      · rename_i hknown
        cases hstep
        refine dbOk_start h fun p hp => ?_
        cases hp
        exact ⟨rfl, hknown⟩
      · cases hstep
  | openSpace id space =>
    obtain ⟨t, ht, hpass, hstep⟩ := writer_cases hstep
    split at hstep
    · rename_i hlive
      obtain ⟨t', ht', rfl⟩ := Option.map_eq_some_iff.mp hstep
      exact dbOk_openSpace h ht hpass hlive ht'
    · cases hstep
  | fence id spaceId =>
    obtain ⟨t, ht, hpass, hstep⟩ := writer_cases hstep
    obtain ⟨t', ht', rfl⟩ := Option.map_eq_some_iff.mp hstep
    exact dbOk_fence h ht hpass ht'
  | write id op =>
    obtain ⟨t, ht, hpass, hstep⟩ := writer_cases hstep
    split at hstep
    · rename_i hfences
      obtain ⟨w, hw, happly⟩ := Option.bind_eq_some_iff.mp hstep
      exact dbOk_write h ht hpass ((writes_run (VaultOp.run_of_run hw)).mono hfences) happly
    · cases hstep
  | restoreFrom id claimId spaceId stamp =>
    obtain ⟨t, ht, hpass, hstep⟩ := writer_cases hstep
    obtain ⟨r, hr, happly⟩ := Option.bind_eq_some_iff.mp hstep
    exact dbOk_write h ht hpass (WritesAux.writes_restoreClaimFrom hr) happly
  | find id =>
    obtain ⟨t, ht, hstep⟩ := Option.bind_eq_some_iff.mp hstep
    split at hstep
    · rename_i projectId hpass
      obtain ⟨t', ht', rfl⟩ := Option.map_eq_some_iff.mp hstep
      exact dbOk_findSpace h (mem_txs ht) hpass (.inl ⟨rfl, rfl⟩) ht'
    · rename_i projectId hpass
      obtain ⟨t', ht', rfl⟩ := Option.map_eq_some_iff.mp hstep
      exact dbOk_findSpace h (mem_txs ht) hpass (.inr ⟨rfl, rfl⟩) ht'
    · cases hstep
  | plant id spaceId now =>
    obtain ⟨t, ht, hstep⟩ := Option.bind_eq_some_iff.mp hstep
    split at hstep
    · rename_i projectId hpass
      obtain ⟨t', ht', rfl⟩ := Option.map_eq_some_iff.mp hstep
      exact dbOk_plant h (mem_txs ht) hpass ht'
    · cases hstep
  | sweep id now =>
    obtain ⟨t, ht, hstep⟩ := Option.bind_eq_some_iff.mp hstep
    split at hstep
    · rename_i projectId spaceId hpass
      exact dbOk_sweep h (mem_txs ht) hpass hstep
    · cases hstep
  | commit id =>
    obtain ⟨t, ht, hstep⟩ := Option.bind_eq_some_iff.mp hstep
    unfold commit at hstep
    split at hstep
    · rename_i hpass
      exact dbOk_commit_writer h (mem_txs ht) hpass hstep
    · rename_i projectId spaceId stamp hpass
      obtain ⟨after, hafter, rfl⟩ := Option.map_eq_some_iff.mp hstep
      exact dbOk_commit_pass h (mem_txs ht) hpass hafter
    · rename_i projectId hpass
      cases hstep
      have hended := ((h.txs t (mem_txs ht)).pass _ hpass).2.2
      refine dbOk_endTx h ?_ fun p hp => List.mem_append_left _ hp
      intro p hp
      rcases List.mem_append.mp hp with hp | hp
      · exact h.passes p hp
      · rw [List.mem_singleton.mp hp]
        exact h.passes projectId hended
    · cases hstep
  | abort id =>
    simp only [MemoryDb.step] at hstep
    split at hstep
    · cases hstep
      exact dbOk_endTx h h.passes fun _ hp => hp
    · cases hstep

theorem passes_mono {env : VaultEnv} {db' : MemoryDb} {a : DbAct} (hstep : db.step env a = some db') : ∀ p ∈ db.passes, p ∈ db'.passes := by
  have hsame : db'.passes = db.passes → ∀ p ∈ db.passes, p ∈ db'.passes := fun heq p hp => heq ▸ hp
  have hset : ∀ {o : Option Tx}, o.map (fun t => db.setTx t) = some db' → db'.passes = db.passes := by
    intro o ho
    obtain ⟨t, _, rfl⟩ := Option.map_eq_some_iff.mp ho
    rfl
  cases a with
  | deleteProject project =>
    simp only [MemoryDb.step] at hstep
    split at hstep
    · cases hstep
    · obtain ⟨projects, _, rfl⟩ := Option.map_eq_some_iff.mp hstep
      exact hsame rfl
  | dropProject projectId | abort id =>
    simp only [MemoryDb.step] at hstep
    split at hstep
    · cases hstep
      exact hsame rfl
    · cases hstep
  | start id =>
    simp only [MemoryDb.step] at hstep
    split at hstep
    · cases hstep
    · cases hstep
      exact hsame rfl
  | startPass id projectId =>
    simp only [MemoryDb.step] at hstep
    split at hstep
    · cases hstep
    · split at hstep
      · cases hstep
        exact hsame rfl
      · cases hstep
  | openSpace id space =>
    obtain ⟨t, _, _, hstep⟩ := writer_cases hstep
    split at hstep
    · exact hsame (hset hstep)
    · cases hstep
  | fence id spaceId =>
    obtain ⟨t, _, _, hstep⟩ := writer_cases hstep
    exact hsame (hset hstep)
  | write id op =>
    obtain ⟨t, _, _, hstep⟩ := writer_cases hstep
    split at hstep
    · obtain ⟨w, _, happly⟩ := Option.bind_eq_some_iff.mp hstep
      exact hsame (passes_apply happly)
    · cases hstep
  | restoreFrom id claimId spaceId stamp =>
    obtain ⟨t, _, _, hstep⟩ := writer_cases hstep
    obtain ⟨r, _, happly⟩ := Option.bind_eq_some_iff.mp hstep
    exact hsame (passes_apply happly)
  | find id =>
    obtain ⟨t, _, hstep⟩ := Option.bind_eq_some_iff.mp hstep
    split at hstep
    · exact hsame (hset hstep)
    · exact hsame (hset hstep)
    · cases hstep
  | plant id spaceId now =>
    obtain ⟨t, _, hstep⟩ := Option.bind_eq_some_iff.mp hstep
    split at hstep
    · exact hsame (hset hstep)
    · cases hstep
  | sweep id now =>
    obtain ⟨t, _, hstep⟩ := Option.bind_eq_some_iff.mp hstep
    split at hstep
    · exact hsame (passes_apply hstep)
    · cases hstep
  | commit id =>
    obtain ⟨t, _, hstep⟩ := Option.bind_eq_some_iff.mp hstep
    unfold commit at hstep
    split at hstep
    · obtain ⟨spaces, _, rfl⟩ := Option.map_eq_some_iff.mp hstep
      exact hsame rfl
    · obtain ⟨after, _, rfl⟩ := Option.map_eq_some_iff.mp hstep
      exact fun p hp => List.mem_append_left _ hp
    · cases hstep
      exact fun p hp => List.mem_append_left _ hp
    · cases hstep

/-- The project's memory is gone: one space, closed by the first retirement, which is on record once, and nothing in it. -/
def Gone (db : MemoryDb) (projectId : String) : Prop :=
  ∃ a ∈ db.spaces, a.ofProject projectId ∧ (∀ b ∈ db.spaces, b.ofProject projectId → b = a) ∧
    (∃ r, db.retirements.find? (fun r => r.1 = projectId) = some r ∧ a.retiredAt = some r.2) ∧
    ((∀ c ∈ db.vault.claims, c.spaceId ≠ a.id) ∧ (∀ n ∈ db.vault.notes, n.spaceId ≠ a.id) ∧
      ∀ c ∈ db.vault.candidates, c.spaceId ≠ a.id) ∧ (db.vault.retireEvents a.id).length = 1

theorem DbOk.gone {projectId : String} (h : DbOk db) (hp : projectId ∈ db.passes) : db.Gone projectId := by
  obtain ⟨r, hr, hrp⟩ := h.passes projectId hp
  obtain ⟨a, ha, htype, href⟩ := h.logged r hr
  have hrefp : a.refId = projectId := href.trans hrp
  have hfirst : ∃ first, db.retirements.find? (fun r => r.1 = projectId) = some first := by
    rw [← Option.isSome_iff_exists, List.find?_isSome]
    exact ⟨r, hr, by simpa using hrp⟩
  obtain ⟨first, hfirst⟩ := hfirst
  have hstamp : a.retiredAt = some first.2 := by
    rw [h.stamped a ha, if_pos htype, hrefp, hfirst]
    rfl
  have hretired : a.retiredAt ≠ none := by
    rw [hstamp]
    simp
  have hempty := h.closed a ha hretired
  refine ⟨a, ha, ⟨htype, hrefp⟩, ?_, ⟨first, hfirst, hstamp⟩, ⟨?_, ?_, ?_⟩, ?_⟩
  · intro b hb hof
    exact h.scopes b hb a ha ⟨hof.1.trans htype.symm, hof.2.trans hrefp.symm⟩
  · intro c hc hs
    refine hempty c.id .claims ?_
    rw [spaceAt, Table.get_eq_some_iff.mpr ⟨hc, rfl⟩, Option.map_some, hs]
  · intro n hn hs
    refine hempty n.id .notes ?_
    rw [spaceAt, Table.get_eq_some_iff.mpr ⟨hn, rfl⟩, Option.map_some, hs]
  · intro c hc hs
    refine hempty c.id .candidates ?_
    rw [spaceAt, Table.get_eq_some_iff.mpr ⟨hc, rfl⟩, Option.map_some, hs]
  · have hcount := h.counted a.id
    rw [if_pos ⟨a, ha, rfl, hretired⟩] at hcount
    exact hcount

/-- In every run of writers, creators of spaces and passes: once a pass has committed, the project's memory is gone, then and in every
later state. -/
theorem memory_stays_gone {env : VaultEnv} {db later : MemoryDb} (h : Steps.Reaches (step env) Steps.Free empty db) {projectId : String}
    (hp : projectId ∈ db.passes) (hlater : Steps.Reaches (step env) Steps.Free db later) : later.Gone projectId := by
  have hok : DbOk later := (h.trans hlater).invariant (I := DbOk) (fun _ _ _ hx _ hy => hx.step hy) dbOk_empty
  have hpasses : projectId ∈ later.passes :=
    hlater.invariant (I := fun db => projectId ∈ db.passes) (fun _ _ _ hx _ hy => passes_mono hy _ hx) hp
  exact hok.gone hpasses

namespace RetiredRun

def env : VaultEnv where
  production := false
  lower := fun s => s
  toLowerCase := fun s => s

/-- A fact about the project. -/
def fact : ClaimInput where
  spaceId := "s"
  statement := "Ships on Monday"
  slotKey := none
  value := none
  sensitive := false
  topicNoteId := none
  sourceClass := .ownerAuthored
  createdTaskId := none
  conflictsWith := none

/-- The project is deleted while a writer opens its space; the pass finds none, waits for the writer to commit, and sweeps what it wrote. -/
def acts : List DbAct :=
  [.deleteProject { id := "p", userId := "u" }, .start 1, .startPass 2 "p", .find 2,
    .openSpace 1 { id := "s", type := .project, refId := "p", ownerUserId := "u", retiredAt := none }, .fence 1 "s",
    .write 1 (.createClaim fact (fun _ => "c") 1), .commit 1, .plant 2 "t" 2, .find 2, .sweep 2 3, .commit 2]

/-- A second pass of the project. -/
def again : List DbAct := [.startPass 3 "p", .find 3, .sweep 3 9, .commit 3]

end RetiredRun

open RetiredRun

/-- The theorem at a pass that swept what a writer left, and at the state after a second pass. -/
theorem memory_stays_gone_again : ∃ db later : MemoryDb, "p" ∈ db.passes ∧ later.passes = ["p", "p"] ∧ later.Gone "p" := by
  obtain ⟨db, hdb, hp, hagain⟩ := Steps.exists_of_exec (step env) empty acts
    (P := fun db : MemoryDb => "p" ∈ db.passes ∧ (Steps.exec (step env) db again).any fun later => later.passes = ["p", "p"]) (by decide)
  obtain ⟨later, hlater, hpasses⟩ := (Option.any_eq_true _ _).mp hagain
  exact ⟨db, later, hp, by simpa using hpasses, memory_stays_gone hdb hp (Steps.reaches_of_exec hlater)⟩

end MemoryDb

end Capka

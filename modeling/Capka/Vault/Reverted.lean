import Capka.Vault.Swaps

/-!
# What a revert puts back

A stored version is neither changed nor removed, except that a retired space takes a note with all its versions, and no note comes under
its id again. So the version a revert has read is what the note said at that revision, whatever is written before the revert commits.
-/

namespace Capka

open Vault

/-- The version is stored, or its note is gone for good. -/
def Vault.Keeps (r : NoteVersion) (v : Vault) : Prop :=
  r ∈ v.noteVersions ∨ ((∃ m ∈ v.graph.nodes, m.id = r.noteId) ∧ ∀ n ∈ v.notes, n.id ≠ r.noteId)

/-- The version the revert is to restore: one that was stored under the number it names. -/
def RevertNoteArgs.Read (args : RevertNoteArgs) (v : Vault) (target : NoteVersion) : Prop :=
  v.Keeps target ∧ (target.noteId, target.revision) = (args.noteId, args.toRevision)

/-- What an open revert has read by then. -/
def NotePhase.Knows (args : RevertNoteArgs) (v : Vault) : NotePhase → Prop
  | .ready _ target => args.Read v target
  | .won _ target => args.Read v target
  | .writing args' => ∃ revision target keep, args' = args.toRevise revision target keep ∧ args.Read v target
  | _ => True

namespace RevertedAux

variable {env : VaultEnv} {s t : MemoryStore} {v w : Vault} {args : RevertNoteArgs} {phase : NotePhase} {fresh : Nat → String} {now : Nat}

theorem stored {r : NoteVersion} (h : v.Keeps r) {n : VaultNote} (hn : n ∈ v.notes) (hid : n.id = r.noteId) : r ∈ v.noteVersions := by
  rcases h with h | ⟨_, hgone⟩
  · exact h
  · exact absurd hid (hgone n hn)

/-- What grows and takes away no version keeps what it has. -/
theorem keeps_of_grows (hgrows : Grows v w) (hver : ∀ r ∈ v.noteVersions, w.Keeps r) {r : NoteVersion} (h : v.Keeps r) : w.Keeps r := by
  rcases h with h | ⟨⟨m, hm, hmid⟩, hgone⟩
  · exact hver r h
  · obtain ⟨m', hm', hid⟩ := hgrows.nodes m hm
    refine .inr ⟨⟨m', hm', hid.trans hmid⟩, fun n' hn' hnid => ?_⟩
    rcases hgrows.notes n' hn' with ⟨n, hn, heq, _⟩ | hnew
    · exact hgone n hn (heq.trans hnid)
    · exact hnew m hm (hmid.trans hnid.symm)

theorem keeps_step (hstep : VaultStep env S v w) {r : NoteVersion} (h : v.Keeps r) : w.Keeps r := by
  refine keeps_of_grows (grows_of_step hstep) (fun r hr => .inl ?_) h
  cases notesMove_of_step hstep with
  | kept fwd bwd versions => exact versions ▸ hr
  | born note version fresh free first of notes versions => exact (versions r).mpr (.inl hr)
  | revised note note' version was is of notes versions => exact (versions r).mpr (.inl hr)

theorem keeps_run (hrun : VaultRun env S v w) {r : NoteVersion} (h : v.Keeps r) : w.Keeps r := by
  induction hrun with
  | refl => exact h
  | tail _ hlast ih => exact keeps_step hlast ih

/-- The versions that a retired space takes are those of its notes. -/
theorem keeps_retire (hrows : v.RowsOk) (hhist : v.Histories) {spaceId : String} {now : Nat} {r : NoteVersion} (h : v.Keeps r) :
    (v.retire spaceId now).Keeps r := by
  have hretire : (v.retire spaceId now).noteVersions = (v.wipe spaceId now).noteVersions ∧
      (v.retire spaceId now).notes = (v.wipe spaceId now).notes := by
    unfold retire
    split <;> exact ⟨rfl, rfl⟩
  refine keeps_of_grows (grows_retire spaceId now) (fun r hr => ?_) h
  obtain ⟨n, hn, hid, _⟩ := hhist.owned r hr
  by_cases hs : n.spaceId = spaceId
  · obtain ⟨m, hm, hmid, _⟩ := hrows.noteNodes n hn
    obtain ⟨m', hm', hid'⟩ := (grows_retire spaceId now).nodes m hm
    refine .inr ⟨⟨m', hm', hid'.trans (hmid.trans hid)⟩, fun x hx hxid => ?_⟩
    rw [hretire.2] at hx
    obtain ⟨hx, hxs⟩ := Table.mem_filter.mp hx
    rw [Table.eq_of_key hx hn (hxid.trans hid.symm)] at hxs
    simp [hs] at hxs
  · refine .inl (hretire.1 ▸ Table.mem_filter.mpr ⟨hr, ?_⟩)
    simp only [decide_eq_true_eq]
    rintro ⟨x, hx, hxid, hxs⟩
    rw [Table.eq_of_key hx hn (hxid.trans hid.symm)] at hxs
    exact hs hxs

theorem keeps_memory {act : MemoryAct} (hrows : s.vault.RowsOk) (hhist : s.vault.Histories) (hstep : s.step env act = some t)
    {r : NoteVersion} (h : s.vault.Keeps r) : t.vault.Keeps r := by
  cases act with
  | write op =>
    exact keeps_run (VaultOp.run_of_run (MemoryStore.write_cases hstep).2.2) h
  | openSpace space =>
    simp only [MemoryStore.step] at hstep
    split at hstep
    · obtain ⟨spaces, _, rfl⟩ := Option.map_eq_some_iff.mp hstep
      exact h
    · cases hstep
  | retire spaceId now =>
    cases hstep
    exact keeps_retire hrows hhist h

theorem knows_mono (h : phase.Knows args v) (hkeeps : ∀ r, v.Keeps r → w.Keeps r) : phase.Knows args w := by
  have hread : ∀ {target}, args.Read v target → args.Read w target := fun h => ⟨hkeeps _ h.1, h.2⟩
  cases phase with
  | begun | aimed revision => trivial
  | ready revision target | won revision target => exact hread h
  | writing args' =>
    obtain ⟨revision, target, keep, heq, h⟩ := h
    exact ⟨revision, target, keep, heq, hread h⟩

/-- The next statement of a revert: it goes on with what it knows, or restores the version it has read. -/
theorem knows_statement (env : VaultEnv) (fresh : Nat → String) (now : Nat) (h : phase.Knows args s.vault) :
    match s.nextStatement env (.revert args) fresh now phase with
    | .goesOn next => next.Knows args s.vault
    | .answers _ => True
    | .commits w answer => ∃ revision target keep result, args.Read s.vault target ∧
        s.vault.reviseNote env (args.toRevise revision target keep) fresh now = some (w, result) ∧ answer = .reverted result.asRevert := by
  cases phase with
  | begun =>
    simp only [MemoryStore.nextStatement]
    cases s.vault.revertHead args <;> trivial
  | aimed revision =>
    simp only [MemoryStore.nextStatement]
    cases hget : s.vault.noteVersions.get (args.noteId, args.toRevision) with
    | none => trivial
    | some target =>
      obtain ⟨hmem, hkey⟩ := Table.get_eq_some_iff.mp hget
      exact ⟨.inl hmem, hkey⟩
  | ready revision target =>
    rcases SwapsAux.swapRevision_cases s (args.toRevise revision target []) (.revert args) (.won revision target) with
      ⟨heq, _⟩ | ⟨_, heq, _⟩
    · simp only [MemoryStore.nextStatement, heq]
      exact h
    · simp only [MemoryStore.nextStatement, heq]
  | won revision target => exact ⟨revision, target, _, rfl, h⟩
  | writing args' =>
    obtain ⟨revision, target, keep, rfl, hread⟩ := h
    simp only [MemoryStore.nextStatement, MemoryStore.writeRevision]
    cases hr : s.vault.reviseNote env (args.toRevise revision target keep) fresh now with
    | none => trivial
    | some r => exact ⟨revision, target, keep, r.2, hread, hr, rfl⟩

/-- A revision that went through: the note was at the revision before, and says what it was to say. -/
theorem revised {a : ReviseNoteArgs} {k : Nat} (h : v.reviseNote env a fresh now = some (w, .ok k)) : k = a.expectedRevision + 1 ∧
    (∃ n ∈ v.notes, n.id = a.noteId ∧ n.currentRevision = a.expectedRevision) ∧
      ∃ n ∈ w.notes, n.id = a.noteId ∧ n.currentRevision = k ∧ ∃ l, n.body = a.body.text l := by
  rcases reviseNote_cases h with ⟨_, _, _, _, hmoved⟩ | ⟨⟨n, hn, hid, _, hrev⟩, notes, linked, x, rfl, _, hx, hr⟩
  · cases hmoved
  · obtain ⟨rfl, hk⟩ := Prod.mk.inj hr
    cases hk
    obtain ⟨_, _, _, _, _, _, _, hw⟩ := insertNoteVersion_cases hx
    refine ⟨rfl, ⟨n, hn, hid, hrev⟩, ?_⟩
    refine ⟨{ n with currentRevision := a.expectedRevision + 1, title := fitNoteTitle a.title, body := a.body.text linked.2 }, ?_, hid, rfl,
      linked.2, rfl⟩
    rw [hw]
    have hbumped := (Table.mem_update (p := fun n : VaultNote => n.id = a.noteId) (f := fun n : VaultNote =>
      { n with currentRevision := a.expectedRevision + 1, title := fitNoteTitle a.title }) fun _ => rfl).mpr (.inl ⟨n, hn, hid, rfl⟩)
    exact (Table.mem_update (f := fun n : VaultNote => { n with body := a.body.text linked.2 }) fun _ => rfl).mpr
      (.inl ⟨_, hbumped, hid, rfl⟩)

theorem ok_of_asRevert {result : ReviseResult} {k : Nat} (h : result.asRevert = .ok k) : result = .ok k := by
  cases result with
  | ok revision => exact congrArg ReviseResult.ok (RevertResult.ok.inj h)
  | moved revision title =>
    rw [ReviseResult.asRevert] at h
    split at h <;> cases h

end RevertedAux

namespace NoteDb

open RevertedAux

variable {env : VaultEnv} {d d' d₁ d₂ : NoteDb}

/-- Every open revert knows what its phase says. -/
def Knowing (d : NoteDb) : Prop := ∀ t ∈ d.calls, ∀ args, t.call = .revert args → t.phase.Knows args d.store.vault

/-- The step lemma: every step keeps the versions that notes have and what open reverts know of them. -/
theorem Knowing.step {act : NoteAct} (h : Knowing d) (hok : Ok d) (hstep : d.step env act = some d') :
    (∀ r, d.store.vault.Keeps r → d'.store.vault.Keeps r) ∧ Knowing d' := by
  have hkept : ∀ {d' : NoteDb}, (∀ r, d.store.vault.Keeps r → d'.store.vault.Keeps r) → (∀ t ∈ d'.calls, t ∈ d.calls) →
      Knowing d' := fun hkeeps hcalls t ht args hcall => knows_mono (h t (hcalls t ht) args hcall) hkeeps
  have herase : ∀ {id}, ∀ t ∈ d.calls.erase id, t ∈ d.calls := fun t ht => (Table.mem_erase.mp ht).1
  cases act with
  | begin id call =>
    obtain ⟨calls, hcalls, rfl⟩ := Option.map_eq_some_iff.mp hstep
    refine ⟨fun _ hr => hr, fun t ht args hcall => ?_⟩
    rcases (Table.mem_of_insert hcalls).mp ht with ht | rfl
    · exact h t ht args hcall
    · trivial
  | run id fresh now =>
    obtain ⟨t, ht, hstep⟩ := Option.bind_eq_some_iff.mp hstep
    have hmem := (Table.get_eq_some_iff.mp ht).1
    have hcase : SwapsAux.StatementCase env d.store t.call t.phase (d.store.nextStatement env t.call fresh now t.phase) :=
      SwapsAux.nextStatement_cases (hok.fits t hmem) (hok.held t hmem)
    cases hout : d.store.nextStatement env t.call fresh now t.phase with
    | goesOn next =>
      rw [hout, NoteDb.apply] at hstep
      split at hstep
      · cases hstep
        refine ⟨fun _ hr => hr, fun x hx args hcall => ?_⟩
        rcases Table.mem_put.mp hx with rfl | ⟨hx, _⟩
        · have hrevert : t.call = .revert args := hcall
          have hnext := knows_statement env fresh now (h t hmem args hrevert)
          rw [← hrevert, hout] at hnext
          exact hnext
        · exact h x hx args hcall
      · cases hstep
    | answers answer =>
      rw [hout] at hstep
      cases hstep
      exact ⟨fun _ hr => hr, hkept (fun _ hr => hr) herase⟩
    | commits w answer =>
      have hvault : ∀ r, d.store.vault.Keeps r → w.Keeps r := by
        rw [hout] at hcase
        cases hcase with
        | creates args fresh now r is created =>
          exact fun _ => keeps_step (S := [args.spaceId]) (.createNote args fresh now r List.mem_cons_self created)
        | writes args fresh now vault has revised => exact fun _ => keeps_step (S := []) (.reviseNote args fresh now _ revised)
      rw [hout, NoteDb.apply] at hstep
      split at hstep
      · cases hstep
        exact ⟨hvault, hkept hvault herase⟩
      · cases hstep
  | abort id =>
    cases hstep
    exact ⟨fun _ hr => hr, hkept (fun _ hr => hr) herase⟩
  | other act =>
    obtain ⟨store, hstore, rfl⟩ := Option.map_eq_some_iff.mp hstep
    have hvault : ∀ r, d.store.vault.Keeps r → store.vault.Keeps r :=
      fun _ => keeps_memory hok.rows hok.histories (Option.filter_eq_some_iff.mp hstore).1
    exact ⟨hvault, hkept hvault fun _ ht => ht⟩

/-- What holds at the two ends of a run, and what the first hands on to the second. -/
theorem good_of_reaches (h₀ : Steps.Reaches (step env) Steps.Free empty d) (h : Steps.Reaches (step env) Steps.Free d d') :
    Ok d ∧ Ok d' ∧ Knowing d' ∧ ∀ r, d.store.vault.Keeps r → d'.store.vault.Keeps r := by
  have hinv : ∀ x a y, Ok x ∧ Knowing x → Steps.Free x a → step env x a = some y → Ok y ∧ Knowing y :=
    fun _ _ _ hx _ hy => ⟨(hx.1.step hy).1, (hx.2.step hx.1 hy).2⟩
  have hgood : Ok d ∧ Knowing d := h₀.invariant hinv ⟨ok_empty, fun t ht => absurd ht (Table.not_mem_empty t)⟩
  obtain ⟨hok, hknow⟩ := h.invariant hinv hgood
  refine ⟨hgood.1, hok, hknow,
    h.relates (R := fun x y => ∀ r, x.store.vault.Keeps r → y.store.vault.Keeps r) hinv hgood (fun _ hr => hr) ?_⟩
  exact fun _ _ _ hx hR _ hy r hr => (hx.2.step hx.1 hy).1 r (hR r hr)

/-- A history is only added to. Whatever calls and other writes there are, a stored version stays as it is for as long as its note does. -/
theorem versions_kept (h₀ : Steps.Reaches (step env) Steps.Free empty d) (h : Steps.Reaches (step env) Steps.Free d d') {r : NoteVersion}
    (hr : r ∈ d.store.vault.noteVersions) {n : VaultNote} (hn : n ∈ d'.store.vault.notes) (hid : n.id = r.noteId) :
    r ∈ d'.store.vault.noteVersions :=
  stored ((good_of_reaches h₀ h).2.2.2 r (.inl hr)) hn hid

/-- Undo is exact. A revert that commits leaves the note with all versions it had at any earlier moment, and with the words it had when its
revision was the one asked for, whatever was written to the memory between the two. -/
theorem revert_restores (h₀ : Steps.Reaches (step env) Steps.Free empty d) (h : Steps.Reaches (step env) Steps.Free d d') {n : VaultNote}
    (hn : n ∈ d.store.vault.notes) {args : RevertNoteArgs} (hid : args.noteId = n.id) (hrev : args.toRevision = n.currentRevision)
    {t : NoteTx} (ht : t ∈ d'.calls) (hcall : t.call = .revert args) {fresh : Nat → String} {now k : Nat} {w : Vault}
    (hout : d'.store.nextStatement env (.revert args) fresh now t.phase = .commits w (.reverted (.ok k))) :
    (∃ n' ∈ w.notes, n'.id = n.id ∧ n'.body = n.body ∧ n'.currentRevision = k ∧ n.currentRevision < k) ∧
      ∀ r ∈ d.store.vault.noteVersions, r.noteId = n.id → r ∈ w.noteVersions := by
  obtain ⟨hok₀, hok, hknow, hlasts⟩ := good_of_reaches h₀ h
  have hstatement := knows_statement env fresh now (hknow t ht args hcall)
  rw [hout] at hstatement
  obtain ⟨revision, target, keep, result, ⟨hkept, hread⟩, hrevise, hanswer⟩ := hstatement
  rw [ok_of_asRevert (NoteAnswer.reverted.inj hanswer).symm] at hrevise
  obtain ⟨hk, ⟨n₁, hn₁, hid₁, hrev₁⟩, n₂, hn₂, hid₂, hrev₂, _, hbody₂⟩ := revised hrevise
  -- the version stored with the note is still there, and so is the one that was read: one row, by their key
  obtain ⟨r, hr, hrid, hrrev, hrbody⟩ := hok₀.histories.head n hn
  have hr₁ : r ∈ d'.store.vault.noteVersions := stored (hlasts r (.inl hr)) hn₁ (hid₁.trans (hid.trans hrid.symm))
  have htarget : target ∈ d'.store.vault.noteVersions := stored hkept hn₁ (hid₁.trans (congrArg Prod.fst hread).symm)
  have heq : r = target := Table.eq_of_key hr₁ htarget ((Prod.ext (hrid.trans hid.symm) (hrrev.trans hrev.symm)).trans hread.symm)
  obtain ⟨x, hx, hxid, _, hle⟩ := hok.histories.owned r hr₁
  obtain rfl : x = n₁ := Table.eq_of_key hx hn₁ (hxid.trans (hrid.trans (hid.symm.trans hid₁.symm)))
  refine ⟨⟨n₂, hn₂, hid₂.trans hid, ?_, hrev₂, by omega⟩, fun r hr hrid => ?_⟩
  · rw [hbody₂, ← hrbody, heq]
    rfl
  · have hwritten : VaultStep env [] d'.store.vault w := .reviseNote _ fresh now _ hrevise
    exact stored (keeps_step hwritten (hlasts r (.inl hr))) hn₂ (hid₂.trans (hid.trans hrid.symm))

end NoteDb

namespace RevertedRun

/-- A revert of the note to its first version. -/
def undo : RevertNoteArgs := { noteId := "n", spaceId := "s", toRevision := 1, expectedRevision := some 2 }

/-- The revert is about to commit. -/
def due (d : NoteDb) : Bool :=
  match d.calls.get 3 with
  | some { call := .revert args, phase, .. } => args = undo &&
      match d.store.nextStatement MemoryStore.CorrectRun.env (.revert undo) (MemoryStore.CorrectRun.idsOf 'z') 5 phase with
      | .commits _ answer => answer = .reverted (.ok 3)
      | _ => false
  | _ => false

end RevertedRun

namespace NoteDb

/-- The first version, after two more. -/
theorem versions_kept_milk : ∃ (d : NoteDb) (r : NoteVersion), (r.revision, r.bodyMarkdown) = (1, "milk") ∧
    r ∈ d.store.vault.noteVersions ∧ (d.store.vault.notes.get r.noteId).map VaultNote.currentRevision = some 3 := by
  obtain ⟨d, h₀, r, hr, hwords, hafter⟩ := Steps.exists_of_exec (step MemoryStore.CorrectRun.env) empty (SwapsRun.race.take 3)
    (P := fun d => ∃ r ∈ d.store.vault.noteVersions, (r.revision, r.bodyMarkdown) = (1, "milk") ∧
      (Steps.exec (step MemoryStore.CorrectRun.env) d (SwapsRun.race.drop 3)).any
        (fun d' => decide ((d'.store.vault.notes.get r.noteId).map VaultNote.currentRevision = some 3)) = true) (by decide +kernel)
  obtain ⟨d', h, hlast⟩ := Steps.exists_of_exec _ d _ hafter
  obtain ⟨n, hn, _⟩ := Option.map_eq_some_iff.mp hlast
  obtain ⟨hmem, hid⟩ := Table.get_eq_some_iff.mp hn
  exact ⟨d', r, hwords, versions_kept h₀ h hr hmem hid, hlast⟩

/-- The revert of the race, when milk and tea stands where there was milk. -/
theorem revert_restores_milk : ∃ (n : VaultNote) (w : Vault), n.body = "milk" ∧ ∃ n' ∈ w.notes, n'.id = n.id ∧ n'.body = n.body := by
  obtain ⟨d, h₀, n, hn, hbody, hafter⟩ := Steps.exists_of_exec (step MemoryStore.CorrectRun.env) empty (SwapsRun.race.take 3)
    (P := fun d => ∃ n ∈ d.store.vault.notes, (n.id, n.currentRevision, n.body) = ("n", 1, "milk") ∧
      (Steps.exec (step MemoryStore.CorrectRun.env) d (SwapsRun.race.drop 3).dropLast).any (fun d' => decide (RevertedRun.due d' = true)) = true)
    (by decide +kernel)
  obtain ⟨d', h, hdue⟩ := Steps.exists_of_exec _ d _ hafter
  simp only [Prod.mk.injEq] at hbody
  unfold RevertedRun.due at hdue
  split at hdue
  · rename_i args phase ht
    obtain ⟨hargs, hout⟩ := Bool.and_eq_true_iff.mp hdue
    split at hout
    · rename_i w answer hcommits
      obtain rfl := of_decide_eq_true hargs
      obtain rfl := of_decide_eq_true hout
      have hid : RevertedRun.undo.noteId = n.id := hbody.1.symm
      have hrev : RevertedRun.undo.toRevision = n.currentRevision := hbody.2.1.symm
      obtain ⟨⟨n', hn', hid, hsame, _⟩, _⟩ := revert_restores h₀ h hn hid hrev (Table.get_eq_some_iff.mp ht).1 rfl hcommits
      exact ⟨n, w, hbody.2.2, n', hn', hid, hsame⟩
    · cases hout
  · cases hdue

end NoteDb

end Capka

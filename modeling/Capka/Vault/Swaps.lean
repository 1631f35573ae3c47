import Capka.Vault.Correctable
import Capka.Vault.Histories

/-!
# What a compare-and-set on a note guards

From the moment a call won its compare-and-set to its commit the note is at the revision the call expects, since no other transaction
changes the row. So the version it writes is the next, and what it found wins no second time.
-/

namespace Capka

/-- The revision a call holds the note's row at, or is about to. -/
def NoteCall.swapArgs : NoteCall → NotePhase → Option ReviseNoteArgs
  | .revert args, .won revision target => some (args.toRevise revision target [])
  | _, .writing args => some args
  | _, _ => none

/-- The revision is one the call may take: the one it was made with, where it was made with one. -/
def NoteCall.Allows (revision : Nat) (call : NoteCall) : Prop := ∀ noteId k, call.Expects noteId k → k = revision

/-- The phase of a call is one of its own, and what it knows by then is what it was asked. -/
def NoteCall.Fits : NoteCall → NotePhase → Prop
  | _, .begun => True
  | .revise args, .writing args' => args' = args
  | .revert args, .aimed revision => (NoteCall.revert args).Allows revision
  | .revert args, .ready revision _ => (NoteCall.revert args).Allows revision
  | .revert args, .won revision _ => (NoteCall.revert args).Allows revision
  | .revert args, .writing args' => args'.noteId = args.noteId ∧ (NoteCall.revert args).Allows args'.expectedRevision
  | _, _ => False

namespace SwapsAux

variable {env : VaultEnv} {s : MemoryStore} {v w : Vault} {call : NoteCall} {phase : NotePhase} {fresh : Nat → String} {now : Nat}

theorem holds_iff (h : call.Fits phase) : phase.holds = true ↔ ∃ args, call.swapArgs phase = some args := by
  cases phase <;> cases call <;> simp_all [NotePhase.holds, NoteCall.swapArgs, NoteCall.Fits]

theorem noteId_of_swapArgs {args : ReviseNoteArgs} (h : call.Fits phase) (hargs : call.swapArgs phase = some args) :
    call.noteId = some args.noteId ∧ call.Allows args.expectedRevision := by
  cases call with
  | create a => cases phase <;> simp_all [NoteCall.swapArgs, NoteCall.Fits]
  | revise a =>
    cases phase with
    | writing a' =>
      cases hargs
      obtain rfl : args = a := h
      refine ⟨rfl, ?_⟩
      rintro noteId k ⟨_, rfl⟩
      rfl
    | begun => cases hargs
    | aimed revision => cases hargs
    | ready revision target => cases hargs
    | won revision target => cases hargs
  | revert a =>
    cases phase with
    | won revision target =>
      cases hargs
      exact ⟨rfl, h⟩
    | writing a' =>
      cases hargs
      exact ⟨congrArg some h.1.symm, h.2⟩
    | begun => cases hargs
    | aimed revision => cases hargs
    | ready revision target => cases hargs

theorem swapRevision_cases (s : MemoryStore) (args : ReviseNoteArgs) (call : NoteCall) (next : NotePhase) :
    (s.swapRevision args call next = .goesOn next ∧ s.vault.RevisionIs args) ∨
      ∃ answer, s.swapRevision args call next = .answers answer ∧ answer.ok = false := by
  have hlost : ∀ revision title, (call.answer (.moved revision title)).ok = false := by
    intro revision title
    cases call with
    | create a => rfl
    | revise a => rfl
    | revert a =>
      by_cases hzero : revision < 1
      · simp [NoteCall.answer, NoteAnswer.ok, ReviseResult.asRevert, hzero]
      · simp [NoteCall.answer, NoteAnswer.ok, ReviseResult.asRevert, hzero]
  unfold MemoryStore.swapRevision
  split
  · split
    · rename_i hrev
      exact .inl ⟨rfl, hrev⟩
    · right
      split
      · exact ⟨_, rfl, hlost 0 ""⟩
      · exact ⟨_, rfl, hlost _ _⟩
  · exact .inr ⟨_, rfl, rfl⟩

theorem writeRevision_cases (env : VaultEnv) (call : NoteCall) (fresh : Nat → String) (now : Nat) {args : ReviseNoteArgs}
    (hrev : s.vault.RevisionIs args) :
    s.writeRevision env args call fresh now = .answers .threw ∨
      ∃ vault, s.writeRevision env args call fresh now = .commits vault (call.answer (.ok (args.expectedRevision + 1))) ∧
        s.vault.reviseNote env args fresh now = some (vault, .ok (args.expectedRevision + 1)) := by
  unfold MemoryStore.writeRevision
  split
  · exact .inl rfl
  · rename_i r hr
    right
    rcases Vault.reviseNote_cases hr with ⟨_, hnot, _⟩ | ⟨_, _, _, x, _, _, _, rfl⟩
    · exact absurd hrev hnot
    · exact ⟨x.1, rfl, hr⟩

/-- What one statement of a call comes to. -/
inductive StatementCase (env : VaultEnv) (s : MemoryStore) (call : NoteCall) (phase : NotePhase) : NoteOutcome → Prop where
  | goesOn (next : NotePhase) (fits : call.Fits next)
      (held : ∀ args, call.swapArgs next = some args → s.vault.RevisionIs args ∨
        ∃ args', call.swapArgs phase = some args' ∧ args'.noteId = args.noteId ∧ args'.spaceId = args.spaceId ∧
          args'.expectedRevision = args.expectedRevision) :
    StatementCase env s call phase (.goesOn next)
  | fails (answer : NoteAnswer) (lost : answer.ok = false) : StatementCase env s call phase (.answers answer)
  | creates (args : CreateNoteArgs) (fresh : Nat → String) (now : Nat) (r : Vault × String × Bool) (is : call = .create args)
      (created : s.vault.createNote env args fresh now = some r) : StatementCase env s call phase (.commits r.1 (.created r.2.1))
  | writes (args : ReviseNoteArgs) (fresh : Nat → String) (now : Nat) (vault : Vault) (has : call.swapArgs phase = some args)
      (revised : s.vault.reviseNote env args fresh now = some (vault, .ok (args.expectedRevision + 1))) :
    StatementCase env s call phase (.commits vault (call.answer (.ok (args.expectedRevision + 1))))

theorem allows_of_revertHead {args : RevertNoteArgs} {revision : Nat} (h : v.revertHead args = .ok revision) :
    (NoteCall.revert args).Allows revision := by
  unfold Vault.revertHead at h
  split at h
  · cases h
  · rename_i head _
    split at h
    · cases h
    · rename_i hexp
      split at h
      · cases h
      · cases h
        rintro noteId k ⟨_, hk⟩
        by_contra hne
        refine hexp ⟨by simp [hk], fun heq => hne ?_⟩
        exact Option.some.inj (hk.symm.trans heq)

theorem revertHead_error_ne_ok (args : RevertNoteArgs) (revision : Nat) : v.revertHead args ≠ .error (.ok revision) := by
  unfold Vault.revertHead
  split
  · simp
  · split
    · simp
    · split
      · simp
      · simp

theorem nextStatement_cases (hfits : call.Fits phase) (hheld : ∀ args, call.swapArgs phase = some args → s.vault.RevisionIs args) :
    StatementCase env s call phase (s.nextStatement env call fresh now phase) := by
  have hswap : ∀ args next, call.Fits next → (∀ args', call.swapArgs next = some args' → args'.noteId = args.noteId ∧
      args'.spaceId = args.spaceId ∧ args'.expectedRevision = args.expectedRevision) →
      StatementCase env s call phase (s.swapRevision args call next) := by
    intro args next hnext hsame
    rcases swapRevision_cases s args call next with ⟨heq, hrev⟩ | ⟨answer, heq, hlost⟩
    · rw [heq]
      refine .goesOn next hnext fun args' hargs' => .inl ?_
      obtain ⟨hid, hspace, hexp⟩ := hsame args' hargs'
      obtain ⟨n, hn, hnid, hns, hnrev⟩ := hrev
      exact ⟨n, hn, hnid.trans hid.symm, hns.trans hspace.symm, hnrev.trans hexp.symm⟩
    · rw [heq]
      exact .fails answer hlost
  have hwrite : ∀ {args}, call.swapArgs phase = some args → StatementCase env s call phase (s.writeRevision env args call fresh now) := by
    intro args hargs
    rcases writeRevision_cases env call fresh now (hheld args hargs) with heq | ⟨vault, heq, hrev⟩
    · rw [heq]
      exact .fails _ rfl
    · rw [heq]
      exact .writes args fresh now vault hargs hrev
  cases call with
  | create a =>
    cases phase with
    | begun =>
      simp only [MemoryStore.nextStatement]
      split
      · split
        · exact .fails _ rfl
        · rename_i r hr
          exact .creates a fresh now r rfl hr
      · exact .fails _ rfl
    | aimed revision => cases hfits
    | ready revision target => cases hfits
    | won revision target => cases hfits
    | writing a' => cases hfits
  | revise a =>
    cases phase with
    | begun =>
      refine hswap a (.writing a) rfl ?_
      rintro args' hargs'
      cases hargs'
      exact ⟨rfl, rfl, rfl⟩
    | writing a' => exact hwrite rfl
    | aimed revision => cases hfits
    | ready revision target => cases hfits
    | won revision target => cases hfits
  | revert a =>
    cases phase with
    | begun =>
      simp only [MemoryStore.nextStatement]
      split
      · rename_i result hresult
        refine .fails _ ?_
        cases result with
        | ok revision => exact absurd hresult (revertHead_error_ne_ok a revision)
        | notFound => rfl
        | notRevertable => rfl
        | revisionMoved revision => rfl
      · rename_i revision hrevision
        exact .goesOn _ (allows_of_revertHead hrevision) fun args' hargs' => by cases hargs'
    | aimed revision =>
      simp only [MemoryStore.nextStatement]
      split
      · exact .fails _ rfl
      · exact .goesOn _ hfits fun args' hargs' => by cases hargs'
    | ready revision target =>
      refine hswap _ (.won revision target) hfits ?_
      rintro args' hargs'
      cases hargs'
      exact ⟨rfl, rfl, rfl⟩
    | won revision target =>
      refine .goesOn _ ⟨rfl, hfits⟩ fun args' hargs' => .inr ?_
      cases hargs'
      exact ⟨_, rfl, rfl, rfl, rfl⟩
    | writing a' => exact hwrite rfl

end SwapsAux

namespace NoteDb

/-- What holds of the database between two statements. -/
structure Ok (d : NoteDb) : Prop where
  rows : d.store.vault.RowsOk
  histories : d.store.vault.Histories
  fits : ∀ t ∈ d.calls, t.call.Fits t.phase
  held : ∀ t ∈ d.calls, ∀ args, t.call.swapArgs t.phase = some args → d.store.vault.RevisionIs args
  alone : ∀ t ∈ d.calls, ∀ t' ∈ d.calls, t.locks ≠ none → t.locks = t'.locks → t.id = t'.id
  spent : ∀ a ∈ d.done, a.2.ok = true → ∀ noteId k, a.1.Expects noteId k →
    (∃ m ∈ d.store.vault.graph.nodes, m.id = noteId) ∧ ∀ n ∈ d.store.vault.notes, n.id = noteId → k < n.currentRevision
  once : d.done.Pairwise fun a b => a.2.ok = true → b.2.ok = true → ∀ noteId k, a.1.Expects noteId k → ¬b.1.Expects noteId k

open SwapsAux Vault

variable {env : VaultEnv} {d d' : NoteDb}

theorem Ok.spent_of_grows {w : Vault} (h : Ok d) (hgrows : Grows d.store.vault w) : ∀ a ∈ d.done, a.2.ok = true →
    ∀ noteId k, a.1.Expects noteId k →
      (∃ m ∈ w.graph.nodes, m.id = noteId) ∧ ∀ n ∈ w.notes, n.id = noteId → k < n.currentRevision := by
  intro a ha hok noteId k hexp
  obtain ⟨⟨m, hm, hmid⟩, hlt⟩ := h.spent a ha hok noteId k hexp
  obtain ⟨m', hm', hid⟩ := hgrows.nodes m hm
  refine ⟨⟨m', hm', hid.trans hmid⟩, ?_⟩
  intro n hn hnid
  rcases hgrows.notes n hn with ⟨n₀, hn₀, hid₀, hle⟩ | hnew
  · exact (hlt n₀ hn₀ (hid₀.trans hnid)).trans_le hle
  · exact absurd (hmid.trans hnid.symm) (hnew m hm)

theorem revisionIs_of_get {v w : Vault} {args : ReviseNoteArgs} (h : v.RevisionIs args)
    (heq : w.notes.get args.noteId = v.notes.get args.noteId) : w.RevisionIs args := by
  obtain ⟨n, hn, hid, hrest⟩ := h
  have hget : w.notes.get args.noteId = some n := heq.trans (Table.get_eq_some_iff.mpr ⟨hn, hid⟩)
  exact ⟨n, (Table.get_eq_some_iff.mp hget).1, hid, hrest⟩

theorem Ok.locks_eq (h : Ok d) {t : NoteTx} (ht : t ∈ d.calls) {args : ReviseNoteArgs}
    (hargs : t.call.swapArgs t.phase = some args) : t.locks = some args.noteId := by
  unfold NoteTx.locks
  rw [if_pos ((holds_iff (h.fits t ht)).mpr ⟨args, hargs⟩)]
  exact (noteId_of_swapArgs (h.fits t ht) hargs).1

theorem Ok.held_of_spares (h : Ok d) {id : Option Nat} {v : Vault} (hspares : d.Spares id v) {t : NoteTx} (ht : t ∈ d.calls)
    (hne : some t.id ≠ id) {args : ReviseNoteArgs} (hargs : t.call.swapArgs t.phase = some args) : v.RevisionIs args :=
  revisionIs_of_get (h.held t ht args hargs) (hspares t ht hne args.noteId (h.locks_eq ht hargs))

theorem Ok.goesOn (h : Ok d) {t : NoteTx} {next : NotePhase} (hfits : t.call.Fits next)
    (hheld : ∀ args, t.call.swapArgs next = some args → d.store.vault.RevisionIs args)
    (hfree : d.Free t.id ({ t with phase := next } : NoteTx).locks) : Ok { d with calls := d.calls.put { t with phase := next } } := by
  have hmem : ∀ {x}, x ∈ d.calls.put { t with phase := next } → x = { t with phase := next } ∨ (x ∈ d.calls ∧ x.id ≠ t.id) :=
    fun hx => Table.mem_put.mp hx
  refine { rows := h.rows, histories := h.histories, fits := ?_, held := ?_, alone := ?_, spent := h.spent, once := h.once }
  · intro x hx
    rcases hmem hx with rfl | ⟨hx, _⟩
    · exact hfits
    · exact h.fits x hx
  · intro x hx args hargs
    rcases hmem hx with rfl | ⟨hx, _⟩
    · exact hheld args hargs
    · exact h.held x hx args hargs
  · intro x hx y hy hlocks heq
    rcases hmem hx with rfl | ⟨hx, hxne⟩
    · rcases hmem hy with rfl | ⟨hy, hyne⟩
      · rfl
      · exact absurd heq.symm (hfree y hy hyne (heq ▸ hlocks))
    · rcases hmem hy with rfl | ⟨hy, hyne⟩
      · exact absurd heq (hfree x hx hxne hlocks)
      · exact h.alone x hx y hy hlocks heq

theorem Ok.erase (h : Ok d) (id : Nat) : Ok { d with calls := d.calls.erase id } := by
  have hmem : ∀ {x}, x ∈ d.calls.erase id → x ∈ d.calls := fun hx => (Table.mem_erase.mp hx).1
  exact
    { rows := h.rows
      histories := h.histories
      fits := fun t ht => h.fits t (hmem ht)
      held := fun t ht => h.held t (hmem ht)
      alone := fun t ht t' ht' => h.alone t (hmem ht) t' (hmem ht')
      spent := h.spent
      once := h.once }

theorem Ok.fails (h : Ok d) {call : NoteCall} {answer : NoteAnswer} (hlost : answer.ok = false) :
    Ok { d with done := (call, answer) :: d.done } := by
  refine { rows := h.rows, histories := h.histories, fits := h.fits, held := h.held, alone := h.alone, spent := ?_, once := ?_ }
  · intro a ha hok
    rcases List.mem_cons.mp ha with rfl | ha
    · rw [hlost] at hok
      cases hok
    · exact h.spent a ha hok
  · refine List.pairwise_cons.mpr ⟨fun a _ hok => ?_, h.once⟩
    rw [hlost] at hok
    cases hok

theorem Ok.commits (h : Ok d) {t : NoteTx} {w : Vault} {answer : NoteAnswer} (hspares : d.Spares (some t.id) w)
    {S : List String} (hstep : VaultStep env S d.store.vault w)
    (hspends : ∀ noteId k, t.call.Expects noteId k → (∃ n ∈ d.store.vault.notes, n.id = noteId ∧ n.currentRevision = k) ∧
      ∀ n ∈ w.notes, n.id = noteId → k < n.currentRevision) :
    Ok { store := { d.store with vault := w }, calls := d.calls.erase t.id, done := (t.call, answer) :: d.done } := by
  have hgrows : Grows d.store.vault w := grows_of_step hstep
  have hspent := h.spent_of_grows hgrows
  refine
    { rows := h.rows.step hstep
      histories := h.histories.move (notesMove_of_step hstep)
      fits := (h.erase t.id).fits
      held := ?_
      alone := (h.erase t.id).alone
      spent := ?_
      once := ?_ }
  · intro x hx args hargs
    obtain ⟨hx, hne⟩ := Table.mem_erase.mp hx
    exact h.held_of_spares hspares hx (fun heq => hne (Option.some.inj heq)) hargs
  · intro a ha hok noteId k hexp
    rcases List.mem_cons.mp ha with rfl | ha
    · obtain ⟨⟨n, hn, hnid, _⟩, hlt⟩ := hspends noteId k hexp
      refine ⟨?_, hlt⟩
      obtain ⟨m, hm, hmid, _⟩ := h.rows.noteNodes n hn
      obtain ⟨m', hm', hid⟩ := hgrows.nodes m hm
      exact ⟨m', hm', hid.trans (hmid.trans hnid)⟩
    · exact hspent a ha hok noteId k hexp
  · refine List.pairwise_cons.mpr ⟨?_, h.once⟩
    intro a ha _ hok noteId k hexp hexp'
    obtain ⟨⟨n, hn, hnid, hnrev⟩, _⟩ := hspends noteId k hexp
    have hlt := (h.spent a ha hok noteId k hexp').2 n hn hnid
    omega

theorem Ok.other (h : Ok d) {store : MemoryStore} {act : MemoryAct} (hstep : d.store.step env act = some store)
    (hspares : d.Spares none store.vault) : Ok { d with store } := by
  obtain ⟨hhist, hgrows⟩ := MemoryStore.histories_step h.histories hstep
  exact
    { rows := MemoryStore.rowsOk_step h.rows hstep
      histories := hhist
      fits := h.fits
      held := fun t ht args hargs => h.held_of_spares hspares ht (by simp) hargs
      alone := h.alone
      spent := h.spent_of_grows hgrows
      once := h.once }

theorem lt_of_reviseNote {v w : Vault} {args : ReviseNoteArgs} {fresh : Nat → String} {now revision : Nat}
    (h : v.reviseNote env args fresh now = some (w, .ok revision)) : ∀ n ∈ w.notes, n.id = args.noteId →
      args.expectedRevision < n.currentRevision := by
  intro n hn hid
  rcases reviseNote_cases h with ⟨_, _, _, _, hmoved⟩ | ⟨_, notes, linked, x, rfl, _, hx, hr⟩
  · cases hmoved
  · obtain ⟨rfl, _⟩ := Prod.mk.inj hr
    obtain ⟨_, _, _, _, _, _, _, hw⟩ := insertNoteVersion_cases hx
    rw [hw] at hn
    -- the row is the one whose revision was set, and whose body was set after
    obtain ⟨n₁, hn₁, hid₁, hor⟩ := Table.exists_of_mem_update (f := fun n : VaultNote => { n with body := args.body.text linked.2 })
      (fun _ => rfl) hn
    have hrev : n.currentRevision = n₁.currentRevision := by
      rcases hor with rfl | rfl
      · rfl
      · rfl
    rcases (Table.mem_update (f := fun n : VaultNote =>
      { n with currentRevision := args.expectedRevision + 1, title := fitNoteTitle args.title }) fun _ => rfl).mp hn₁ with
        ⟨n₀, _, _, rfl⟩ | ⟨_, hne⟩
    · rw [hrev]
      exact Nat.lt_succ_self _
    · exact absurd (hid₁.symm.trans hid) hne

/-- What a statement does: it leaves the memory alone and no call is over that did what it was asked, or it commits such a call. -/
theorem Ok.apply {t : NoteTx} {outcome : NoteOutcome} (h : Ok d) (ht : t ∈ d.calls)
    (hcase : StatementCase env d.store t.call t.phase outcome) (hstep : d.apply t outcome = some d') :
    Ok d' ∧ (d'.store = d.store ∨ ∃ a, d'.done = a :: d.done ∧ a.2.ok = true) := by
  cases hcase with
  | goesOn next fits held =>
    simp only [NoteDb.apply] at hstep
    split at hstep
    · rename_i hfree
      cases hstep
      refine ⟨h.goesOn fits (fun args hargs => ?_) hfree, .inl rfl⟩
      rcases held args hargs with hrev | ⟨args', hargs', hid, hspace, hexp⟩
      · exact hrev
      · obtain ⟨n, hn, hnid, hns, hnrev⟩ := h.held t ht args' hargs'
        exact ⟨n, hn, hnid.trans hid, hns.trans hspace, hnrev.trans hexp⟩
    · cases hstep
  | fails answer lost =>
    cases hstep
    exact ⟨(h.fails lost).erase t.id, .inl rfl⟩
  | creates args fresh now r is created =>
    simp only [NoteDb.apply] at hstep
    split at hstep
    · rename_i hspares
      cases hstep
      refine ⟨h.commits (S := [args.spaceId]) hspares (.createNote args fresh now r List.mem_cons_self created) ?_, .inr ⟨_, rfl, rfl⟩⟩
      intro noteId k hexp
      rw [is] at hexp
      exact hexp.elim
    · cases hstep
  | writes args fresh now vault has revised =>
    simp only [NoteDb.apply] at hstep
    split at hstep
    · rename_i hspares
      cases hstep
      obtain ⟨hnoteId, hallows⟩ := noteId_of_swapArgs (h.fits t ht) has
      have hok : (t.call.answer (.ok (args.expectedRevision + 1))).ok = true := by
        cases t.call <;> rfl
      refine ⟨h.commits (S := []) hspares (.reviseNote args fresh now (vault, _) revised) ?_, .inr ⟨_, rfl, hok⟩⟩
      intro noteId k hexp
      obtain rfl := hallows noteId k hexp
      have hid : args.noteId = noteId := by
        cases hc : t.call with
        | create a => simp [hc, NoteCall.Expects] at hexp
        | revise a | revert a =>
          rw [hc] at hexp hnoteId
          exact (Option.some.inj hnoteId).symm.trans hexp.1
      obtain ⟨n, hn, hnid, _, hnrev⟩ := h.held t ht args has
      exact ⟨⟨n, hn, hnid.trans hid, hnrev⟩, fun x hx hxid => lt_of_reviseNote revised x hx (hxid.trans hid.symm)⟩
    · cases hstep

/-- The step lemma: every step keeps what holds between two statements, and a call changes the memory only as it does what it was asked. -/
theorem Ok.step {act : NoteAct} (h : Ok d) (hstep : d.step env act = some d') :
    Ok d' ∧ ((∀ other, act ≠ .other other) → d'.store = d.store ∨ ∃ a, d'.done = a :: d.done ∧ a.2.ok = true) := by
  cases act with
  | begin id call =>
    obtain ⟨calls, hcalls, rfl⟩ := Option.map_eq_some_iff.mp hstep
    have hmem : ∀ {t}, t ∈ calls → t ∈ d.calls ∨ t = { id, call, phase := .begun } := fun ht => (Table.mem_of_insert hcalls).mp ht
    refine ⟨{ rows := h.rows, histories := h.histories, fits := ?_, held := ?_, alone := ?_, spent := h.spent, once := h.once },
      fun _ => .inl rfl⟩
    · intro t ht
      rcases hmem ht with ht | rfl
      · exact h.fits t ht
      · cases call <;> trivial
    · intro t ht args hargs
      rcases hmem ht with ht | rfl
      · exact h.held t ht args hargs
      · cases call <;> cases hargs
    · intro t ht t' ht' hlocks heq
      rcases hmem ht with ht | rfl
      · rcases hmem ht' with ht' | rfl
        · exact h.alone t ht t' ht' hlocks heq
        · exact absurd heq hlocks
      · exact absurd rfl hlocks
  | run id fresh now =>
    obtain ⟨t, ht, hstep⟩ := Option.bind_eq_some_iff.mp hstep
    have hmem := (Table.get_eq_some_iff.mp ht).1
    have hcase : StatementCase env d.store t.call t.phase (d.store.nextStatement env t.call fresh now t.phase) :=
      nextStatement_cases (h.fits t hmem) (h.held t hmem)
    obtain ⟨hok, hstore⟩ := h.apply hmem hcase hstep
    exact ⟨hok, fun _ => hstore⟩
  | abort id =>
    cases hstep
    exact ⟨h.erase id, fun _ => .inl rfl⟩
  | other act =>
    obtain ⟨store, hstore, rfl⟩ := Option.map_eq_some_iff.mp hstep
    obtain ⟨hact, hspares⟩ := Option.filter_eq_some_iff.mp hstore
    exact ⟨h.other hact (by simpa using hspares), fun hne => absurd rfl (hne act)⟩

theorem ok_empty : Ok NoteDb.empty where
  rows := RowsAux.rowsOk_empty
  histories := histories_empty
  fits := fun t ht => absurd ht (Table.not_mem_empty t)
  held := fun t ht => absurd ht (Table.not_mem_empty t)
  alone := fun t ht => absurd ht (Table.not_mem_empty t)
  spent := fun _ ha => absurd ha List.not_mem_nil
  once := .nil

/-- In every state that calls come to between their statements, the stored versions of a note are numbered from one to its revision, each
once, and its body is that of the last; of the calls made on one note with one expected revision at most one did what it was asked; and a
call changes the memory in the one step that does what it was asked. -/
theorem history_of_reaches (h : Steps.Reaches (step env) Steps.Free empty d) :
    (∀ n ∈ d.store.vault.notes, (d.store.vault.revisionsOf n.id).Perm (List.range' 1 n.currentRevision) ∧
      ∃ r ∈ d.store.vault.noteVersions, r.noteId = n.id ∧ r.revision = n.currentRevision ∧ r.bodyMarkdown = n.body) ∧
    (d.done.Pairwise fun a b => a.2.ok = true → b.2.ok = true → ∀ noteId k, a.1.Expects noteId k → ¬b.1.Expects noteId k) ∧
    ∀ act d', (∀ other, act ≠ .other other) → d.step env act = some d' → d'.store = d.store ∨
      ∃ a, d'.done = a :: d.done ∧ a.2.ok = true := by
  have hok : Ok d := h.invariant (I := Ok) (fun _ _ _ hx _ hy => (hx.step hy).1) ok_empty
  refine ⟨fun n hn => ⟨hok.histories.revisionsOf hn, hok.histories.head n hn⟩, hok.once, ?_⟩
  exact fun act d' hne hstep => (hok.step hstep).2 hne

end NoteDb

namespace SwapsRun

/-- A revision of the note at its first version. -/
def edit (text : String) : NoteCall :=
  .revise
    { noteId := "n", spaceId := "s", expectedRevision := 1, title := "List", body := { text := fun _ => text, writes := [] },
      sourceClass := .userDirect, sensitive := false, createdTaskId := none }

/-- A note is written; two calls set out from its first version, and one is through before the other looks. -/
def race : List NoteAct :=
  [.other (.openSpace { id := "s", type := .user, refId := "u", ownerUserId := "u", retiredAt := none }),
    .begin 0 (.create
      { spaceId := "s", title := "List", bodyText := fun _ => "milk", links := [], kind := .note, topicKey := none,
        sourceClass := .userDirect, sensitive := false, createdTaskId := none }),
    .run 0 (MemoryStore.CorrectRun.idsOf 'n') 1, .begin 1 (edit "milk and tea"), .begin 2 (edit "milk and rye"),
    .run 1 (MemoryStore.CorrectRun.idsOf 'x') 2, .run 1 (MemoryStore.CorrectRun.idsOf 'x') 3, .run 2 (MemoryStore.CorrectRun.idsOf 'y') 4,
    .begin 3 (.revert { noteId := "n", spaceId := "s", toRevision := 1, expectedRevision := some 2 }),
    .run 3 (MemoryStore.CorrectRun.idsOf 'z') 5, .run 3 (MemoryStore.CorrectRun.idsOf 'z') 5, .run 3 (MemoryStore.CorrectRun.idsOf 'z') 5,
    .run 3 (MemoryStore.CorrectRun.idsOf 'z') 5, .run 3 (MemoryStore.CorrectRun.idsOf 'z') 5]

end SwapsRun

namespace NoteDb

/-- Two edits that set out from one version, of which one is through, and a revert. -/
theorem history_of_race : ∃ d : NoteDb,
    (d.done.map Prod.snd = [.reverted (.ok 3), .revised (.moved 2 "List"), .revised (.ok 2), .created "n"] ∧
      (d.store.vault.notes.get "n").map VaultNote.body = some "milk") ∧
    (∀ n ∈ d.store.vault.notes, (d.store.vault.revisionsOf n.id).Perm (List.range' 1 n.currentRevision) ∧
      ∃ r ∈ d.store.vault.noteVersions, r.noteId = n.id ∧ r.revision = n.currentRevision ∧ r.bodyMarkdown = n.body) ∧
    (d.done.Pairwise fun a b => a.2.ok = true → b.2.ok = true → ∀ noteId k, a.1.Expects noteId k → ¬b.1.Expects noteId k) ∧
    ∀ act d', (∀ other, act ≠ .other other) → d.step MemoryStore.CorrectRun.env act = some d' → d'.store = d.store ∨
      ∃ a, d'.done = a :: d.done ∧ a.2.ok = true := by
  obtain ⟨d, hreach, hd⟩ := Steps.exists_of_exec (NoteDb.step MemoryStore.CorrectRun.env) empty SwapsRun.race
    (P := fun d : NoteDb =>
      d.done.map Prod.snd = [.reverted (.ok 3), .revised (.moved 2 "List"), .revised (.ok 2), .created "n"] ∧
        (d.store.vault.notes.get "n").map VaultNote.body = some "milk")
    (by decide)
  exact ⟨d, hd, history_of_reaches hreach⟩

end NoteDb

end Capka

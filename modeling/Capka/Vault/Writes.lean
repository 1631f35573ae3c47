import Capka.Vault.Moves
import Capka.Vault.Transactions

/-!
# Whose rows an operation writes

Every part of every operation leaves rows in their space, puts new ones into the spaces whose fence the operation takes, and adds to the
audit log events that are no retirement.
-/

namespace Capka

namespace Vault

/-- New rows are in these spaces only, rows that were there stay in their space, and no retirement is recorded. -/
structure Writes (S : List String) (v w : Vault) : Prop where
  spaces : ∀ shelf k x, w.spaceAt k shelf = some x → x ∈ S ∨ v.spaceAt k shelf = some x
  events : ∃ own, w.auditEvents = v.auditEvents ++ own ∧ ∀ e ∈ own, e.action ≠ .spaceRetire

variable {S S' : List String} {u v w : Vault} {env : VaultEnv}

theorem Writes.refl : Writes S v v where
  spaces := fun _ _ _ h => .inr h
  events := ⟨[], by simp, by simp⟩

theorem Writes.trans (h : Writes S u v) (h' : Writes S v w) : Writes S u w := by
  refine { spaces := ?_, events := ?_ }
  · intro shelf k x hx
    rcases h'.spaces shelf k x hx with hS | hx
    · exact .inl hS
    · exact h.spaces shelf k x hx
  · obtain ⟨own, heq, hown⟩ := h.events
    obtain ⟨own', heq', hown'⟩ := h'.events
    refine ⟨own ++ own', by rw [heq', heq, List.append_assoc], ?_⟩
    intro e he
    rcases List.mem_append.mp he with he | he
    · exact hown e he
    · exact hown' e he

theorem Writes.mono (h : Writes S v w) (hle : ∀ x ∈ S, x ∈ S') : Writes S' v w where
  spaces := fun shelf k x hx => (h.spaces shelf k x hx).imp_left (hle x)
  events := h.events

namespace WritesAux

/-- The rows of a table stay in their spaces, or are new in one of these. -/
def Kept {ρ : Type} {key : ρ → String} (space : ρ → String) (S : List String) (T T' : Table ρ key) : Prop :=
  ∀ r' ∈ T', space r' ∈ S ∨ ∃ r ∈ T, key r = key r' ∧ space r = space r'

variable {ρ : Type} {key space : ρ → String} {T : Table ρ key}

theorem Kept.spaceAt {T' : Table ρ key} (h : Kept space S T T') {k x : String}
    (hx : (T'.get k).map space = some x) : x ∈ S ∨ (T.get k).map space = some x := by
  obtain ⟨r', hr', rfl⟩ := Option.map_eq_some_iff.mp hx
  obtain ⟨hmem, rfl⟩ := Table.get_eq_some_iff.mp hr'
  rcases h r' hmem with hS | ⟨r, hr, hk, hs⟩
  · exact .inl hS
  · exact .inr (Option.map_eq_some_iff.mpr ⟨r, Table.get_eq_some_iff.mpr ⟨hr, hk⟩, hs⟩)

theorem Kept.refl : Kept space S T T :=
  fun r hr => .inr ⟨r, hr, rfl, rfl⟩

theorem kept_update {p : ρ → Prop} [DecidablePred p] {f : ρ → ρ}
    (hf : ∀ r, key (f r) = key r) (hs : ∀ r, space (f r) = space r) : Kept space S T (T.update p f hf) := by
  intro r' hr'
  obtain ⟨r, hr, hk, rfl | rfl⟩ := Table.exists_of_mem_update hf hr'
  · exact .inr ⟨r, hr, hk.symm, (hs r).symm⟩
  · exact .inr ⟨r', hr, rfl, rfl⟩

theorem kept_insert {T' : Table ρ key} {r : ρ} (h : T.insert r = some T')
    (hS : space r ∈ S) : Kept space S T T' := by
  intro r' hr'
  rcases (Table.mem_of_insert h).mp hr' with hr' | rfl
  · exact .inr ⟨r', hr', rfl, rfl⟩
  · exact .inl hS

theorem writes_of (hc : Kept VaultClaim.spaceId S v.claims w.claims) (hn : Kept VaultNote.spaceId S v.notes w.notes)
    (hd : Kept MemoryCandidate.spaceId S v.candidates w.candidates)
    (he : ∃ own, w.auditEvents = v.auditEvents ++ own ∧ ∀ e ∈ own, e.action ≠ .spaceRetire) : Writes S v w where
  spaces := fun shelf _ _ hx => by
    cases shelf with
    | claims => exact hc.spaceAt hx
    | notes => exact hn.spaceAt hx
    | candidates => exact hd.spaceAt hx
  events := he

theorem writes_rest (hc : w.claims = v.claims) (hn : w.notes = v.notes) (hd : w.candidates = v.candidates)
    (he : w.auditEvents = v.auditEvents ∨ ∃ e, w.auditEvents = v.auditEvents ++ [e] ∧ e.action ≠ .spaceRetire) : Writes S v w := by
  refine writes_of (hc ▸ .refl) (hn ▸ .refl) (hd ▸ .refl) ?_
  rcases he with he | ⟨e, he, hne⟩
  · exact ⟨[], by simpa using he, by simp⟩
  · exact ⟨[e], he, by simpa using hne⟩

variable {spaceId : String}

theorem writes_audit {subjectId : String} {action : AuditAction} (h : action ≠ .spaceRetire) :
    Writes S v (v.audit spaceId action subjectId) := writes_rest rfl rfl rfl (.inr ⟨_, rfl, h⟩)

theorem writes_fileUnder {noteId claimId edgeId : String} {r : Vault × String}
    (h : v.fileUnder spaceId noteId claimId edgeId = some r) : Writes S v r.1 := by
  obtain ⟨_, l, _, hr⟩ := fileUnder_cases h
  rw [hr]
  exact writes_rest rfl rfl rfl (.inl rfl)

theorem writes_claims {T : Claims} (h : Kept VaultClaim.spaceId S v.claims T) : Writes S v { v with claims := T } :=
  writes_of h .refl .refl ⟨[], by simp, by simp⟩

variable {fresh : Nat → String} {now : Nat}

theorem writes_createClaim {input : ClaimInput} {r : Vault × String × Bool} (hS : input.spaceId ∈ S)
    (h : v.createClaim env input fresh now = some r) : Writes S v r.1 := by
  obtain ⟨graph, claims, w, _, _, hclaims, hw, rfl⟩ := createClaim_cases h
  have hins : Writes S v { v with graph, claims } := writes_of (kept_insert hclaims hS) .refl .refl ⟨[], by simp, by simp⟩
  refine Writes.trans (v := w) ?_ (writes_audit (by decide))
  rcases hw with ⟨_, rfl⟩ | ⟨noteId, x, _, hx, rfl, _⟩
  · exact hins
  · exact hins.trans (writes_fileUnder hx)

theorem writes_carryTopics {args : UpdateClaimArgs}
    (h : v.carryTopics args spaceId fresh now = some w) : Writes S v w := by
  obtain ⟨graph, _, hw⟩ := carryTopics_cases h
  rcases hw with ⟨_, rfl⟩ | ⟨noteId, x, _, _, hx, rfl⟩
  · exact writes_rest rfl rfl rfl (.inl rfl)
  · exact Writes.trans (v := { v with graph, noteClaims := v.moveMemberships args.claimId (fresh 0) })
      (writes_rest rfl rfl rfl (.inl rfl)) (writes_fileUnder hx)

theorem kept_finish {T : Claims} {p : VaultClaim → Bool} : Kept VaultClaim.spaceId S T (T.finish p now) :=
  kept_update (f := fun c : VaultClaim => { c with supersededAt := some now }) (fun _ => rfl) fun _ => rfl

theorem writes_updateClaim {args : UpdateClaimArgs} {r : Vault × ClaimResult (String × Nat)}
    (hS : ∀ c ∈ v.claims, c.id = args.claimId → c.spaceId ∈ args.allowedSpaceIds → c.spaceId ∈ S)
    (h : v.updateClaim env args fresh now = some r) : Writes S v r.1 := by
  rcases updateClaim_cases h with ⟨_, hv, _⟩ | ⟨prev, graph, claims, w, htarget, _, hclaims, hcarry, _, rfl⟩
  · rw [hv]
    exact .refl
  · obtain ⟨hprev, hid, _, hhead⟩ := updateTarget_eq_some_iff.mp htarget
    have hins := (Claims.ChainAux.supersede_cases hclaims).2
    have hfinish : Writes S v { v with claims := v.claims.finish (fun c => c.id = args.claimId) now } := writes_claims kept_finish
    have hnew : Writes S { v with claims := v.claims.finish (fun c => c.id = args.claimId) now } { v with graph, claims } :=
      writes_of (kept_insert hins (hS prev hprev hid hhead.2)) .refl .refl ⟨[], by simp, by simp⟩
    exact ((hfinish.trans hnew).trans (writes_carryTopics hcarry)).trans (writes_audit (by decide))

theorem writes_forgetClaim {args : ForgetClaimArgs} {r : Vault × ClaimResult Unit} (h : v.forgetClaim args now = some r) :
    Writes S v r.1 := by
  rcases forgetClaim_cases h with ⟨hv, _⟩ | ⟨prev, _, _, _, _, rfl⟩
  · rw [hv]
    exact .refl
  · exact writes_of kept_finish .refl .refl ⟨[_], rfl, by simp⟩

theorem writes_restoreClaimFrom {claimId : String} {stamp : Nat} {r : Vault × Bool}
    (h : v.restoreClaimFrom claimId spaceId stamp = some r) : Writes S v r.1 := by
  rcases restoreClaimFrom_cases h with ⟨hv, _⟩ | ⟨g, _, _, _, hclaims, _, hnotes, _, _, hcands, hevents⟩
  · rw [hv]
    exact .refl
  · refine writes_of ?_ (hnotes ▸ .refl) (hcands ▸ .refl) ?_
    · rw [hclaims]
      exact kept_update (f := fun c : VaultClaim => { c with supersededAt := none }) (fun _ => rfl) fun _ => rfl
    · rcases hevents with he | he
      · exact ⟨[], by simpa using he, by simp⟩
      · exact ⟨_, he, by simp⟩

theorem writes_insertNote {note : VaultNote} (hS : note.spaceId ∈ S) (h : v.insertNote env note = some w) : Writes S v w := by
  obtain ⟨graph, notes, _, hnotes, _, rfl⟩ := insertNote_cases h
  exact writes_of .refl (kept_insert hnotes hS) .refl ⟨[], by simp, by simp⟩

theorem writes_insertNoteVersion {version : NoteVersion} {r : Vault × Bool}
    (h : v.insertNoteVersion spaceId version = some r) : Writes S v r.1 := by
  obtain ⟨_, _, _, _, _, _, _, hr⟩ := insertNoteVersion_cases h
  rw [hr]
  exact writes_rest rfl rfl rfl (.inr ⟨_, rfl, by simp⟩)

theorem writes_updateNotes {p : VaultNote → Prop} [DecidablePred p] {f : VaultNote → VaultNote} (hf : ∀ r, (f r).id = r.id)
    (hs : ∀ r, (f r).spaceId = r.spaceId) : Writes S v { v with notes := v.notes.update p f hf } :=
  writes_of .refl (kept_update hf hs) .refl ⟨[], by simp, by simp⟩

theorem writes_setBody {noteId body : String} : Writes S v (v.setBody noteId body) :=
  writes_updateNotes (f := fun n => { n with body }) (fun _ => rfl) fun _ => rfl

end WritesAux

open WritesAux

theorem writes_step (hstep : VaultStep env S v w) : Writes S v w := by
  cases hstep with
  | createClaim input fresh now r hS hr => exact writes_createClaim hS hr
  | updateClaim args fresh now r hS hr => exact writes_updateClaim hS hr
  | forgetClaim args now r hr => exact writes_forgetClaim hr
  | restoreClaim claimId allowedSpaceIds r hr =>
    unfold restoreClaim at hr
    split at hr
    · cases hr
      exact .refl
    · exact writes_restoreClaimFrom hr
  | forgetAllClaims spaceId now clock =>
    refine writes_of kept_finish .refl .refl ⟨_, rfl, ?_⟩
    intro e he
    obtain ⟨c, _, rfl⟩ := List.mem_map.mp he
    simp
  | confirmClaim claimId sensitive actor now | clearConflict claimId => exact writes_claims (kept_update _ fun _ => rfl)
  | attachToTopic claimId noteId edgeId r hr =>
    obtain ⟨c, _, _, hfile⟩ := attachToTopic_cases hr
    exact writes_fileUnder hfile
  | createNote args fresh now r hS hr =>
    obtain ⟨w, linked, x, hw, _, hx, hr⟩ := createNote_cases hr
    rw [hr]
    have hgraph : Writes S w { w with graph := linked.1 } := writes_rest rfl rfl rfl (.inl rfl)
    exact (((writes_insertNote hS hw).trans hgraph).trans writes_setBody).trans (writes_insertNoteVersion hx)
  | reviseNote args fresh now r hr =>
    rcases reviseNote_cases hr with ⟨hv, _⟩ | ⟨_, notes, linked, x, rfl, _, hx, rfl⟩
    · rw [hv]
      exact .refl
    · have hnotes : Writes S v { v with
          notes := v.notes.update (fun n => n.id = args.noteId)
            (fun n => { n with currentRevision := args.expectedRevision + 1, title := fitNoteTitle args.title }) fun _ => rfl
          graph := linked.1 } :=
        writes_of .refl (kept_update (f := fun n : VaultNote =>
          { n with currentRevision := args.expectedRevision + 1, title := fitNoteTitle args.title }) (fun _ => rfl) fun _ => rfl) .refl
          ⟨[], by simp, by simp⟩
      exact (hnotes.trans writes_setBody).trans (writes_insertNoteVersion hx)
  | forgetNote args now =>
    rcases forgetNote_cases args now v with hv | ⟨_, _, hv⟩
    · rw [hv]
      exact .refl
    · rw [hv]
      exact writes_rest rfl rfl rfl (.inr ⟨_, rfl, by simp⟩)
  | restoreNote noteId spaceId r hr =>
    rcases restoreNote_cases hr with hv | ⟨_, _, _, g, _, _, _, _, hv⟩
    · rw [hv]
      exact .refl
    · rw [hv]
      exact writes_rest rfl rfl rfl (.inr ⟨_, rfl, by simp⟩)
  | resolveTitle spaceId raw id r hS hr =>
    cases resolveTitle_cases hr with
    | live => exact .refl
    | revived hit stamp g _ _ _ => exact writes_rest rfl rfl rfl (.inl rfl)
    | lost => exact .refl
    | created w x _ _ hw hx => exact (writes_insertNote hS hw).trans (writes_insertNoteVersion hx)
  | stampKey id key w hw =>
    obtain ⟨notes, rfl, rfl⟩ := stampKey_cases hw
    exact writes_updateNotes _ fun _ => rfl
  | candidates T h => exact writes_of .refl .refl h ⟨[], by simp, by simp⟩
  | linkNodes spaceId a b relation edgeId r _ | unlinkEdge edgeId spaceId now => exact writes_rest rfl rfl rfl (.inl rfl)
  | audit spaceId action subjectId h => exact writes_audit h

theorem writes_run (hrun : VaultRun env S v w) : Writes S v w := by
  induction hrun with
  | refl => exact .refl
  | tail _ hstep ih => exact ih.trans (writes_step hstep)

end Vault

end Capka

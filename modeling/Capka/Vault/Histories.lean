import Capka.Vault.Revisions
import Capka.Vault.Rows

/-!
# The history of a note

The stored versions of a note are numbered from one to its revision, and its body is that of the last. Every part of every operation keeps
this: it leaves the revisions alone, writes a new note with its first version, or writes the next version of one note.
-/

namespace Capka

namespace Vault

/-- The numbers of the stored versions of a note. -/
def revisionsOf (noteId : String) (v : Vault) : List Nat := (v.noteVersions.rows.filter fun r => r.noteId = noteId).map NoteVersion.revision

/-- Every version is one of its note's, none is missing, and a note says what its last version says. -/
structure Histories (v : Vault) : Prop where
  owned : ∀ r ∈ v.noteVersions, ∃ n ∈ v.notes, n.id = r.noteId ∧ 1 ≤ r.revision ∧ r.revision ≤ n.currentRevision
  full : ∀ n ∈ v.notes, ∀ k, 1 ≤ k → k ≤ n.currentRevision → ∃ r ∈ v.noteVersions, r.noteId = n.id ∧ r.revision = k
  head : ∀ n ∈ v.notes, ∃ r ∈ v.noteVersions, r.noteId = n.id ∧ r.revision = n.currentRevision ∧ r.bodyMarkdown = n.body

/-- What one part of an operation does to the notes and their versions. -/
inductive NotesMove (v w : Vault) : Prop where
  | kept (fwd : ∀ n ∈ v.notes, ∃ n' ∈ w.notes, n'.id = n.id ∧ n'.currentRevision = n.currentRevision ∧ n'.body = n.body)
      (bwd : ∀ n' ∈ w.notes, ∃ n ∈ v.notes, n.id = n'.id ∧ n.currentRevision = n'.currentRevision ∧ n.body = n'.body)
      (versions : w.noteVersions = v.noteVersions)
  | born (note : VaultNote) (version : NoteVersion) (fresh : ∀ m ∈ v.graph.nodes, m.id ≠ note.id)
      (free : ∀ n ∈ v.notes, n.id ≠ note.id) (first : note.currentRevision = 1)
      (of : version.noteId = note.id ∧ version.revision = 1 ∧ version.bodyMarkdown = note.body)
      (notes : ∀ n, n ∈ w.notes ↔ n ∈ v.notes ∨ n = note) (versions : ∀ r, r ∈ w.noteVersions ↔ r ∈ v.noteVersions ∨ r = version)
  | revised (note note' : VaultNote) (version : NoteVersion) (was : note ∈ v.notes)
      (is : note'.id = note.id ∧ note'.currentRevision = note.currentRevision + 1)
      (of : version.noteId = note.id ∧ version.revision = note.currentRevision + 1 ∧ version.bodyMarkdown = note'.body)
      (notes : ∀ n, n ∈ w.notes ↔ n = note' ∨ (n ∈ v.notes ∧ n.id ≠ note.id))
      (versions : ∀ r, r ∈ w.noteVersions ↔ r ∈ v.noteVersions ∨ r = version)

variable {v w : Vault} {env : VaultEnv} {S : List String}

namespace HistoriesAux

theorem kept_of (hn : w.notes = v.notes) (hr : w.noteVersions = v.noteVersions) : NotesMove v w :=
  .kept (fun n h => ⟨n, hn ▸ h, rfl, rfl, rfl⟩) (fun n h => ⟨n, hn ▸ h, rfl, rfl, rfl⟩) hr

theorem kept_fileUnder {spaceId noteId claimId edgeId : String} {r : Vault × String}
    (h : v.fileUnder spaceId noteId claimId edgeId = some r) : r.1.notes = v.notes ∧ r.1.noteVersions = v.noteVersions := by
  obtain ⟨_, l, _, hr⟩ := fileUnder_cases h
  rw [hr]
  exact ⟨rfl, rfl⟩

theorem kept_carryTopics {args : UpdateClaimArgs} {spaceId : String} {fresh : Nat → String} {now : Nat}
    (h : v.carryTopics args spaceId fresh now = some w) : w.notes = v.notes ∧ w.noteVersions = v.noteVersions := by
  obtain ⟨graph, _, hw⟩ := carryTopics_cases h
  rcases hw with ⟨_, rfl⟩ | ⟨noteId, x, _, _, hx, rfl⟩
  · exact ⟨rfl, rfl⟩
  · have hkept := kept_fileUnder hx
    exact hkept

theorem move_stampKey {id key : String} (h : v.stampKey id key = some w) : NotesMove v w := by
  obtain ⟨notes, rfl, rfl⟩ := stampKey_cases h
  refine .kept ?_ ?_ rfl
  · intro n hn
    obtain ⟨n', hn', _, rfl | rfl⟩ := Table.exists_mem_update (fun n : VaultNote => n.id = id ∧ (n.topicKey = none ∨ n.topicKey = some n.id))
      (f := fun n => { n with topicKey := some key }) (fun _ => rfl) hn
    · exact ⟨_, hn', rfl, rfl, rfl⟩
    · exact ⟨_, hn', rfl, rfl, rfl⟩
  · intro n' hn'
    obtain ⟨n, hn, _, rfl | rfl⟩ := Table.exists_of_mem_update (f := fun n : VaultNote => { n with topicKey := some key }) (fun _ => rfl) hn'
    · exact ⟨n, hn, rfl, rfl, rfl⟩
    · exact ⟨_, hn, rfl, rfl, rfl⟩

theorem move_born {note : VaultNote} {version : NoteVersion} {spaceId body : String} {u : Vault} {r : Vault × Bool}
    (hu : v.insertNote env note = some u) (hnotes : w.notes = (u.setBody note.id body).notes)
    (hver : w.noteVersions = u.noteVersions) (hx : w.insertNoteVersion spaceId version = some r) (hfirst : note.currentRevision = 1)
    (hof : version.noteId = note.id ∧ version.revision = 1 ∧ version.bodyMarkdown = body) : NotesMove v r.1 := by
  obtain ⟨graph, notes, hgraph, hins, _, rfl⟩ := insertNote_cases hu
  obtain ⟨version', versions, hid, hrev, _, hbody, hvins, hr⟩ := insertNoteVersion_cases hx
  have hfree : ∀ n ∈ v.notes, n.id ≠ note.id := Table.key_ne_of_insert hins
  refine .born { note with body } version' (fun m hm => MemoryGraph.ne_of_insertNode hgraph hm) hfree hfirst
    ⟨hid.trans hof.1, hrev.trans hof.2.1, hbody.trans hof.2.2⟩ ?_ ?_
  · intro n
    rw [hr]
    simp only [audit]
    rw [hnotes]
    refine (Table.mem_update (f := fun n : VaultNote => { n with body }) fun _ => rfl).trans ?_
    constructor
    · rintro (⟨n₀, hn₀, hn₀id, rfl⟩ | ⟨hn, hne⟩)
      · rcases (Table.mem_of_insert hins).mp hn₀ with hn₀ | rfl
        · exact absurd hn₀id (hfree n₀ hn₀)
        · exact .inr rfl
      · rcases (Table.mem_of_insert hins).mp hn with hn | rfl
        · exact .inl hn
        · exact absurd rfl hne
    · rintro (hn | rfl)
      · exact .inr ⟨(Table.mem_of_insert hins).mpr (.inl hn), hfree n hn⟩
      · exact .inl ⟨note, (Table.mem_of_insert hins).mpr (.inr rfl), rfl, rfl⟩
  · intro x
    rw [hr]
    exact (Table.mem_of_insert hvins).trans (by rw [hver])

theorem move_born_topic {note : VaultNote} {version : NoteVersion} {spaceId : String} {u : Vault} {r : Vault × Bool}
    (hu : v.insertNote env note = some u) (hx : u.insertNoteVersion spaceId version = some r)
    (hempty : note.body = "") (hfirst : note.currentRevision = 1)
    (hof : version.noteId = note.id ∧ version.revision = 1 ∧ version.bodyMarkdown = "") : NotesMove v r.1 := by
  refine move_born hu ?_ rfl hx hfirst hof
  obtain ⟨graph, notes, _, hins, _, rfl⟩ := insertNote_cases hu
  refine (Table.update_eq_of_fixed (f := fun n : VaultNote => { n with body := "" }) (fun _ => rfl) fun n hn hid => ?_).symm
  rcases (Table.mem_of_insert hins).mp hn with hn | rfl
  · exact absurd hid (Table.key_ne_of_insert hins n hn)
  · rw [← hempty]

theorem move_createNote {args : CreateNoteArgs} {fresh : Nat → String} {now : Nat} {r : Vault × String × Bool}
    (h : v.createNote env args fresh now = some r) : NotesMove v r.1 := by
  obtain ⟨w, linked, x, hw, _, hx, hr⟩ := createNote_cases h
  rw [hr]
  refine move_born hw ?_ ?_ hx rfl ⟨rfl, rfl, rfl⟩
  · rfl
  · rfl

theorem move_reviseNote {args : ReviseNoteArgs} {fresh : Nat → String} {now : Nat} {r : Vault × ReviseResult}
    (h : v.reviseNote env args fresh now = some r) : NotesMove v r.1 := by
  rcases reviseNote_cases h with ⟨hv, _⟩ | ⟨⟨note, hnote, hid, _, hrev⟩, notes, linked, x, rfl, _, hx, rfl⟩
  · rw [hv]
    exact kept_of rfl rfl
  · obtain ⟨version', versions, hvid, hvrev, _, hbody, hvins, hr⟩ := insertNoteVersion_cases hx
    refine .revised note
      { note with currentRevision := args.expectedRevision + 1, title := fitNoteTitle args.title, body := args.body.text linked.2 } version' hnote
      ⟨rfl, by rw [hrev]⟩ ⟨hvid.trans hid.symm, by rw [hvrev, hrev], hbody⟩ ?_ ?_
    · intro n
      rw [hr]
      simp only [audit, setBody]
      have hbumped : ∀ x, x ∈ v.notes.update (fun n => n.id = note.id)
          (fun n => { n with currentRevision := args.expectedRevision + 1, title := fitNoteTitle args.title }) (fun _ => rfl) ↔
          x = { note with currentRevision := args.expectedRevision + 1, title := fitNoteTitle args.title } ∨
            (x ∈ v.notes ∧ x.id ≠ note.id) := fun x => Table.mem_update_key _ hnote
      rw [← hid]
      refine (Table.mem_update_key (f := fun n : VaultNote => { n with body := args.body.text linked.2 }) (fun _ => rfl)
        ((hbumped _).mpr (.inl rfl))).trans (or_congr_right ?_)
      rw [hbumped]
      constructor
      · rintro ⟨rfl | hn, hne⟩
        · exact absurd rfl hne
        · exact hn
      · exact fun hn => ⟨.inr hn, hn.2⟩
    · intro y
      rw [hr]
      exact Table.mem_of_insert hvins

end HistoriesAux

open HistoriesAux

theorem notesMove_of_step (hstep : VaultStep env S v w) : NotesMove v w := by
  cases hstep with
  | createClaim input fresh now r _ hr =>
    obtain ⟨graph, claims, w, _, _, _, hw, rfl⟩ := createClaim_cases hr
    rcases hw with ⟨_, rfl⟩ | ⟨noteId, x, _, hx, rfl, _⟩
    · exact kept_of rfl rfl
    · obtain ⟨hn, hv⟩ := kept_fileUnder hx
      exact kept_of hn hv
  | updateClaim args fresh now r _ hr =>
    rcases updateClaim_cases hr with ⟨_, hv, _⟩ | ⟨prev, graph, claims, w, _, _, _, hcarry, _, rfl⟩
    · rw [hv]
      exact kept_of rfl rfl
    · obtain ⟨hn, hv⟩ := kept_carryTopics hcarry
      exact kept_of hn hv
  | forgetClaim args now r hr =>
    rcases forgetClaim_cases hr with ⟨hv, _⟩ | ⟨prev, _, _, _, _, rfl⟩
    · rw [hv]
      exact kept_of rfl rfl
    · exact kept_of rfl rfl
  | restoreClaim claimId allowedSpaceIds r hr =>
    unfold restoreClaim at hr
    split at hr
    · cases hr
      exact kept_of rfl rfl
    · rcases restoreClaimFrom_cases hr with ⟨hv, _⟩ | ⟨g, _, _, _, _, _, hnotes, hver, _⟩
      · rw [hv]
        exact kept_of rfl rfl
      · exact kept_of hnotes hver
  | forgetAllClaims spaceId now clock
  | confirmClaim claimId sensitive actor now
  | clearConflict claimId
  | candidates T _
  | linkNodes spaceId a b relation edgeId r _
  | unlinkEdge edgeId spaceId now
  | audit spaceId action subjectId _ => exact kept_of rfl rfl
  | attachToTopic claimId noteId edgeId r hr =>
    obtain ⟨c, _, _, hfile⟩ := attachToTopic_cases hr
    obtain ⟨hn, hv⟩ := kept_fileUnder hfile
    exact kept_of hn hv
  | createNote args fresh now r _ hr => exact move_createNote hr
  | reviseNote args fresh now r hr => exact move_reviseNote hr
  | forgetNote args now =>
    rcases forgetNote_cases args now v with hv | ⟨_, _, hv⟩
    · rw [hv]
      exact kept_of rfl rfl
    · rw [hv]
      exact kept_of rfl rfl
  | restoreNote noteId spaceId r hr =>
    rcases restoreNote_cases hr with hv | ⟨_, _, _, g, _, _, _, _, hv⟩
    · rw [hv]
      exact kept_of rfl rfl
    · rw [hv]
      exact kept_of rfl rfl
  | resolveTitle spaceId raw id r _ hr =>
    cases resolveTitle_cases hr with
    | live => exact kept_of rfl rfl
    | revived => exact kept_of rfl rfl
    | lost => exact kept_of rfl rfl
    | created w x _ _ hw hx => exact move_born_topic hw hx rfl rfl ⟨rfl, rfl, rfl⟩
  | stampKey id key w hw => exact move_stampKey hw

theorem Histories.move (h : Histories v) (hmove : NotesMove v w) : Histories w := by
  cases hmove with
  | kept fwd bwd versions =>
    refine { owned := ?_, full := ?_, head := ?_ }
    · intro r hr
      obtain ⟨n, hn, hid, hlo, hhi⟩ := h.owned r (versions ▸ hr)
      obtain ⟨n', hn', hid', hrev, _⟩ := fwd n hn
      exact ⟨n', hn', hid'.trans hid, hlo, hrev ▸ hhi⟩
    · intro n' hn' k hlo hhi
      obtain ⟨n, hn, hid, hrev, _⟩ := bwd n' hn'
      obtain ⟨r, hr, hrid, hk⟩ := h.full n hn k hlo (hrev ▸ hhi)
      exact ⟨r, versions ▸ hr, hrid.trans hid, hk⟩
    · intro n' hn'
      obtain ⟨n, hn, hid, hrev, hbody⟩ := bwd n' hn'
      obtain ⟨r, hr, hrid, hk, hb⟩ := h.head n hn
      exact ⟨r, versions ▸ hr, hrid.trans hid, hk.trans hrev, hb.trans hbody⟩
  | born note version fresh free first of notes versions =>
    obtain ⟨hvid, hvrev, hvbody⟩ := of
    have hnew : note ∈ w.notes := (notes note).mpr (.inr rfl)
    have hver : version ∈ w.noteVersions := (versions version).mpr (.inr rfl)
    refine { owned := ?_, full := ?_, head := ?_ }
    · intro r hr
      rcases (versions r).mp hr with hr | rfl
      · obtain ⟨n, hn, hrest⟩ := h.owned r hr
        exact ⟨n, (notes n).mpr (.inl hn), hrest⟩
      · exact ⟨note, hnew, hvid.symm, by omega, by omega⟩
    · intro n hn k hlo hhi
      rcases (notes n).mp hn with hn | rfl
      · obtain ⟨r, hr, hrest⟩ := h.full n hn k hlo hhi
        exact ⟨r, (versions r).mpr (.inl hr), hrest⟩
      · exact ⟨version, hver, hvid, by omega⟩
    · intro n hn
      rcases (notes n).mp hn with hn | rfl
      · obtain ⟨r, hr, hrest⟩ := h.head n hn
        exact ⟨r, (versions r).mpr (.inl hr), hrest⟩
      · exact ⟨version, hver, hvid, hvrev.trans first.symm, hvbody⟩
  | revised note note' version was is of notes versions =>
    obtain ⟨hid, hrev⟩ := is
    obtain ⟨hvid, hvrev, hvbody⟩ := of
    have hnew : note' ∈ w.notes := (notes note').mpr (.inl rfl)
    have hver : version ∈ w.noteVersions := (versions version).mpr (.inr rfl)
    refine { owned := ?_, full := ?_, head := ?_ }
    · intro r hr
      rcases (versions r).mp hr with hr | rfl
      · obtain ⟨n, hn, hnid, hlo, hhi⟩ := h.owned r hr
        by_cases hsame : n.id = note.id
        · rw [Table.eq_of_key hn was hsame] at hnid hhi
          exact ⟨note', hnew, hid.trans hnid, hlo, by omega⟩
        · exact ⟨n, (notes n).mpr (.inr ⟨hn, hsame⟩), hnid, hlo, hhi⟩
      · exact ⟨note', hnew, hid.trans hvid.symm, by omega, by omega⟩
    · intro n hn k hlo hhi
      rcases (notes n).mp hn with rfl | ⟨hn, _⟩
      · rcases Nat.lt_or_ge note.currentRevision k with hk | hk
        · exact ⟨version, hver, hvid.trans hid.symm, by omega⟩
        · obtain ⟨r, hr, hrid, hrk⟩ := h.full note was k hlo hk
          exact ⟨r, (versions r).mpr (.inl hr), hrid.trans hid.symm, hrk⟩
      · obtain ⟨r, hr, hrest⟩ := h.full n hn k hlo hhi
        exact ⟨r, (versions r).mpr (.inl hr), hrest⟩
    · intro n hn
      rcases (notes n).mp hn with rfl | ⟨hn, _⟩
      · exact ⟨version, hver, hvid.trans hid.symm, hvrev.trans hrev.symm, hvbody⟩
      · obtain ⟨r, hr, hrest⟩ := h.head n hn
        exact ⟨r, (versions r).mpr (.inl hr), hrest⟩

theorem Histories.wipe {spaceId : String} {now : Nat} (h : Histories v) : Histories (v.wipe spaceId now) := by
  have hnote : ∀ {n}, n ∈ (v.wipe spaceId now).notes ↔ n ∈ v.notes ∧ n.spaceId ≠ spaceId := by
    intro n
    refine Table.mem_filter.trans (and_congr_right fun _ => ?_)
    simp
  have hver : ∀ {r}, r ∈ (v.wipe spaceId now).noteVersions ↔ r ∈ v.noteVersions ∧ ¬∃ n ∈ v.notes, n.id = r.noteId ∧ n.spaceId = spaceId := by
    intro r
    refine Table.mem_filter.trans (and_congr_right fun _ => ?_)
    simp
  -- a version of a note that stays is none of a note that goes
  have hstays : ∀ {n r}, n ∈ v.notes → n.spaceId ≠ spaceId → r ∈ v.noteVersions → r.noteId = n.id → r ∈ (v.wipe spaceId now).noteVersions := by
    intro n r hn hne hr hrid
    refine hver.mpr ⟨hr, ?_⟩
    rintro ⟨x, hx, hxid, hxs⟩
    rw [Table.eq_of_key hx hn (hxid.trans hrid)] at hxs
    exact hne hxs
  refine { owned := ?_, full := ?_, head := ?_ }
  · intro r hr
    obtain ⟨hr, hnot⟩ := hver.mp hr
    obtain ⟨n, hn, hid, hrest⟩ := h.owned r hr
    exact ⟨n, hnote.mpr ⟨hn, fun hs => hnot ⟨n, hn, hid, hs⟩⟩, hid, hrest⟩
  · intro n hn k hlo hhi
    obtain ⟨hn, hne⟩ := hnote.mp hn
    obtain ⟨r, hr, hrid, hk⟩ := h.full n hn k hlo hhi
    exact ⟨r, hstays hn hne hr hrid, hrid, hk⟩
  · intro n hn
    obtain ⟨hn, hne⟩ := hnote.mp hn
    obtain ⟨r, hr, hrid, hrest⟩ := h.head n hn
    exact ⟨r, hstays hn hne hr hrid, hrid, hrest⟩

theorem Histories.revisionsOf (h : Histories v) {n : VaultNote} (hn : n ∈ v.notes) :
    (v.revisionsOf n.id).Perm (List.range' 1 n.currentRevision) := by
  refine (List.perm_ext_iff_of_nodup ?_ (List.nodup_range' 1)).mpr ?_
  · refine List.Nodup.map_on ?_ (v.noteVersions.nodup.of_map.filter _)
    intro r hr r' hr' heq
    obtain ⟨hr, hid⟩ := List.mem_filter.mp hr
    obtain ⟨hr', hid'⟩ := List.mem_filter.mp hr'
    simp only [decide_eq_true_eq] at hid hid'
    exact Table.eq_of_key hr hr' (Prod.ext (hid.trans hid'.symm) heq)
  · intro k
    rw [List.mem_range'_1]
    constructor
    · intro hk
      obtain ⟨r, hr, rfl⟩ := List.mem_map.mp hk
      obtain ⟨hr, hid⟩ := List.mem_filter.mp hr
      simp only [decide_eq_true_eq] at hid
      obtain ⟨x, hx, hxid, hlo, hhi⟩ := h.owned r hr
      rw [Table.eq_of_key hx hn (hxid.trans hid)] at hhi
      omega
    · rintro ⟨hlo, hhi⟩
      obtain ⟨r, hr, hid, hk⟩ := h.full n hn k hlo (by omega)
      exact List.mem_map.mpr ⟨r, List.mem_filter.mpr ⟨hr, by simpa using hid⟩, hk⟩

/-- Nodes stay, and a note is one there was, at its revision or beyond, or one under a new id. -/
structure Grows (v w : Vault) : Prop where
  nodes : ∀ m ∈ v.graph.nodes, ∃ m' ∈ w.graph.nodes, m'.id = m.id
  notes : ∀ n' ∈ w.notes, (∃ n ∈ v.notes, n.id = n'.id ∧ n.currentRevision ≤ n'.currentRevision) ∨ ∀ m ∈ v.graph.nodes, m.id ≠ n'.id

theorem Grows.refl : Grows v v where
  nodes := fun m hm => ⟨m, hm, rfl⟩
  notes := fun n hn => .inl ⟨n, hn, rfl, le_rfl⟩

theorem Grows.trans {u : Vault} (h : Grows u v) (h' : Grows v w) : Grows u w := by
  refine { nodes := ?_, notes := ?_ }
  · intro m hm
    obtain ⟨m', hm', hid⟩ := h.nodes m hm
    obtain ⟨m'', hm'', hid'⟩ := h'.nodes m' hm'
    exact ⟨m'', hm'', hid'.trans hid⟩
  · intro n'' hn''
    rcases h'.notes n'' hn'' with ⟨n', hn', hid, hle⟩ | hnew
    · rcases h.notes n' hn' with ⟨n, hn, hid', hle'⟩ | hnew
      · exact .inl ⟨n, hn, hid'.trans hid, hle'.trans hle⟩
      · exact .inr fun m hm => hid ▸ hnew m hm
    · right
      intro m hm
      obtain ⟨m', hm', hid⟩ := h.nodes m hm
      exact hid ▸ hnew m' hm'

theorem grows_of_step (hstep : VaultStep env S v w) : Grows v w := by
  refine { nodes := ?_, notes := ?_ }
  · intro m hm
    obtain ⟨m', hm', hid, _⟩ := (keepsNodes_step hstep).nodes m hm
    exact ⟨m', hm', hid⟩
  · intro n' hn'
    cases notesMove_of_step hstep with
    | kept fwd bwd versions =>
      obtain ⟨n, hn, hid, hrev, _⟩ := bwd n' hn'
      exact .inl ⟨n, hn, hid, hrev.le⟩
    | born note version fresh free first of notes versions =>
      rcases (notes n').mp hn' with hn' | rfl
      · exact .inl ⟨n', hn', rfl, le_rfl⟩
      · exact .inr fresh
    | revised note note' version was is of notes versions =>
      rcases (notes n').mp hn' with rfl | ⟨hn', _⟩
      · exact .inl ⟨note, was, is.1.symm, by omega⟩
      · exact .inl ⟨n', hn', rfl, le_rfl⟩

theorem grows_wipe (spaceId : String) (now : Nat) : Grows v (v.wipe spaceId now) where
  nodes := fun m hm => by
    obtain ⟨m', hm', hid, _⟩ := (MemoryGraph.keepsNodes_deleteSpaceNodes (g := v.graph) spaceId now).nodes m hm
    exact ⟨m', hm', hid⟩
  notes := fun n hn => .inl ⟨n, (Table.mem_filter.mp hn).1, rfl, le_rfl⟩

theorem Histories.run (h : Histories v) (hrun : VaultRun env S v w) : Histories w := by
  induction hrun with
  | refl => exact h
  | tail _ hstep ih => exact ih.move (notesMove_of_step hstep)

theorem grows_run (hrun : VaultRun env S v w) : Grows v w := by
  induction hrun with
  | refl => exact .refl
  | tail _ hstep ih => exact ih.trans (grows_of_step hstep)

theorem histories_retire {spaceId : String} {now : Nat} (h : Histories v) : Histories (v.retire spaceId now) := by
  have hw : Histories (v.wipe spaceId now) := h.wipe
  unfold retire
  split
  · exact { owned := hw.owned, full := hw.full, head := hw.head }
  · exact hw

theorem grows_retire (spaceId : String) (now : Nat) : Grows v (v.retire spaceId now) := by
  unfold retire
  split
  · exact { nodes := (grows_wipe spaceId now).nodes, notes := (grows_wipe spaceId now).notes }
  · exact grows_wipe spaceId now

theorem histories_empty : Histories Vault.empty where
  owned := fun r hr => absurd hr (Table.not_mem_empty r)
  full := fun n hn => absurd hn (Table.not_mem_empty n)
  head := fun n hn => absurd hn (Table.not_mem_empty n)

end Vault

namespace MemoryStore

open Vault

theorem histories_step {env : VaultEnv} {s t : MemoryStore} {a : MemoryAct} (h : s.vault.Histories) (hstep : s.step env a = some t) :
    t.vault.Histories ∧ Grows s.vault t.vault := by
  cases a with
  | write op =>
    have hrun := VaultOp.run_of_run (write_cases hstep).2.2
    exact ⟨h.run hrun, grows_run hrun⟩
  | openSpace space =>
    simp only [step] at hstep
    split at hstep
    · obtain ⟨spaces, _, rfl⟩ := Option.map_eq_some_iff.mp hstep
      exact ⟨h, .refl⟩
    · cases hstep
  | retire spaceId now =>
    cases hstep
    exact ⟨histories_retire h, grows_retire spaceId now⟩

end MemoryStore

end Capka

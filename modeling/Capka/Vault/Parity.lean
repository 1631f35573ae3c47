import Capka.Vault.Correctable

/-!
# Live edges and the two records of membership

The nine operations that create, correct, forget and restore claims and notes and that file and link them keep every live edge between live
nodes, and `note_claims` in step with the live `contains` edges, as long as a restore reopens no edge to a node that is still deleted. A
restore does not look: forgetting a fact, then its topic, and restoring the fact leaves a live edge from a deleted topic.
-/

namespace Capka

open MemoryGraph

namespace Vault

/-- Every live edge joins two live nodes of its space. -/
def EdgesLive (v : Vault) : Prop :=
  ∀ e ∈ v.graph.edges, e.deletedAt = none → v.graph.Live e.spaceId e.fromNodeId ∧ v.graph.Live e.spaceId e.toNodeId

/-- The rows belong together, and edges and memberships are in step. -/
structure InStep (v : Vault) : Prop where
  rows : v.RowsOk
  aligned : v.graph.Aligned v.noteClaims

theorem containsParity_ok_of_aligned {v : Vault} (h : v.graph.Aligned v.noteClaims) (spaceId : String) :
    (v.containsParity spaceId).ok = true := by
  rw [containsParity_ok_iff]
  intro noteId claimId
  constructor
  · rintro ⟨⟨p, hp, rfl, rfl⟩, hnlive, hclive⟩
    obtain ⟨note, hnote, claim, hclaim, ⟨hnid, hcid, hspace, hkind⟩, e, he, hj, hby⟩ := h.filed p hp
    have hns : note.spaceId = spaceId := hnlive.spaceId_eq hnote hnid
    rcases hby with ⟨_, _, helive⟩ | ⟨t, _, hd | hd⟩
    · exact ⟨⟨e, he, hns ▸ hj, helive⟩, claim, hclaim, hcid, hspace.trans hns, hkind⟩
    · rw [hnlive.deletedAt_eq_none hnote hnid] at hd
      cases hd
    · rw [hclive.deletedAt_eq_none hclaim hcid] at hd
      cases hd
  · rintro ⟨⟨e, he, ⟨hs, rfl, rfl, hrel⟩, helive⟩, n, hn, hid, _, hkind⟩
    obtain ⟨hfrom, hto⟩ := h.ends e he helive
    exact ⟨⟨_, h.recorded e he helive ⟨hrel, n, hn, hid, hkind⟩, rfl, rfl⟩, hs ▸ hfrom, hs ▸ hto⟩

namespace ParityAux

variable {env : VaultEnv} {v w : Vault} {spaceId : String}

variable {noteId claimId : String}

theorem aligned_fileUnder {edgeId : String} {r : Vault × String} (h : v.graph.Aligned v.noteClaims)
    (hfile : v.fileUnder spaceId noteId claimId edgeId = some r) (hclaim : ∃ n ∈ v.graph.nodes, n.id = claimId ∧ n.kind = .claim) :
    r.1.graph.Aligned r.1.noteClaims := by
  obtain ⟨_, l, hl, hr⟩ := fileUnder_cases hfile
  rw [hr]
  exact AlignedAux.aligned_file h hl hclaim

variable {fresh : Nat → String} {now : Nat}

theorem aligned_createClaim {input : ClaimInput} {r : Vault × String × Bool}
    (h : v.graph.Aligned v.noteClaims) (hr : v.createClaim env input fresh now = some r) : r.1.graph.Aligned r.1.noteClaims := by
  obtain ⟨graph, claims, w, _, hgraph, _, hw, rfl⟩ := createClaim_cases hr
  have hg : graph.Aligned v.noteClaims := AlignedAux.aligned_insertNode h hgraph
  rcases hw with ⟨_, rfl⟩ | ⟨noteId, x, _, hx, rfl, _⟩
  · exact hg
  · exact aligned_fileUnder (v := { v with graph, claims }) hg hx ⟨_, (mem_nodes_of_insertNode hgraph).mpr (.inr rfl), rfl, rfl⟩

theorem aligned_carryTopics {args : UpdateClaimArgs} (h : v.graph.Aligned v.noteClaims)
    (hcarry : v.carryTopics args spaceId fresh now = some w) (hold : ∀ n ∈ v.graph.nodes, n.id = args.claimId → n.spaceId = spaceId)
    (hnew : ∃ n ∈ v.graph.nodes, n.id = fresh 0 ∧ n.kind = .claim) : w.graph.Aligned w.noteClaims := by
  obtain ⟨graph, hgraph, hw⟩ := carryTopics_cases hcarry
  have hunlinked : (v.graph.unlinkContainsInto args.claimId spaceId now).Aligned (v.noteClaims.filter fun p => p.claimId ≠ args.claimId) :=
    AlignedAux.aligned_unlinkContainsInto h hold
  have hmoved : graph.Aligned (v.moveMemberships args.claimId (fresh 0)) := AlignedAux.aligned_linkContains hunlinked hgraph hnew
  rcases hw with ⟨_, rfl⟩ | ⟨noteId, x, _, _, hx, rfl⟩
  · exact hmoved
  · refine aligned_fileUnder (v := { v with graph, noteClaims := v.moveMemberships args.claimId (fresh 0) }) hmoved hx ?_
    obtain ⟨n, hn, hrest⟩ := hnew
    have hnodes : graph.nodes = v.graph.nodes := (linkContains_cases hgraph).nodes
    exact ⟨n, hnodes.symm ▸ hn, hrest⟩

theorem aligned_updateClaim {args : UpdateClaimArgs} {r : Vault × ClaimResult (String × Nat)}
    (h : InStep v) (hr : v.updateClaim env args fresh now = some r) : r.1.graph.Aligned r.1.noteClaims := by
  rcases updateClaim_cases hr with ⟨_, hv, _⟩ | ⟨prev, graph, claims, w, htarget, hgraph, _, hcarry, _, rfl⟩
  · rw [hv]
    exact h.aligned
  · obtain ⟨hprev, hid, _⟩ := updateTarget_eq_some_iff.mp htarget
    have hg : graph.Aligned v.noteClaims := AlignedAux.aligned_insertNode h.aligned hgraph
    refine aligned_carryTopics (v := { v with graph, claims }) (w := w) hg hcarry ?_ ?_
    · intro n hn hnid
      rcases (mem_nodes_of_insertNode hgraph).mp hn with hn | rfl
      · obtain ⟨m, hm, hmid, hms, _⟩ := h.rows.claimNodes prev hprev
        rw [node_eq hn hm (hnid.trans (hid.symm.trans hmid.symm))]
        exact hms
      · rfl
    · exact ⟨_, (mem_nodes_of_insertNode hgraph).mpr (.inr rfl), rfl, rfl⟩

theorem aligned_forgetClaim {args : ForgetClaimArgs} {r : Vault × ClaimResult Unit} (h : v.graph.Aligned v.noteClaims)
    (hr : v.forgetClaim args now = some r) : r.1.graph.Aligned r.1.noteClaims := by
  rcases forgetClaim_cases hr with ⟨hv, _⟩ | ⟨prev, _, _, _, _, rfl⟩
  · rw [hv]
    exact h
  · exact AlignedAux.aligned_deleteNode h

theorem aligned_restoreClaimFrom {stamp : Nat} {r : Vault × Bool} (h : v.graph.Aligned v.noteClaims)
    (hsound : v.revivable claimId spaceId → v.graph.ReopensSound v.noteClaims claimId spaceId stamp)
    (hr : v.restoreClaimFrom claimId spaceId stamp = some r) : r.1.graph.Aligned r.1.noteClaims := by
  rcases restoreClaimFrom_cases hr with ⟨hv, _⟩ | ⟨g, hrev, hg, hgraph, _, _, _, _, hpairs, _⟩
  · rw [hv]
    exact h
  · rw [hgraph, hpairs]
    exact AlignedAux.aligned_restoreNode h hg (hsound hrev)

theorem aligned_createNote {args : CreateNoteArgs} {r : Vault × String × Bool}
    (h : v.graph.Aligned v.noteClaims) (hr : v.createNote env args fresh now = some r) : r.1.graph.Aligned r.1.noteClaims := by
  obtain ⟨w, linked, x, hw, hlinked, hx, hr⟩ := createNote_cases hr
  obtain ⟨graph, notes, hgraph, _, _, rfl⟩ := insertNote_cases hw
  obtain ⟨_, _, _, _, _, _, _, hx⟩ := insertNoteVersion_cases hx
  have hlinks : linked.1.Aligned v.noteClaims := AlignedAux.aligned_links (AlignedAux.aligned_insertNode h hgraph) hlinked
  rw [hr, hx]
  exact hlinks

theorem aligned_forgetNote {args : ForgetNoteArgs} (h : v.graph.Aligned v.noteClaims) :
    (v.forgetNote args now).1.graph.Aligned (v.forgetNote args now).1.noteClaims := by
  rcases forgetNote_cases args now v with hv | ⟨_, _, hv⟩
  · rw [hv]
    exact h
  · rw [hv]
    exact AlignedAux.aligned_deleteNode h

theorem aligned_restoreNote {r : Vault × Bool} (h : v.graph.Aligned v.noteClaims)
    (hsound : ∀ stamp, (∃ n ∈ v.graph.nodes, n.id = noteId ∧ n.spaceId = spaceId ∧ n.deletedAt = some stamp) →
      v.graph.ReopensSound v.noteClaims noteId spaceId stamp)
    (hr : v.restoreNote noteId spaceId = some r) : r.1.graph.Aligned r.1.noteClaims := by
  rcases restoreNote_cases hr with hv | ⟨n, hn, stamp, g, hid, hs, hd, hg, hv⟩
  · rw [hv]
    exact h
  · rw [hv]
    exact AlignedAux.aligned_restoreNode h hg (hsound stamp ⟨n, hn, hid, hs, hd⟩)

theorem aligned_attachToTopic {edgeId : String} {r : Vault × String} (h : InStep v)
    (hr : v.attachToTopic env claimId noteId edgeId = some r) : r.1.graph.Aligned r.1.noteClaims := by
  obtain ⟨c, hc, hid, hfile⟩ := attachToTopic_cases hr
  obtain ⟨n, hn, hnid, _, hkind⟩ := h.rows.claimNodes c hc
  exact aligned_fileUnder h.aligned hfile ⟨n, hn, hnid.trans hid, hkind⟩

end ParityAux

end Vault

namespace MemoryStore

open Vault Vault.ParityAux

/-- The nine operations, where a restore reopens no edge to a deleted node and none into a claim that is not in the note, and where a link
by `contains` into a claim is that of a membership. -/
def Sound (s : MemoryStore) : MemoryAct → Prop
  | .openSpace _ => True
  | .write (.createClaim _ _ _) => True
  | .write (.updateClaim _ _ _) => True
  | .write (.forgetClaim _ _) => True
  | .write (.restoreClaim claimId allowedSpaceIds) =>
    ∀ tomb ∈ s.vault.claimTomb claimId allowedSpaceIds, s.vault.revivable claimId tomb.1 →
      s.vault.graph.ReopensSound s.vault.noteClaims claimId tomb.1 tomb.2
  | .write (.createNote _ _ _) => True
  | .write (.forgetNote _ _) => True
  | .write (.restoreNote noteId spaceId) =>
    ∀ stamp ∈ s.vault.stampOf noteId, s.vault.graph.ReopensSound s.vault.noteClaims noteId spaceId stamp
  | .write (.attachToTopic _ _ _) => True
  | .write (.linkNodes _ a b relation _) =>
    s.vault.graph.IntoClaim b relation → ({ noteId := a, claimId := b } : NoteClaim) ∈ s.vault.noteClaims
  | _ => False

instance (s : MemoryStore) (a : MemoryAct) : Decidable (s.Sound a) := by
  unfold Sound
  split <;> infer_instance

theorem inStep_step {env : VaultEnv} {s t : MemoryStore} {a : MemoryAct} (h : s.vault.InStep) (hok : s.Sound a)
    (hstep : s.step env a = some t) : t.vault.InStep := by
  refine ⟨rowsOk_step h.rows hstep, ?_⟩
  cases a with
  | openSpace space =>
    simp only [step] at hstep
    split at hstep
    · obtain ⟨spaces, _, rfl⟩ := Option.map_eq_some_iff.mp hstep
      exact h.aligned
    · cases hstep
  | retire spaceId now => cases hok
  | write op =>
    have hrun := (write_cases hstep).2.2
    cases op with
    | createClaim input fresh now =>
      obtain ⟨r, hr, hv⟩ := Option.map_eq_some_iff.mp hrun
      exact hv ▸ aligned_createClaim h.aligned hr
    | updateClaim args fresh now =>
      obtain ⟨r, hr, hv⟩ := Option.map_eq_some_iff.mp hrun
      exact hv ▸ aligned_updateClaim h hr
    | forgetClaim args now =>
      obtain ⟨r, hr, hv⟩ := Option.map_eq_some_iff.mp hrun
      exact hv ▸ aligned_forgetClaim h.aligned hr
    | restoreClaim claimId allowedSpaceIds =>
      obtain ⟨r, hr, hv⟩ := Option.map_eq_some_iff.mp hrun
      unfold restoreClaim at hr
      split at hr
      · cases hr
        exact hv ▸ h.aligned
      · rename_i tomb htomb
        exact hv ▸ aligned_restoreClaimFrom h.aligned (hok tomb htomb) hr
    | createNote args fresh now =>
      obtain ⟨r, hr, hv⟩ := Option.map_eq_some_iff.mp hrun
      exact hv ▸ aligned_createNote h.aligned hr
    | forgetNote args now =>
      have hv := Option.some.inj hrun
      exact hv ▸ aligned_forgetNote h.aligned
    | restoreNote noteId spaceId =>
      obtain ⟨r, hr, hv⟩ := Option.map_eq_some_iff.mp hrun
      refine hv ▸ aligned_restoreNote h.aligned ?_ hr
      rintro stamp ⟨n, hn, hid, _, hd⟩
      refine hok stamp ?_
      simp only [Vault.stampOf, Option.mem_def, Option.bind_eq_some_iff]
      exact ⟨n, Table.get_eq_some_iff.mpr ⟨hn, hid⟩, hd⟩
    | attachToTopic claimId noteId edgeId =>
      obtain ⟨r, hr, hv⟩ := Option.map_eq_some_iff.mp hrun
      exact hv ▸ aligned_attachToTopic h hr
    | linkNodes spaceId a b relation edgeId =>
      obtain ⟨r, hr, hv⟩ := Option.map_eq_some_iff.mp hrun
      rw [← hv]
      exact AlignedAux.aligned_linkNodes h.aligned hr hok
    | forgetAllClaims
    | confirmClaim
    | resolveConflict
    | reviseNote
    | resolveTopic
    | proposeCandidate
    | confirmCandidate
    | rejectCandidate
    | unlinkEdge => cases hok

theorem inStep_empty : Vault.empty.InStep where
  rows := RowsAux.rowsOk_empty
  aligned :=
    { ends := fun e he => absurd he (Table.not_mem_empty e)
      filed := fun p hp => absurd hp (Table.not_mem_empty p)
      recorded := fun e he => absurd he (Table.not_mem_empty e) }

/-- In every state of a run whose restores and links are sound, live edges join live nodes and `containsParity` reports nothing. -/
theorem edges_live_of_sound {env : VaultEnv} {s : MemoryStore} (h : Steps.Reaches (step env) Sound empty s) :
    s.vault.EdgesLive ∧ ∀ spaceId, (s.vault.containsParity spaceId).ok = true := by
  have hin : s.vault.InStep := h.invariant (I := fun s => s.vault.InStep) (fun _ _ _ hx hok hy => inStep_step hx hok hy) inStep_empty
  exact ⟨hin.aligned.ends, containsParity_ok_of_aligned hin.aligned⟩

open CorrectRun

/-- The fact forgotten and restored, its topic forgotten and restored in between. -/
theorem edges_live_of_sound_restored : ∃ s : MemoryStore, (∃ e ∈ s.vault.graph.edges, e.deletedAt = none) ∧
    s.vault.EdgesLive ∧ ∀ spaceId, (s.vault.containsParity spaceId).ok = true := by
  obtain ⟨s, hs, hedge⟩ := Steps.exists_of_execOk (step env) Sound empty
    (acts ++
      [.write (.forgetClaim { claimId := "c", expectedRevision := 1, allowedSpaceIds := ["s"], requireCreatedTaskId := none } 3),
        .write (.restoreClaim "c" ["s"]),
        .write (.forgetNote { noteId := "t", spaceId := "s", expectedRevision := 1, createdTaskId := none } 4),
        .write (.restoreNote "t" "s")])
    (P := fun s : MemoryStore => ∃ e ∈ s.vault.graph.edges, e.deletedAt = none) (by decide)
  exact ⟨s, hedge, edges_live_of_sound hs⟩

/-- The nine operations, whatever a restore reopens; links by `contains` come with their memberships. -/
def Nine (s : MemoryStore) : MemoryAct → Prop
  | .write (.restoreClaim _ _) => True
  | .write (.restoreNote _ _) => True
  | a => s.Sound a

instance (s : MemoryStore) (a : MemoryAct) : Decidable (s.Nine a) := by
  unfold Nine
  split <;> infer_instance

/-- A fact is forgotten, then its topic, and the fact is restored: its edge is live again, from a topic that is deleted. -/
theorem edges_live_false : ∃ s : MemoryStore, Steps.Reaches (step env) Nine empty s ∧
    (∃ e ∈ s.vault.graph.edges, e.deletedAt = none ∧ ¬s.vault.graph.Live e.spaceId e.fromNodeId) ∧
      (s.vault.containsParity "s").ok = false :=
  Steps.exists_of_execOk (step env) Nine empty
    (acts ++
      [.write (.forgetClaim { claimId := "c", expectedRevision := 1, allowedSpaceIds := ["s"], requireCreatedTaskId := none } 3),
        .write (.forgetNote { noteId := "t", spaceId := "s", expectedRevision := 1, createdTaskId := none } 4),
        .write (.restoreClaim "c" ["s"])])
    (P := fun s : MemoryStore => (∃ e ∈ s.vault.graph.edges, e.deletedAt = none ∧ ¬s.vault.graph.Live e.spaceId e.fromNodeId) ∧
      (s.vault.containsParity "s").ok = false) (by decide)

end MemoryStore

end Capka

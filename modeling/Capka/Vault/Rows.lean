import Capka.Vault.Aligned
import Capka.Vault.Moves

/-!
# Rows that belong together

Claims and notes have their nodes, memberships join rows of one space, and a head is live. Every part of every operation keeps this.
-/

namespace Capka

namespace MemoryGraph

/-- Nodes keep their id, space and kind, and stay live unless they are of those that die; edges join what was joined, or nodes there are. -/
structure KeepsNodes (dies : String → Prop) (g g' : MemoryGraph) : Prop where
  nodes : ∀ n ∈ g.nodes, ∃ n' ∈ g'.nodes, n'.id = n.id ∧ n'.spaceId = n.spaceId ∧ n'.kind = n.kind ∧
    (n.deletedAt = none → ¬dies n.id → n'.deletedAt = none)
  ends : ∀ e' ∈ g'.edges, (∃ e ∈ g.edges, e.fromNodeId = e'.fromNodeId ∧ e.toNodeId = e'.toNodeId) ∨
    ((∃ n ∈ g'.nodes, n.id = e'.fromNodeId) ∧ ∃ n ∈ g'.nodes, n.id = e'.toNodeId)

/-- No node dies. -/
def NoneDies : String → Prop := fun _ => False

/-- Any node may die. -/
def AnyDies : String → Prop := fun _ => True

variable {g g' g'' : MemoryGraph} {dies : String → Prop}

theorem KeepsNodes.refl : KeepsNodes dies g g where
  nodes := fun n hn => ⟨n, hn, rfl, rfl, rfl, fun hd _ => hd⟩
  ends := fun e he => .inl ⟨e, he, rfl, rfl⟩

theorem KeepsNodes.trans (h : KeepsNodes dies g g') (h' : KeepsNodes dies g' g'') : KeepsNodes dies g g'' := by
  refine { nodes := ?_, ends := ?_ }
  · intro n hn
    obtain ⟨n', hn', hid, hs, hk, hl⟩ := h.nodes n hn
    obtain ⟨n'', hn'', hid', hs', hk', hl'⟩ := h'.nodes n' hn'
    exact ⟨n'', hn'', hid'.trans hid, hs'.trans hs, hk'.trans hk, fun hd hnot => hl' (hl hd hnot) (hid ▸ hnot)⟩
  · intro e'' he''
    rcases h'.ends e'' he'' with ⟨e', he', hf, ht⟩ | hends
    · rcases h.ends e' he' with ⟨e, he, hf', ht'⟩ | ⟨⟨n, hn, hnid⟩, m, hm, hmid⟩
      · exact .inl ⟨e, he, hf'.trans hf, ht'.trans ht⟩
      · obtain ⟨n', hn', hid, _⟩ := h'.nodes n hn
        obtain ⟨m', hm', hid', _⟩ := h'.nodes m hm
        exact .inr ⟨⟨n', hn', hid.trans (hnid.trans hf)⟩, m', hm', hid'.trans (hmid.trans ht)⟩
    · exact .inr hends

theorem KeepsNodes.mono {dies' : String → Prop} (h : KeepsNodes dies g g') (hle : ∀ x, dies x → dies' x) : KeepsNodes dies' g g' where
  nodes := fun n hn => by
    obtain ⟨n', hn', hid, hs, hk, hl⟩ := h.nodes n hn
    exact ⟨n', hn', hid, hs, hk, fun hd hnot => hl hd fun hx => hnot (hle _ hx)⟩
  ends := h.ends

theorem KeepsNodes.any (h : KeepsNodes dies g g') : KeepsNodes AnyDies g g' := h.mono fun _ _ => trivial

theorem KeepsNodes.of_update (h : g'.nodes = g.nodes)
    (hedges : ∀ e' ∈ g'.edges, ∃ e ∈ g.edges, e.fromNodeId = e'.fromNodeId ∧ e.toNodeId = e'.toNodeId) : KeepsNodes dies g g' where
  nodes := fun n hn => ⟨n, h.symm ▸ hn, rfl, rfl, rfl, fun hd _ => hd⟩
  ends := fun e' he' => .inl (hedges e' he')

variable {spaceId : String}

theorem keepsNodes_insertNode {id : String} {kind : NodeKind} (h : g.insertNode id spaceId kind = some g') :
    KeepsNodes dies g g' where
  nodes := fun n hn => ⟨n, (mem_nodes_of_insertNode h).mpr (.inl hn), rfl, rfl, rfl, fun hd _ => hd⟩
  ends := fun e he => .inl ⟨e, edges_of_insertNode h ▸ he, rfl, rfl⟩

variable {now : Nat}

theorem ends_closeEdges {p : VaultEdge → Prop} [DecidablePred p] {e' : VaultEdge}
    (h : e' ∈ (g.closeEdges spaceId p now).edges) : ∃ e ∈ g.edges, e.fromNodeId = e'.fromNodeId ∧ e.toNodeId = e'.toNodeId := by
  rcases mem_closeEdges.mp h with ⟨e, he, _, rfl⟩ | ⟨he, _⟩
  · exact ⟨e, he, rfl, rfl⟩
  · exact ⟨e', he, rfl, rfl⟩

theorem keepsNodes_closeEdges {p : VaultEdge → Prop} [DecidablePred p] :
    KeepsNodes dies g (g.closeEdges spaceId p now) := .of_update rfl fun _ he => ends_closeEdges he

theorem keepsNodes_linkNodes {a b id : String} {relation : EdgeRelation} {r : MemoryGraph × String × Bool}
    (h : g.linkNodes spaceId a b relation id = some r) : KeepsNodes dies g r.1 := by
  obtain ⟨⟨na, nb, ha, hb, _⟩, hl⟩ := linkNodes_cases h
  refine { nodes := ?_, ends := ?_ }
  · exact fun n hn => ⟨n, hl.nodes.symm ▸ hn, rfl, rfl, rfl, fun hd _ => hd⟩
  · intro e he
    rcases hl.added e he with he | ⟨⟨_, hf, ht, _⟩, _⟩
    · exact .inl ⟨e, he, rfl, rfl⟩
    · obtain ⟨hna, haid, _⟩ := liveNode_eq_some_iff.mp ha
      obtain ⟨hnb, hbid, _⟩ := liveNode_eq_some_iff.mp hb
      exact .inr ⟨⟨na, hl.nodes.symm ▸ hna, haid.trans hf.symm⟩, nb, hl.nodes.symm ▸ hnb, hbid.trans ht.symm⟩

theorem keepsNodes_linkContains {claimId : String} {fresh : Nat → String} {noteIds : List String} {i : Nat}
    (h : g.linkContains spaceId claimId fresh noteIds i = some g') : KeepsNodes dies g g' := by
  induction noteIds generalizing g i with
  | nil =>
    cases h
    exact .refl
  | cons noteId noteIds ih =>
    obtain ⟨r, hr, hrest⟩ := Option.bind_eq_some_iff.mp h
    exact (keepsNodes_linkNodes hr).trans (ih hrest)

theorem keepsNodes_applyBody {noteId : String} {fresh : Nat → String} {writes : List BodyWrite} {i : Nat}
    {r : MemoryGraph × List String} (h : Vault.applyBody noteId spaceId fresh now writes i g = some r) : KeepsNodes dies g r.1 := by
  induction writes generalizing g i r with
  | nil =>
    cases h
    exact .refl
  | cons write writes ih =>
    cases write with
    | unlinkReferences keepTargets =>
      exact keepsNodes_closeEdges.trans (ih (g := g.unlinkReferencesFrom noteId spaceId keepTargets now) h)
    | unlinkEdge edgeId => exact keepsNodes_closeEdges.trans (ih (g := g.unlinkEdge edgeId spaceId now) h)
    | link target =>
      obtain ⟨x, hx, hrest⟩ := Option.bind_eq_some_iff.mp h
      obtain ⟨y, hy, rfl⟩ := Option.map_eq_some_iff.mp hrest
      exact (keepsNodes_linkNodes hx).trans (ih (r := y) hy)

theorem keepsNodes_deleteNode (nodeId spaceId : String) (now : Nat) (onlyIf : Option Bool) :
    KeepsNodes (fun x => x = nodeId) g (g.deleteNode nodeId spaceId now onlyIf).1 := by
  unfold deleteNode
  split
  · exact .refl
  · refine { nodes := ?_, ends := fun _ he => .inl (ends_closeEdges he) }
    intro n hn
    have hafter := AlignedAux.node_after (fun n => n.id = nodeId ∧ n.spaceId = spaceId ∧ n.deletedAt = none) (some now) hn
    by_cases hp : n.id = nodeId ∧ n.spaceId = spaceId ∧ n.deletedAt = none
    · rw [if_pos hp] at hafter
      exact ⟨_, hafter, rfl, rfl, rfl, fun _ hnot => absurd hp.1 hnot⟩
    · rw [if_neg hp] at hafter
      exact ⟨n, hafter, rfl, rfl, rfl, fun hd _ => hd⟩

theorem keepsNodes_deleteSpaceNodes (spaceId : String) (now : Nat) :
    KeepsNodes (fun x => ∃ n ∈ g.nodes, n.id = x ∧ n.spaceId = spaceId) g (g.deleteSpaceNodes spaceId now) := by
  refine { nodes := ?_, ends := fun _ he => .inl (ends_closeEdges he) }
  intro n hn
  have hafter := AlignedAux.node_after (fun n => n.spaceId = spaceId ∧ n.deletedAt = none) (some now) hn
  by_cases hp : n.spaceId = spaceId ∧ n.deletedAt = none
  · rw [if_pos hp] at hafter
    exact ⟨_, hafter, rfl, rfl, rfl, fun _ hnot => absurd ⟨n, hn, rfl, hp.1⟩ hnot⟩
  · rw [if_neg hp] at hafter
    exact ⟨n, hafter, rfl, rfl, rfl, fun hd _ => hd⟩

theorem keepsNodes_deleteClaims (spaceId : String) (clock : String → Nat) (l : List VaultClaim) :
    KeepsNodes (fun x => ∃ c ∈ l, c.id = x) g (l.foldl (fun g c => (g.deleteNode c.id spaceId (clock c.id) none).1) g) := by
  induction l generalizing g with
  | nil => exact .refl
  | cons c l ih =>
    rw [List.foldl_cons]
    have hone : KeepsNodes (fun x => ∃ c' ∈ c :: l, c'.id = x) g (g.deleteNode c.id spaceId (clock c.id) none).1 :=
      (keepsNodes_deleteNode c.id spaceId (clock c.id) none).mono fun x hx => ⟨c, List.mem_cons_self, hx.symm⟩
    refine hone.trans (ih.mono ?_)
    rintro x ⟨c', hc', hx⟩
    exact ⟨c', List.mem_cons_of_mem _ hc', hx⟩

variable {nodeId : String} {stamp : Nat}

theorem keepsNodes_reopen : KeepsNodes dies g (g.reopen nodeId spaceId stamp) := by
  refine { nodes := ?_, ends := ?_ }
  · intro n hn
    have hafter := AlignedAux.node_after (fun n => n.id = nodeId ∧ n.spaceId = spaceId ∧ n.deletedAt = some stamp) none hn
    by_cases hp : n.id = nodeId ∧ n.spaceId = spaceId ∧ n.deletedAt = some stamp
    · rw [if_pos hp] at hafter
      exact ⟨_, hafter, rfl, rfl, rfl, fun _ _ => rfl⟩
    · rw [if_neg hp] at hafter
      exact ⟨n, hafter, rfl, rfl, rfl, fun hd _ => hd⟩
  · intro e he
    rcases AlignedAux.mem_edges_reopen.mp he with ⟨e₀, he₀, _, rfl⟩ | ⟨he, _⟩
    · exact .inl ⟨e₀, he₀, rfl, rfl⟩
    · exact .inl ⟨e, he, rfl, rfl⟩

theorem restoreNode_cases {r : MemoryGraph × Bool}
    (h : g.restoreNode nodeId spaceId stamp = some r) :
    ((∃ n ∈ g.nodes, n.id = nodeId ∧ n.spaceId = spaceId ∧ n.deletedAt = some stamp) ∧ r = (g.reopen nodeId spaceId stamp, true)) ∨
      ((¬∃ n ∈ g.nodes, n.id = nodeId ∧ n.spaceId = spaceId ∧ n.deletedAt = some stamp) ∧ r = (g, false)) := by
  unfold restoreNode at h
  split at h
  · rename_i hstamp
    simp only at h
    split at h
    · cases h
      exact .inl ⟨hstamp, rfl⟩
    · cases h
  · rename_i hstamp
    cases h
    exact .inr ⟨hstamp, rfl⟩

theorem keepsNodes_restoreNode {r : MemoryGraph × Bool}
    (h : g.restoreNode nodeId spaceId stamp = some r) : KeepsNodes dies g r.1 := by
  rcases restoreNode_cases h with ⟨_, rfl⟩ | ⟨_, rfl⟩
  · exact keepsNodes_reopen
  · exact .refl

theorem live_of_reopen {n : VaultNode} (hn : n ∈ (g.reopen nodeId spaceId stamp).nodes)
    (hid : n.id = nodeId) (hstamp : ∃ n ∈ g.nodes, n.id = nodeId ∧ n.spaceId = spaceId ∧ n.deletedAt = some stamp) :
    n.deletedAt = none := by
  obtain ⟨m, hm, hmid, hms, hmd⟩ := hstamp
  have hafter := AlignedAux.node_after (fun n => n.id = nodeId ∧ n.spaceId = spaceId ∧ n.deletedAt = some stamp) none hm
  rw [if_pos ⟨hmid, hms, hmd⟩] at hafter
  have heq := node_eq hn hafter (hid.trans hmid.symm)
  rw [heq]

end MemoryGraph

open MemoryGraph

namespace Vault

structure RowsOk (v : Vault) : Prop where
  claimNodes : ∀ c ∈ v.claims, ∃ n ∈ v.graph.nodes, n.id = c.id ∧ n.spaceId = c.spaceId ∧ n.kind = .claim
  noteNodes : ∀ x ∈ v.notes, ∃ n ∈ v.graph.nodes, n.id = x.id ∧ n.spaceId = x.spaceId ∧ n.kind = .note
  pairs : ∀ p ∈ v.noteClaims, ∃ c ∈ v.claims, ∃ x ∈ v.notes, c.id = p.claimId ∧ x.id = p.noteId ∧ x.spaceId = c.spaceId
  heads : ∀ c ∈ v.claims, c.supersededAt = none → ∀ n ∈ v.graph.nodes, n.id = c.id → n.deletedAt = none
  chains : v.claims.ChainOk
  edgeEnds : ∀ e ∈ v.graph.edges, (∃ n ∈ v.graph.nodes, n.id = e.fromNodeId) ∧ ∃ n ∈ v.graph.nodes, n.id = e.toNodeId

namespace RowsAux

variable {v w : Vault}

theorem rowsOk_congr (h : RowsOk v) (hg : w.graph = v.graph) (hc : w.claims = v.claims) (hn : w.notes = v.notes)
    (hp : w.noteClaims = v.noteClaims) : RowsOk w := by
  refine { claimNodes := ?_, noteNodes := ?_, pairs := ?_, heads := ?_, chains := ?_, edgeEnds := ?_ }
  · rw [hc, hg]
    exact h.claimNodes
  · rw [hn, hg]
    exact h.noteNodes
  · rw [hp, hc, hn]
    exact h.pairs
  · rw [hc, hg]
    exact h.heads
  · rw [hc]
    exact h.chains
  · rw [hg]
    exact h.edgeEnds

theorem note_ne_claim (h : RowsOk v) {c : VaultClaim} {x : VaultNote} (hc : c ∈ v.claims) (hx : x ∈ v.notes) : x.id ≠ c.id := by
  intro heq
  obtain ⟨n, hn, hid, _, hk⟩ := h.claimNodes c hc
  obtain ⟨m, hm, hid', _, hk'⟩ := h.noteNodes x hx
  have : n = m := node_eq hn hm (hid.trans (heq.symm.trans hid'.symm))
  rw [this, hk'] at hk
  cases hk

variable {dies : String → Prop} {g' : MemoryGraph}

theorem edgeEnds_of_keeps (h : RowsOk v) (hkeep : KeepsNodes dies v.graph g') :
    ∀ e ∈ g'.edges, (∃ n ∈ g'.nodes, n.id = e.fromNodeId) ∧ ∃ n ∈ g'.nodes, n.id = e.toNodeId := by
  intro e' he'
  rcases hkeep.ends e' he' with ⟨e, he, hf, ht⟩ | hends
  · obtain ⟨⟨n, hn, hnid⟩, m, hm, hmid⟩ := h.edgeEnds e he
    obtain ⟨n', hn', hid, _⟩ := hkeep.nodes n hn
    obtain ⟨m', hm', hid', _⟩ := hkeep.nodes m hm
    exact ⟨⟨n', hn', hid.trans (hnid.trans hf)⟩, m', hm', hid'.trans (hmid.trans ht)⟩
  · exact hends

theorem rowsOk_graph (h : RowsOk v) (hkeep : KeepsNodes dies v.graph g')
    (hdies : ∀ c ∈ v.claims, c.supersededAt = none → ¬dies c.id) : RowsOk { v with graph := g' } := by
  refine { claimNodes := ?_, noteNodes := ?_, pairs := h.pairs, heads := ?_, chains := h.chains, edgeEnds := ?_ }
  · intro c hc
    obtain ⟨n, hn, hid, hs, hk⟩ := h.claimNodes c hc
    obtain ⟨n', hn', hid', hs', hk', _⟩ := hkeep.nodes n hn
    exact ⟨n', hn', hid'.trans hid, hs'.trans hs, hk'.trans hk⟩
  · intro x hx
    obtain ⟨n, hn, hid, hs, hk⟩ := h.noteNodes x hx
    obtain ⟨n', hn', hid', hs', hk', _⟩ := hkeep.nodes n hn
    exact ⟨n', hn', hid'.trans hid, hs'.trans hs, hk'.trans hk⟩
  · intro c hc hlive m hm hid
    obtain ⟨n, hn, hnid, _⟩ := h.claimNodes c hc
    obtain ⟨n', hn', hid', _, _, hl⟩ := hkeep.nodes n hn
    have heq : m = n' := node_eq hm hn' (hid.trans (hnid.symm.trans hid'.symm))
    rw [heq]
    exact hl (h.heads c hc hlive n hn hnid) (hnid ▸ hdies c hc hlive)
  · exact edgeEnds_of_keeps h hkeep

theorem rowsOk_kept (h : RowsOk v) (hkeep : KeepsNodes NoneDies v.graph g') : RowsOk { v with graph := g' } :=
  rowsOk_graph h hkeep fun _ _ _ hd => hd

theorem rowsOk_claims {T : Claims} (h : RowsOk v) (hchain : T.ChainOk)
    (hrow : ∀ c ∈ T, ∃ c₀ ∈ v.claims, c₀.id = c.id ∧ c₀.spaceId = c.spaceId ∧ (c.supersededAt = none → c₀.supersededAt = none))
    (hkept : ∀ c₀ ∈ v.claims, ∃ c ∈ T, c.id = c₀.id ∧ c.spaceId = c₀.spaceId) : RowsOk { v with claims := T } := by
  refine { claimNodes := ?_, noteNodes := h.noteNodes, pairs := ?_, heads := ?_, chains := hchain, edgeEnds := h.edgeEnds }
  · intro c hc
    obtain ⟨c₀, hc₀, hid, hs, _⟩ := hrow c hc
    obtain ⟨n, hn, hnid, hns, hk⟩ := h.claimNodes c₀ hc₀
    exact ⟨n, hn, hnid.trans hid, hns.trans hs, hk⟩
  · intro p hp
    obtain ⟨c₀, hc₀, x, hx, hid, hxid, hs⟩ := h.pairs p hp
    obtain ⟨c, hc, hcid, hcs⟩ := hkept c₀ hc₀
    exact ⟨c, hc, x, hx, hcid.trans hid, hxid, hs.trans hcs.symm⟩
  · intro c hc hlive n hn hid
    obtain ⟨c₀, hc₀, hid₀, _, hl⟩ := hrow c hc
    exact h.heads c₀ hc₀ (hl hlive) n hn (hid.trans hid₀.symm)

theorem rowsOk_updateClaims {p : VaultClaim → Prop} [DecidablePred p] {f : VaultClaim → VaultClaim} (hf : ∀ r, (f r).id = r.id)
    (h : RowsOk v) (hchain : Claims.ChainOk (v.claims.update p f hf)) (hspace : ∀ r, (f r).spaceId = r.spaceId)
    (hhead : ∀ r, (f r).supersededAt = none → r.supersededAt = none) : RowsOk { v with claims := v.claims.update p f hf } := by
  refine rowsOk_claims h hchain ?_ ?_
  · intro c hc
    obtain ⟨c₀, hc₀, hk, rfl | rfl⟩ := Table.exists_of_mem_update hf hc
    · exact ⟨c₀, hc₀, hk.symm, (hspace c₀).symm, hhead c₀⟩
    · exact ⟨c, hc₀, rfl, rfl, id⟩
  · intro c₀ hc₀
    obtain ⟨c, hc, hk, rfl | rfl⟩ := Table.exists_mem_update p hf hc₀
    · exact ⟨f c₀, hc, hk, hspace c₀⟩
    · exact ⟨c, hc, rfl, rfl⟩

variable {now : Nat}

theorem rowsOk_finish {p : VaultClaim → Bool} (h : RowsOk v) : RowsOk { v with claims := v.claims.finish p now } := by
  refine rowsOk_updateClaims _ h (h.chains.step (m := .finish p now) rfl) (fun _ => rfl) ?_
  intro r hnone
  cases hnone

theorem rowsOk_insertClaim {row : VaultClaim} {T : Claims} (h : RowsOk v) (hins : v.claims.insert row = some T) (hchain : T.ChainOk)
    (hnode : ∃ n ∈ v.graph.nodes, n.id = row.id ∧ n.spaceId = row.spaceId ∧ n.kind = .claim ∧ n.deletedAt = none) :
    RowsOk { v with claims := T } := by
  obtain ⟨n, hn, hnid, hns, hk, hlive⟩ := hnode
  refine { claimNodes := ?_, noteNodes := h.noteNodes, pairs := ?_, heads := ?_, chains := hchain, edgeEnds := h.edgeEnds }
  · intro c hc
    rcases (Table.mem_of_insert hins).mp hc with hc | rfl
    · exact h.claimNodes c hc
    · exact ⟨n, hn, hnid, hns, hk⟩
  · intro p hp
    obtain ⟨c, hc, x, hx, hrest⟩ := h.pairs p hp
    exact ⟨c, (Table.mem_of_insert hins).mpr (.inl hc), x, hx, hrest⟩
  · intro c hc hl m hm hid
    rcases (Table.mem_of_insert hins).mp hc with hc | rfl
    · exact h.heads c hc hl m hm hid
    · rw [node_eq hm hn (hid.trans hnid.symm)]
      exact hlive

variable {spaceId noteId claimId : String}

theorem keepsNodes_fileUnder {edgeId : String} {r : Vault × String}
    (hfile : v.fileUnder spaceId noteId claimId edgeId = some r) : KeepsNodes dies v.graph r.1.graph := by
  obtain ⟨_, l, hl, hr⟩ := fileUnder_cases hfile
  rw [hr]
  exact keepsNodes_linkNodes hl

variable {args : UpdateClaimArgs} {fresh : Nat → String}

theorem keepsNodes_carryTopics
    (hcarry : v.carryTopics args spaceId fresh now = some w) : KeepsNodes dies v.graph w.graph := by
  obtain ⟨graph, hgraph, hw⟩ := carryTopics_cases hcarry
  have hkeep : KeepsNodes dies v.graph graph := keepsNodes_closeEdges.trans (keepsNodes_linkContains hgraph)
  rcases hw with ⟨_, rfl⟩ | ⟨noteId, x, _, _, hx, rfl⟩
  · exact hkeep
  · exact hkeep.trans (keepsNodes_fileUnder hx)

theorem rowsOk_fileUnder {edgeId : String} {r : Vault × String} (h : RowsOk v)
    (hfile : v.fileUnder spaceId noteId claimId edgeId = some r) (hclaim : ∃ c ∈ v.claims, c.id = claimId ∧ c.spaceId = spaceId) :
    RowsOk r.1 := by
  obtain ⟨⟨x, hx, hxid, hxs⟩, l, hl, hr⟩ := fileUnder_cases hfile
  obtain ⟨c, hc, hcid, hcs⟩ := hclaim
  have hg := rowsOk_kept h (keepsNodes_linkNodes hl)
  rw [hr]
  refine { claimNodes := hg.claimNodes, noteNodes := hg.noteNodes, pairs := ?_, heads := hg.heads, chains := hg.chains, edgeEnds := hg.edgeEnds }
  intro p hp
  rcases AlignedAux.mem_put_iff.mp hp with rfl | hp
  · exact ⟨c, hc, x, hx, hcid, hxid, hxs.trans hcs.symm⟩
  · exact h.pairs p hp

theorem mem_moveMemberships {old new : String} {p : NoteClaim} :
    p ∈ v.moveMemberships old new ↔
      (p ∈ v.noteClaims ∧ p.claimId ≠ old) ∨ ∃ noteId, ({ noteId, claimId := old } : NoteClaim) ∈ v.noteClaims ∧ p = { noteId, claimId := new } := by
  have hfold : ∀ (l : List String) (T : Table NoteClaim NoteClaim.key),
      p ∈ l.foldl (fun T noteId => T.put { noteId, claimId := new }) T ↔ p ∈ T ∨ ∃ noteId ∈ l, p = { noteId, claimId := new } := by
    intro l
    induction l with
    | nil => simp
    | cons a l ih =>
      intro T
      rw [List.foldl_cons, ih, AlignedAux.mem_put_iff]
      simp only [List.mem_cons, exists_eq_or_imp]
      tauto
  have hfiled : ∀ noteId, noteId ∈ v.filedUnder old ↔ ({ noteId, claimId := old } : NoteClaim) ∈ v.noteClaims := by
    intro noteId
    simp only [filedUnder, List.mem_map, List.mem_filter, decide_eq_true_eq]
    constructor
    · rintro ⟨⟨n, c⟩, ⟨hp, rfl⟩, rfl⟩
      exact hp
    · exact fun hp => ⟨_, ⟨hp, rfl⟩, rfl⟩
  unfold moveMemberships
  rw [hfold, Table.mem_filter]
  simp only [hfiled, ne_eq, decide_eq_true_eq]

theorem rowsOk_carryTopics (h : RowsOk v)
    (hcarry : v.carryTopics args spaceId fresh now = some w) (hold : ∃ c ∈ v.claims, c.id = args.claimId ∧ c.spaceId = spaceId)
    (hnew : ∃ c ∈ v.claims, c.id = fresh 0 ∧ c.spaceId = spaceId) : RowsOk w := by
  obtain ⟨graph, hgraph, hw⟩ := carryTopics_cases hcarry
  have hkeep : KeepsNodes NoneDies v.graph graph := keepsNodes_closeEdges.trans (keepsNodes_linkContains hgraph)
  have hg := rowsOk_kept h hkeep
  have hmoved : RowsOk { v with graph, noteClaims := v.moveMemberships args.claimId (fresh 0) } := by
    refine { claimNodes := hg.claimNodes, noteNodes := hg.noteNodes, pairs := ?_, heads := hg.heads, chains := hg.chains, edgeEnds := hg.edgeEnds }
    intro p hp
    rcases mem_moveMemberships.mp hp with ⟨hp, _⟩ | ⟨noteId, hmem, rfl⟩
    · exact h.pairs p hp
    · obtain ⟨c, hc, x, hx, hcid, hxid, hs⟩ := h.pairs _ hmem
      obtain ⟨o, ho, hoid, hos⟩ := hold
      obtain ⟨n, hn, hnid, hns⟩ := hnew
      have heq : c = o := Table.eq_of_key hc ho (hcid.trans hoid.symm)
      exact ⟨n, hn, x, hx, hnid, hxid, hs.trans ((congrArg VaultClaim.spaceId heq).trans (hos.trans hns.symm))⟩
  rcases hw with ⟨_, rfl⟩ | ⟨noteId, x, _, _, hx, rfl⟩
  · exact hmoved
  · exact rowsOk_fileUnder hmoved hx hnew

variable {env : VaultEnv}

theorem rowsOk_createClaim {input : ClaimInput} {r : Vault × String × Bool}
    (h : RowsOk v) (hr : v.createClaim env input fresh now = some r) : RowsOk r.1 := by
  obtain ⟨graph, claims, w, _, hgraph, hclaims, hw, rfl⟩ := createClaim_cases hr
  have hg : RowsOk { v with graph } := rowsOk_kept h (keepsNodes_insertNode hgraph)
  have hc : RowsOk { v with graph, claims } := by
    refine rowsOk_insertClaim hg hclaims (h.chains.step (m := .create input (fresh 0) now) hclaims) ?_
    exact ⟨_, (mem_nodes_of_insertNode hgraph).mpr (.inr rfl), rfl, rfl, rfl, rfl⟩
  refine rowsOk_congr (v := w) ?_ rfl rfl rfl rfl
  rcases hw with ⟨_, rfl⟩ | ⟨noteId, x, _, hx, rfl, _⟩
  · exact hc
  · exact rowsOk_fileUnder hc hx ⟨_, (Table.mem_of_insert hclaims).mpr (.inr rfl), rfl, rfl⟩

theorem rowsOk_updateClaim
    {r : Vault × ClaimResult (String × Nat)} (h : RowsOk v) (hr : v.updateClaim env args fresh now = some r) : RowsOk r.1 := by
  rcases updateClaim_cases hr with ⟨_, hv, _⟩ | ⟨prev, graph, claims, w, htarget, hgraph, hclaims, hcarry, _, rfl⟩
  · rw [hv]
    exact h
  · obtain ⟨hprev, hid, _, hhead⟩ := updateTarget_eq_some_iff.mp htarget
    have hstep : ClaimMove.step v.claims (.supersede args (fresh 0) now) = some claims := by
      have hget : (v.claims.get args.claimId).filter (fun c => c.supersededAt = none) = some prev := by
        rw [Option.filter_eq_some_iff, Table.get_eq_some_iff]
        exact ⟨⟨hprev, hid⟩, by simpa using hhead.1⟩
      simp only [ClaimMove.step, hget, Option.bind_some]
      exact hclaims
    have hins := (Claims.ChainAux.supersede_cases hclaims).2
    have hf : RowsOk { v with claims := v.claims.finish (fun c => c.id = args.claimId) now } := rowsOk_finish h
    have hg : RowsOk { v with graph, claims := v.claims.finish (fun c => c.id = args.claimId) now } :=
      rowsOk_kept hf (keepsNodes_insertNode hgraph)
    have hc : RowsOk { v with graph, claims } := by
      refine rowsOk_insertClaim hg hins (h.chains.step hstep) ?_
      exact ⟨_, (mem_nodes_of_insertNode hgraph).mpr (.inr rfl), rfl, rfl, rfl, rfl⟩
    refine rowsOk_congr (v := w) (rowsOk_carryTopics hc hcarry ?_ ?_) rfl rfl rfl rfl
    · refine ⟨{ prev with supersededAt := some now }, (Table.mem_of_insert hins).mpr (.inl ?_), hid, rfl⟩
      exact Claims.mem_finish.mpr (.inl ⟨prev, hprev, by simpa using hid, rfl⟩)
    · exact ⟨_, (Table.mem_of_insert hins).mpr (.inr rfl), rfl, rfl⟩

theorem rowsOk_forgetClaim {args : ForgetClaimArgs} {r : Vault × ClaimResult Unit} (h : RowsOk v)
    (hr : v.forgetClaim args now = some r) : RowsOk r.1 := by
  rcases forgetClaim_cases hr with ⟨hv, _⟩ | ⟨prev, hprev, hid, _, _, rfl⟩
  · rw [hv]
    exact h
  · have hf : RowsOk { v with claims := v.claims.finish (fun c => c.id = args.claimId) now } := rowsOk_finish h
    refine rowsOk_congr (rowsOk_graph hf (keepsNodes_deleteNode args.claimId prev.spaceId now none) ?_) rfl rfl rfl rfl
    intro c hc hlive hcid
    rcases Claims.mem_finish.mp hc with ⟨c₀, _, _, rfl⟩ | ⟨_, hnot⟩
    · cases hlive
    · exact hnot (by simpa using hcid)

theorem rowsOk_restoreClaim {allowedSpaceIds : List String} {r : Vault × Bool} (h : RowsOk v)
    (hr : v.restoreClaim claimId allowedSpaceIds = some r) : RowsOk r.1 := by
  unfold restoreClaim at hr
  split at hr
  · cases hr
    exact h
  · rename_i tomb htomb
    rcases restoreClaimFrom_cases hr with ⟨hv, _⟩ | ⟨g, hrev, hg, hgraph, hclaims, _, hnotes, _, hpairs, _⟩
    · rw [hv]
      exact h
    · obtain ⟨c, hc, htomb⟩ := Option.bind_eq_some_iff.mp htomb
      obtain ⟨n, hn, htomb⟩ := Option.bind_eq_some_iff.mp htomb
      obtain ⟨stamp, hstamp, rfl⟩ := Option.map_eq_some_iff.mp htomb
      obtain ⟨hnget, hns⟩ := Option.filter_eq_some_iff.mp hn
      obtain ⟨hnmem, hnid⟩ := Table.get_eq_some_iff.mp hnget
      have hcarries : ∃ n ∈ v.graph.nodes, n.id = claimId ∧ n.spaceId = c.spaceId ∧ n.deletedAt = some stamp :=
        ⟨n, hnmem, hnid, by simpa using hns, hstamp⟩
      rcases restoreNode_cases hg with ⟨_, rfl⟩ | ⟨hnot, _⟩
      · have hg' : RowsOk { v with graph := v.graph.reopen claimId c.spaceId stamp } :=
          rowsOk_kept h keepsNodes_reopen
        refine rowsOk_congr (v := { v with graph := v.graph.reopen claimId c.spaceId stamp, claims := v.claims.revive claimId }) ?_
          hgraph hclaims hnotes hpairs
        refine { claimNodes := ?_, noteNodes := hg'.noteNodes, pairs := ?_, heads := ?_, chains := ?_, edgeEnds := hg'.edgeEnds }
        · intro x hx
          rcases Claims.mem_revive.mp hx with ⟨x₀, hx₀, _, rfl⟩ | ⟨hx, _⟩
          · exact hg'.claimNodes x₀ hx₀
          · exact hg'.claimNodes x hx
        · intro p hp
          obtain ⟨x₀, hx₀, y, hy, hid, hyid, hs⟩ := h.pairs p hp
          obtain ⟨x, hx, hk, hxeq⟩ := Table.exists_mem_update (fun c : VaultClaim => c.id = claimId)
            (f := fun c => { c with supersededAt := none }) (fun _ => rfl) hx₀
          refine ⟨x, hx, y, hy, hk.trans hid, hyid, ?_⟩
          rcases hxeq with rfl | rfl
          · exact hs
          · exact hs
        · intro x hx hlive m hm hmid
          rcases Claims.mem_revive.mp hx with ⟨x₀, _, hx₀id, rfl⟩ | ⟨hx, _⟩
          · exact live_of_reopen hm (hmid.trans hx₀id) hcarries
          · exact hg'.heads x hx hlive m hm hmid
        · refine h.chains.step (m := .revive claimId) ?_
          simp only [ClaimMove.step]
          rw [if_neg hrev.2]
      · exact absurd hcarries hnot

theorem rowsOk_forgetAllClaims {clock : String → Nat} (h : RowsOk v) :
    RowsOk (v.forgetAllClaims spaceId now clock).1 := by
  have hf : RowsOk { v with claims := v.claims.finish (fun c => c.spaceId = spaceId ∧ c.supersededAt = none) now } := rowsOk_finish h
  refine rowsOk_congr (rowsOk_graph hf (keepsNodes_deleteClaims spaceId clock _) ?_) rfl rfl rfl rfl
  rintro c hc hlive ⟨c', hc', hid⟩
  obtain ⟨hc', hcond⟩ := List.mem_filter.mp hc'
  rcases Claims.mem_finish.mp hc with ⟨c₀, _, _, rfl⟩ | ⟨hc, hnot⟩
  · cases hlive
  · have heq : c' = c := Table.eq_of_key hc' hc hid
    rw [heq] at hcond
    exact hnot hcond

theorem rowsOk_insertNote {note : VaultNote} (h : RowsOk v) (hw : v.insertNote env note = some w) : RowsOk w := by
  obtain ⟨graph, notes, hgraph, hnotes, _, rfl⟩ := insertNote_cases hw
  have hg : RowsOk { v with graph } := rowsOk_kept h (keepsNodes_insertNode hgraph)
  refine { claimNodes := hg.claimNodes, noteNodes := ?_, pairs := ?_, heads := hg.heads, chains := hg.chains, edgeEnds := hg.edgeEnds }
  · intro x hx
    rcases (Table.mem_of_insert hnotes).mp hx with hx | rfl
    · exact hg.noteNodes x hx
    · exact ⟨_, (mem_nodes_of_insertNode hgraph).mpr (.inr rfl), rfl, rfl, rfl⟩
  · intro p hp
    obtain ⟨c, hc, x, hx, hrest⟩ := h.pairs p hp
    exact ⟨c, hc, x, (Table.mem_of_insert hnotes).mpr (.inl hx), hrest⟩

theorem rowsOk_updateNotes {p : VaultNote → Prop} [DecidablePred p] {f : VaultNote → VaultNote} (hf : ∀ r, (f r).id = r.id)
    (hspace : ∀ r, (f r).spaceId = r.spaceId) (h : RowsOk v) : RowsOk { v with notes := v.notes.update p f hf } := by
  refine { claimNodes := h.claimNodes, noteNodes := ?_, pairs := ?_, heads := h.heads, chains := h.chains, edgeEnds := h.edgeEnds }
  · intro x hx
    obtain ⟨x₀, hx₀, hk, hx⟩ := Table.exists_of_mem_update hf hx
    obtain ⟨n, hn, hid, hs, hkind⟩ := h.noteNodes x₀ hx₀
    refine ⟨n, hn, hid.trans hk.symm, ?_, hkind⟩
    rcases hx with rfl | rfl
    · exact hs.trans (hspace x₀).symm
    · exact hs
  · intro q hq
    obtain ⟨c, hc, x₀, hx₀, hid, hxid, hs⟩ := h.pairs q hq
    obtain ⟨x, hx, hk, hxeq⟩ := Table.exists_mem_update p hf hx₀
    refine ⟨c, hc, x, hx, hid, hk.trans hxid, ?_⟩
    rcases hxeq with rfl | rfl
    · exact (hspace x₀).trans hs
    · exact hs

theorem rowsOk_setBody {body : String} (h : RowsOk v) : RowsOk (v.setBody noteId body) :=
  rowsOk_updateNotes (f := fun n => { n with body }) (fun _ => rfl) (fun _ => rfl) h

theorem rowsOk_insertNoteVersion {version : NoteVersion} {r : Vault × Bool} (h : RowsOk v)
    (hr : v.insertNoteVersion spaceId version = some r) : RowsOk r.1 := by
  obtain ⟨_, _, _, _, _, _, _, hr⟩ := insertNoteVersion_cases hr
  rw [hr]
  exact rowsOk_congr h rfl rfl rfl rfl

theorem rowsOk_createNote {args : CreateNoteArgs} {r : Vault × String × Bool}
    (h : RowsOk v) (hr : v.createNote env args fresh now = some r) : RowsOk r.1 := by
  obtain ⟨w, linked, x, hw, hlinked, hx, hr⟩ := createNote_cases hr
  have hg : RowsOk { w with graph := linked.1 } :=
    rowsOk_kept (rowsOk_insertNote h hw) (keepsNodes_applyBody hlinked)
  rw [hr]
  exact rowsOk_insertNoteVersion (rowsOk_setBody hg) hx

theorem rowsOk_reviseNote {args : ReviseNoteArgs} {r : Vault × ReviseResult}
    (h : RowsOk v) (hr : v.reviseNote env args fresh now = some r) : RowsOk r.1 := by
  rcases reviseNote_cases hr with ⟨hv, _⟩ | ⟨_, notes, linked, x, rfl, hlinked, hx, rfl⟩
  · rw [hv]
    exact h
  · have hn : RowsOk { v with
        notes := v.notes.update (fun n => n.id = args.noteId)
          (fun n => { n with currentRevision := args.expectedRevision + 1, title := fitNoteTitle args.title }) fun _ => rfl } :=
      rowsOk_updateNotes _ (fun _ => rfl) h
    have hg := rowsOk_kept hn (keepsNodes_applyBody hlinked)
    exact rowsOk_insertNoteVersion (rowsOk_setBody hg) hx

theorem rowsOk_forgetNote {args : ForgetNoteArgs} (h : RowsOk v) : RowsOk (v.forgetNote args now).1 := by
  rcases forgetNote_cases args now v with hv | ⟨_, hmay, hv⟩
  · rw [hv]
    exact h
  · rw [hv]
    obtain ⟨_, _, _, _, ⟨x, hx, hxid, _⟩, _⟩ := hmay
    refine rowsOk_congr (rowsOk_graph h (keepsNodes_deleteNode args.noteId args.spaceId now (some (v.mayForgetNote args))) ?_) rfl rfl rfl rfl
    intro c hc _ hcid
    exact note_ne_claim h hc hx (hxid.trans hcid.symm)

theorem rowsOk_resolveTitle {raw id : String} {later : Vault} {r : Vault × Topic} (h : RowsOk v)
    (hl : RowsOk later) (hr : resolveTitle env spaceId raw id v later = some r) : RowsOk r.1 := by
  cases resolveTitle_cases hr with
  | live => exact h
  | revived hit stamp g _ _ hg => exact rowsOk_kept hl (keepsNodes_restoreNode hg)
  | lost => exact hl
  | created w x _ _ hw hx => exact rowsOk_insertNoteVersion (rowsOk_insertNote hl hw) hx

theorem rowsOk_stampKey {id key : String} (h : RowsOk v) (hw : v.stampKey id key = some w) : RowsOk w := by
  obtain ⟨notes, rfl, rfl⟩ := stampKey_cases hw
  exact rowsOk_updateNotes _ (fun _ => rfl) h

end RowsAux

open RowsAux

variable {env : VaultEnv} {S : List String} {v w : Vault}

theorem keepsNodes_step (hstep : VaultStep env S v w) :
    KeepsNodes AnyDies v.graph w.graph := by
  cases hstep with
  | createClaim input fresh now r _ hr =>
    obtain ⟨graph, claims, w, _, hgraph, _, hw, rfl⟩ := createClaim_cases hr
    rcases hw with ⟨_, rfl⟩ | ⟨noteId, x, _, hx, rfl, _⟩
    · exact keepsNodes_insertNode hgraph
    · exact (keepsNodes_insertNode hgraph).trans (keepsNodes_fileUnder hx)
  | updateClaim args fresh now r _ hr =>
    rcases updateClaim_cases hr with ⟨_, hv, _⟩ | ⟨prev, graph, claims, w, _, hgraph, _, hcarry, _, rfl⟩
    · rw [hv]
      exact .refl
    · exact (keepsNodes_insertNode hgraph).trans (keepsNodes_carryTopics hcarry)
  | forgetClaim args now r hr =>
    rcases forgetClaim_cases hr with ⟨hv, _⟩ | ⟨prev, _, _, _, _, rfl⟩
    · rw [hv]
      exact .refl
    · exact (keepsNodes_deleteNode args.claimId prev.spaceId now none).any
  | restoreClaim claimId allowedSpaceIds r hr =>
    unfold restoreClaim at hr
    split at hr
    · cases hr
      exact .refl
    · rcases restoreClaimFrom_cases hr with ⟨hv, _⟩ | ⟨g, _, hg, hgraph, _⟩
      · rw [hv]
        exact .refl
      · rw [hgraph]
        exact keepsNodes_restoreNode hg
  | forgetAllClaims spaceId now clock => exact (keepsNodes_deleteClaims spaceId clock _).any
  | confirmClaim claimId sensitive actor now => exact .refl
  | clearConflict claimId => exact .refl
  | attachToTopic claimId noteId edgeId r hr =>
    obtain ⟨c, _, _, hfile⟩ := attachToTopic_cases hr
    exact keepsNodes_fileUnder hfile
  | createNote args fresh now r _ hr =>
    obtain ⟨w, linked, x, hw, hlinked, hx, hr⟩ := createNote_cases hr
    obtain ⟨graph, notes, hgraph, _, _, rfl⟩ := insertNote_cases hw
    obtain ⟨_, _, _, _, _, _, _, hx⟩ := insertNoteVersion_cases hx
    rw [hr, hx]
    exact (keepsNodes_insertNode hgraph).trans (keepsNodes_applyBody hlinked)
  | reviseNote args fresh now r hr =>
    rcases reviseNote_cases hr with ⟨hv, _⟩ | ⟨_, notes, linked, x, rfl, hlinked, hx, rfl⟩
    · rw [hv]
      exact .refl
    · obtain ⟨_, _, _, _, _, _, _, hx⟩ := insertNoteVersion_cases hx
      rw [hx]
      exact keepsNodes_applyBody hlinked
  | forgetNote args now =>
    rcases forgetNote_cases args now v with hv | ⟨_, _, hv⟩
    · rw [hv]
      exact .refl
    · rw [hv]
      exact (keepsNodes_deleteNode args.noteId args.spaceId now _).any
  | restoreNote noteId spaceId r hr =>
    rcases restoreNote_cases hr with hv | ⟨_, _, _, g, _, _, _, hg, hv⟩
    · rw [hv]
      exact .refl
    · rw [hv]
      exact keepsNodes_restoreNode hg
  | resolveTitle spaceId raw id r _ hr =>
    cases resolveTitle_cases hr with
    | live => exact .refl
    | revived hit stamp g _ _ hg => exact keepsNodes_restoreNode hg
    | lost => exact .refl
    | created w x _ _ hw hx =>
      obtain ⟨graph, notes, hgraph, _, _, rfl⟩ := insertNote_cases hw
      obtain ⟨_, _, _, _, _, _, _, hx⟩ := insertNoteVersion_cases hx
      rw [hx]
      exact keepsNodes_insertNode hgraph
  | stampKey id key w hw =>
    obtain ⟨notes, _, rfl⟩ := stampKey_cases hw
    exact .refl
  | candidates T _ => exact .refl
  | linkNodes spaceId a b relation edgeId r hr => exact keepsNodes_linkNodes hr
  | unlinkEdge edgeId spaceId now => exact keepsNodes_closeEdges
  | audit spaceId action subjectId _ => exact .refl

theorem keepsNodes_run (hrun : VaultRun env S v w) :
    KeepsNodes AnyDies v.graph w.graph := by
  induction hrun with
  | refl => exact .refl
  | tail _ hstep ih => exact ih.trans (keepsNodes_step hstep)

theorem RowsOk.step (h : RowsOk v) (hstep : VaultStep env S v w) : RowsOk w := by
  cases hstep with
  | createClaim input fresh now r _ hr => exact rowsOk_createClaim h hr
  | updateClaim args fresh now r _ hr => exact rowsOk_updateClaim h hr
  | forgetClaim args now r hr => exact rowsOk_forgetClaim h hr
  | restoreClaim claimId allowedSpaceIds r hr => exact rowsOk_restoreClaim h hr
  | forgetAllClaims spaceId now clock => exact rowsOk_forgetAllClaims h
  | confirmClaim claimId sensitive actor now =>
    exact rowsOk_updateClaims _ h (h.chains.step (m := .confirm claimId sensitive actor now) rfl) (fun _ => rfl) fun _ hd => hd
  | clearConflict claimId =>
    exact rowsOk_updateClaims _ h (h.chains.step (m := .clearConflict claimId) rfl) (fun _ => rfl) fun _ hd => hd
  | attachToTopic claimId noteId edgeId r hr =>
    obtain ⟨c, hc, hid, hfile⟩ := attachToTopic_cases hr
    exact rowsOk_fileUnder h hfile ⟨c, hc, hid, rfl⟩
  | createNote args fresh now r _ hr => exact rowsOk_createNote h hr
  | reviseNote args fresh now r hr => exact rowsOk_reviseNote h hr
  | forgetNote args now => exact rowsOk_forgetNote h
  | restoreNote noteId spaceId r hr =>
    rcases restoreNote_cases hr with hv | ⟨_, _, _, g, _, _, _, hg, hv⟩
    · rw [hv]
      exact h
    · rw [hv]
      exact rowsOk_congr (rowsOk_kept h (keepsNodes_restoreNode hg)) rfl rfl rfl rfl
  | resolveTitle spaceId raw id r _ hr => exact rowsOk_resolveTitle h h hr
  | stampKey id key w hw => exact rowsOk_stampKey h hw
  | candidates T _ => exact rowsOk_congr h rfl rfl rfl rfl
  | linkNodes spaceId a b relation edgeId r hr =>
    exact rowsOk_kept h (keepsNodes_linkNodes hr)
  | unlinkEdge edgeId spaceId now => exact rowsOk_kept h keepsNodes_closeEdges
  | audit spaceId action subjectId _ => exact rowsOk_congr h rfl rfl rfl rfl

theorem RowsOk.run (h : RowsOk v) (hrun : VaultRun env S v w) : RowsOk w := by
  induction hrun with
  | refl => exact h
  | tail _ hstep ih => exact ih.step hstep

namespace RowsAux

theorem rowsOk_wipe {v : Vault} {spaceId : String} {now : Nat} (h : RowsOk v) : RowsOk (v.wipe spaceId now) := by
  have hkeep := keepsNodes_deleteSpaceNodes (g := v.graph) spaceId now
  have hclaim : ∀ {c}, c ∈ (v.wipe spaceId now).claims → c ∈ v.claims ∧ c.spaceId ≠ spaceId := by
    intro c hc
    obtain ⟨hc, hne⟩ := Table.mem_filter.mp hc
    exact ⟨hc, by simpa using hne⟩
  have hnote : ∀ {x}, x ∈ (v.wipe spaceId now).notes → x ∈ v.notes ∧ x.spaceId ≠ spaceId := by
    intro x hx
    obtain ⟨hx, hne⟩ := Table.mem_filter.mp hx
    exact ⟨hx, by simpa using hne⟩
  refine { claimNodes := ?_, noteNodes := ?_, pairs := ?_, heads := ?_, chains := ?_, edgeEnds := ?_ }
  · intro c hc
    obtain ⟨n, hn, hid, hs, hk⟩ := h.claimNodes c (hclaim hc).1
    obtain ⟨n', hn', hid', hs', hk', _⟩ := hkeep.nodes n hn
    exact ⟨n', hn', hid'.trans hid, hs'.trans hs, hk'.trans hk⟩
  · intro x hx
    obtain ⟨n, hn, hid, hs, hk⟩ := h.noteNodes x (hnote hx).1
    obtain ⟨n', hn', hid', hs', hk', _⟩ := hkeep.nodes n hn
    exact ⟨n', hn', hid'.trans hid, hs'.trans hs, hk'.trans hk⟩
  · intro p hp
    obtain ⟨hp, hkeepp⟩ := Table.mem_filter.mp hp
    simp only [not_or, decide_eq_true_eq] at hkeepp
    obtain ⟨c, hc, x, hx, hcid, hxid, hs⟩ := h.pairs p hp
    have hcs : c.spaceId ≠ spaceId := fun heq => hkeepp.2 ⟨c, hc, hcid, heq⟩
    have hxs : x.spaceId ≠ spaceId := fun heq => hkeepp.1 ⟨x, hx, hxid, heq⟩
    exact ⟨c, Table.mem_filter.mpr ⟨hc, by simpa using hcs⟩, x, Table.mem_filter.mpr ⟨hx, by simpa using hxs⟩, hcid, hxid, hs⟩
  · intro c hc hlive m hm hmid
    obtain ⟨hc, hcs⟩ := hclaim hc
    obtain ⟨n, hn, hnid, hns, _⟩ := h.claimNodes c hc
    obtain ⟨n', hn', hid', _, _, hl⟩ := hkeep.nodes n hn
    have heq : m = n' := node_eq hm hn' (hmid.trans (hnid.symm.trans hid'.symm))
    rw [heq]
    refine hl (h.heads c hc hlive n hn hnid) ?_
    rintro ⟨k, hk, hkid, hks⟩
    have : k = n := node_eq hk hn hkid
    rw [this] at hks
    exact hcs (hns.symm.trans hks)
  · exact h.chains.step (m := .wipe spaceId) rfl
  · exact edgeEnds_of_keeps h hkeep

theorem rowsOk_retire {v : Vault} {spaceId : String} {now : Nat} (h : RowsOk v) : RowsOk (v.retire spaceId now) := by
  unfold retire
  split
  · exact rowsOk_congr (rowsOk_wipe h) rfl rfl rfl rfl
  · exact rowsOk_wipe h

theorem rowsOk_empty : RowsOk Vault.empty where
  claimNodes := fun c hc => absurd hc (Table.not_mem_empty c)
  noteNodes := fun x hx => absurd hx (Table.not_mem_empty x)
  pairs := fun p hp => absurd hp (Table.not_mem_empty p)
  heads := fun c hc => absurd hc (Table.not_mem_empty c)
  chains := Claims.chainOk_empty
  edgeEnds := fun e he => absurd he (Table.not_mem_empty e)

end RowsAux

end Vault

namespace MemoryStore

open Vault Vault.RowsAux

variable {env : VaultEnv} {s t : MemoryStore}

theorem write_cases {op : VaultOp} (h : s.write env op = some t) :
    (∀ spaceId ∈ op.fences s.vault, s.spaces.acceptsWrites spaceId) ∧ t.spaces = s.spaces ∧ op.run env s.vault = some t.vault := by
  unfold write at h
  split at h
  · rename_i hfences
    obtain ⟨w, hw, rfl⟩ := Option.map_eq_some_iff.mp h
    exact ⟨hfences, rfl, hw⟩
  · cases h

theorem rowsOk_step {a : MemoryAct} (h : s.vault.RowsOk) (hstep : s.step env a = some t) :
    t.vault.RowsOk := by
  cases a with
  | write op => exact h.run (VaultOp.run_of_run (write_cases hstep).2.2)
  | openSpace space =>
    simp only [step] at hstep
    split at hstep
    · obtain ⟨spaces, _, rfl⟩ := Option.map_eq_some_iff.mp hstep
      exact h
    · cases hstep
  | retire spaceId now =>
    cases hstep
    exact rowsOk_retire h

theorem keepsNodes_of_reaches (h : Steps.Reaches (step env) Steps.Free s t) :
    MemoryGraph.KeepsNodes MemoryGraph.AnyDies s.vault.graph t.vault.graph := by
  refine h.relates (I := fun _ => True) (R := fun s t => MemoryGraph.KeepsNodes MemoryGraph.AnyDies s.vault.graph t.vault.graph)
    (fun _ _ _ _ _ _ => trivial) trivial .refl ?_
  intro x a y _ hR _ hstep
  cases a with
  | write op => exact hR.trans (keepsNodes_run (VaultOp.run_of_run (write_cases hstep).2.2))
  | openSpace space =>
    simp only [step] at hstep
    split at hstep
    · obtain ⟨spaces, _, rfl⟩ := Option.map_eq_some_iff.mp hstep
      exact hR
    · cases hstep
  | retire spaceId now =>
    cases hstep
    refine hR.trans ?_
    have hwipe := (MemoryGraph.keepsNodes_deleteSpaceNodes (g := x.vault.graph) spaceId now).any
    unfold Vault.retire
    split
    · exact hwipe
    · exact hwipe

theorem rowsOk_of_reaches (h : Steps.Reaches (step env) Steps.Free empty s) : s.vault.RowsOk :=
  h.invariant (I := fun s => s.vault.RowsOk) (fun _ _ _ hx _ hy => rowsOk_step hx hy) rowsOk_empty

end MemoryStore

end Capka

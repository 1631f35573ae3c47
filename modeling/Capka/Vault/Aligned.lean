import Capka.Vault.Operations

/-!
# Edges and memberships in step

What the graph and `note_claims` have to do with one another: live edges end at live nodes, a membership has its edge, and the stamp of a
closed edge is that of one of its ends. Every write keeps this, and a restore does where it reopens no edge to a deleted node.
-/

namespace Capka

/-- A membership's edge: live between live nodes, or stamped as one of its ends is. -/
def FiledBy (note claim : VaultNode) (e : VaultEdge) : Prop :=
  (note.deletedAt = none ∧ claim.deletedAt = none ∧ e.deletedAt = none) ∨
    ∃ t, e.deletedAt = some t ∧ (note.deletedAt = some t ∨ claim.deletedAt = some t)

namespace MemoryGraph

/-- The membership joins a note and a claim of one space, and has its edge. -/
def Filed (g : MemoryGraph) (p : NoteClaim) : Prop :=
  ∃ note ∈ g.nodes, ∃ claim ∈ g.nodes, (note.id = p.noteId ∧ claim.id = p.claimId ∧ claim.spaceId = note.spaceId ∧ claim.kind = .claim) ∧
    ∃ e ∈ g.edges, e.joins note.spaceId p.noteId p.claimId .contains ∧ FiledBy note claim e

/-- The edge is a `contains` edge that ends at a claim. -/
def IntoClaim (g : MemoryGraph) (b : String) (relation : EdgeRelation) : Prop :=
  relation = .contains ∧ ∃ n ∈ g.nodes, n.id = b ∧ n.kind = .claim

instance (g : MemoryGraph) (b : String) (relation : EdgeRelation) : Decidable (g.IntoClaim b relation) := by
  unfold IntoClaim
  infer_instance

/-- Live edges have live ends; memberships have their edges; live edges into claims have their memberships. -/
structure Aligned (g : MemoryGraph) (P : Table NoteClaim NoteClaim.key) : Prop where
  ends : ∀ e ∈ g.edges, e.deletedAt = none → g.Live e.spaceId e.fromNodeId ∧ g.Live e.spaceId e.toNodeId
  filed : ∀ p ∈ P, g.Filed p
  recorded : ∀ e ∈ g.edges, e.deletedAt = none → g.IntoClaim e.toNodeId e.relation →
    ({ noteId := e.fromNodeId, claimId := e.toNodeId } : NoteClaim) ∈ P

/-- Restoring the node reopens no edge to another deleted node, and none into a claim that has no membership. -/
def ReopensSound (g : MemoryGraph) (P : Table NoteClaim NoteClaim.key) (nodeId spaceId : String) (stamp : Nat) : Prop :=
  ∀ e ∈ g.edges, e.spaceId = spaceId → e.deletedAt = some stamp → e.touches nodeId →
    (e.fromNodeId = nodeId ∨ g.Live spaceId e.fromNodeId) ∧ (e.toNodeId = nodeId ∨ g.Live spaceId e.toNodeId) ∧
      (g.IntoClaim e.toNodeId e.relation → ({ noteId := e.fromNodeId, claimId := e.toNodeId } : NoteClaim) ∈ P)

instance (g : MemoryGraph) (P : Table NoteClaim NoteClaim.key) (nodeId spaceId : String) (stamp : Nat) :
    Decidable (g.ReopensSound P nodeId spaceId stamp) := by
  unfold ReopensSound
  infer_instance

namespace AlignedAux

variable {g g' : MemoryGraph} {P : Table NoteClaim NoteClaim.key} {spaceId nodeId a b : String} {relation : EdgeRelation}

theorem mem_put_iff {p q : NoteClaim} : q ∈ P.put p ↔ q = p ∨ q ∈ P := by
  rw [Table.mem_put]
  constructor
  · rintro (rfl | ⟨hq, _⟩)
    · exact .inl rfl
    · exact .inr hq
  · rintro (rfl | hq)
    · exact .inl rfl
    · by_cases hk : q.key = p.key
      · refine .inl ?_
        obtain ⟨qn, qc⟩ := q
        obtain ⟨pn, pc⟩ := p
        simp only [NoteClaim.key, Prod.mk.injEq] at hk
        rw [hk.1, hk.2]
      · exact .inr ⟨hq, hk⟩

theorem filed_mono {p : NoteClaim} (hnodes : ∀ n ∈ g.nodes, n ∈ g'.nodes) (hedges : ∀ e ∈ g.edges, e ∈ g'.edges) (h : g.Filed p) :
    g'.Filed p := by
  obtain ⟨note, hnote, claim, hclaim, hids, e, he, hrest⟩ := h
  exact ⟨note, hnodes note hnote, claim, hnodes claim hclaim, hids, e, hedges e he, hrest⟩

theorem live_mono {x : String} (hnodes : ∀ n ∈ g.nodes, n ∈ g'.nodes) (h : g.Live spaceId x) : g'.Live spaceId x := by
  obtain ⟨n, hn, hrest⟩ := h
  exact ⟨n, hnodes n hn, hrest⟩

theorem aligned_insertNode {kind : NodeKind} (h : g.Aligned P) (hins : g.insertNode nodeId spaceId kind = some g') : g'.Aligned P := by
  have hnodes : ∀ n ∈ g.nodes, n ∈ g'.nodes := fun n hn => (mem_nodes_of_insertNode hins).mpr (.inl hn)
  have hedges := edges_of_insertNode hins
  refine { ends := ?_, filed := ?_, recorded := ?_ }
  · intro e he hlive
    rw [hedges] at he
    exact ⟨live_mono hnodes (h.ends e he hlive).1, live_mono hnodes (h.ends e he hlive).2⟩
  · exact fun p hp => filed_mono hnodes (fun e he => by rw [hedges]; exact he) (h.filed p hp)
  · intro e he hlive hinto
    rw [hedges] at he
    obtain ⟨hrel, n, hn, hid, hkind⟩ := hinto
    refine h.recorded e he hlive ⟨hrel, ?_⟩
    rcases (mem_nodes_of_insertNode hins).mp hn with hn | rfl
    · exact ⟨n, hn, hid, hkind⟩
    · obtain ⟨n', hn', hid', _⟩ := (h.ends e he hlive).2
      exact absurd (hid'.trans hid.symm) (ne_of_insertNode hins hn')

theorem live_of_linkNodes {id : String} {r : MemoryGraph × String × Bool} (h : g.linkNodes spaceId a b relation id = some r) :
    g.Live spaceId a ∧ g.Live spaceId b := by
  obtain ⟨⟨na, nb, ha, hb, _⟩, _⟩ := linkNodes_cases h
  exact ⟨⟨na, liveNode_eq_some_iff.mp ha⟩, ⟨nb, liveNode_eq_some_iff.mp hb⟩⟩

theorem aligned_linkNodes {id : String} {r : MemoryGraph × String × Bool} (h : g.Aligned P)
    (hlink : g.linkNodes spaceId a b relation id = some r)
    (hrec : g.IntoClaim b relation → ({ noteId := a, claimId := b } : NoteClaim) ∈ P) : r.1.Aligned P := by
  obtain ⟨ha, hb⟩ := live_of_linkNodes hlink
  have hl := (linkNodes_cases hlink).2
  have hnodes : ∀ n ∈ g.nodes, n ∈ r.1.nodes := fun n hn => hl.nodes.symm ▸ hn
  refine { ends := ?_, filed := ?_, recorded := ?_ }
  · intro e he hlive
    rcases hl.added e he with he | ⟨⟨hs, hfrom, hto, _⟩, _⟩
    · exact ⟨live_mono hnodes (h.ends e he hlive).1, live_mono hnodes (h.ends e he hlive).2⟩
    · rw [hs, hfrom, hto]
      exact ⟨live_mono hnodes ha, live_mono hnodes hb⟩
  · exact fun p hp => filed_mono hnodes hl.kept (h.filed p hp)
  · intro e he hlive hinto
    have hinto' : g.IntoClaim e.toNodeId e.relation := by
      obtain ⟨hrel, n, hn, hrest⟩ := hinto
      exact ⟨hrel, n, hl.nodes ▸ hn, hrest⟩
    rcases hl.added e he with he | ⟨⟨_, hfrom, hto, hrel⟩, _⟩
    · exact h.recorded e he hlive hinto'
    · rw [hfrom, hto]
      exact hrec (by rw [← hto, ← hrel]; exact hinto')

theorem aligned_file {noteId claimId id : String} {r : MemoryGraph × String × Bool} (h : g.Aligned P)
    (hlink : g.linkNodes spaceId noteId claimId .contains id = some r) (hclaim : ∃ n ∈ g.nodes, n.id = claimId ∧ n.kind = .claim) :
    r.1.Aligned (P.put { noteId, claimId }) := by
  obtain ⟨hn, hc⟩ := live_of_linkNodes hlink
  have hl := (linkNodes_cases hlink).2
  have hfiled : r.1.Filed { noteId, claimId } := by
    obtain ⟨note, hnote, hnid, hnspace, hnlive⟩ := hn
    obtain ⟨claim, hclaim', hcid, hcspace, hclive⟩ := hc
    obtain ⟨n, hnmem, hnid', hkind⟩ := hclaim
    obtain ⟨e, he, hj, helive⟩ := hl.joined
    have hsame : n = claim := node_eq hnmem hclaim' (hnid'.trans hcid.symm)
    refine ⟨note, hl.nodes.symm ▸ hnote, claim, hl.nodes.symm ▸ hclaim', ⟨hnid, hcid, hcspace.trans hnspace.symm, hsame ▸ hkind⟩, e, he, ?_, ?_⟩
    · rw [hnspace]
      exact hj
    · exact .inl ⟨hnlive, hclive, helive⟩
  have hnodes : ∀ n ∈ g.nodes, n ∈ r.1.nodes := fun n hn => hl.nodes.symm ▸ hn
  refine { ends := ?_, filed := ?_, recorded := ?_ }
  · intro e he hlive
    rcases hl.added e he with he | ⟨⟨hs, hfrom, hto, _⟩, _⟩
    · exact ⟨live_mono hnodes (h.ends e he hlive).1, live_mono hnodes (h.ends e he hlive).2⟩
    · rw [hs, hfrom, hto]
      exact ⟨live_mono hnodes hn, live_mono hnodes hc⟩
  · intro p hp
    rcases mem_put_iff.mp hp with rfl | hp
    · exact hfiled
    · exact filed_mono hnodes hl.kept (h.filed p hp)
  · intro e he hlive hinto
    rcases hl.added e he with he | ⟨⟨_, hfrom, hto, _⟩, _⟩
    · obtain ⟨hrel, n, hn, hrest⟩ := hinto
      exact mem_put_iff.mpr (.inr (h.recorded e he hlive ⟨hrel, n, hl.nodes ▸ hn, hrest⟩))
    · rw [hfrom, hto]
      exact mem_put_iff.mpr (.inl rfl)

theorem exists_node {p : VaultNode → Prop} [DecidablePred p] {d : Option Nat} {n : VaultNode}
    (h : n ∈ g.nodes.update p (fun n => { n with deletedAt := d }) fun _ => rfl) :
    ∃ n₀ ∈ g.nodes, n₀.id = n.id ∧ n₀.spaceId = n.spaceId ∧ n₀.kind = n.kind ∧ (n = n₀ ∨ (p n₀ ∧ n.deletedAt = d)) := by
  rcases (Table.mem_update (f := fun n : VaultNode => { n with deletedAt := d }) fun _ => rfl).mp h with ⟨n₀, hn₀, hp, rfl⟩ | ⟨hn, _⟩
  · exact ⟨n₀, hn₀, rfl, rfl, rfl, .inr ⟨hp, rfl⟩⟩
  · exact ⟨n, hn, rfl, rfl, rfl, .inl rfl⟩

theorem node_after (p : VaultNode → Prop) [DecidablePred p] (d : Option Nat) {n : VaultNode} (hn : n ∈ g.nodes) :
    (if p n then { n with deletedAt := d } else n) ∈ g.nodes.update p (fun n => { n with deletedAt := d }) fun _ => rfl := by
  refine (Table.mem_update (f := fun n : VaultNode => { n with deletedAt := d }) fun _ => rfl).mpr ?_
  by_cases hp : p n
  · rw [if_pos hp]
    exact .inl ⟨n, hn, hp, rfl⟩
  · rw [if_neg hp]
    exact .inr ⟨hn, hp⟩

theorem aligned_deleteNode {now : Nat} {onlyIf : Option Bool} (h : g.Aligned P) :
    (g.deleteNode nodeId spaceId now onlyIf).1.Aligned P := by
  unfold deleteNode
  split
  · exact h
  · have hlive : ∀ {s x : String}, g.Live s x → ¬(x = nodeId ∧ s = spaceId) →
        ∃ n ∈ g.nodes.update (fun n => n.id = nodeId ∧ n.spaceId = spaceId ∧ n.deletedAt = none)
          (fun n => { n with deletedAt := some now }) fun _ => rfl, n.id = x ∧ n.spaceId = s ∧ n.deletedAt = none := by
      rintro s x ⟨n, hn, hid, hs, hd⟩ hne
      have hafter := node_after (fun n => n.id = nodeId ∧ n.spaceId = spaceId ∧ n.deletedAt = none) (some now) hn
      rw [if_neg (fun hp => hne ⟨hid.symm.trans hp.1, hs.symm.trans hp.2.1⟩)] at hafter
      exact ⟨n, hafter, hid, hs, hd⟩
    refine { ends := ?_, filed := ?_, recorded := ?_ }
    · intro e he helive
      obtain ⟨he, hnot⟩ := of_live_closeEdges he helive
      refine ⟨hlive (h.ends e he helive).1 fun hx => ?_, hlive (h.ends e he helive).2 fun hx => ?_⟩
      · exact hnot ⟨hx.2, .inl hx.1⟩
      · exact hnot ⟨hx.2, .inr hx.1⟩
    · intro p hp
      obtain ⟨note, hnote, claim, hclaim, ⟨hnid, hcid, hspace, hkind⟩, e, he, ⟨hes, hfrom, hto, hrel⟩, hby⟩ := h.filed p hp
      refine ⟨_, node_after _ (some now) hnote, _, node_after _ (some now) hclaim, ?_, ?_⟩
      · split <;> split <;> exact ⟨hnid, hcid, hspace, hkind⟩
      · rcases hby with ⟨hnd, hcd, hed⟩ | ⟨t, het, hends⟩
        · -- the edge was live: it is closed exactly when one of its ends is the node
          by_cases htouch : e.spaceId = spaceId ∧ e.touches nodeId
          · refine ⟨{ e with deletedAt := some now }, mem_closeEdges.mpr (.inl ⟨e, he, ⟨htouch.1, hed, htouch.2⟩, rfl⟩), ?_, .inr ⟨now, rfl, ?_⟩⟩
            · split <;> exact ⟨hes, hfrom, hto, hrel⟩
            · rcases htouch.2 with hx | hx
              · left
                rw [if_pos ⟨hnid.trans (hfrom.symm.trans hx), hes.symm.trans htouch.1, hnd⟩]
              · right
                rw [if_pos ⟨hcid.trans (hto.symm.trans hx), hspace.trans (hes.symm.trans htouch.1), hcd⟩]
          · refine ⟨e, mem_closeEdges.mpr (.inr ⟨he, fun hx => htouch ⟨hx.1, hx.2.2⟩⟩), ?_, .inl ⟨?_, ?_, hed⟩⟩
            · split <;> exact ⟨hes, hfrom, hto, hrel⟩
            · rw [if_neg fun hx => htouch ⟨hes.trans hx.2.1, .inl (hfrom.trans (hnid.symm.trans hx.1))⟩]
              exact hnd
            · rw [if_neg fun hx => htouch ⟨hes.trans (hspace.symm.trans hx.2.1), .inr (hto.trans (hcid.symm.trans hx.1))⟩]
              exact hcd
        · -- the edge was closed: it keeps its stamp, and so does the end that carries it
          refine ⟨e, mem_closeEdges.mpr (.inr ⟨he, fun hx => ?_⟩), ?_, .inr ⟨t, het, ?_⟩⟩
          · rw [het] at hx
            cases hx.2.1
          · split <;> exact ⟨hes, hfrom, hto, hrel⟩
          · rcases hends with hd | hd
            · left
              rw [if_neg fun hx => by rw [hd] at hx; cases hx.2.2]
              exact hd
            · right
              rw [if_neg fun hx => by rw [hd] at hx; cases hx.2.2]
              exact hd
    · intro e he helive hinto
      obtain ⟨he, _⟩ := of_live_closeEdges he helive
      obtain ⟨hrel, n, hn, hid, hkind⟩ := hinto
      obtain ⟨n₀, hn₀, hid₀, _, hkind₀, _⟩ := exists_node hn
      exact h.recorded e he helive ⟨hrel, n₀, hn₀, hid₀.trans hid, hkind₀.trans hkind⟩

theorem mem_edges_reopen {stamp : Nat} {e : VaultEdge} :
    e ∈ (g.reopen nodeId spaceId stamp).edges ↔
      (∃ e₀ ∈ g.edges, (e₀.spaceId = spaceId ∧ e₀.deletedAt = some stamp ∧ e₀.touches nodeId) ∧ e = { e₀ with deletedAt := none }) ∨
        (e ∈ g.edges ∧ ¬(e.spaceId = spaceId ∧ e.deletedAt = some stamp ∧ e.touches nodeId)) :=
  Table.mem_update (f := fun e : VaultEdge => { e with deletedAt := none }) fun _ => rfl

theorem aligned_reopen {stamp : Nat} (h : g.Aligned P) (hstamp : ∃ n ∈ g.nodes, n.id = nodeId ∧ n.spaceId = spaceId ∧ n.deletedAt = some stamp)
    (hsound : g.ReopensSound P nodeId spaceId stamp) : (g.reopen nodeId spaceId stamp).Aligned P := by
  obtain ⟨n, hn, hnid, hns, hnd⟩ := hstamp
  have hself : (g.reopen nodeId spaceId stamp).Live spaceId nodeId := by
    have hafter := node_after (fun n => n.id = nodeId ∧ n.spaceId = spaceId ∧ n.deletedAt = some stamp) none hn
    rw [if_pos ⟨hnid, hns, hnd⟩] at hafter
    exact ⟨_, hafter, hnid, hns, rfl⟩
  have hlive : ∀ {s x : String}, g.Live s x → (g.reopen nodeId spaceId stamp).Live s x := by
    rintro s x ⟨m, hm, hid, hs, hd⟩
    have hafter := node_after (fun n => n.id = nodeId ∧ n.spaceId = spaceId ∧ n.deletedAt = some stamp) none hm
    rw [if_neg fun hx => by rw [hd] at hx; cases hx.2.2] at hafter
    exact ⟨m, hafter, hid, hs, hd⟩
  refine { ends := ?_, filed := ?_, recorded := ?_ }
  · intro e he helive
    rcases mem_edges_reopen.mp he with ⟨e₀, he₀, ⟨hs, hd, ht⟩, rfl⟩ | ⟨he, _⟩
    · obtain ⟨hfrom, hto, _⟩ := hsound e₀ he₀ hs hd ht
      have hend : ∀ x, x = nodeId ∨ g.Live spaceId x → (g.reopen nodeId spaceId stamp).Live e₀.spaceId x := by
        rintro x (rfl | hx)
        · rw [hs]
          exact hself
        · rw [hs]
          exact hlive hx
      exact ⟨hend _ hfrom, hend _ hto⟩
    · exact ⟨hlive (h.ends e he helive).1, hlive (h.ends e he helive).2⟩
  · intro p hp
    obtain ⟨note, hnote, claim, hclaim, ⟨hnid', hcid, hspace, hkind⟩, e, he, ⟨hes, hfrom, hto, hrel⟩, hby⟩ := h.filed p hp
    refine ⟨_, node_after _ none hnote, _, node_after _ none hclaim, ?_, ?_⟩
    · split <;> split <;> exact ⟨hnid', hcid, hspace, hkind⟩
    · rcases hby with ⟨hnd', hcd, hed⟩ | ⟨t, het, hends⟩
      · -- nothing here was deleted
        refine ⟨e, mem_edges_reopen.mpr (.inr ⟨he, fun hx => by rw [hed] at hx; cases hx.2.1⟩), ?_, .inl ⟨?_, ?_, hed⟩⟩
        · split <;> exact ⟨hes, hfrom, hto, hrel⟩
        · rw [if_neg fun hx => by rw [hnd'] at hx; cases hx.2.2]
          exact hnd'
        · rw [if_neg fun hx => by rw [hcd] at hx; cases hx.2.2]
          exact hcd
      · by_cases hopen : e.spaceId = spaceId ∧ e.deletedAt = some stamp ∧ e.touches nodeId
        · -- the edge is reopened: each of its ends is the node, or was live
          obtain ⟨hf, ht, _⟩ := hsound e he hopen.1 hopen.2.1 hopen.2.2
          refine ⟨{ e with deletedAt := none }, mem_edges_reopen.mpr (.inl ⟨e, he, hopen, rfl⟩), ?_, .inl ⟨?_, ?_, rfl⟩⟩
          · split <;> exact ⟨hes, hfrom, hto, hrel⟩
          · split
            · rfl
            · rename_i hnot
              rcases hf with hx | hx
              · have hid : note.id = nodeId := hnid'.trans (hfrom.symm.trans hx)
                have hsame : note = n := node_eq hnote hn (hid.trans hnid.symm)
                exact absurd ⟨hid, hsame ▸ hns, hsame ▸ hnd⟩ hnot
              · exact hx.deletedAt_eq_none hnote (hnid'.trans hfrom.symm)
          · split
            · rfl
            · rename_i hnot
              rcases ht with hx | hx
              · have hid : claim.id = nodeId := hcid.trans (hto.symm.trans hx)
                have hsame : claim = n := node_eq hclaim hn (hid.trans hnid.symm)
                exact absurd ⟨hid, hsame ▸ hns, hsame ▸ hnd⟩ hnot
              · exact hx.deletedAt_eq_none hclaim (hcid.trans hto.symm)
        · -- the edge stays closed: the end with its stamp is not the node
          refine ⟨e, mem_edges_reopen.mpr (.inr ⟨he, hopen⟩), ?_, .inr ⟨t, het, ?_⟩⟩
          · split <;> exact ⟨hes, hfrom, hto, hrel⟩
          · rcases hends with hd | hd
            · left
              rw [if_neg fun hx => hopen ⟨hes.trans hx.2.1, het.trans (hd.symm.trans hx.2.2), .inl (hfrom.trans (hnid'.symm.trans hx.1))⟩]
              exact hd
            · right
              rw [if_neg fun hx => hopen ⟨hes.trans (hspace.symm.trans hx.2.1), het.trans (hd.symm.trans hx.2.2),
                .inr (hto.trans (hcid.symm.trans hx.1))⟩]
              exact hd
  · intro e he helive hinto
    obtain ⟨hrel, m, hm, hid, hkind⟩ := hinto
    obtain ⟨m₀, hm₀, hid₀, _, hkind₀, _⟩ := exists_node hm
    rcases mem_edges_reopen.mp he with ⟨e₀, he₀, ⟨hs, hd, ht⟩, rfl⟩ | ⟨he, _⟩
    · exact (hsound e₀ he₀ hs hd ht).2.2 ⟨hrel, m₀, hm₀, hid₀.trans hid, hkind₀.trans hkind⟩
    · exact h.recorded e he helive ⟨hrel, m₀, hm₀, hid₀.trans hid, hkind₀.trans hkind⟩

theorem aligned_restoreNode {stamp : Nat} {r : MemoryGraph × Bool} (h : g.Aligned P) (hres : g.restoreNode nodeId spaceId stamp = some r)
    (hsound : g.ReopensSound P nodeId spaceId stamp) : r.1.Aligned P := by
  unfold restoreNode at hres
  split at hres
  · rename_i hstamp
    simp only at hres
    split at hres
    · cases hres
      exact aligned_reopen h hstamp hsound
    · cases hres
  · cases hres
    exact h

theorem aligned_unlinkContainsInto {claimId : String} {now : Nat} (h : g.Aligned P)
    (hspace : ∀ n ∈ g.nodes, n.id = claimId → n.spaceId = spaceId) :
    (g.unlinkContainsInto claimId spaceId now).Aligned (P.filter fun p => p.claimId ≠ claimId) := by
  refine { ends := ?_, filed := ?_, recorded := ?_ }
  · intro e he hlive
    exact h.ends e (of_live_closeEdges he hlive).1 hlive
  · intro p hp
    obtain ⟨hp, hne⟩ := Table.mem_filter.mp hp
    obtain ⟨note, hnote, claim, hclaim, hids, e, he, hj, hby⟩ := h.filed p hp
    refine ⟨note, hnote, claim, hclaim, hids, e, mem_closeEdges.mpr (.inr ⟨he, fun hx => ?_⟩), hj, hby⟩
    simp only [ne_eq, decide_eq_true_eq] at hne
    exact hne (hj.2.2.1.symm.trans hx.2.2.1)
  · intro e he hlive hinto
    obtain ⟨hmem, hnot⟩ := of_live_closeEdges he hlive
    refine Table.mem_filter.mpr ⟨h.recorded e hmem hlive hinto, ?_⟩
    simp only [ne_eq, decide_eq_true_eq]
    rintro rfl
    obtain ⟨n, hn, hid, hs, _⟩ := (h.ends e hmem hlive).2
    exact hnot ⟨hs.symm.trans (hspace n hn hid), rfl, hinto.1⟩

theorem aligned_linkContains {claimId : String} {fresh : Nat → String} {noteIds : List String} {i : Nat} (h : g.Aligned P)
    (hlink : g.linkContains spaceId claimId fresh noteIds i = some g') (hclaim : ∃ n ∈ g.nodes, n.id = claimId ∧ n.kind = .claim) :
    g'.Aligned (noteIds.foldl (fun T noteId => T.put { noteId, claimId }) P) := by
  induction noteIds generalizing g P i with
  | nil =>
    cases hlink
    exact h
  | cons noteId noteIds ih =>
    obtain ⟨r, hr, hrest⟩ := Option.bind_eq_some_iff.mp hlink
    refine ih (aligned_file h hr hclaim) hrest ?_
    rw [(linkNodes_cases hr).2.nodes]
    exact hclaim

theorem aligned_links {noteId : String} {fresh : Nat → String} {now : Nat} {links : List String} {i : Nat}
    {r : MemoryGraph × List String} (h : g.Aligned P)
    (hlink : Vault.applyBody noteId spaceId fresh now (links.map .link) i g = some r) : r.1.Aligned P := by
  induction links generalizing g i r with
  | nil =>
    cases hlink
    exact h
  | cons target links ih =>
    obtain ⟨x, hx, hrest⟩ := Option.bind_eq_some_iff.mp hlink
    obtain ⟨y, hy, rfl⟩ := Option.map_eq_some_iff.mp hrest
    have hrec : g.IntoClaim target .references → ({ noteId, claimId := target } : NoteClaim) ∈ P := by
      intro hinto
      cases hinto.1
    exact ih (r := y) (aligned_linkNodes h hx hrec) hy

end AlignedAux

end MemoryGraph

end Capka

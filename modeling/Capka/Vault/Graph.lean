import Mathlib
import Capka.Lib.Table

/-!
# The graph of the memory

Nodes and edges. Deleting a node stamps it and every live edge that touches it with one time; restoring it clears the stamp from the node
and from the edges that touch it and carry the same stamp.
-/

namespace Capka

inductive NodeKind where
  | note
  | claim
  | source
  deriving DecidableEq, Repr

inductive EdgeRelation where
  | contains
  | references
  | derivedFrom
  deriving DecidableEq, Repr

/-- A row of `vault_nodes`. -/
structure VaultNode where
  id : String
  spaceId : String
  kind : NodeKind
  deletedAt : Option Nat
  deriving DecidableEq, Repr

/-- A row of `vault_edges`. -/
structure VaultEdge where
  id : String
  spaceId : String
  fromNodeId : String
  toNodeId : String
  relation : EdgeRelation
  deletedAt : Option Nat
  deriving DecidableEq, Repr

namespace VaultEdge

/-- The columns of `uniq_live_vault_edge`. -/
def joins (spaceId a b : String) (relation : EdgeRelation) (e : VaultEdge) : Prop :=
  e.spaceId = spaceId ∧ e.fromNodeId = a ∧ e.toNodeId = b ∧ e.relation = relation

instance (spaceId a b : String) (relation : EdgeRelation) (e : VaultEdge) : Decidable (e.joins spaceId a b relation) := by
  unfold joins
  infer_instance

def touches (nodeId : String) (e : VaultEdge) : Prop := e.fromNodeId = nodeId ∨ e.toNodeId = nodeId

instance (nodeId : String) (e : VaultEdge) : Decidable (e.touches nodeId) := by
  unfold touches
  infer_instance

end VaultEdge

/-- `LEGAL`: the kinds a relation runs between. -/
def EdgeRelation.legal : EdgeRelation → NodeKind → NodeKind → Bool
  | .contains, a, b => a = .note && b ∈ [NodeKind.note, .claim]
  | .references, a, b => a = .note && b ∈ [NodeKind.note, .claim, .source]
  | .derivedFrom, a, b => a ∈ [NodeKind.note, .claim] && b = .source

structure MemoryGraph where
  nodes : Table VaultNode VaultNode.id
  edges : Table VaultEdge VaultEdge.id

namespace MemoryGraph

/-- The node is in the space and not deleted. -/
def Live (g : MemoryGraph) (spaceId nodeId : String) : Prop :=
  ∃ n ∈ g.nodes, n.id = nodeId ∧ n.spaceId = spaceId ∧ n.deletedAt = none

instance (g : MemoryGraph) (spaceId nodeId : String) : Decidable (g.Live spaceId nodeId) := by
  unfold Live
  infer_instance

def liveNode (g : MemoryGraph) (spaceId nodeId : String) : Option VaultNode :=
  (g.nodes.get nodeId).filter fun n => n.spaceId = spaceId && n.deletedAt.isNone

/-- Some live edge of the space joins the two nodes by the relation. -/
def Joined (g : MemoryGraph) (spaceId a b : String) (relation : EdgeRelation) : Prop :=
  ∃ e ∈ g.edges, e.joins spaceId a b relation ∧ e.deletedAt = none

/-- `uniq_live_vault_edge`. -/
def UniqueLive (g : MemoryGraph) : Prop :=
  ∀ e ∈ g.edges, ∀ e' ∈ g.edges, e.deletedAt = none → e'.deletedAt = none →
    e'.joins e.spaceId e.fromNodeId e.toNodeId e.relation → e'.id = e.id

instance (g : MemoryGraph) : Decidable g.UniqueLive := by
  unfold UniqueLive
  infer_instance

def insertNode (id spaceId : String) (kind : NodeKind) (g : MemoryGraph) : Option MemoryGraph :=
  (g.nodes.insert { id, spaceId, kind, deletedAt := none }).map fun nodes => { g with nodes }

/-- Stamp the live edges of the space that have a property. -/
def closeEdges (spaceId : String) (p : VaultEdge → Prop) [DecidablePred p] (now : Nat) (g : MemoryGraph) : MemoryGraph :=
  { g with
    edges := g.edges.update (fun e => e.spaceId = spaceId ∧ e.deletedAt = none ∧ p e) (fun e => { e with deletedAt := some now })
      (fun _ => rfl) }

/-- `deleteNode`; a delete under a condition that matches no node closes nothing and says so. -/
def deleteNode (nodeId spaceId : String) (now : Nat) (onlyIf : Option Bool) (g : MemoryGraph) : MemoryGraph × Bool :=
  if onlyIf.isSome ∧ ¬(g.Live spaceId nodeId ∧ onlyIf = some true) then (g, false)
  else
    ({ nodes := g.nodes.update (fun n => n.id = nodeId ∧ n.spaceId = spaceId ∧ n.deletedAt = none)
          (fun n => { n with deletedAt := some now }) (fun _ => rfl)
       edges := (g.closeEdges spaceId (fun e => e.touches nodeId) now).edges }, true)

/-- The two updates of `restoreNode`. -/
def reopen (nodeId spaceId : String) (stamp : Nat) (g : MemoryGraph) : MemoryGraph where
  nodes := g.nodes.update (fun n => n.id = nodeId ∧ n.spaceId = spaceId ∧ n.deletedAt = some stamp)
    (fun n => { n with deletedAt := none }) (fun _ => rfl)
  edges := g.edges.update (fun e => e.spaceId = spaceId ∧ e.deletedAt = some stamp ∧ e.touches nodeId)
    (fun e => { e with deletedAt := none }) (fun _ => rfl)

/-- `restoreNode`; reopening an edge beside a live one violates `uniq_live_vault_edge`. -/
def restoreNode (nodeId spaceId : String) (stamp : Nat) (g : MemoryGraph) : Option (MemoryGraph × Bool) :=
  if ∃ n ∈ g.nodes, n.id = nodeId ∧ n.spaceId = spaceId ∧ n.deletedAt = some stamp then
    let reopened := g.reopen nodeId spaceId stamp
    if reopened.UniqueLive then some (reopened, true) else none
  else some (g, false)

def deleteSpaceNodes (spaceId : String) (now : Nat) (g : MemoryGraph) : MemoryGraph where
  nodes := g.nodes.update (fun n => n.spaceId = spaceId ∧ n.deletedAt = none) (fun n => { n with deletedAt := some now }) (fun _ => rfl)
  edges := (g.closeEdges spaceId (fun _ => True) now).edges

/-- `linkNodes`: the edge that joins the two already, or a new one under the id. -/
def linkNodes (spaceId a b : String) (relation : EdgeRelation) (id : String) (g : MemoryGraph) :
    Option (MemoryGraph × String × Bool) :=
  match g.liveNode spaceId a, g.liveNode spaceId b with
  | some na, some nb =>
    if relation.legal na.kind nb.kind = true ∧ a ≠ b then
      match g.edges.rows.find? (fun e => e.joins spaceId a b relation ∧ e.deletedAt = none) with
      | some e => some (g, e.id, false)
      | none =>
        (g.edges.insert { id, spaceId, fromNodeId := a, toNodeId := b, relation, deletedAt := none }).map
          fun edges => ({ g with edges }, id, true)
    else none
  | _, _ => none

/-- File a claim under each of the notes. -/
def linkContains (spaceId claimId : String) (fresh : Nat → String) : List String → Nat → MemoryGraph → Option MemoryGraph
  | [], _, g => some g
  | noteId :: noteIds, i, g =>
    (g.linkNodes spaceId noteId claimId .contains (fresh i)).bind fun r => linkContains spaceId claimId fresh noteIds (i + 1) r.1

def unlinkEdge (edgeId spaceId : String) (now : Nat) (g : MemoryGraph) : MemoryGraph :=
  g.closeEdges spaceId (fun e => e.id = edgeId) now

def unlinkContainsInto (claimId spaceId : String) (now : Nat) (g : MemoryGraph) : MemoryGraph :=
  g.closeEdges spaceId (fun e => e.toNodeId = claimId ∧ e.relation = .contains) now

def unlinkReferencesFrom (noteId spaceId : String) (keepTargets : List String) (now : Nat) (g : MemoryGraph) : MemoryGraph :=
  g.closeEdges spaceId (fun e => e.fromNodeId = noteId ∧ e.relation = .references ∧ e.toNodeId ∉ keepTargets) now

variable {g g' : MemoryGraph} {spaceId nodeId a b id : String} {relation : EdgeRelation} {n n' : VaultNode} {e : VaultEdge}

/-! ## What the reads find -/

theorem node_eq (h : n ∈ g.nodes) (h' : n' ∈ g.nodes) (hid : n.id = n'.id) : n = n' := Table.eq_of_key h h' hid

theorem liveNode_eq_some_iff :
    g.liveNode spaceId nodeId = some n ↔ n ∈ g.nodes ∧ n.id = nodeId ∧ n.spaceId = spaceId ∧ n.deletedAt = none := by
  unfold liveNode
  rw [Option.filter_eq_some_iff, Table.get_eq_some_iff]
  simp [and_assoc]

theorem Live.deletedAt_eq_none (h : g.Live spaceId nodeId) (hn : n ∈ g.nodes) (hid : n.id = nodeId) : n.deletedAt = none := by
  obtain ⟨n', hn', hid', _, hlive⟩ := h
  rw [node_eq hn hn' (hid.trans hid'.symm)]
  exact hlive

theorem Live.spaceId_eq (h : g.Live spaceId nodeId) (hn : n ∈ g.nodes) (hid : n.id = nodeId) : n.spaceId = spaceId := by
  obtain ⟨n', hn', hid', hspace, _⟩ := h
  rw [node_eq hn hn' (hid.trans hid'.symm)]
  exact hspace

/-! ## What the writes do -/

theorem mem_nodes_of_insertNode {kind : NodeKind} (h : g.insertNode id spaceId kind = some g') :
    n ∈ g'.nodes ↔ n ∈ g.nodes ∨ n = { id, spaceId, kind, deletedAt := none } := by
  obtain ⟨nodes, hnodes, rfl⟩ := Option.map_eq_some_iff.mp h
  exact Table.mem_of_insert hnodes

theorem edges_of_insertNode {kind : NodeKind} (h : g.insertNode id spaceId kind = some g') : g'.edges = g.edges := by
  obtain ⟨nodes, _, rfl⟩ := Option.map_eq_some_iff.mp h
  rfl

theorem ne_of_insertNode {kind : NodeKind} (h : g.insertNode id spaceId kind = some g') (hn : n ∈ g.nodes) : n.id ≠ id := by
  obtain ⟨nodes, hnodes, rfl⟩ := Option.map_eq_some_iff.mp h
  exact Table.key_ne_of_insert hnodes n hn

theorem insertNode_isSome (kind : NodeKind) (h : ∀ n ∈ g.nodes, n.id ≠ id) : ∃ g', g.insertNode id spaceId kind = some g' := by
  obtain ⟨nodes, hnodes⟩ := Table.exists_insert (r := VaultNode.mk id spaceId kind none) h
  exact ⟨{ g with nodes }, by rw [insertNode, hnodes]; rfl⟩

theorem mem_closeEdges {p : VaultEdge → Prop} [DecidablePred p] {now : Nat} :
    e ∈ (g.closeEdges spaceId p now).edges ↔
      (∃ e₀ ∈ g.edges, (e₀.spaceId = spaceId ∧ e₀.deletedAt = none ∧ p e₀) ∧ e = { e₀ with deletedAt := some now }) ∨
        (e ∈ g.edges ∧ ¬(e.spaceId = spaceId ∧ e.deletedAt = none ∧ p e)) :=
  Table.mem_update (f := fun e : VaultEdge => { e with deletedAt := some now }) fun _ => rfl

theorem of_live_closeEdges {p : VaultEdge → Prop} [DecidablePred p] {now : Nat} (he : e ∈ (g.closeEdges spaceId p now).edges)
    (hlive : e.deletedAt = none) : e ∈ g.edges ∧ ¬(e.spaceId = spaceId ∧ p e) := by
  rcases mem_closeEdges.mp he with ⟨e₀, _, _, rfl⟩ | ⟨he, hnot⟩
  · cases hlive
  · exact ⟨he, fun h => hnot ⟨h.1, hlive, h.2⟩⟩

/-- What `linkNodes` does: it adds the edge where it is missing, and nothing else. -/
structure Links (g g' : MemoryGraph) (spaceId a b : String) (relation : EdgeRelation) : Prop where
  nodes : g'.nodes = g.nodes
  joined : g'.Joined spaceId a b relation
  added : ∀ e ∈ g'.edges, e ∈ g.edges ∨ (e.joins spaceId a b relation ∧ e.deletedAt = none)
  kept : ∀ e ∈ g.edges, e ∈ g'.edges

theorem linkNodes_cases {r : MemoryGraph × String × Bool} (h : g.linkNodes spaceId a b relation id = some r) :
    (∃ na nb, g.liveNode spaceId a = some na ∧ g.liveNode spaceId b = some nb ∧ relation.legal na.kind nb.kind = true) ∧
      Links g r.1 spaceId a b relation := by
  unfold linkNodes at h
  split at h
  · rename_i na nb ha hb
    split at h
    · rename_i hlegal
      refine ⟨⟨na, nb, ha, hb, hlegal.1⟩, ?_⟩
      split at h
      · rename_i e he
        cases h
        have hmem : e ∈ g.edges := List.mem_of_find?_eq_some he
        have hp := List.find?_some he
        simp only [decide_eq_true_eq] at hp
        exact { nodes := rfl, joined := ⟨e, hmem, hp⟩, added := fun e he => .inl he, kept := fun e he => he }
      · obtain ⟨edges, hedges, rfl⟩ := Option.map_eq_some_iff.mp h
        refine { nodes := rfl, joined := ?_, added := ?_, kept := ?_ }
        · exact ⟨_, (Table.mem_of_insert hedges).mpr (.inr rfl), ⟨rfl, rfl, rfl, rfl⟩, rfl⟩
        · intro e he
          rcases (Table.mem_of_insert hedges).mp he with he | rfl
          · exact .inl he
          · exact .inr ⟨⟨rfl, rfl, rfl, rfl⟩, rfl⟩
        · exact fun e he => (Table.mem_of_insert hedges).mpr (.inl he)
    · cases h
  · cases h

theorem linkNodes_isSome {na nb : VaultNode} (ha : g.liveNode spaceId a = some na) (hb : g.liveNode spaceId b = some nb)
    (hlegal : relation.legal na.kind nb.kind = true) (hne : a ≠ b) (hid : ∀ e ∈ g.edges, e.id ≠ id) :
    ∃ r, g.linkNodes spaceId a b relation id = some r := by
  unfold linkNodes
  rw [ha, hb]
  simp only [hlegal, ne_eq, hne, not_false_eq_true, and_self, if_true]
  split
  · exact ⟨_, rfl⟩
  · obtain ⟨edges, hedges⟩ := Table.exists_insert (r := VaultEdge.mk id spaceId a b relation none) hid
    exact ⟨({ g with edges }, id, true), by rw [hedges]; rfl⟩

/-- What filing a claim under several notes does. -/
structure LinksAll (g g' : MemoryGraph) (spaceId claimId : String) (noteIds : List String) : Prop where
  nodes : g'.nodes = g.nodes
  joined : ∀ noteId ∈ noteIds, g'.Joined spaceId noteId claimId .contains
  added : ∀ e ∈ g'.edges, e ∈ g.edges ∨ ∃ noteId ∈ noteIds, e.joins spaceId noteId claimId .contains ∧ e.deletedAt = none
  kept : ∀ e ∈ g.edges, e ∈ g'.edges
  live : ∀ noteId ∈ noteIds, g.Live spaceId noteId

theorem linkContains_cases {claimId : String} {fresh : Nat → String} {noteIds : List String} {i : Nat}
    (h : g.linkContains spaceId claimId fresh noteIds i = some g') : LinksAll g g' spaceId claimId noteIds := by
  induction noteIds generalizing g i with
  | nil =>
    cases h
    exact
      { nodes := rfl, joined := by simp, added := fun e he => .inl he, kept := fun e he => he, live := by simp }
  | cons noteId noteIds ih =>
    obtain ⟨r, hr, hrest⟩ := Option.bind_eq_some_iff.mp h
    obtain ⟨⟨na, nb, ha, _, _⟩, hlink⟩ := linkNodes_cases hr
    have hall := ih hrest
    have hlive : g.Live spaceId noteId := ⟨na, liveNode_eq_some_iff.mp ha⟩
    refine { nodes := hall.nodes.trans hlink.nodes, joined := ?_, added := ?_, kept := ?_, live := ?_ }
    · intro x hx
      rcases List.mem_cons.mp hx with rfl | hx
      · obtain ⟨e, he, hj⟩ := hlink.joined
        exact ⟨e, hall.kept e he, hj⟩
      · exact hall.joined x hx
    · intro e he
      rcases hall.added e he with he | ⟨x, hx, hj⟩
      · rcases hlink.added e he with he | hj
        · exact .inl he
        · exact .inr ⟨noteId, List.mem_cons_self, hj⟩
      · exact .inr ⟨x, List.mem_cons_of_mem _ hx, hj⟩
    · exact fun e he => hall.kept e (hlink.kept e he)
    · intro x hx
      rcases List.mem_cons.mp hx with rfl | hx
      · exact hlive
      · obtain ⟨n, hn, hrest⟩ := hall.live x hx
        exact ⟨n, hlink.nodes ▸ hn, hrest⟩

end MemoryGraph

end Capka

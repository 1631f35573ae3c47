import Capka.Vault.Rows

/-!
# Correcting a fact

`updateClaim` carries a claim's memberships over to the successor and links each topic anew, so it throws as soon as one of the topics is
deleted: forgetting a topic leaves the membership. It succeeds, and keeps exactly the live topics, when every topic of the claim is live.
-/

namespace Capka

open MemoryGraph

namespace MemoryGraph

variable {g g' : MemoryGraph} {spaceId a b id claimId : String}

theorem id_of_linkNodes {relation : EdgeRelation} {r : MemoryGraph × String × Bool} (h : g.linkNodes spaceId a b relation id = some r)
    {e : VaultEdge} (he : e ∈ r.1.edges) : e ∈ g.edges ∨ e.id = id := by
  unfold linkNodes at h
  split at h
  · split at h
    · split at h
      · cases h
        exact .inl he
      · obtain ⟨edges, hedges, rfl⟩ := Option.map_eq_some_iff.mp h
        rcases (Table.mem_of_insert hedges).mp he with he | rfl
        · exact .inl he
        · exact .inr rfl
    · cases h
  · cases h

theorem linkContains_isSome {fresh : Nat → String} {noteIds : List String} {i : Nat} (hinj : Function.Injective fresh)
    (hfresh : ∀ e ∈ g.edges, ∀ j, i ≤ j → e.id ≠ fresh j)
    (hnotes : ∀ noteId ∈ noteIds, ∃ n, g.liveNode spaceId noteId = some n ∧ n.kind = .note)
    (hclaim : ∃ n, g.liveNode spaceId claimId = some n ∧ n.kind = .claim) :
    ∃ g', g.linkContains spaceId claimId fresh noteIds i = some g' := by
  induction noteIds generalizing g i with
  | nil => exact ⟨g, rfl⟩
  | cons noteId noteIds ih =>
    obtain ⟨n, hn, hnk⟩ := hnotes noteId List.mem_cons_self
    obtain ⟨c, hc, hck⟩ := hclaim
    have hne : noteId ≠ claimId := by
      rintro rfl
      rw [hn] at hc
      rw [Option.some.inj hc, hck] at hnk
      cases hnk
    have hlegal : EdgeRelation.contains.legal n.kind c.kind = true := by
      rw [hnk, hck]
      rfl
    obtain ⟨r, hr⟩ := linkNodes_isSome hn hc hlegal hne (fun e he => hfresh e he i (Nat.le_refl i))
    have hnodes : r.1.nodes = g.nodes := (linkNodes_cases hr).2.nodes
    have hlive : ∀ x, r.1.liveNode spaceId x = g.liveNode spaceId x := by
      intro x
      unfold liveNode
      rw [hnodes]
    have hfresh' : ∀ e ∈ r.1.edges, ∀ j, i + 1 ≤ j → e.id ≠ fresh j := by
      intro e he j hj
      rcases id_of_linkNodes hr he with he | hid
      · exact hfresh e he j (by omega)
      · rw [hid]
        intro heq
        have := hinj heq
        omega
    have hnotes' : ∀ x ∈ noteIds, ∃ n, r.1.liveNode spaceId x = some n ∧ n.kind = .note := by
      intro x hx
      rw [hlive]
      exact hnotes x (List.mem_cons_of_mem _ hx)
    obtain ⟨g', hg'⟩ := ih hfresh' hnotes' ⟨c, (hlive claimId).trans hc, hck⟩
    exact ⟨g', by rw [linkContains, hr]; exact hg'⟩

end MemoryGraph

namespace Vault

/-- The ids of a call are new: no node has the first, no edge has any of them, and no two are the same. -/
structure FreshIds (fresh : Nat → String) (v : Vault) : Prop where
  node : ∀ n ∈ v.graph.nodes, n.id ≠ fresh 0
  edge : ∀ e ∈ v.graph.edges, ∀ i, e.id ≠ fresh i
  injective : Function.Injective fresh

/-- The claim is filed under the topic, and the topic is live in the space. -/
def LiveTopic (v : Vault) (spaceId claimId noteId : String) : Prop := noteId ∈ v.filedUnder claimId ∧ v.graph.Live spaceId noteId

/-- The two records of membership agree on the space, the claim apart. -/
def ParityApart (v : Vault) (spaceId claimId : String) : Prop :=
  ∀ noteId claimId', claimId' ≠ claimId → (v.Holds spaceId noteId claimId' ↔ v.Contains spaceId noteId claimId')

/-- What the correction of a head has to come to: the successor, one revision on, in exactly the live topics of the head. -/
def Corrects (env : VaultEnv) (args : UpdateClaimArgs) (fresh : Nat → String) (now : Nat) (c : VaultClaim) (v : Vault) : Prop :=
  ∃ w id, v.updateClaim env args fresh now = some (w, .ok (id, c.revision + 1)) ∧
    (∃ s ∈ w.claims, s.id = id ∧ s.revision = c.revision + 1 ∧ s.supersedes = some c.id ∧ s.supersededAt = none) ∧
    ∀ noteId, w.LiveTopic c.spaceId id noteId ↔ v.LiveTopic c.spaceId c.id noteId

namespace CorrectAux

variable {v w : Vault} {spaceId old new : String}

theorem mem_filedUnder {claimId noteId : String} : noteId ∈ v.filedUnder claimId ↔ ({ noteId, claimId } : NoteClaim) ∈ v.noteClaims := by
  simp only [filedUnder, List.mem_map, List.mem_filter, decide_eq_true_eq]
  constructor
  · rintro ⟨⟨n, c⟩, ⟨hp, rfl⟩, rfl⟩
    exact hp
  · exact fun hp => ⟨_, ⟨hp, rfl⟩, rfl⟩

theorem holds_iff {noteId claimId : String} :
    v.Holds spaceId noteId claimId ↔
      ({ noteId, claimId } : NoteClaim) ∈ v.noteClaims ∧ v.graph.Live spaceId noteId ∧ v.graph.Live spaceId claimId := by
  unfold Holds
  constructor
  · rintro ⟨⟨⟨n, c⟩, hp, rfl, rfl⟩, hrest⟩
    exact ⟨hp, hrest⟩
  · rintro ⟨hp, hrest⟩
    exact ⟨⟨_, hp, rfl, rfl⟩, hrest⟩

theorem id_of_closeEdges {g : MemoryGraph} {p : VaultEdge → Prop} [DecidablePred p] {now : Nat} {e : VaultEdge}
    (h : e ∈ (g.closeEdges spaceId p now).edges) : ∃ e₀ ∈ g.edges, e₀.id = e.id := by
  rcases mem_closeEdges.mp h with ⟨e₀, he₀, _, rfl⟩ | ⟨he, _⟩
  · exact ⟨e₀, he₀, rfl⟩
  · exact ⟨e, he, rfl⟩

theorem joined_unlinkContainsInto {g : MemoryGraph} {now : Nat} {a b : String} :
    (g.unlinkContainsInto old spaceId now).Joined spaceId a b .contains ↔ g.Joined spaceId a b .contains ∧ b ≠ old := by
  constructor
  · rintro ⟨e, he, hj, hlive⟩
    obtain ⟨hmem, hnot⟩ := of_live_closeEdges he hlive
    refine ⟨⟨e, hmem, hj, hlive⟩, fun hb => hnot ⟨hj.1, hj.2.2.1.trans hb, hj.2.2.2⟩⟩
  · rintro ⟨⟨e, he, hj, hlive⟩, hb⟩
    exact ⟨e, mem_closeEdges.mpr (.inr ⟨he, fun hx => hb (hj.2.2.1.symm.trans hx.2.2.1)⟩), hj, hlive⟩

end CorrectAux

/-- The topics the successor is filed under: those of the head, or that of the patch where the head has none. -/
def carriedTopics (args : UpdateClaimArgs) (v : Vault) : List String :=
  if v.filedUnder args.claimId = [] then args.patch.topicNoteId.toList else v.filedUnder args.claimId

/-- The memberships of a claim and its edges, given to a new claim, in all of the topics. -/
structure Carried (v w : Vault) (spaceId old new : String) (topics : List String) : Prop where
  nodes : w.graph.nodes = v.graph.nodes
  claims : w.claims = v.claims
  pairs : ∀ p, p ∈ w.noteClaims ↔ (p ∈ v.noteClaims ∧ p.claimId ≠ old) ∨ ∃ noteId ∈ topics, p = { noteId, claimId := new }
  joined : ∀ a b, w.graph.Joined spaceId a b .contains ↔
    (v.graph.Joined spaceId a b .contains ∧ b ≠ old) ∨ (a ∈ topics ∧ b = new)
  live : ∀ noteId ∈ topics, v.graph.Live spaceId noteId

namespace CorrectAux

variable {v w : Vault} {spaceId old new : String}

theorem carried_of_carryTopics {args : UpdateClaimArgs} {fresh : Nat → String} {now : Nat}
    (h : v.carryTopics args spaceId fresh now = some w) : Carried v w spaceId args.claimId (fresh 0) (v.carriedTopics args) := by
  obtain ⟨graph, hgraph, hw⟩ := carryTopics_cases h
  have hl := linkContains_cases hgraph
  have hpairs : ∀ p, p ∈ v.moveMemberships args.claimId (fresh 0) ↔ (p ∈ v.noteClaims ∧ p.claimId ≠ args.claimId) ∨
      ∃ noteId ∈ v.filedUnder args.claimId, p = { noteId, claimId := fresh 0 } := by
    intro p
    rw [RowsAux.mem_moveMemberships]
    simp only [mem_filedUnder]
  have hjoined : ∀ a b, graph.Joined spaceId a b .contains ↔ (v.graph.Joined spaceId a b .contains ∧ b ≠ args.claimId) ∨
      (a ∈ v.filedUnder args.claimId ∧ b = fresh 0) := by
    intro a b
    have hunlink : (v.graph.unlinkContainsInto args.claimId spaceId now).Joined spaceId a b .contains ↔
        v.graph.Joined spaceId a b .contains ∧ b ≠ args.claimId := joined_unlinkContainsInto
    rw [← hunlink]
    constructor
    · rintro ⟨e, he, hj, hlive⟩
      rcases hl.added e he with he | ⟨noteId, hmem, hj', _⟩
      · exact .inl ⟨e, he, hj, hlive⟩
      · refine .inr ⟨?_, hj.2.2.1.symm.trans hj'.2.2.1⟩
        rw [← hj.2.1, hj'.2.1]
        exact hmem
    · rintro (⟨e, he, hrest⟩ | ⟨hmem, rfl⟩)
      · exact ⟨e, hl.kept e he, hrest⟩
      · exact hl.joined a hmem
  have hnodes : graph.nodes = v.graph.nodes := hl.nodes
  have hlive : ∀ noteId ∈ v.filedUnder args.claimId, v.graph.Live spaceId noteId := hl.live
  unfold carriedTopics
  rcases hw with ⟨hnone, rfl⟩ | ⟨noteId, x, hnil, htopic, hx, rfl⟩
  · have htopics : (if v.filedUnder args.claimId = [] then args.patch.topicNoteId.toList else v.filedUnder args.claimId) =
        v.filedUnder args.claimId := by
      split
      · rename_i hnil
        rw [hnil, hnone hnil]
        rfl
      · rfl
    rw [htopics]
    exact { nodes := hnodes, claims := rfl, pairs := hpairs, joined := hjoined, live := hlive }
  · rw [if_pos hnil, htopic]
    obtain ⟨_, l, hlink, hr⟩ := fileUnder_cases hx
    have hone := (linkNodes_cases hlink).2
    rw [hnil] at hpairs hjoined
    refine { nodes := ?_, claims := ?_, pairs := ?_, joined := ?_, live := ?_ }
    · rw [hr]
      exact hone.nodes.trans hnodes
    · rw [hr]
    · intro p
      rw [hr, AlignedAux.mem_put_iff, hpairs]
      simp only [List.not_mem_nil, false_and, exists_false, or_false, Option.toList_some, List.mem_singleton, exists_eq_left]
      exact or_comm
    · intro a b
      simp only [List.not_mem_nil, false_and, or_false] at hjoined
      rw [hr]
      simp only [Option.toList_some, List.mem_singleton]
      rw [← hjoined]
      constructor
      · rintro ⟨e, he, hj, helive⟩
        rcases hone.added e he with he | ⟨hj', _⟩
        · exact .inl ⟨e, he, hj, helive⟩
        · exact .inr ⟨hj.2.1.symm.trans hj'.2.1, hj.2.2.1.symm.trans hj'.2.2.1⟩
      · rintro (⟨e, he, hrest⟩ | ⟨rfl, rfl⟩)
        · exact ⟨e, hone.kept e he, hrest⟩
        · exact hone.joined
    · intro y hy
      simp only [Option.toList_some, List.mem_singleton] at hy
      rw [hy]
      obtain ⟨n, hn, hrest⟩ := (AlignedAux.live_of_linkNodes hlink).1
      exact ⟨n, hnodes ▸ hn, hrest⟩

/-! ### The records of membership after a correction -/

section Successor

variable {graph : MemoryGraph} {claims : Claims} {topics : List String} (h : RowsOk v) (hnew : ∀ n ∈ v.graph.nodes, n.id ≠ new)
  (hgraph : v.graph.insertNode new spaceId .claim = some graph) (hcarried : Carried { v with graph, claims } w spaceId old new topics)

include hnew hgraph hcarried

theorem nodes_iff {n : VaultNode} : n ∈ w.graph.nodes ↔ n ∈ v.graph.nodes ∨ n = ⟨new, spaceId, .claim, none⟩ := by
  rw [hcarried.nodes]
  exact mem_nodes_of_insertNode hgraph

theorem live_iff {x : String} (hx : x ≠ new) : w.graph.Live spaceId x ↔ v.graph.Live spaceId x := by
  unfold Live
  constructor
  · rintro ⟨n, hn, hid, hrest⟩
    rcases (nodes_iff hnew hgraph hcarried).mp hn with hn | rfl
    · exact ⟨n, hn, hid, hrest⟩
    · exact absurd hid.symm hx
  · rintro ⟨n, hn, hrest⟩
    exact ⟨n, (nodes_iff hnew hgraph hcarried).mpr (.inl hn), hrest⟩

theorem live_new : w.graph.Live spaceId new :=
  ⟨_, (nodes_iff hnew hgraph hcarried).mpr (.inr rfl), rfl, rfl, rfl⟩

include h

theorem ne_of_pair {p : NoteClaim} (hp : p ∈ v.noteClaims) : p.noteId ≠ new ∧ p.claimId ≠ new := by
  obtain ⟨c, hc, x, hx, hcid, hxid, _⟩ := h.pairs p hp
  obtain ⟨n, hn, hnid, _⟩ := h.claimNodes c hc
  obtain ⟨m, hm, hmid, _⟩ := h.noteNodes x hx
  exact ⟨fun heq => hnew m hm (hmid.trans (hxid.trans heq)), fun heq => hnew n hn (hnid.trans (hcid.trans heq))⟩

theorem ne_of_joined {a b : String} (hj : v.graph.Joined spaceId a b .contains) : b ≠ new := by
  obtain ⟨e, he, ⟨_, _, hto, _⟩, _⟩ := hj
  obtain ⟨n, hn, hid⟩ := (h.edgeEnds e he).2
  exact fun heq => hnew n hn (hid.trans (hto.trans heq))

theorem holds_of_ne {noteId claimId : String} (hold : claimId ≠ old) (hne : claimId ≠ new) :
    w.Holds spaceId noteId claimId ↔ v.Holds spaceId noteId claimId := by
  rw [holds_iff, holds_iff, hcarried.pairs, live_iff hnew hgraph hcarried hne]
  constructor
  · rintro ⟨⟨hp, _⟩ | ⟨noteId', _, heq⟩, hnote, hclaim⟩
    · exact ⟨hp, (live_iff hnew hgraph hcarried (ne_of_pair h hnew hgraph hcarried hp).1).mp hnote, hclaim⟩
    · exact absurd (NoteClaim.mk.inj heq).2 hne
  · rintro ⟨hp, hnote, hclaim⟩
    exact ⟨.inl ⟨hp, hold⟩, (live_iff hnew hgraph hcarried (ne_of_pair h hnew hgraph hcarried hp).1).mpr hnote, hclaim⟩

theorem contains_of_ne {noteId claimId : String} (hold : claimId ≠ old) (hne : claimId ≠ new) :
    w.Contains spaceId noteId claimId ↔ v.Contains spaceId noteId claimId := by
  unfold Contains
  rw [hcarried.joined]
  constructor
  · rintro ⟨⟨hj, _⟩ | ⟨_, heq⟩, n, hn, hid, hrest⟩
    · refine ⟨hj.imp fun e he => ⟨edges_of_insertNode hgraph ▸ he.1, he.2⟩, ?_⟩
      rcases (nodes_iff hnew hgraph hcarried).mp hn with hn | rfl
      · exact ⟨n, hn, hid, hrest⟩
      · exact absurd hid.symm hne
    · exact absurd heq hne
  · rintro ⟨hj, n, hn, hrest⟩
    exact ⟨.inl ⟨hj.imp fun e he => ⟨edges_of_insertNode hgraph ▸ he.1, he.2⟩, hold⟩, n,
      (nodes_iff hnew hgraph hcarried).mpr (.inl hn), hrest⟩

theorem not_old {noteId : String} (hne : old ≠ new) : ¬w.Holds spaceId noteId old ∧ ¬w.Contains spaceId noteId old := by
  constructor
  · intro hx
    rcases (hcarried.pairs _).mp (holds_iff.mp hx).1 with ⟨_, hold⟩ | ⟨noteId', _, heq⟩
    · exact hold rfl
    · exact hne (NoteClaim.mk.inj heq).2
  · rintro ⟨hj, _⟩
    rcases (hcarried.joined _ _).mp hj with ⟨_, hold⟩ | ⟨_, heq⟩
    · exact hold rfl
    · exact hne heq

theorem holds_new_iff {noteId : String} : w.Holds spaceId noteId new ↔ noteId ∈ topics := by
  rw [holds_iff, hcarried.pairs]
  constructor
  · rintro ⟨⟨hp, _⟩ | ⟨noteId', hmem, heq⟩, _⟩
    · exact absurd rfl (ne_of_pair h hnew hgraph hcarried hp).2
    · rw [(NoteClaim.mk.inj heq).1]
      exact hmem
  · intro hmem
    obtain ⟨n, hn, hrest⟩ := hcarried.live noteId hmem
    exact ⟨.inr ⟨noteId, hmem, rfl⟩, ⟨n, hcarried.nodes.symm ▸ hn, hrest⟩, live_new hnew hgraph hcarried⟩

theorem contains_new_iff {noteId : String} : w.Contains spaceId noteId new ↔ noteId ∈ topics := by
  unfold Contains
  rw [hcarried.joined]
  constructor
  · rintro ⟨⟨hj, _⟩ | ⟨hmem, _⟩, _⟩
    · have hj' : v.graph.Joined spaceId noteId new .contains := hj.imp fun e he => ⟨edges_of_insertNode hgraph ▸ he.1, he.2⟩
      exact absurd rfl (ne_of_joined h hnew hgraph hcarried hj')
    · exact hmem
  · intro hmem
    exact ⟨.inr ⟨hmem, rfl⟩, _, (nodes_iff hnew hgraph hcarried).mpr (.inr rfl), rfl, rfl, rfl⟩

theorem parity_iff (hne : old ≠ new) : (w.containsParity spaceId).ok = true ↔ v.ParityApart spaceId old := by
  rw [containsParity_ok_iff]
  constructor
  · intro hall noteId claimId hold
    by_cases hn : claimId = new
    · subst hn
      constructor
      · intro hx
        exact absurd rfl (ne_of_pair h hnew hgraph hcarried (holds_iff.mp hx).1).2
      · rintro ⟨hj, _⟩
        exact absurd rfl (ne_of_joined h hnew hgraph hcarried hj)
    · rw [← holds_of_ne h hnew hgraph hcarried hold hn, ← contains_of_ne h hnew hgraph hcarried hold hn]
      exact hall noteId claimId
  · intro hapart noteId claimId
    by_cases hold : claimId = old
    · subst hold
      have hnot : ¬w.Holds spaceId noteId claimId ∧ ¬w.Contains spaceId noteId claimId := not_old h hnew hgraph hcarried hne
      exact ⟨fun hx => absurd hx hnot.1, fun hx => absurd hx hnot.2⟩
    · by_cases hn : claimId = new
      · subst hn
        rw [holds_new_iff h hnew hgraph hcarried, contains_new_iff h hnew hgraph hcarried]
      · rw [holds_of_ne h hnew hgraph hcarried hold hn, contains_of_ne h hnew hgraph hcarried hold hn]
        exact hapart noteId claimId hold

end Successor

theorem carryTopics_isSome {graph : MemoryGraph} {claims : Claims} {args : UpdateClaimArgs} {fresh : Nat → String} {now : Nat}
    (h : RowsOk v) (hfresh : FreshIds fresh v) (hgraph : v.graph.insertNode (fresh 0) spaceId .claim = some graph)
    (hlive : ∀ noteId ∈ v.filedUnder args.claimId, v.graph.Live spaceId noteId)
    (htopic : v.filedUnder args.claimId = [] → args.patch.topicNoteId = none) :
    ∃ w, { v with graph, claims }.carryTopics args spaceId fresh now = some w := by
  have hedges : ∀ e ∈ (graph.unlinkContainsInto args.claimId spaceId now).edges, ∀ j, 1 ≤ j → e.id ≠ fresh j := by
    intro e he j _
    obtain ⟨e₀, he₀, hid⟩ := id_of_closeEdges he
    rw [← hid]
    exact hfresh.edge e₀ (edges_of_insertNode hgraph ▸ he₀) j
  have hnotes : ∀ noteId ∈ v.filedUnder args.claimId,
      ∃ n, (graph.unlinkContainsInto args.claimId spaceId now).liveNode spaceId noteId = some n ∧ n.kind = .note := by
    intro noteId hmem
    obtain ⟨n, hn, hid, hrest⟩ := hlive noteId hmem
    obtain ⟨c, hc, x, hx, _, hxid, _⟩ := h.pairs _ (mem_filedUnder.mp hmem)
    obtain ⟨m, hm, hmid, _, hkind⟩ := h.noteNodes x hx
    have heq : n = m := node_eq hn hm (hid.trans (hxid.symm.trans hmid.symm))
    exact ⟨n, liveNode_eq_some_iff.mpr ⟨(mem_nodes_of_insertNode hgraph).mpr (.inl hn), hid, hrest⟩, heq ▸ hkind⟩
  have hclaim : ∃ n, (graph.unlinkContainsInto args.claimId spaceId now).liveNode spaceId (fresh 0) = some n ∧ n.kind = .claim :=
    ⟨_, liveNode_eq_some_iff.mpr ⟨(mem_nodes_of_insertNode hgraph).mpr (.inr rfl), rfl, rfl, rfl⟩, rfl⟩
  obtain ⟨g, hg⟩ := linkContains_isSome hfresh.injective hedges hnotes hclaim
  unfold carryTopics
  have hmoved : ({ v with graph, claims } : Vault).filedUnder args.claimId = v.filedUnder args.claimId := rfl
  simp only [hmoved, hg, Option.bind_some]
  cases hfiled : v.filedUnder args.claimId with
  | nil => exact ⟨_, by rw [htopic hfiled]⟩
  | cons noteId noteIds => exact ⟨_, rfl⟩

end CorrectAux

open CorrectAux

/-- When a head can be corrected: its topics are live, nothing else in the space is out of step where that is asserted, and no topic of the
patch is put in place of none. -/
def Correctable (env : VaultEnv) (args : UpdateClaimArgs) (c : VaultClaim) (v : Vault) : Prop :=
  (∀ noteId ∈ v.filedUnder c.id, v.graph.Live c.spaceId noteId) ∧ (env.production = true ∨ v.ParityApart c.spaceId c.id) ∧
    (v.filedUnder c.id = [] → args.patch.topicNoteId = none)

section Corrects

variable {v : Vault} {env : VaultEnv} {args : UpdateClaimArgs} {fresh : Nat → String} {now : Nat} {c : VaultClaim}

theorem mem_carriedTopics_iff {noteId : String} (htopic : v.filedUnder args.claimId = [] → args.patch.topicNoteId = none) :
    noteId ∈ v.carriedTopics args ↔ noteId ∈ v.filedUnder args.claimId := by
  unfold carriedTopics
  split
  · rename_i hnil
    rw [htopic hnil, hnil]
    rfl
  · rfl

/-- The correction of a head whose topics are live, in step with the rest. -/
theorem Correctable.corrects (h : RowsOk v) (hc : c ∈ v.claims) (hhead : c.supersededAt = none) (hid : args.claimId = c.id)
    (hrev : args.expectedRevision = c.revision) (hallowed : c.spaceId ∈ args.allowedSpaceIds) (hfresh : FreshIds fresh v)
    (hcan : v.Correctable env args c) : v.Corrects env args fresh now c := by
  obtain ⟨hlive, hparity, htopic⟩ := hcan
  have htarget : v.updateTarget args = some c := updateTarget_eq_some_iff.mpr ⟨hc, hid.symm, hrev.symm, hhead, hallowed⟩
  have hinsert : ∃ graph, v.graph.insertNode (fresh 0) c.spaceId .claim = some graph := insertNode_isSome .claim hfresh.node
  obtain ⟨graph, hgraph⟩ := hinsert
  obtain ⟨n, hn, hnid, _⟩ := h.claimNodes c hc
  have hne : args.claimId ≠ fresh 0 := fun heq => hfresh.node n hn (hnid.trans (hid.symm.trans heq))
  have hfree : ∀ x ∈ v.claims.finish (fun x => x.id = args.claimId) now, x.id ≠ (c.successor args (fresh 0) now).id := by
    intro x hx
    have hold : ∃ x₀ ∈ v.claims, x₀.id = x.id := by
      rcases Claims.mem_finish.mp hx with ⟨x₀, hx₀, _, rfl⟩ | ⟨hx, _⟩
      · exact ⟨x₀, hx₀, rfl⟩
      · exact ⟨x, hx, rfl⟩
    obtain ⟨x₀, hx₀, hxid⟩ := hold
    obtain ⟨m, hm, hmid, _⟩ := h.claimNodes x₀ hx₀
    rw [← hxid, ← hmid]
    exact hfresh.node m hm
  obtain ⟨claims, hclaims⟩ := Table.exists_insert hfree
  have hsup : v.claims.supersede args c (fresh 0) now = some claims := by
    unfold Claims.supersede
    rw [if_neg]
    · exact hclaims
    · rintro ⟨s, hs, hss⟩
      exact h.chains.headLast c hc hhead s hs (hid ▸ hss)
  have hcarry : ∃ w, ({ v with graph, claims } : Vault).carryTopics args c.spaceId fresh now = some w :=
    carryTopics_isSome h hfresh hgraph (hid ▸ hlive) (hid ▸ htopic)
  obtain ⟨w, hw⟩ := hcarry
  have hcarried := carried_of_carryTopics hw
  have hasserted : w.parityAsserted env c.spaceId := by
    rcases hparity with hp | hp
    · exact .inl hp
    · refine .inr ((parity_iff h hfresh.node hgraph hcarried hne).mpr ?_)
      rw [hid]
      exact hp
  refine ⟨w.audit c.spaceId .claimSupersede args.claimId, fresh 0, ?_, ⟨c.successor args (fresh 0) now, ?_, rfl, rfl, ?_, rfl⟩, ?_⟩
  · unfold updateClaim
    rw [htarget]
    simp only [hgraph, hsup, hw, Option.bind_some, Option.filter_some, hasserted, decide_true, if_true, Option.map_some]
  · have hwc : w.claims = claims := hcarried.claims
    change _ ∈ w.claims
    rw [hwc]
    exact (Table.mem_of_insert hclaims).mpr (.inr rfl)
  · rw [← hid]
    rfl
  · intro noteId
    have hpair : noteId ∈ w.filedUnder (fresh 0) ↔ noteId ∈ v.filedUnder c.id := by
      have hmem : noteId ∈ v.carriedTopics args ↔ w.Holds c.spaceId noteId (fresh 0) := (holds_new_iff h hfresh.node hgraph hcarried).symm
      rw [← hid, ← mem_carriedTopics_iff (hid ▸ htopic), hmem, holds_iff, mem_filedUnder]
      refine ⟨fun hp => ⟨hp, ?_⟩, fun hp => hp.1⟩
      refine ⟨?_, live_new hfresh.node hgraph hcarried⟩
      rcases (hcarried.pairs _).mp hp with ⟨hp, _⟩ | ⟨y, hy, heq⟩
      · exact absurd rfl (ne_of_pair h hfresh.node hgraph hcarried hp).2
      · obtain ⟨m, hm, hrest⟩ := hcarried.live y hy
        rw [(NoteClaim.mk.inj heq).1]
        exact ⟨m, hcarried.nodes.symm ▸ hm, hrest⟩
    unfold LiveTopic
    change noteId ∈ w.filedUnder (fresh 0) ∧ w.graph.Live c.spaceId noteId ↔ _
    rw [hpair]
    refine and_congr_right fun hmem => live_iff hfresh.node hgraph hcarried ?_
    exact (ne_of_pair h hfresh.node hgraph hcarried (mem_filedUnder.mp hmem)).1

theorem Corrects.correctable (h : RowsOk v) (hc : c ∈ v.claims) (hid : args.claimId = c.id) (hfresh : FreshIds fresh v)
    (hcor : v.Corrects env args fresh now c) : v.Correctable env args c := by
  obtain ⟨w', id, hupd, _, htopics⟩ := hcor
  rcases updateClaim_cases hupd with ⟨_, _, current, hstale⟩ | ⟨prev, graph, claims, w, htarget, hgraph, _, hcarry, hasserted, hr⟩
  · cases hstale
  · obtain ⟨hprev, hpid, _⟩ := updateTarget_eq_some_iff.mp htarget
    have heq : prev = c := Table.eq_of_key hprev hc (hpid.trans hid)
    subst heq
    obtain ⟨hw, hok⟩ := Prod.mk.inj hr
    have hnew : id = fresh 0 := (Prod.mk.inj (ClaimResult.ok.inj hok)).1
    subst hw hnew
    have hcarried := carried_of_carryTopics hcarry
    obtain ⟨n, hn, hnid, _⟩ := h.claimNodes prev hc
    have hne : args.claimId ≠ fresh 0 := fun heq => hfresh.node n hn (hnid.trans (hid.symm.trans heq))
    refine ⟨?_, ?_, ?_⟩
    · intro noteId hmem
      have htopic : noteId ∈ ({ v with graph, claims } : Vault).carriedTopics args := by
        unfold carriedTopics
        rw [hid]
        have hsome : ({ v with graph, claims } : Vault).filedUnder prev.id ≠ [] := List.ne_nil_of_mem hmem
        rw [if_neg hsome]
        exact hmem
      obtain ⟨m, hm, hmid, hrest⟩ := hcarried.live noteId htopic
      rcases (mem_nodes_of_insertNode hgraph).mp hm with hm | rfl
      · exact ⟨m, hm, hmid, hrest⟩
      · exact absurd hmid.symm (ne_of_pair h hfresh.node hgraph hcarried (mem_filedUnder.mp hmem)).1
    · rcases hasserted with hp | hp
      · exact .inl hp
      · refine .inr ?_
        rw [← hid]
        exact (parity_iff h hfresh.node hgraph hcarried hne).mp hp
    · intro hnil
      cases htopic : args.patch.topicNoteId with
      | none => rfl
      | some noteId =>
        -- the topic of the patch would be one of the successor's that the head was not in
        have hmem : noteId ∈ ({ v with graph, claims } : Vault).carriedTopics args := by
          unfold carriedTopics
          rw [hid]
          have hnil' : ({ v with graph, claims } : Vault).filedUnder prev.id = [] := hnil
          rw [if_pos hnil', htopic]
          exact List.mem_singleton.mpr rfl
        have hholds := (holds_new_iff h hfresh.node hgraph hcarried).mpr hmem
        have hv := (htopics noteId).mp ⟨mem_filedUnder.mpr (holds_iff.mp hholds).1, hholds.2.1⟩
        rw [LiveTopic, hnil] at hv
        cases hv.1

end Corrects

end Vault

namespace MemoryStore

open Vault

/-- `updateClaim` with its fence: the space accepts the write, and the head is corrected. -/
def Corrects (env : VaultEnv) (args : UpdateClaimArgs) (fresh : Nat → String) (now : Nat) (c : VaultClaim) (s : MemoryStore) : Prop :=
  (∀ spaceId ∈ (VaultOp.updateClaim args fresh now).fences s.vault, s.spaces.acceptsWrites spaceId) ∧ s.vault.Corrects env args fresh now c

/-- In every state of the memory, a head of a live space is corrected exactly when it can be. -/
theorem corrects_iff {env : VaultEnv} {s : MemoryStore} (h : Steps.Reaches (step env) Steps.Free empty s) {c : VaultClaim}
    (hc : c ∈ s.vault.claims) (hhead : c.supersededAt = none) (hspace : s.spaces.acceptsWrites c.spaceId) {args : UpdateClaimArgs}
    (hid : args.claimId = c.id) (hrev : args.expectedRevision = c.revision) (hallowed : c.spaceId ∈ args.allowedSpaceIds)
    {fresh : Nat → String} (hfresh : FreshIds fresh s.vault) (now : Nat) :
    s.Corrects env args fresh now c ↔ s.vault.Correctable env args c := by
  have hrows := rowsOk_of_reaches h
  constructor
  · exact fun hcor => hcor.2.correctable hrows hc hid hfresh
  · intro hcan
    refine ⟨?_, hcan.corrects hrows hc hhead hid hrev hallowed hfresh⟩
    intro spaceId hmem
    have hget : (s.vault.claims.get args.claimId).filter (fun x => x.spaceId ∈ args.allowedSpaceIds) = some c := by
      rw [Option.filter_eq_some_iff, Table.get_eq_some_iff]
      exact ⟨⟨hc, hid.symm⟩, by simpa using hallowed⟩
    simp only [VaultOp.fences, hget, Option.map_some, Option.toList_some, List.mem_singleton] at hmem
    rw [hmem]
    exact hspace

namespace CorrectRun

/-- Ids of one letter, longer and longer. -/
def idsOf (letter : Char) (i : Nat) : String := String.ofList (List.replicate (i + 1) letter)

theorem idsOf_injective (letter : Char) : Function.Injective (idsOf letter) := by
  intro i j h
  have hlist : List.replicate (i + 1) letter = List.replicate (j + 1) letter := String.ofList_injective h
  have hlen := congrArg List.length hlist
  simp only [List.length_replicate] at hlen
  omega

theorem freshIds_idsOf {letter : Char} {v : Vault} (hnodes : ∀ n ∈ v.graph.nodes, n.id.toList.head? ≠ some letter)
    (hedges : ∀ e ∈ v.graph.edges, e.id.toList.head? ≠ some letter) : FreshIds (idsOf letter) v where
  node := fun n hn heq => hnodes n hn (by rw [heq]; simp [idsOf])
  edge := fun e he i heq => hedges e he (by rw [heq]; simp [idsOf, List.replicate_succ])
  injective := idsOf_injective letter

def env : VaultEnv where
  production := false
  lower := fun s => s
  toLowerCase := fun s => s

/-- A space of a user, a topic in it, and a fact in the topic. -/
def acts : List MemoryAct :=
  [.openSpace { id := "s", type := .user, refId := "u", ownerUserId := "u", retiredAt := none },
    .write (.createNote
      { spaceId := "s", title := "Home", bodyText := fun _ => "", links := [], kind := .memoryTopic, topicKey := some "home",
        sourceClass := .ownerAuthored, sensitive := false, createdTaskId := none } (idsOf 't') 1),
    .write (.createClaim
      { spaceId := "s", statement := "Lives in Lviv", slotKey := none, value := none, sensitive := false, topicNoteId := some "t",
        sourceClass := .ownerAuthored, createdTaskId := none, conflictsWith := none } (idsOf 'c') 2)]

/-- The correction of the fact. -/
def args : UpdateClaimArgs where
  claimId := "c"
  expectedRevision := 1
  patch := { statement := some "Lives in Kyiv", value := none, slotKey := none, sensitive := false, topicNoteId := none }
  sourceClass := .ownerAuthored
  allowedSpaceIds := ["s"]

end CorrectRun

open CorrectRun

/-- Forgetting the topic of a live fact makes every correction of the fact throw. -/
theorem corrects_false : ∃ s, Steps.Reaches (step env) Steps.Free empty s ∧ FreshIds (idsOf 'd') s.vault ∧
    ∃ c ∈ s.vault.claims, c.supersededAt = none ∧ s.spaces.acceptsWrites c.spaceId ∧ c.spaceId ∈ args.allowedSpaceIds ∧
      args.claimId = c.id ∧ args.expectedRevision = c.revision ∧ args.patch.topicNoteId = none ∧ ¬s.Corrects env args (idsOf 'd') 4 c := by
  obtain ⟨s, hs, hnodes, hedges, ⟨c, hc, hcond⟩, hthrows⟩ := Steps.exists_of_exec (step env) empty
    (acts ++ [.write (.forgetNote { noteId := "t", spaceId := "s", expectedRevision := 1, createdTaskId := none } 3)])
    (P := fun s : MemoryStore => (∀ n ∈ s.vault.graph.nodes, n.id.toList.head? ≠ some 'd') ∧
      (∀ e ∈ s.vault.graph.edges, e.id.toList.head? ≠ some 'd') ∧
      (∃ c ∈ s.vault.claims, c.supersededAt = none ∧ s.spaces.acceptsWrites c.spaceId ∧ c.spaceId ∈ args.allowedSpaceIds ∧
        args.claimId = c.id ∧ args.expectedRevision = c.revision) ∧ (s.vault.updateClaim env args (idsOf 'd') 4).isNone = true) (by decide)
  refine ⟨s, hs, freshIds_idsOf hnodes hedges, c, hc, hcond.1, hcond.2.1, hcond.2.2.1, hcond.2.2.2.1, hcond.2.2.2.2, rfl, ?_⟩
  rintro ⟨_, w, id, hupd, _⟩
  rw [hupd] at hthrows
  cases hthrows

/-- The theorem at a fact whose topic is there. -/
theorem corrects_iff_in_topic : ∃ (s : MemoryStore) (c : VaultClaim), c ∈ s.vault.claims ∧ (∃ noteId, noteId ∈ s.vault.filedUnder c.id) ∧
    (s.Corrects env args (idsOf 'd') 4 c ↔ s.vault.Correctable env args c) := by
  obtain ⟨s, hs, hnodes, hedges, c, hc, hhead, hspace, hallowed, hid, hrev, hfiled⟩ := Steps.exists_of_exec (step env) empty acts
    (P := fun s : MemoryStore => (∀ n ∈ s.vault.graph.nodes, n.id.toList.head? ≠ some 'd') ∧
      (∀ e ∈ s.vault.graph.edges, e.id.toList.head? ≠ some 'd') ∧
      ∃ c ∈ s.vault.claims, c.supersededAt = none ∧ s.spaces.acceptsWrites c.spaceId ∧ c.spaceId ∈ args.allowedSpaceIds ∧
        args.claimId = c.id ∧ args.expectedRevision = c.revision ∧ "t" ∈ s.vault.filedUnder c.id) (by decide)
  exact ⟨s, c, hc, ⟨"t", hfiled⟩,
    corrects_iff hs hc hhead hspace hid hrev hallowed (freshIds_idsOf hnodes hedges) 4⟩

end MemoryStore

end Capka

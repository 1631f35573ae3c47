import Capka.Lib.Linear
import Capka.Vault.Calls
import Capka.Vault.Correctable

/-!
# One head to a chain

Whatever calls run side by side, the rows of a claim stay one line with its head at the end, and of the calls that would supersede one row
one does. All but a restore ask what they rely on of the row they hold. A restore also asks that no other row supersedes the claim, and that
answer is as old as its statement.
-/

namespace Capka

namespace Claims

/-- One chain: each row supersedes the next, or is superseded by it, any number of times. -/
def SameChain (T : Claims) : VaultClaim → VaultClaim → Prop := Relation.EqvGen T.Supersedes

/-- The laws of the chains. -/
structure Lawful (T : Claims) : Prop where
  oneHead : ∀ a ∈ T, ∀ b ∈ T, T.SameChain a b → a.supersededAt = none → b.supersededAt = none → a = b
  headLast : ∀ c ∈ T, c.supersededAt = none → ∀ b, T.SameChain c b → Relation.ReflTransGen T.Supersedes c b
  counts : ∀ s c, T.Supersedes s c → s.revision = c.revision + 1
  rises : ∀ s c, Relation.ReflTransGen T.Supersedes s c → c.sensitive = true → s.sensitive = true

theorem ChainOk.biUnique {T : Claims} (h : ChainOk T) : Relator.BiUnique T.Supersedes := by
  constructor
  · rintro s s' c ⟨hs, _, hsup⟩ ⟨hs', _, hsup'⟩
    exact h.oneSuccessor s hs s' hs' c.id hsup hsup'
  · rintro s c c' ⟨_, hc, hsup⟩ ⟨_, hc', hsup'⟩
    exact Table.eq_of_key hc hc' (Option.some.inj (hsup.symm.trans hsup'))

theorem ChainOk.lawful {T : Claims} (h : ChainOk T) : T.Lawful := by
  have htop : ∀ c ∈ T, c.supersededAt = none → ∀ s, ¬T.Supersedes s c := by
    rintro c hc hlive s ⟨hs, _, hsup⟩
    exact h.headLast c hc hlive s hs hsup
  refine { oneHead := ?_, headLast := ?_, counts := ?_, rises := ?_ }
  · intro a ha b hb hab hla hlb
    exact Linear.top_unique h.biUnique (htop a ha hla) (htop b hb hlb) hab
  · intro c hc hlive b hcb
    exact Linear.top h.biUnique (htop c hc hlive) hcb
  · rintro s c ⟨hs, hc, hsup⟩
    exact (h.raises s hs c hc hsup).1
  · intro s c hsc
    refine Linear.rises (P := fun x : VaultClaim => x.sensitive = true) ?_ hsc
    rintro a b ⟨ha, hb, hsup⟩
    exact (h.raises a ha b hb hsup).2.2

/-- The row is superseded for good: another row took its place. -/
def Spent (T : Claims) (claimId : String) : Prop :=
  ∀ c ∈ T, c.id = claimId → c.supersededAt ≠ none ∧ ∃ s ∈ T, s.supersedes = some claimId

end Claims

namespace CallState

/-- No row came to supersede the claim between the start of a restore's statement and the moment it gets the claim's row. -/
def Timely (s : CallState) : CallAct → Prop
  | .call (.restoreClaim claimId _) _ seen =>
    ∀ e ∈ s.past[seen]?, (¬∃ r ∈ e.claims, r.supersedes = some claimId) → ¬∃ r ∈ s.store.vault.claims, r.supersedes = some claimId
  | _ => True

instance (s : CallState) (a : CallAct) : Decidable (s.Timely a) := by
  unfold Timely
  split <;> infer_instance

/-- No two of the calls superseded one row at one revision. -/
def UpdatesOnce (s : CallState) : Prop :=
  s.done.Pairwise fun op op' => ∀ args fresh now args' fresh' now', op = .updateClaim args fresh now → op' = .updateClaim args' fresh' now' →
    ¬(args.claimId = args'.claimId ∧ args.expectedRevision = args'.expectedRevision)

/-- What runs in which each restore is in time keep. -/
structure InLine (s : CallState) : Prop where
  chains : s.store.vault.claims.ChainOk
  nodes : ∀ c ∈ s.store.vault.claims, ∃ n ∈ s.store.vault.graph.nodes, n.id = c.id
  spent : ∀ args fresh now, VaultOp.updateClaim args fresh now ∈ s.done →
    (∃ n ∈ s.store.vault.graph.nodes, n.id = args.claimId) ∧ s.store.vault.claims.Spent args.claimId
  once : s.UpdatesOnce

end CallState

namespace HeadsAux

open Claims

variable {env : VaultEnv} {read seen v w : Vault} {T T' : Claims}

variable {claimId : String}

theorem spent_update {p : VaultClaim → Prop} [DecidablePred p] {f : VaultClaim → VaultClaim} (hf : ∀ r, (f r).id = r.id)
    (hsup : ∀ r, (f r).supersedes = r.supersedes) (h : T.Spent claimId)
    (hhead : ∀ r ∈ T, p r → r.id = claimId → (f r).supersededAt = none → r.supersededAt = none) : Spent (T.update p f hf) claimId := by
  intro c hc hid
  have hsucc : (∃ s ∈ T, s.supersedes = some claimId) → ∃ s ∈ T.update p f hf, s.supersedes = some claimId := by
    rintro ⟨s, hs, hs'⟩
    obtain ⟨s', hmem, _, rfl | rfl⟩ := Table.exists_mem_update p hf hs
    · exact ⟨_, hmem, (hsup s).trans hs'⟩
    · exact ⟨s', hmem, hs'⟩
  rcases (Table.mem_update hf).mp hc with ⟨c₀, hc₀, hp, rfl⟩ | ⟨hc, _⟩
  · have hid₀ : c₀.id = claimId := (hf c₀).symm.trans hid
    obtain ⟨hdead, hs⟩ := h c₀ hc₀ hid₀
    exact ⟨fun hnone => hdead (hhead c₀ hc₀ hp hid₀ hnone), hsucc hs⟩
  · obtain ⟨hdead, hs⟩ := h c hc hid
    exact ⟨hdead, hsucc hs⟩

variable {now : Nat}

theorem spent_finish {p : VaultClaim → Bool} (h : T.Spent claimId) : (T.finish p now).Spent claimId := by
  refine spent_update _ ?_ h ?_
  · intro r
    rfl
  · intro r _ _ _ hnone
    cases hnone

variable {id : String}

theorem spent_clearConflict (h : T.Spent claimId) : (T.clearConflict id).Spent claimId := by
  refine spent_update _ ?_ h fun _ _ _ _ hnone => hnone
  intro r
  rfl

theorem spent_insert {r : VaultClaim} (h : T.Spent claimId) (hins : T.insert r = some T') (hne : r.id ≠ claimId) :
    T'.Spent claimId := by
  have hmem : ∀ {x}, x ∈ T' ↔ x ∈ T ∨ x = r := Table.mem_of_insert hins
  intro c hc hid
  rcases hmem.mp hc with hc | rfl
  · obtain ⟨hdead, s, hs, hsup⟩ := h c hc hid
    exact ⟨hdead, s, hmem.mpr (.inl hs), hsup⟩
  · exact absurd hid hne

variable {args : UpdateClaimArgs}

theorem spent_supersede {prev : VaultClaim} (hne : id ≠ args.claimId)
    (h : T.supersede args prev id now = some T') : T'.Spent args.claimId := by
  obtain ⟨_, hins⟩ := ChainAux.supersede_cases h
  have hmem : ∀ {x}, x ∈ T' ↔ x ∈ T.finish (fun c => c.id = args.claimId) now ∨ x = prev.successor args id now := Table.mem_of_insert hins
  intro c hc hid
  refine ⟨?_, prev.successor args id now, hmem.mpr (.inr rfl), rfl⟩
  rcases hmem.mp hc with hc | rfl
  · rcases mem_finish.mp hc with ⟨c₀, _, _, rfl⟩ | ⟨_, hnot⟩
    · exact Option.some_ne_none now
    · exact absurd (decide_eq_true hid) hnot
  · exact absurd hid hne

variable {op : VaultOp} {ok : Bool}

theorem spent_effect (heff : CallEffect seen v op ok T) (h : v.claims.Spent claimId)
    (hnode : ∃ n ∈ v.graph.nodes, n.id = claimId)
    (htimely : ∀ allowed, op = .restoreClaim claimId allowed → (¬∃ s ∈ seen.claims, s.supersedes = some claimId) →
      ¬∃ s ∈ v.claims, s.supersedes = some claimId) : T.Spent claimId := by
  obtain ⟨n, hn, hnid⟩ := hnode
  cases heff with
  | untouched _ _ _ => exact h
  | created input fresh now _ hnew hins =>
    refine spent_insert h hins ?_
    exact fun heq => hnew n hn (hnid.trans heq.symm)
  | superseded args fresh now prev _ _ hnew hstep =>
    obtain ⟨_, hins⟩ := ChainAux.supersede_cases hstep
    refine spent_insert (spent_finish h) hins ?_
    exact fun heq => hnew n hn (hnid.trans heq.symm)
  | forgotten args now _ => exact spent_finish h
  | revived claimId' allowed _ hseen =>
    refine spent_update _ ?_ h ?_
    · intro r
      rfl
    · rintro r hr hid hid' _
      have heq : claimId' = claimId := hid.symm.trans hid'
      subst heq
      exact absurd (h r hr hid').2 (htimely allowed rfl hseen)
  | emptied spaceId now clock => exact spent_finish h
  | confirmed id sensitive actor now _ =>
    refine spent_update _ ?_ h fun _ _ _ _ hnone => hnone
    intro r
    rfl
  | cleared id keep allowed now _ c _ => exact spent_clearConflict h
  | dropped id keep allowed now c _ head => exact spent_finish (spent_clearConflict h)

theorem chainOk_effect (heff : CallEffect seen v op ok T) (h : v.claims.ChainOk)
    (htimely : ∀ claimId allowed, op = .restoreClaim claimId allowed → (¬∃ s ∈ seen.claims, s.supersedes = some claimId) →
      ¬∃ s ∈ v.claims, s.supersedes = some claimId) : T.ChainOk := by
  cases heff with
  | untouched _ _ _ => exact h
  | created input fresh now _ _ hins => exact h.step (m := .create input (fresh 0) now) hins
  | superseded args fresh now prev _ htarget _ hstep =>
    obtain ⟨hprev, hid, _, _⟩ := Vault.updateTarget_eq_some_iff.mp htarget
    exact ChainAux.chainOk_supersede h hprev hid hstep
  | forgotten args now _ => exact ChainAux.chainOk_finish h
  | revived claimId allowed _ hseen => exact h.step (m := .revive claimId) (if_neg (htimely claimId allowed rfl hseen))
  | emptied spaceId now clock => exact ChainAux.chainOk_finish h
  | confirmed id sensitive actor now _ => exact h.step (m := .confirm id sensitive actor now) rfl
  | cleared id keep allowed now _ c _ => exact h.step (m := .clearConflict id) rfl
  | dropped id keep allowed now c _ head => exact ChainAux.chainOk_finish (h.step (m := .clearConflict id) rfl)

variable {fresh : Nat → String}

theorem effect_hit (heff : CallEffect seen v (.updateClaim args fresh now) true T) :
    ∃ prev, v.updateTarget args = some prev ∧ (∀ n ∈ v.graph.nodes, n.id ≠ fresh 0) ∧ v.claims.supersede args prev (fresh 0) now = some T := by
  cases heff with
  | untouched _ _ hok => exact absurd rfl (hok rfl args fresh now)
  | superseded _ _ _ prev _ htarget hnew hstep => exact ⟨prev, htarget, hnew, hstep⟩

theorem node_of_insertNode {spaceId : String} {kind : NodeKind} {g g' g'' : MemoryGraph} (h : g.insertNode id spaceId kind = some g')
    (hkeep : MemoryGraph.KeepsNodes MemoryGraph.AnyDies g' g'') : ∃ n ∈ g''.nodes, n.id = id := by
  unfold MemoryGraph.insertNode at h
  obtain ⟨T, hT, rfl⟩ := Option.map_eq_some_iff.mp h
  obtain ⟨n, hn, hid, _⟩ := hkeep.nodes _ ((Table.mem_of_insert hT).mpr (.inr rfl))
  exact ⟨n, hn, hid⟩

theorem node_of_createClaim {input : ClaimInput} {r : Vault × String × Bool}
    (h : v.createClaim env input fresh now = some r) : ∃ n ∈ r.1.graph.nodes, n.id = fresh 0 := by
  obtain ⟨graph, claims, x, _, hgraph, _, hfile, rfl⟩ := Vault.createClaim_cases h
  refine node_of_insertNode hgraph ?_
  rcases hfile with ⟨_, rfl⟩ | ⟨noteId, y, _, hy, rfl, _⟩
  · exact .refl
  · exact Vault.RowsAux.keepsNodes_fileUnder hy

theorem node_of_updateClaimSeen {r : Vault × ClaimResult (String × Nat)}
    (h : Vault.updateClaimSeen env args fresh now seen v = some r) (hit : r.2.hit = true) : ∃ n ∈ r.1.graph.nodes, n.id = fresh 0 := by
  unfold Vault.updateClaimSeen at h
  split at h
  · obtain ⟨current, _, rfl⟩ := Option.map_eq_some_iff.mp h
    cases hit
  · rcases Vault.updateClaim_cases h with ⟨_, _, current, hr⟩ | ⟨prev, graph, claims, x, _, hgraph, _, hcarry, _, rfl⟩
    · rw [hr] at hit
      cases hit
    · exact node_of_insertNode hgraph (Vault.RowsAux.keepsNodes_carryTopics hcarry)

theorem claimNodes_of_runSeen (h : op.runSeen env read seen v = some (w, ok))
    (hnodes : ∀ c ∈ v.claims, ∃ n ∈ v.graph.nodes, n.id = c.id) : ∀ c ∈ w.claims, ∃ n ∈ w.graph.nodes, n.id = c.id := by
  have hold : ∀ c ∈ v.claims, ∃ n ∈ w.graph.nodes, n.id = c.id := by
    intro c hc
    obtain ⟨n, hn, hid⟩ := hnodes c hc
    obtain ⟨n', hn', hid', _⟩ := (VaultOp.keepsNodes_of_runSeen h).nodes n hn
    exact ⟨n', hn', hid'.trans hid⟩
  have hsame : ∀ {p : VaultClaim → Prop} [DecidablePred p] {f : VaultClaim → VaultClaim} (hf : ∀ r, (f r).id = r.id) (T : Claims),
      (∀ c ∈ T, ∃ n ∈ w.graph.nodes, n.id = c.id) → ∀ c ∈ T.update p f hf, ∃ n ∈ w.graph.nodes, n.id = c.id := by
    intro p _ f hf T hT c hc
    obtain ⟨c₀, hc₀, hid, _⟩ := Table.exists_of_mem_update hf hc
    rw [hid]
    exact hT c₀ hc₀
  have hins : ∀ {T T' : Claims} {r : VaultClaim}, T.insert r = some T' → (∀ c ∈ T, ∃ n ∈ w.graph.nodes, n.id = c.id) →
      (∃ n ∈ w.graph.nodes, n.id = r.id) → ∀ c ∈ T', ∃ n ∈ w.graph.nodes, n.id = c.id := by
    intro T T' r hT hall hr c hc
    rcases (Table.mem_of_insert hT).mp hc with hc | rfl
    · exact hall c hc
    · exact hr
  have heff := VaultOp.effect_of_runSeen h
  generalize w.claims = T at heff ⊢
  cases heff with
  | untouched _ _ _ => exact hold
  | created input fresh now _ _ hinsert =>
    obtain ⟨r, hr, heq⟩ := Option.map_eq_some_iff.mp h
    obtain ⟨rfl, _⟩ := Prod.mk.inj heq
    exact hins hinsert hold (node_of_createClaim hr)
  | superseded args fresh now prev _ _ _ hstep =>
    obtain ⟨r, hr, heq⟩ := Option.map_eq_some_iff.mp h
    obtain ⟨rfl, hhit⟩ := Prod.mk.inj heq
    obtain ⟨_, hinsert⟩ := ChainAux.supersede_cases hstep
    exact hins hinsert (hsame _ _ hold) (node_of_updateClaimSeen hr hhit)
  | forgotten args now _
  | revived claimId allowed _ _
  | emptied spaceId now clock
  | confirmed id sensitive actor now _
  | cleared id keep allowed now _ c _ => exact hsame _ _ hold
  | dropped id keep allowed now c _ head => exact hsame _ _ (hsame _ _ hold)

end HeadsAux

namespace CallState

open HeadsAux Claims

variable {env : VaultEnv}

theorem store_eq {s t : MemoryStore} (hspaces : t.spaces = s.spaces) (hvault : t.vault = s.vault) : t = s := by
  cases s
  cases t
  cases hspaces
  cases hvault
  rfl

theorem update_cases {args : UpdateClaimArgs} {fresh : Nat → String} {now read seen : Nat} {s t : CallState}
    (h : s.step env (.call (.updateClaim args fresh now) read seen) = some t) :
    (∃ prev, s.store.vault.updateTarget args = some prev ∧ t.done = .updateClaim args fresh now :: s.done) ∨
      (t.done = s.done ∧ t.store = s.store ∧
        ∃ e, s.past[seen]? = some e ∧ (e.updateTarget args = none ∨ s.store.vault.updateTarget args = none)) := by
  rcases step_cases h with ⟨op, read', seen', r, e, ok, ha, _, hseen, _, hrun, hspaces, _, hdone⟩ | ⟨_, ha, _⟩ | ⟨_, _, ha, _⟩
  · cases ha
    obtain ⟨x, hx, heq⟩ := Option.map_eq_some_iff.mp hrun
    obtain ⟨hvault, hok⟩ := Prod.mk.inj heq
    unfold Vault.updateClaimSeen at hx
    split at hx
    · rename_i htarget
      obtain ⟨current, _, rfl⟩ := Option.map_eq_some_iff.mp hx
      subst hok
      exact .inr ⟨by simpa [ClaimResult.hit] using hdone, store_eq hspaces hvault.symm, e, hseen, .inl htarget⟩
    · rcases Vault.updateClaim_cases hx with ⟨htarget, hv, current, hr⟩ | ⟨prev, _, _, _, htarget, _, _, _, _, rfl⟩
      · rw [hr] at hok
        subst hok
        exact .inr ⟨by simpa [ClaimResult.hit] using hdone, store_eq hspaces (hvault.symm.trans hv), e, hseen, .inr htarget⟩
      · subst hok
        exact .inl ⟨prev, htarget, by simpa [ClaimResult.hit] using hdone⟩
  · cases ha
  · cases ha

theorem nodes_retire {spaceId : String} {now : Nat} {v : Vault} {id : String} (h : ∃ n ∈ v.graph.nodes, n.id = id) :
    ∃ n ∈ (v.retire spaceId now).graph.nodes, n.id = id := by
  have hgraph : (v.retire spaceId now).graph = v.graph.deleteSpaceNodes spaceId now := by
    unfold Vault.retire
    split <;> rfl
  obtain ⟨n, hn, hid⟩ := h
  obtain ⟨n', hn', hid', _⟩ := (MemoryGraph.keepsNodes_deleteSpaceNodes (g := v.graph) spaceId now).nodes n hn
  rw [hgraph]
  exact ⟨n', hn', hid'.trans hid⟩

theorem spent_wipe {T : Claims} {spaceId claimId : String} (hchains : T.ChainOk) (h : T.Spent claimId) :
    Spent (T.filter fun c => c.spaceId ≠ spaceId) claimId := by
  intro c hc hid
  obtain ⟨hc, hspace⟩ := Table.mem_filter.mp hc
  obtain ⟨hdead, s, hs, hsup⟩ := h c hc hid
  refine ⟨hdead, s, Table.mem_filter.mpr ⟨hs, ?_⟩, hsup⟩
  have hsame : s.spaceId = c.spaceId := (hchains.raises s hs c hc (by rw [hsup, hid])).2.1
  rw [hsame]
  exact hspace

theorem InLine.step {s t : CallState} {a : CallAct} (h : s.InLine) (hok : s.Timely a) (hstep : s.step env a = some t) : t.InLine := by
  rcases step_cases hstep with ⟨op, read, seen, r, e, ok, rfl, _, hseen, _, hrun, _, _, hdone⟩ | ⟨_, _, hvault, _, hdone⟩ |
    ⟨spaceId, now, _, hvault, _, hdone⟩
  · have heff := VaultOp.effect_of_runSeen hrun
    have htimely : ∀ claimId allowed, op = .restoreClaim claimId allowed → (¬∃ s ∈ e.claims, s.supersedes = some claimId) →
        ¬∃ r ∈ s.store.vault.claims, r.supersedes = some claimId := by
      rintro claimId allowed rfl
      exact hok e hseen
    have hnodes := (VaultOp.keepsNodes_of_runSeen hrun).nodes
    have hkept : ∀ {id}, (∃ n ∈ s.store.vault.graph.nodes, n.id = id) → ∃ n ∈ t.store.vault.graph.nodes, n.id = id := by
      rintro id ⟨n, hn, hid⟩
      obtain ⟨n', hn', hid', _⟩ := hnodes n hn
      exact ⟨n', hn', hid'.trans hid⟩
    refine { chains := chainOk_effect heff h.chains htimely, nodes := claimNodes_of_runSeen hrun h.nodes, spent := ?_, once := ?_ }
    · intro args fresh now hmem
      have hold : VaultOp.updateClaim args fresh now ∈ s.done →
          (∃ n ∈ t.store.vault.graph.nodes, n.id = args.claimId) ∧ t.store.vault.claims.Spent args.claimId := by
        intro hmem
        obtain ⟨hnode, hspent⟩ := h.spent args fresh now hmem
        refine ⟨hkept hnode, spent_effect heff hspent hnode ?_⟩
        intro allowed hop
        exact htimely args.claimId allowed hop
      rw [hdone] at hmem
      split at hmem
      · rename_i hhit
        rcases List.mem_cons.mp hmem with rfl | hmem
        · subst hhit
          obtain ⟨prev, htarget, hnew, hstep⟩ := effect_hit heff
          obtain ⟨hprev, hid, _, _⟩ := Vault.updateTarget_eq_some_iff.mp htarget
          obtain ⟨n, hn, hnid⟩ := h.nodes prev hprev
          have hnode : n.id = args.claimId := hnid.trans hid
          exact ⟨hkept ⟨n, hn, hnode⟩, spent_supersede (fun heq => hnew n hn (hnode.trans heq.symm)) hstep⟩
        · exact hold hmem
      · exact hold hmem
    · unfold UpdatesOnce
      rw [hdone]
      split
      · rename_i hhit
        subst hhit
        refine List.pairwise_cons.mpr ⟨?_, h.once⟩
        -- the row of an earlier update is superseded for good, so this one cannot have found it a head
        rintro _ hmem args fresh now args' fresh' now' rfl rfl ⟨hid, _⟩
        obtain ⟨prev, htarget, _, _⟩ := effect_hit heff
        obtain ⟨hprev, hprevid, _, hhead, _⟩ := Vault.updateTarget_eq_some_iff.mp htarget
        exact ((h.spent args' fresh' now' hmem).2 prev hprev (hprevid.trans hid)).1 hhead
      · exact h.once
  · exact
      { chains := hvault ▸ h.chains
        nodes := hvault ▸ h.nodes
        spent := by rw [hvault, hdone]; exact h.spent
        once := by unfold UpdatesOnce; rw [hdone]; exact h.once }
  · refine { chains := ?_, nodes := ?_, spent := ?_, once := ?_ }
    · rw [hvault, Vault.claims_retire]
      exact ChainAux.chainOk_wipe h.chains
    · rw [hvault, Vault.claims_retire]
      intro c hc
      exact nodes_retire (h.nodes c (Table.mem_filter.mp hc).1)
    · rw [hvault, Vault.claims_retire, hdone]
      intro args fresh now hmem
      obtain ⟨hnode, hspent⟩ := h.spent args fresh now hmem
      exact ⟨nodes_retire hnode, spent_wipe h.chains hspent⟩
    · unfold UpdatesOnce
      rw [hdone]
      exact h.once

theorem inLine_empty : InLine empty where
  chains := chainOk_empty
  nodes := fun c hc => absurd hc (Table.not_mem_empty c)
  spent := fun _ _ _ hmem => absurd hmem List.not_mem_nil
  once := List.Pairwise.nil

/-- Where no restore is overtaken by a supersession of its claim, the chains obey their laws after any calls, no row is superseded twice at one
revision, an update that finds its row and still has it there when it gets it supersedes it, and one that answers otherwise changed nothing. -/
theorem chains_lawful_of_timely {s : CallState} (h : Steps.Reaches (step env) Timely empty s) :
    s.store.vault.claims.Lawful ∧ s.UpdatesOnce ∧
      ∀ args fresh now read seen t, s.step env (.call (.updateClaim args fresh now) read seen) = some t →
        (t.done = s.done → t.store = s.store) ∧
        (∀ e prev prev', s.past[seen]? = some e → e.updateTarget args = some prev → s.store.vault.updateTarget args = some prev' →
          t.done = .updateClaim args fresh now :: s.done) := by
  have hline : s.InLine := h.invariant (I := InLine) (fun _ _ _ hx hok hy => hx.step hok hy) inLine_empty
  refine ⟨hline.chains.lawful, hline.once, ?_⟩
  intro args fresh now read seen t hstep
  rcases update_cases hstep with ⟨_, _, hdone⟩ | ⟨hdone, hstore, e, hseen, hmiss⟩
  · refine ⟨fun heq => ?_, fun _ _ _ _ _ _ => hdone⟩
    rw [hdone] at heq
    exact absurd (congrArg List.length heq) (by simp)
  · refine ⟨fun _ => hstore, fun e' prev prev' hseen' he hv => ?_⟩
    have heq : e = e' := Option.some.inj (hseen.symm.trans hseen')
    subst heq
    rcases hmiss with hmiss | hmiss
    · rw [he] at hmiss
      cases hmiss
    · rw [hv] at hmiss
      cases hmiss

namespace HeadsRun

open MemoryStore.CorrectRun

/-- A space, and a fact in it that is forgotten. -/
def calls : List CallAct :=
  [.openSpace { id := "s", type := .user, refId := "u", ownerUserId := "u", retiredAt := none },
    .call (.createClaim
      { spaceId := "s", statement := "Lives in Lviv", slotKey := none, value := none, sensitive := false, topicNoteId := none,
        sourceClass := .ownerAuthored, createdTaskId := none, conflictsWith := none } (idsOf 'c') 1) 0 0,
    .call (.forgetClaim { claimId := "c", expectedRevision := 1, allowedSpaceIds := ["s"], requireCreatedTaskId := none } 2) 0 0]

end HeadsRun

open MemoryStore.CorrectRun HeadsRun

/-- The fact is restored twice at once. The first restore is done and the fact corrected while the second waits for its row: then the second
brings the corrected fact back beside its correction. -/
theorem chains_lawful_false : ∃ s, Steps.Reaches (step MemoryStore.CorrectRun.env) Steps.Free empty s ∧ ¬s.store.vault.claims.Lawful := by
  obtain ⟨s, hs, b, hb, a, ha, hsup, hlb, hla, hne⟩ := Steps.exists_of_exec (step MemoryStore.CorrectRun.env) empty
    (calls ++ [.call (.restoreClaim "c" ["s"]) 0 0, .call (.updateClaim args (idsOf 'd') 3) 0 0, .call (.restoreClaim "c" ["s"]) 2 2])
    (P := fun s : CallState => ∃ b ∈ s.store.vault.claims, ∃ a ∈ s.store.vault.claims, b.supersedes = some a.id ∧ b.supersededAt = none ∧
      a.supersededAt = none ∧ b.id ≠ a.id) (by decide)
  refine ⟨s, hs, fun hlaw => hne ?_⟩
  have hchain : s.store.vault.claims.SameChain b a := .rel b a ⟨hb, ha, hsup⟩
  rw [hlaw.oneHead b hb a ha hchain hlb hla]

/-- The theorem after a fact was forgotten, restored and corrected: its chain has two rows. -/
theorem chains_lawful_of_corrected : ∃ s : CallState,
    (∃ b ∈ s.store.vault.claims, ∃ a ∈ s.store.vault.claims, b.supersedes = some a.id) ∧ s.store.vault.claims.Lawful ∧ s.UpdatesOnce := by
  obtain ⟨s, hs, hrows⟩ := Steps.exists_of_execOk (step MemoryStore.CorrectRun.env) Timely empty
    (calls ++ [.call (.restoreClaim "c" ["s"]) 0 0, .call (.updateClaim args (idsOf 'd') 3) 0 0])
    (P := fun s : CallState => ∃ b ∈ s.store.vault.claims, ∃ a ∈ s.store.vault.claims, b.supersedes = some a.id) (by decide)
  obtain ⟨hlaw, honce, _⟩ := chains_lawful_of_timely hs
  exact ⟨s, hrows, hlaw, honce⟩

end CallState

end Capka

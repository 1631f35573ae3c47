import Capka.Lib.Steps
import Capka.Vault.Claims

/-!
# Chains of claims

What the operations do to the table of claims alone: each is a few moves of one small machine. A claim and what superseded it, one after
another, is a chain; the moves keep the chains linear, with their one head at the end.
-/

namespace Capka

/-- One statement on `vault_claims`. -/
inductive ClaimMove where
  | create (input : ClaimInput) (id : String) (now : Nat)
  | supersede (args : UpdateClaimArgs) (id : String) (now : Nat)
  | finish (p : VaultClaim → Bool) (now : Nat)
  | revive (claimId : String)
  | confirm (claimId : String) (sensitive : Bool) (actor : Actor) (now : Nat)
  | clearConflict (claimId : String)
  | wipe (spaceId : String)

/-- A row is superseded only while it is a head, and revived only while no row supersedes it. -/
def ClaimMove.step (T : Claims) : ClaimMove → Option Claims
  | .create input id now => T.insert (input.toRow id now)
  | .supersede args id now =>
    ((T.get args.claimId).filter fun c => c.supersededAt = none).bind fun prev => T.supersede args prev id now
  | .finish p now => some (T.finish p now)
  | .revive claimId => if ∃ s ∈ T, s.supersedes = some claimId then none else some (T.revive claimId)
  | .confirm claimId sensitive actor now => some (T.confirm claimId sensitive actor now)
  | .clearConflict claimId => some (T.clearConflict claimId)
  | .wipe spaceId => some (T.filter fun c => c.spaceId ≠ spaceId)

namespace Claims

/-- The chains are linear, and a head is the last of its chain. -/
structure ChainOk (T : Claims) : Prop where
  grounded : ∀ s ∈ T, ∀ id, s.supersedes = some id → ∃ c ∈ T, c.id = id
  oneSuccessor : ∀ s ∈ T, ∀ s' ∈ T, ∀ id, s.supersedes = some id → s'.supersedes = some id → s = s'
  headLast : ∀ c ∈ T, c.supersededAt = none → ∀ s ∈ T, s.supersedes ≠ some c.id
  raises : ∀ s ∈ T, ∀ c ∈ T, s.supersedes = some c.id →
    s.revision = c.revision + 1 ∧ s.spaceId = c.spaceId ∧ (c.sensitive = true → s.sensitive = true)

/-- One row supersedes another. -/
def Supersedes (T : Claims) (s c : VaultClaim) : Prop := s ∈ T ∧ c ∈ T ∧ s.supersedes = some c.id

theorem mem_finish {p : VaultClaim → Bool} {now : Nat} {T : Claims} {c : VaultClaim} :
    c ∈ T.finish p now ↔ (∃ c₀ ∈ T, p c₀ = true ∧ c = { c₀ with supersededAt := some now }) ∨ (c ∈ T ∧ ¬p c = true) :=
  Table.mem_update (f := fun c : VaultClaim => { c with supersededAt := some now }) fun _ => rfl

theorem mem_revive {claimId : String} {T : Claims} {c : VaultClaim} :
    c ∈ T.revive claimId ↔ (∃ c₀ ∈ T, c₀.id = claimId ∧ c = { c₀ with supersededAt := none }) ∨ (c ∈ T ∧ ¬c.id = claimId) :=
  Table.mem_update (f := fun c : VaultClaim => { c with supersededAt := none }) fun _ => rfl

namespace ChainAux

variable {T T' : Claims}

theorem chainOk_update {p : VaultClaim → Prop} [DecidablePred p] {f : VaultClaim → VaultClaim} (hf : ∀ r, (f r).id = r.id)
    (h : ChainOk T) (hplace : ∀ r, (f r).supersedes = r.supersedes ∧ (f r).revision = r.revision ∧ (f r).spaceId = r.spaceId)
    (hhead : ∀ r ∈ T, p r → (f r).supersededAt = none → r.supersededAt = none ∨ ∀ s ∈ T, s.supersedes ≠ some r.id)
    (hsens : ∀ r ∈ T, p r → (f r).sensitive = r.sensitive ∨ (r.supersededAt = none ∧ (r.sensitive = true → (f r).sensitive = true))) :
    ChainOk (T.update p f hf) := by
  have hrow : ∀ r ∈ T.update p f hf, ∃ r₀ ∈ T, r.id = r₀.id ∧ r.supersedes = r₀.supersedes ∧ r.revision = r₀.revision ∧
      r.spaceId = r₀.spaceId ∧ (r = r₀ ∨ (p r₀ ∧ r = f r₀)) := by
    intro r hr
    rcases (Table.mem_update hf).mp hr with ⟨r₀, hr₀, hp, rfl⟩ | ⟨hr, _⟩
    · exact ⟨r₀, hr₀, hf r₀, (hplace r₀).1, (hplace r₀).2.1, (hplace r₀).2.2, .inr ⟨hp, rfl⟩⟩
    · exact ⟨r, hr, rfl, rfl, rfl, rfl, .inl rfl⟩
  refine { grounded := ?_, oneSuccessor := ?_, headLast := ?_, raises := ?_ }
  · intro s hs id hid
    obtain ⟨s₀, hs₀, _, hsup, _⟩ := hrow s hs
    obtain ⟨c, hc, rfl⟩ := h.grounded s₀ hs₀ id (hsup ▸ hid)
    obtain ⟨c', hc', hk, _⟩ := Table.exists_mem_update p hf hc
    exact ⟨c', hc', hk⟩
  · intro s hs s' hs' id hid hid'
    obtain ⟨s₀, hs₀, hk, hsup, _⟩ := hrow s hs
    obtain ⟨s₀', hs₀', hk', hsup', _⟩ := hrow s' hs'
    have heq := h.oneSuccessor s₀ hs₀ s₀' hs₀' id (hsup ▸ hid) (hsup' ▸ hid')
    exact Table.eq_of_key hs hs' (hk.trans (heq ▸ hk'.symm))
  · intro c hc hlive s hs hsup
    obtain ⟨c₀, hc₀, hk, _, _, _, hc⟩ := hrow c hc
    obtain ⟨s₀, hs₀, _, hsup₀, _⟩ := hrow s hs
    have hs₀c : s₀.supersedes = some c₀.id := by rw [← hsup₀, hsup, hk]
    rcases hc with rfl | ⟨hp, rfl⟩
    · exact h.headLast c hc₀ hlive s₀ hs₀ hs₀c
    · rcases hhead c₀ hc₀ hp hlive with hl | hno
      · exact h.headLast c₀ hc₀ hl s₀ hs₀ hs₀c
      · exact hno s₀ hs₀ hs₀c
  · intro s hs c hc hsup
    obtain ⟨s₀, hs₀, _, hsup₀, hrev, hspace, hs⟩ := hrow s hs
    obtain ⟨c₀, hc₀, hk, _, hrevc, hspacec, hc⟩ := hrow c hc
    have hs₀c : s₀.supersedes = some c₀.id := by rw [← hsup₀, hsup, hk]
    obtain ⟨h1, h2, h3⟩ := h.raises s₀ hs₀ c₀ hc₀ hs₀c
    refine ⟨by rw [hrev, hrevc, h1], by rw [hspace, hspacec, h2], fun hcs => ?_⟩
    -- the superseded row is no head, so its own sensitivity did not change
    have hc₀s : c₀.sensitive = true := by
      rcases hc with rfl | ⟨hp, rfl⟩
      · exact hcs
      · rcases hsens c₀ hc₀ hp with heq | ⟨hl, _⟩
        · exact heq ▸ hcs
        · exact absurd hs₀c (h.headLast c₀ hc₀ hl s₀ hs₀)
    rcases hs with rfl | ⟨hp, rfl⟩
    · exact h3 hc₀s
    · rcases hsens s₀ hs₀ hp with heq | ⟨_, hup⟩
      · exact heq ▸ h3 hc₀s
      · exact hup (h3 hc₀s)

theorem chainOk_finish {p : VaultClaim → Bool} {now : Nat} (h : ChainOk T) : ChainOk (T.finish p now) := by
  refine chainOk_update _ h (fun _ => ⟨rfl, rfl, rfl⟩) ?_ fun _ _ _ => .inl rfl
  intro r _ _ hnone
  cases hnone

theorem chainOk_insert {r : VaultClaim} (h : ChainOk T) (hins : T.insert r = some T')
    (hprev : ∀ id, r.supersedes = some id → (∃ c ∈ T, c.id = id ∧ c.supersededAt ≠ none ∧ r.revision = c.revision + 1 ∧
      r.spaceId = c.spaceId ∧ (c.sensitive = true → r.sensitive = true)) ∧ ∀ s ∈ T, s.supersedes ≠ some id) : ChainOk T' := by
  have hmem : ∀ {x}, x ∈ T' ↔ x ∈ T ∨ x = r := Table.mem_of_insert hins
  have hfree : ∀ c ∈ T, c.id ≠ r.id := Table.key_ne_of_insert hins
  refine { grounded := ?_, oneSuccessor := ?_, headLast := ?_, raises := ?_ }
  · intro s hs id hid
    rcases hmem.mp hs with hs | rfl
    · obtain ⟨c, hc, hk⟩ := h.grounded s hs id hid
      exact ⟨c, hmem.mpr (.inl hc), hk⟩
    · obtain ⟨⟨c, hc, hk, _⟩, _⟩ := hprev id hid
      exact ⟨c, hmem.mpr (.inl hc), hk⟩
  · intro s hs s' hs' id hid hid'
    rcases hmem.mp hs with hs | rfl
    · rcases hmem.mp hs' with hs' | rfl
      · exact h.oneSuccessor s hs s' hs' id hid hid'
      · exact absurd hid ((hprev id hid').2 s hs)
    · rcases hmem.mp hs' with hs' | rfl
      · exact absurd hid' ((hprev id hid).2 s' hs')
      · rfl
  · intro c hc hlive s hs hsup
    rcases hmem.mp hc with hc | rfl
    · rcases hmem.mp hs with hs | rfl
      · exact h.headLast c hc hlive s hs hsup
      · obtain ⟨⟨c', hc', hk, hdead, _⟩, _⟩ := hprev c.id hsup
        have : c' = c := Table.eq_of_key hc' hc hk
        exact hdead (this ▸ hlive)
    · rcases hmem.mp hs with hs | rfl
      · obtain ⟨c', hc', hk⟩ := h.grounded s hs c.id hsup
        exact hfree c' hc' hk
      · obtain ⟨⟨c', hc', hk, _⟩, _⟩ := hprev s.id hsup
        exact hfree c' hc' hk
  · intro s hs c hc hsup
    rcases hmem.mp hs with hs | rfl
    · rcases hmem.mp hc with hc | rfl
      · exact h.raises s hs c hc hsup
      · obtain ⟨c', hc', hk⟩ := h.grounded s hs c.id hsup
        exact absurd hk (hfree c' hc')
    · obtain ⟨⟨c', hc', hk, _, hrest⟩, _⟩ := hprev c.id hsup
      rcases hmem.mp hc with hc | rfl
      · have heq : c' = c := Table.eq_of_key hc' hc hk
        exact heq ▸ hrest
      · exact absurd hk (hfree c' hc')

theorem chainOk_wipe {spaceId : String} (h : ChainOk T) : ChainOk (T.filter fun c => c.spaceId ≠ spaceId) := by
  refine { grounded := ?_, oneSuccessor := ?_, headLast := ?_, raises := ?_ }
  · intro s hs id hid
    obtain ⟨hs, hne⟩ := Table.mem_filter.mp hs
    obtain ⟨c, hc, rfl⟩ := h.grounded s hs id hid
    refine ⟨c, Table.mem_filter.mpr ⟨hc, ?_⟩, rfl⟩
    rw [← (h.raises s hs c hc hid).2.1]
    exact hne
  · intro s hs s' hs'
    exact h.oneSuccessor s (Table.mem_filter.mp hs).1 s' (Table.mem_filter.mp hs').1
  · intro c hc hlive s hs
    exact h.headLast c (Table.mem_filter.mp hc).1 hlive s (Table.mem_filter.mp hs).1
  · intro s hs c hc
    exact h.raises s (Table.mem_filter.mp hs).1 c (Table.mem_filter.mp hc).1

theorem supersede_cases {args : UpdateClaimArgs} {prev : VaultClaim} {id : String} {now : Nat}
    (h : T.supersede args prev id now = some T') :
    (∀ c ∈ T, c.supersedes ≠ some args.claimId) ∧
      (T.finish (fun c => c.id = args.claimId) now).insert (prev.successor args id now) = some T' := by
  unfold supersede at h
  split at h
  · cases h
  · rename_i hno
    exact ⟨fun c hc hs => hno ⟨c, hc, hs⟩, h⟩

theorem chainOk_supersede {args : UpdateClaimArgs} {prev : VaultClaim} {id : String} {now : Nat} (h : ChainOk T)
    (hprev : prev ∈ T) (hid : prev.id = args.claimId) (hstep : T.supersede args prev id now = some T') : ChainOk T' := by
  obtain ⟨hno, hins⟩ := supersede_cases hstep
  refine chainOk_insert (chainOk_finish h) hins ?_
  intro x hx
  have hx : args.claimId = x := Option.some.inj hx
  subst hx
  constructor
  · refine ⟨{ prev with supersededAt := some now }, ?_, hid, by simp, rfl, rfl, fun hs => ?_⟩
    · exact mem_finish.mpr (.inl ⟨prev, hprev, by simpa using hid, rfl⟩)
    · simp only [VaultClaim.successor, Bool.or_eq_true]
      exact .inl (.inl hs)
  · intro s hs
    rcases mem_finish.mp hs with ⟨s₀, hs₀, _, rfl⟩ | ⟨hs, _⟩
    · exact hno s₀ hs₀
    · exact hno s hs

end ChainAux

open ChainAux

theorem ChainOk.step {T T' : Claims} {m : ClaimMove} (h : ChainOk T) (hm : m.step T = some T') : ChainOk T' := by
  cases m with
  | create input id now =>
    refine chainOk_insert h hm ?_
    intro x hx
    cases hx
  | supersede args id now =>
    obtain ⟨prev, hprev, hstep⟩ := Option.bind_eq_some_iff.mp hm
    obtain ⟨hget, _⟩ := Option.filter_eq_some_iff.mp hprev
    obtain ⟨hmem, hid⟩ := Table.get_eq_some_iff.mp hget
    exact chainOk_supersede h hmem hid hstep
  | finish p now =>
    cases hm
    exact chainOk_finish h
  | revive claimId =>
    simp only [ClaimMove.step] at hm
    split at hm
    · cases hm
    · rename_i hno
      cases hm
      refine chainOk_update _ h (fun _ => ⟨rfl, rfl, rfl⟩) ?_ fun _ _ _ => .inl rfl
      rintro r _ rfl _
      exact .inr fun s hs hsup => hno ⟨s, hs, hsup⟩
  | confirm claimId sensitive actor now =>
    cases hm
    refine chainOk_update _ h (fun _ => ⟨rfl, rfl, rfl⟩) (fun _ _ _ hl => .inl hl) ?_
    intro r _ hp
    refine .inr ⟨hp.2, fun hs => ?_⟩
    simp [hs]
  | clearConflict claimId =>
    cases hm
    exact chainOk_update _ h (fun _ => ⟨rfl, rfl, rfl⟩) (fun _ _ _ hl => .inl hl) fun _ _ _ => .inl rfl
  | wipe spaceId =>
    cases hm
    exact chainOk_wipe h

theorem chainOk_empty : ChainOk (Table.empty : Claims) where
  grounded := fun s hs => absurd hs (Table.not_mem_empty s)
  oneSuccessor := fun s hs => absurd hs (Table.not_mem_empty s)
  headLast := fun c hc => absurd hc (Table.not_mem_empty c)
  raises := fun s hs => absurd hs (Table.not_mem_empty s)

end Claims

end Capka

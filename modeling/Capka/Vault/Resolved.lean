import Mathlib
import Capka.Vault.Disputes

/-!
# Taking a decision

The owner's decision on a disagreement, all or nothing: refused, it leaves the memory as it was; taken, it leaves one of the two facts.
-/

namespace Capka

namespace Claims

/-- The second id is the first's, or that of a row further up its chain. -/
def Follows (T : Claims) : String → String → Prop :=
  Relation.ReflTransGen fun a b => ∃ s ∈ T, s.id = b ∧ s.supersedes = some a

/-- A head of the fact, whichever of its rows the id is of. -/
structure IsHeadOf (T : Claims) (claimId : String) (h : VaultClaim) : Prop where
  mem : h ∈ T
  follows : T.Follows claimId h.id
  live : h.supersededAt = none

/-- The fact is live. -/
def FactLive (T : Claims) (claimId : String) : Prop := ∃ h, T.IsHeadOf claimId h

end Claims

namespace Vault

/-- The decision is all or nothing: refused, it changed no row; taken for one side, it left one of the two facts. -/
structure AllOrNothing (claimId : String) (keep : KeepSide) (allowedSpaceIds : List String) (v : Vault) (r : Vault × Bool) : Prop where
  refused : r.2 = false → r.1 = v
  kept : r.2 = true → keep ≠ .both → ∀ c, v.contesting claimId allowedSpaceIds = some c → ∀ contested ∈ c.conflictsWith,
    r.1.claims.FactLive claimId ∨ r.1.claims.FactLive contested

/-- The contested fact has a head, which is not the contesting row; to be forgotten, the head is in a space of the caller's. -/
def Resolvable (claimId : String) (keep : KeepSide) (allowedSpaceIds : List String) (v : Vault) : Prop :=
  keep ≠ .both → ∀ c, v.contesting claimId allowedSpaceIds = some c → ∀ contested ∈ c.conflictsWith,
    ∃ h, v.claims.IsHeadOf contested h ∧ h.id ≠ claimId ∧ (keep = .this → h.spaceId ∈ allowedSpaceIds)

namespace ResolvedAux

variable {T : Claims} {v : Vault} {allowedSpaceIds : List String}

theorem follows_update {p : VaultClaim → Prop} [DecidablePred p] {f : VaultClaim → VaultClaim} (hf : ∀ r, (f r).id = r.id)
    (hsup : ∀ r, (f r).supersedes = r.supersedes) : Claims.Follows (T.update p f hf) = T.Follows := by
  unfold Claims.Follows
  congr 1
  funext a b
  apply propext
  constructor
  · rintro ⟨s, hs, rfl, hsa⟩
    obtain ⟨s₀, hs₀, hk, rfl | rfl⟩ := Table.exists_of_mem_update hf hs
    · exact ⟨s₀, hs₀, hk.symm, hsup s₀ ▸ hsa⟩
    · exact ⟨s, hs₀, rfl, hsa⟩
  · rintro ⟨s, hs, rfl, hsa⟩
    obtain ⟨s', hs', hk, rfl | rfl⟩ := Table.exists_mem_update p hf hs
    · exact ⟨f s, hs', hk, (hsup s).trans hsa⟩
    · exact ⟨s', hs', rfl, hsa⟩

theorem isHeadOf_clearConflict {id claimId : String} {h : VaultClaim} (hh : (T.clearConflict id).IsHeadOf claimId h) :
    ∃ h₀, T.IsHeadOf claimId h₀ ∧ h₀.id = h.id ∧ h₀.spaceId = h.spaceId := by
  obtain ⟨hmem, hfollows, hlive⟩ := hh
  have hfollows' : T.Follows claimId h.id := by
    rw [← follows_update (p := fun c => c.id = id) (f := fun c : VaultClaim => { c with conflictsWith := none }) (fun _ => rfl) fun _ => rfl]
    exact hfollows
  obtain ⟨h₀, hh₀, hk, rfl | rfl⟩ := Table.exists_of_mem_update (f := fun c : VaultClaim => { c with conflictsWith := none })
    (fun _ => rfl) hmem
  · exact ⟨h₀, ⟨hh₀, hfollows', hlive⟩, rfl, rfl⟩
  · exact ⟨h, ⟨hh₀, hfollows', hlive⟩, rfl, rfl⟩

theorem clearConflict_of_isHeadOf (id : String) {claimId : String} {h : VaultClaim} (hh : T.IsHeadOf claimId h) :
    ∃ h', (T.clearConflict id).IsHeadOf claimId h' ∧ h'.id = h.id ∧ h'.spaceId = h.spaceId := by
  obtain ⟨hmem, hfollows, hlive⟩ := hh
  have hfollows' : (T.clearConflict id).Follows claimId h.id := by
    rw [← follows_update (T := T) (p := fun c => c.id = id) (f := fun c : VaultClaim => { c with conflictsWith := none }) (fun _ => rfl)
      fun _ => rfl] at hfollows
    exact hfollows
  obtain ⟨h', hh', hk, rfl | rfl⟩ := Table.exists_mem_update (fun c => c.id = id)
    (f := fun c : VaultClaim => { c with conflictsWith := none }) (fun _ => rfl) hmem
  · exact ⟨_, ⟨hh', hfollows', hlive⟩, rfl, rfl⟩
  · exact ⟨_, ⟨hh', hfollows', hlive⟩, rfl, rfl⟩

theorem factLive_finish {id claimId : String} {now : Nat} :
    (T.finish (fun c => c.id = id) now).FactLive claimId ↔ ∃ h, T.IsHeadOf claimId h ∧ h.id ≠ id := by
  have hchains : (T.finish (fun c => c.id = id) now).Follows = T.Follows :=
    follows_update (p := fun c => decide (c.id = id) = true) (f := fun c : VaultClaim => { c with supersededAt := some now })
      (fun _ => rfl) fun _ => rfl
  constructor
  · rintro ⟨h, hmem, hfollows, hlive⟩
    rw [hchains] at hfollows
    rcases Claims.mem_finish.mp hmem with ⟨_, _, _, rfl⟩ | ⟨hh, hne⟩
    · cases hlive
    · exact ⟨h, ⟨hh, hfollows, hlive⟩, by simpa using hne⟩
  · rintro ⟨h, ⟨hmem, hfollows, hlive⟩, hne⟩
    exact ⟨h, Claims.mem_finish.mpr (.inr ⟨hmem, by simpa using hne⟩), hchains ▸ hfollows, hlive⟩

theorem eq_of_follows (hchains : T.ChainOk) {c : VaultClaim} (hc : c ∈ T) (hlive : c.supersededAt = none) {id : String}
    (h : T.Follows c.id id) : id = c.id := by
  rcases Relation.ReflTransGen.cases_head h with heq | ⟨_, ⟨s, hs, _, hsup⟩, _⟩
  · exact heq.symm
  · exact absurd hsup (hchains.headLast c hc hlive s hs)

theorem rightUnique (hchains : T.ChainOk) : Relator.RightUnique fun a b => ∃ s ∈ T, s.id = b ∧ s.supersedes = some a := by
  rintro x y z ⟨s, hs, rfl, hsx⟩ ⟨s', hs', rfl, hsx'⟩
  rw [hchains.oneSuccessor s hs s' hs' x hsx hsx']

theorem head_unique (hchains : T.ChainOk) {claimId : String} {a b : VaultClaim} (ha : T.IsHeadOf claimId a) (hb : T.IsHeadOf claimId b) :
    a = b := by
  rcases Relation.ReflTransGen.total_of_right_unique (rightUnique hchains) ha.follows hb.follows with hab | hba
  · exact Table.eq_of_key ha.mem hb.mem (eq_of_follows hchains ha.mem ha.live hab).symm
  · exact Table.eq_of_key ha.mem hb.mem (eq_of_follows hchains hb.mem hb.live hba)

theorem chainEnd_spec (hchains : v.claims.ChainOk) {hops : Nat} {row e : VaultClaim} (hrow : row ∈ v.claims)
    (h : v.chainEnd allowedSpaceIds hops row = some e) :
    e ∈ v.claims ∧ v.claims.Follows row.id e.id ∧ e.spaceId = row.spaceId ∧
      ∀ s ∈ v.claims, s.supersedes = some e.id → s.spaceId ∉ allowedSpaceIds := by
  induction hops generalizing row with
  | zero => cases h
  | succ hops ih =>
    unfold chainEnd at h
    split at h
    · rename_i hnone
      cases h
      refine ⟨hrow, .refl, rfl, fun s hs hsup hallowed => ?_⟩
      have := List.find?_eq_none.mp hnone s hs
      simp [hsup, hallowed] at this
    · rename_i next hnext
      have hmem : next ∈ v.claims := List.mem_of_find?_eq_some hnext
      have hcond := List.find?_some hnext
      simp only [decide_eq_true_eq] at hcond
      obtain ⟨he, hfollows, hspace, hlast⟩ := ih hmem h
      exact ⟨he, .head ⟨next, hmem, rfl, hcond.1⟩ hfollows, hspace.trans (hchains.raises next hmem row hrow hcond.1).2.1, hlast⟩

theorem space_of_follows (hchains : v.claims.ChainOk) {a b : VaultClaim} (ha : a ∈ v.claims) (hb : b ∈ v.claims)
    (h : v.claims.Follows a.id b.id) : b.spaceId = a.spaceId := by
  have hgen : ∀ id, v.claims.Follows a.id id → ∀ b ∈ v.claims, b.id = id → b.spaceId = a.spaceId := by
    intro id hid
    induction hid with
    | refl =>
      intro b hb hid
      rw [Table.eq_of_key hb ha hid]
    | tail hfollows hstep ih =>
      obtain ⟨s, hs, hsid, hsup⟩ := hstep
      intro b hb hid
      rw [Table.eq_of_key hb hs (hid.trans hsid.symm)]
      obtain ⟨c, hc, hcid⟩ := hchains.grounded s hs _ hsup
      exact (hchains.raises s hs c hc (hcid ▸ hsup)).2.1.trans (ih c hc hcid)
  exact hgen b.id h b hb rfl

theorem findCurrentHead_spec (hchains : v.claims.ChainOk) {claimId : String} {head : Option VaultClaim}
    (h : v.findCurrentHead claimId allowedSpaceIds = some head) (e : VaultClaim) :
    head = some e ↔ v.claims.IsHeadOf claimId e ∧ e.spaceId ∈ allowedSpaceIds := by
  have hstart : ∀ e, v.claims.IsHeadOf claimId e → e.spaceId ∈ allowedSpaceIds →
      ∃ start, (v.claims.get claimId).filter (fun c => c.spaceId ∈ allowedSpaceIds) = some start := by
    intro e he hallowed
    have hrow : ∃ c ∈ v.claims, c.id = claimId := by
      rcases Relation.ReflTransGen.cases_head he.follows with heq | ⟨_, ⟨s, hs, _, hsup⟩, _⟩
      · exact ⟨e, he.mem, heq.symm⟩
      · exact hchains.grounded s hs claimId hsup
    obtain ⟨c, hc, hid⟩ := hrow
    refine ⟨c, Option.filter_eq_some_iff.mpr ⟨Table.get_eq_some_iff.mpr ⟨hc, hid⟩, ?_⟩⟩
    rw [decide_eq_true_eq, ← space_of_follows hchains hc he.mem (hid ▸ he.follows)]
    exact hallowed
  unfold findCurrentHead at h
  split at h
  · rename_i hnone
    cases h
    constructor
    · intro he
      cases he
    · rintro ⟨he, hallowed⟩
      obtain ⟨start, hs⟩ := hstart e he hallowed
      cases hnone.symm.trans hs
  · rename_i start hsome
    obtain ⟨hget, hallowed⟩ := Option.filter_eq_some_iff.mp hsome
    obtain ⟨hmem, hid⟩ := Table.get_eq_some_iff.mp hget
    rw [decide_eq_true_eq] at hallowed
    obtain ⟨row, hrow, rfl⟩ := Option.map_eq_some_iff.mp h
    obtain ⟨hr, hfollows, hspace, hlast⟩ := chainEnd_spec hchains hmem hrow
    rw [hid] at hfollows
    constructor
    · intro he
      split at he
      · rename_i hlive
        cases he
        exact ⟨⟨hr, hfollows, hlive⟩, hspace ▸ hallowed⟩
      · cases he
    · rintro ⟨he, _⟩
      -- the end of the chain is followed by none, so the head, which follows the same row, is the end
      have hend : e = row := by
        rcases Relation.ReflTransGen.total_of_right_unique (rightUnique hchains) he.follows hfollows with hab | hba
        · exact Table.eq_of_key he.mem hr (eq_of_follows hchains he.mem he.live hab).symm
        · rcases Relation.ReflTransGen.cases_head hba with heq | ⟨_, ⟨s, hs, _, hsup⟩, _⟩
          · exact Table.eq_of_key he.mem hr heq.symm
          · refine absurd ?_ (hlast s hs hsup)
            rw [(hchains.raises s hs row hr hsup).2.1, hspace]
            exact hallowed
      rw [← hend, if_pos he.live]

theorem forgetClaim_of_head {e : VaultClaim} (now : Nat) (hmem : e ∈ v.claims) (hlive : e.supersededAt = none)
    (hallowed : e.spaceId ∈ allowedSpaceIds) :
    ∃ w, v.forgetClaim { claimId := e.id, expectedRevision := e.revision, allowedSpaceIds, requireCreatedTaskId := none } now =
        some (w, .ok ()) ∧ w.claims = v.claims.finish (fun c => c.id = e.id) now := by
  have htarget : (v.claims.get e.id).filter (fun c => c.revision = e.revision ∧ c.headIn allowedSpaceIds ∧
      ((none : Option String) = none ∨ c.createdTaskId = none)) = some e := by
    refine Option.filter_eq_some_iff.mpr ⟨Table.get_eq_some_iff.mpr ⟨hmem, rfl⟩, ?_⟩
    simpa [VaultClaim.headIn] using ⟨hlive, hallowed⟩
  unfold forgetClaim
  rw [htarget]
  exact ⟨_, rfl, rfl⟩

theorem forgetLoser_some {claimId spaceId : String} {e : VaultClaim} {now : Nat} {r : Vault × Bool} (hmem : e ∈ v.claims)
    (hlive : e.supersededAt = none) (hallowed : e.spaceId ∈ allowedSpaceIds)
    (h : v.forgetLoser claimId spaceId allowedSpaceIds (some e) now = some r) :
    r.2 = true ∧ r.1.claims = v.claims.finish (fun c => c.id = e.id) now := by
  obtain ⟨w, hw, hclaims⟩ := forgetClaim_of_head now hmem hlive hallowed
  simp only [forgetLoser, hw, Option.map_some, Option.some.injEq] at h
  rw [← h]
  exact ⟨rfl, hclaims⟩

theorem factLive_forgotten {id : String} {e : VaultClaim} {now : Nat} (claimId : String) :
    ((T.clearConflict id).finish (fun c => c.id = e.id) now).FactLive claimId ↔ ∃ h, T.IsHeadOf claimId h ∧ h.id ≠ e.id := by
  rw [factLive_finish]
  constructor
  · rintro ⟨h, hh, hne⟩
    obtain ⟨h₀, hh₀, hid, _⟩ := isHeadOf_clearConflict hh
    exact ⟨h₀, hh₀, hid ▸ hne⟩
  · rintro ⟨h, hh, hne⟩
    obtain ⟨h', hh', hid, _⟩ := clearConflict_of_isHeadOf id hh
    exact ⟨h', hh', hid ▸ hne⟩

theorem clearConflict_ne {c : VaultClaim} (hc : c ∈ T) (hconflict : c.conflictsWith ≠ none) : T.clearConflict c.id ≠ T := by
  intro heq
  rw [← heq] at hc
  rcases (Table.mem_update (f := fun c : VaultClaim => { c with conflictsWith := none }) (fun _ => rfl)).mp hc with ⟨_, _, _, hr⟩ | ⟨_, hne⟩
  · rw [hr] at hconflict
    exact hconflict rfl
  · exact hne rfl

end ResolvedAux

open ResolvedAux

/-- A decision is all or nothing exactly if the contested fact has a head of its own. -/
theorem allOrNothing_of_chains {claimId : String} {keep : KeepSide} {allowedSpaceIds : List String} {now : Nat} {v : Vault} {r : Vault × Bool}
    (hchains : v.claims.ChainOk) (h : v.resolveConflict claimId keep allowedSpaceIds now = some r) :
    AllOrNothing claimId keep allowedSpaceIds v r ↔ Resolvable claimId keep allowedSpaceIds v := by
  unfold resolveConflict at h
  split at h
  · rename_i hnone
    cases h
    refine ⟨fun _ _ c hc => ?_, fun _ => ⟨fun _ => rfl, fun hok => ?_⟩⟩
    · cases hnone.symm.trans hc
    · cases hok
  · rename_i c hc
    obtain ⟨hmem, rfl, ⟨hlive, hspace⟩, hconflict⟩ := CallsAux.isHead_of_contesting hc
    obtain ⟨contested, hcontested⟩ := Option.ne_none_iff_exists'.mp hconflict
    have hself : v.claims.IsHeadOf c.id c := ⟨hmem, .refl, hlive⟩
    have hcleared : (v.claims.clearConflict c.id).ChainOk := hchains.step (m := .clearConflict c.id) rfl
    simp only [hcontested] at h
    cases keep with
    | both =>
      cases h
      refine ⟨fun _ hkeep => absurd rfl hkeep, fun _ => ⟨fun hok => ?_, fun _ hkeep => absurd rfl hkeep⟩⟩
      cases hok
    | this =>
      obtain ⟨head, hhead, h⟩ := Option.bind_eq_some_iff.mp h
      have hspec := findCurrentHead_spec hcleared hhead
      cases head with
      | none =>
        -- refused, with the conflict cleared
        cases h
        constructor
        · intro hall
          exact absurd (congrArg Vault.claims (hall.refused rfl)) (clearConflict_ne hmem hconflict)
        · intro hres
          obtain ⟨h, hh, _, hallowed⟩ := hres (by decide) c hc contested hcontested
          obtain ⟨h', hh', _, hs⟩ := clearConflict_of_isHeadOf c.id hh
          cases (hspec h').mpr ⟨hh', hs ▸ hallowed rfl⟩
      | some e =>
        obtain ⟨he, hallowed⟩ := (hspec e).mp rfl
        obtain ⟨e₀, he₀, hid, hs⟩ := isHeadOf_clearConflict he
        obtain ⟨hok, hclaims⟩ := forgetLoser_some he.mem he.live hallowed h
        constructor
        · intro hall _ c' hc' contested' hcontested'
          obtain rfl := Option.some.inj (hc.symm.trans hc')
          obtain rfl := Option.some.inj (hcontested.symm.trans hcontested')
          have hleft := hall.kept hok (by decide) c hc contested hcontested
          rw [hclaims, factLive_forgotten, factLive_forgotten] at hleft
          rcases hleft with ⟨h, hh, hne⟩ | ⟨h, hh, hne⟩
          · rw [head_unique hchains hh hself] at hne
            exact ⟨e₀, he₀, fun heq => hne (heq.symm.trans hid), fun _ => hs ▸ hallowed⟩
          · exact absurd ((head_unique hchains hh he₀) ▸ hid) hne
        · intro hres
          refine ⟨fun hno => ?_, fun _ _ c' hc' contested' hcontested' => .inl ?_⟩
          · cases hok.symm.trans hno
          · obtain rfl := Option.some.inj (hc.symm.trans hc')
            rw [hclaims, factLive_forgotten]
            obtain ⟨h, hh, hne, _⟩ := hres (by decide) c hc contested hcontested
            refine ⟨c, hself, fun heq => hne ?_⟩
            rw [head_unique hchains hh he₀, hid, heq]
    | other =>
      obtain ⟨head, hhead, h⟩ := Option.bind_eq_some_iff.mp h
      have hspec := findCurrentHead_spec hcleared hhead
      obtain ⟨c', hc', hid', hs'⟩ := clearConflict_of_isHeadOf c.id hself
      have hread : head = some c' := (hspec c').mpr ⟨hc', hs' ▸ hspace⟩
      rw [hread] at h
      obtain ⟨hok, hclaims⟩ := forgetLoser_some hc'.mem hc'.live (hs' ▸ hspace) h
      constructor
      · intro hall _ d hd contested' hcontested'
        obtain rfl := Option.some.inj (hc.symm.trans hd)
        have hleft := hall.kept hok (by decide) c hc contested' hcontested'
        rw [hclaims, factLive_forgotten, factLive_forgotten] at hleft
        rcases hleft with ⟨h, hh, hne⟩ | ⟨h, hh, hne⟩
        · exact absurd ((head_unique hchains hh hself) ▸ hid'.symm) hne
        · refine ⟨h, hh, hid' ▸ hne, fun hkeep => ?_⟩
          cases hkeep
      · intro hres
        refine ⟨fun hno => ?_, fun _ _ d hd contested' hcontested' => .inr ?_⟩
        · cases hok.symm.trans hno
        · obtain rfl := Option.some.inj (hc.symm.trans hd)
          rw [hclaims, factLive_forgotten]
          obtain ⟨h, hh, hne, _⟩ := hres (by decide) c hc contested' hcontested'
          exact ⟨h, hh, hid'.symm ▸ hne⟩

end Vault

namespace MemoryStore

/-- The owner's decision is all or nothing exactly if the contested fact has a head of its own. -/
theorem allOrNothing_iff {env : VaultEnv} {s : MemoryStore} (h : Steps.Reaches (step env) Steps.Free empty s) {claimId : String}
    {keep : KeepSide} {allowedSpaceIds : List String} {now : Nat} {r : Vault × Bool}
    (hr : s.vault.resolveConflict claimId keep allowedSpaceIds now = some r) :
    s.vault.AllOrNothing claimId keep allowedSpaceIds r ↔ s.vault.Resolvable claimId keep allowedSpaceIds :=
  Vault.allOrNothing_of_chains (rowsOk_of_reaches h).chains hr

namespace ResolveRun

open CorrectRun

/-- A space, a fact in it, and another that contests the first. -/
def acts : List MemoryAct :=
  [.openSpace { id := "s", type := .user, refId := "u", ownerUserId := "u", retiredAt := none },
    .write (.createClaim
      { spaceId := "s", statement := "Lives in Lviv", slotKey := none, value := none, sensitive := false, topicNoteId := none,
        sourceClass := .ownerAuthored, createdTaskId := none, conflictsWith := none } (idsOf 't') 1),
    .write (.createClaim
      { spaceId := "s", statement := "Lives in Odesa", slotKey := none, value := none, sensitive := false, topicNoteId := none,
        sourceClass := .userDirect, createdTaskId := none, conflictsWith := some "t" } (idsOf 'c') 2)]

/-- The contested fact is forgotten. -/
def forget : MemoryAct := .write (.forgetClaim { claimId := "t", expectedRevision := 1, allowedSpaceIds := ["s"], requireCreatedTaskId := none } 3)

end ResolveRun

open CorrectRun ResolveRun

/-- Once the contested fact is forgotten, keeping the contesting one is refused, and the conflict is gone all the same. -/
theorem allOrNothing_false : ∃ s, Steps.Reaches (step CorrectRun.env) Steps.Free empty s ∧
    ∃ r, s.vault.resolveConflict "c" .this ["s"] 4 = some r ∧ ¬s.vault.AllOrNothing "c" .this ["s"] r := by
  obtain ⟨s, hs, hrefused⟩ := Steps.exists_of_exec (step CorrectRun.env) empty (ResolveRun.acts ++ [forget])
    (P := fun s : MemoryStore => ((s.vault.resolveConflict "c" .this ["s"] 4).any fun r =>
      decide (r.2 = false ∧ r.1.claims.rows ≠ s.vault.claims.rows)) = true) (by decide)
  obtain ⟨r, hr, hcond⟩ := (Option.any_eq_true _ _).mp hrefused
  obtain ⟨hno, hrows⟩ := of_decide_eq_true hcond
  exact ⟨s, hs, r, hr, fun hall => hrows (by rw [hall.refused hno])⟩

/-- The theorem while both facts are live. -/
theorem allOrNothing_iff_both_live : ∃ (s : MemoryStore) (r : Vault × Bool), s.vault.resolveConflict "c" .this ["s"] 4 = some r ∧ r.2 = true ∧
    (s.vault.AllOrNothing "c" .this ["s"] r ↔ s.vault.Resolvable "c" .this ["s"]) := by
  obtain ⟨s, hs, htaken⟩ := Steps.exists_of_exec (step CorrectRun.env) empty ResolveRun.acts
    (P := fun s : MemoryStore => ((s.vault.resolveConflict "c" .this ["s"] 4).any fun r => r.2) = true) (by decide)
  obtain ⟨r, hr, hok⟩ := (Option.any_eq_true _ _).mp htaken
  exact ⟨s, r, hr, hok, allOrNothing_iff hs hr⟩

end MemoryStore

end Capka

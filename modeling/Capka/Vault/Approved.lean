import Capka.Vault.Correctable
import Capka.Vault.Calls
import Capka.Vault.Fitted

/-!
# What the owner approved

A confirmed claim says what the owner approved: behind it in its chain stands a row that was confirmed, with the same words. A row that says
something new starts unverified, and a row never changes what it says.
-/

namespace Capka

namespace VaultClaim

/-- The same words once fitted, and the same value. -/
def SameWords (r c : VaultClaim) : Prop :=
  fitStatement r.statement = fitStatement c.statement ∧ fitSlotKey r.slotKey = fitSlotKey c.slotKey ∧ r.value = c.value

/-- The row with what it says and its place, whatever its state. -/
def SameRow (r c : VaultClaim) : Prop :=
  r.id = c.id ∧ r.spaceId = c.spaceId ∧ r.supersedes = c.supersedes ∧ r.statement = c.statement ∧ r.slotKey = c.slotKey ∧ r.value = c.value

/-- The row holds fitted text. -/
def Fitted (c : VaultClaim) : Prop := (∃ raw, c.statement = fitStatement raw) ∧ ∃ raw, c.slotKey = fitSlotKey raw

theorem SameRow.refl (c : VaultClaim) : c.SameRow c := ⟨rfl, rfl, rfl, rfl, rfl, rfl⟩

theorem SameRow.trans {a b c : VaultClaim} (h : a.SameRow b) (h' : b.SameRow c) : a.SameRow c := by
  obtain ⟨h1, h2, h3, h4, h5, h6⟩ := h
  obtain ⟨h1', h2', h3', h4', h5', h6'⟩ := h'
  exact ⟨h1.trans h1', h2.trans h2', h3.trans h3', h4.trans h4', h5.trans h5', h6.trans h6'⟩

theorem Fitted.of_sameRow {r c : VaultClaim} (h : c.Fitted) (hrow : r.SameRow c) : r.Fitted := by
  obtain ⟨_, _, _, hstatement, hslot, _⟩ := hrow
  obtain ⟨⟨raw, hraw⟩, raw', hraw'⟩ := h
  exact ⟨⟨raw, hstatement.trans hraw⟩, raw', hslot.trans hraw'⟩

theorem SameWords.of_sameRow {r r' c c' : VaultClaim} (h : r.SameWords c) (hr : r'.SameRow r) (hc : c'.SameRow c) : r'.SameWords c' := by
  obtain ⟨_, _, _, h1, h2, h3⟩ := hr
  obtain ⟨_, _, _, h1', h2', h3'⟩ := hc
  obtain ⟨hs, hk, hv⟩ := h
  unfold SameWords
  rw [h1, h2, h3, h1', h2', h3']
  exact ⟨hs, hk, hv⟩

theorem sameWords_successor {args : UpdateClaimArgs} {prev : VaultClaim} {id : String} {now : Nat} (hfit : prev.Fitted)
    (hconf : (prev.successor args id now).reviewStatus = .confirmed) :
    prev.reviewStatus = .confirmed ∧ prev.SameWords (prev.successor args id now) := by
  obtain ⟨⟨raw, hraw⟩, raw', hraw'⟩ := hfit
  unfold successor at hconf ⊢
  simp only at hconf ⊢
  split at hconf
  · cases hconf
  · rename_i hsame
    simp only [not_or, not_not] at hsame
    obtain ⟨hstatement, hslot, hvalue⟩ := hsame
    refine ⟨hconf, ?_, ?_, hvalue.symm⟩
    · simp only
      rw [hstatement, hraw, fitStatement_stable]
    · simp only
      rw [hslot, hraw', fitSlotKey_stable]

end VaultClaim

namespace Claims

/-- From one id to another along the rows of a space, each superseding the next. -/
def Descends (T : Claims) (spaceId : String) : String → String → Prop :=
  Relation.ReflTransGen fun a b => ∃ s ∈ T, s.spaceId = spaceId ∧ s.id = a ∧ s.supersedes = some b

/-- Behind the row stands one with its words on which `confirmClaim` ran. -/
def Approved (T : Claims) (done : List VaultOp) (c : VaultClaim) : Prop :=
  ∃ r ∈ T, r.spaceId = c.spaceId ∧ T.Descends c.spaceId c.id r.id ∧
    (∃ sensitive actor now, VaultOp.confirmClaim r.id sensitive actor now ∈ done) ∧ r.SameWords c

theorem reflTransGen_of_descends {T : Claims} {spaceId : String} {a b : String} (h : T.Descends spaceId a b) :
    ∀ c ∈ T, c.id = a → ∀ r ∈ T, r.id = b → Relation.ReflTransGen T.Supersedes c r := by
  induction h using Relation.ReflTransGen.head_induction_on with
  | refl =>
    intro c hc hca r hr hrb
    rw [Table.eq_of_key hc hr (hca.trans hrb.symm)]
  | @head a x hstep hrest ih =>
    intro c hc hca r hr hrb
    obtain ⟨s, hs, _, hsa, hsup⟩ := hstep
    have hcs : c = s := Table.eq_of_key hc hs (hca.trans hsa.symm)
    subst hcs
    have hnext : ∃ y ∈ T, y.id = x := by
      rcases Relation.ReflTransGen.cases_head hrest with rfl | ⟨z, ⟨y, hy, _, hyx, _⟩, _⟩
      · exact ⟨r, hr, hrb⟩
      · exact ⟨y, hy, hyx⟩
    obtain ⟨y, hy, hyx⟩ := hnext
    exact Relation.ReflTransGen.head ⟨hc, hy, by rw [hsup, hyx]⟩ (ih y hy hyx r hr hrb)

theorem Approved.mono {T T' : Claims} {done done' : List VaultOp} {c c' : VaultClaim} (h : T.Approved done c) (hsub : done ⊆ done')
    (hkeep : ∀ x ∈ T, x.spaceId = c.spaceId → ∃ x' ∈ T', x'.SameRow x) (hc : c'.SameRow c) : T'.Approved done' c' := by
  obtain ⟨r, hr, hspace, hdesc, ⟨sensitive, actor, now, hdone⟩, hwords⟩ := h
  obtain ⟨r', hr', hrow⟩ := hkeep r hr hspace
  have hdesc' : T'.Descends c.spaceId c.id r.id := by
    refine Relation.ReflTransGen.mono ?_ _ _ hdesc
    rintro a b ⟨s, hs, hspace, rfl, hsup⟩
    obtain ⟨s', hs', hid, hsp, hsup', _⟩ := hkeep s hs hspace
    exact ⟨s', hs', hsp.trans hspace, hid, hsup'.trans hsup⟩
  refine ⟨r', hr', ?_, ?_, ⟨sensitive, actor, now, ?_⟩, hwords.of_sameRow hrow hc⟩
  · rw [hrow.2.1, hc.2.1, hspace]
  · rw [hc.2.1, hc.1, hrow.1]
    exact hdesc'
  · rw [hrow.1]
    exact hsub hdone

theorem approved_self {T : Claims} {done : List VaultOp} {c : VaultClaim} {sensitive : Bool} {actor : Actor} {now : Nat} (hc : c ∈ T)
    (hdone : VaultOp.confirmClaim c.id sensitive actor now ∈ done) : T.Approved done c :=
  ⟨c, hc, rfl, .refl, ⟨sensitive, actor, now, hdone⟩, rfl, rfl, rfl⟩

theorem Approved.successor {T : Claims} {done : List VaultOp} {prev c : VaultClaim} (h : T.Approved done prev) (hc : c ∈ T)
    (hsup : c.supersedes = some prev.id) (hspace : c.spaceId = prev.spaceId) (hwords : prev.SameWords c) : T.Approved done c := by
  obtain ⟨r, hr, hrs, hdesc, hdone, hs, hk, hv⟩ := h
  refine ⟨r, hr, hrs.trans hspace.symm, ?_, hdone, hs.trans hwords.1, hk.trans hwords.2.1, hv.trans hwords.2.2⟩
  rw [hspace]
  exact Relation.ReflTransGen.head ⟨c, hc, hspace, rfl, hsup⟩ hdesc

/-- Where a row comes from. -/
inductive RowOf (T : Claims) (op : VaultOp) (ok : Bool) (c : VaultClaim) : Prop where
  | old (x : VaultClaim) (hx : x ∈ T) (hrow : c.SameRow x) (hstatus : c.reviewStatus = x.reviewStatus)
  | confirmed (x : VaultClaim) (hx : x ∈ T) (hrow : c.SameRow x) (sensitive : Bool) (actor : Actor) (now : Nat)
      (hop : op = .confirmClaim c.id sensitive actor now) (hok : ok = true)
  | created (input : ClaimInput) (id : String) (now : Nat) (heq : c = input.toRow id now)
  | successor (args : UpdateClaimArgs) (prev : VaultClaim) (id : String) (now : Nat) (hprev : prev ∈ T) (hid : prev.id = args.claimId)
      (heq : c = prev.successor args id now)

namespace ApprovedAux

variable {seen v : Vault} {T : Claims} {op : VaultOp} {ok : Bool}

/-- The same rows, whatever their state but the review. -/
def SameRows (T T' : Claims) : Prop :=
  (∀ c ∈ T', ∃ x ∈ T, c.SameRow x ∧ c.reviewStatus = x.reviewStatus) ∧ ∀ x ∈ T, ∃ x' ∈ T', x'.SameRow x

theorem sameRows_update {p : VaultClaim → Prop} [DecidablePred p] {f : VaultClaim → VaultClaim} (hf : ∀ r, (f r).id = r.id)
    (hrow : ∀ r, (f r).SameRow r ∧ (f r).reviewStatus = r.reviewStatus) : SameRows T (T.update p f hf) := by
  constructor
  · intro c hc
    rcases (Table.mem_update hf).mp hc with ⟨c₀, hc₀, _, rfl⟩ | ⟨hc, _⟩
    · exact ⟨c₀, hc₀, hrow c₀⟩
    · exact ⟨c, hc, .refl c, rfl⟩
  · intro x hx
    obtain ⟨x', hx', _, rfl | rfl⟩ := Table.exists_mem_update p hf hx
    · exact ⟨_, hx', (hrow x).1⟩
    · exact ⟨x', hx', .refl x'⟩

theorem sameRows_finish {p : VaultClaim → Bool} {now : Nat} : SameRows T (T.finish p now) :=
  sameRows_update _ fun _ => ⟨⟨rfl, rfl, rfl, rfl, rfl, rfl⟩, rfl⟩

theorem sameRows_clearConflict {id : String} : SameRows T (T.clearConflict id) :=
  sameRows_update _ fun _ => ⟨⟨rfl, rfl, rfl, rfl, rfl, rfl⟩, rfl⟩

theorem SameRows.trans {T' T'' : Claims} (h : SameRows T T') (h' : SameRows T' T'') : SameRows T T'' := by
  constructor
  · intro c hc
    obtain ⟨y, hy, hrow, hstatus⟩ := h'.1 c hc
    obtain ⟨x, hx, hrow', hstatus'⟩ := h.1 y hy
    exact ⟨x, hx, hrow.trans hrow', hstatus.trans hstatus'⟩
  · intro x hx
    obtain ⟨y, hy, hrow⟩ := h.2 x hx
    obtain ⟨z, hz, hrow'⟩ := h'.2 y hy
    exact ⟨z, hz, hrow'.trans hrow⟩

theorem SameRows.rowOf {T' : Claims} (h : SameRows T T') :
    (∀ c ∈ T', RowOf T op ok c) ∧ ∀ x ∈ T, ∃ x' ∈ T', x'.SameRow x := by
  refine ⟨fun c hc => ?_, h.2⟩
  obtain ⟨x, hx, hrow, hstatus⟩ := h.1 c hc
  exact .old x hx hrow hstatus

theorem rowOf_effect (heff : CallEffect seen v op ok T) :
    (∀ c ∈ T, RowOf v.claims op ok c) ∧ ∀ x ∈ v.claims, ∃ x' ∈ T, x'.SameRow x := by
  cases heff with
  | untouched _ _ _ => exact ⟨fun c hc => .old c hc (.refl c) rfl, fun x hx => ⟨x, hx, .refl x⟩⟩
  | created input fresh now _ _ hins =>
    have hmem : ∀ {x}, x ∈ T ↔ x ∈ v.claims ∨ x = input.toRow (fresh 0) now := Table.mem_of_insert hins
    refine ⟨fun c hc => ?_, fun x hx => ⟨x, hmem.mpr (.inl hx), .refl x⟩⟩
    rcases hmem.mp hc with hc | rfl
    · exact .old c hc (.refl c) rfl
    · exact .created input (fresh 0) now rfl
  | superseded args fresh now prev _ htarget _ hstep =>
    obtain ⟨hprev, hid, _, _⟩ := Vault.updateTarget_eq_some_iff.mp htarget
    obtain ⟨_, hins⟩ := ChainAux.supersede_cases hstep
    have hmem : ∀ {x}, x ∈ T ↔ x ∈ v.claims.finish (fun c => c.id = args.claimId) now ∨ x = prev.successor args (fresh 0) now :=
      Table.mem_of_insert hins
    have hsame : SameRows v.claims (v.claims.finish (fun c => c.id = args.claimId) now) := sameRows_finish
    refine ⟨fun c hc => ?_, fun x hx => ?_⟩
    · rcases hmem.mp hc with hc | rfl
      · exact hsame.rowOf.1 c hc
      · exact .successor args prev (fresh 0) now hprev hid rfl
    · obtain ⟨x', hx', hrow⟩ := hsame.2 x hx
      exact ⟨x', hmem.mpr (.inl hx'), hrow⟩
  | forgotten args now _ => exact sameRows_finish.rowOf
  | revived claimId allowed _ _ =>
    have hsame : SameRows v.claims (v.claims.revive claimId) := sameRows_update _ fun _ => ⟨⟨rfl, rfl, rfl, rfl, rfl, rfl⟩, rfl⟩
    exact hsame.rowOf
  | emptied spaceId now clock => exact sameRows_finish.rowOf
  | confirmed id sensitive actor now _ =>
    constructor
    · intro c hc
      rcases (Table.mem_update _).mp hc with ⟨c₀, hc₀, hp, rfl⟩ | ⟨hc, _⟩
      · refine .confirmed c₀ hc₀ ⟨rfl, rfl, rfl, rfl, rfl, rfl⟩ sensitive actor now ?_ rfl
        rw [← hp.1]
      · exact .old c hc (.refl c) rfl
    · intro x hx
      obtain ⟨x', hx', _, rfl | rfl⟩ := Table.exists_mem_update
        (f := fun c : VaultClaim => { c with
          reviewStatus := .confirmed
          sensitive := c.sensitive || sensitive
          approvedAt := some now
          approvedByUserId := if actor.isUser then actor.id else none })
        (fun c : VaultClaim => c.id = id ∧ c.supersededAt = none) (fun _ => rfl) hx
      · exact ⟨_, hx', rfl, rfl, rfl, rfl, rfl, rfl⟩
      · exact ⟨x', hx', .refl x'⟩
  | cleared id keep allowed now _ c _ => exact sameRows_clearConflict.rowOf
  | dropped id keep allowed now c _ head => exact (sameRows_clearConflict.trans sameRows_finish).rowOf

end ApprovedAux

end Claims

namespace CallState

open Claims Claims.ApprovedAux

variable {env : VaultEnv}

/-- The text of every row is fitted, and every confirmed row says what was approved. -/
structure Reviewed (s : CallState) : Prop where
  fitted : ∀ c ∈ s.store.vault.claims, c.Fitted
  approved : ∀ c ∈ s.store.vault.claims, c.reviewStatus = .confirmed → s.store.vault.claims.Approved s.done c

theorem Reviewed.step {s t : CallState} {a : CallAct} (h : s.Reviewed) (hstep : s.step env a = some t) : t.Reviewed := by
  rcases step_cases hstep with ⟨op, read, seen, r, e, ok, rfl, _, _, _, hrun, _, _, hdone⟩ | ⟨_, _, hvault, _, hdone⟩ |
    ⟨spaceId, now, _, hvault, _, hdone⟩
  · obtain ⟨hrows, hkeep⟩ := rowOf_effect (VaultOp.effect_of_runSeen hrun)
    have hsub : s.done ⊆ t.done := by
      rw [hdone]
      split
      · exact List.subset_cons_self _ _
      · exact List.Subset.refl _
    refine { fitted := ?_, approved := ?_ }
    · intro c hc
      cases hrows c hc with
      | old x hx hrow _ | confirmed x hx hrow _ _ _ _ _ => exact (h.fitted x hx).of_sameRow hrow
      | created input id now heq | successor args prev id now _ _ heq =>
        subst heq
        exact ⟨⟨_, rfl⟩, _, rfl⟩
    · intro c hc hconf
      have hmono : ∀ {x c' : VaultClaim}, x ∈ s.store.vault.claims → x.reviewStatus = .confirmed → c'.SameRow x →
          t.store.vault.claims.Approved t.done c' := by
        intro x c' hx hstatus hrow
        exact (h.approved x hx hstatus).mono hsub (fun y hy _ => hkeep y hy) hrow
      cases hrows c hc with
      | old x hx hrow hstatus => exact hmono hx (hstatus.symm.trans hconf) hrow
      | confirmed x hx hrow sensitive actor now hop hok =>
        subst hop hok
        have hran : VaultOp.confirmClaim c.id sensitive actor now ∈ t.done := by
          rw [hdone, if_pos rfl]
          exact List.mem_cons_self
        exact approved_self hc hran
      | created input id now heq =>
        subst heq
        cases hconf
      | successor args prev id now hprev hid heq =>
        subst heq
        obtain ⟨hstatus, hwords⟩ := VaultClaim.sameWords_successor (h.fitted prev hprev) hconf
        obtain ⟨x, hx, hrow⟩ := hkeep prev hprev
        refine (hmono hprev hstatus hrow).successor hc ?_ ?_ (hwords.of_sameRow hrow (.refl _))
        · rw [hrow.1, hid]
          rfl
        · rw [hrow.2.1]
          rfl
  · exact
      { fitted := by rw [hvault]; exact h.fitted
        approved := by rw [hvault, hdone]; exact h.approved }
  · have hclaims : t.store.vault.claims = s.store.vault.claims.filter fun c => c.spaceId ≠ spaceId := by
      rw [hvault, Vault.claims_retire]
    refine { fitted := ?_, approved := ?_ }
    · rw [hclaims]
      exact fun c hc => h.fitted c (Table.mem_filter.mp hc).1
    · rw [hclaims, hdone]
      intro c hc hconf
      obtain ⟨hc, hspace⟩ := Table.mem_filter.mp hc
      refine (h.approved c hc hconf).mono (List.Subset.refl _) ?_ (.refl c)
      intro x hx hxs
      refine ⟨x, Table.mem_filter.mpr ⟨hx, ?_⟩, .refl x⟩
      rw [hxs]
      exact hspace

theorem reviewed_empty : Reviewed empty where
  fitted := fun c hc => absurd hc (Table.not_mem_empty c)
  approved := fun c hc => absurd hc (Table.not_mem_empty c)

/-- After any calls, side by side or not, a confirmed claim has the fitted words and the value of a row on which `confirmClaim` ran: its own, or
one behind it in its chain. -/
theorem confirmed_says_approved {s : CallState} (h : Steps.Reaches (step env) Steps.Free empty s) :
    ∀ c ∈ s.store.vault.claims, c.reviewStatus = .confirmed →
      ∃ r ∈ s.store.vault.claims, Relation.ReflTransGen s.store.vault.claims.Supersedes c r ∧
        (∃ sensitive actor now, VaultOp.confirmClaim r.id sensitive actor now ∈ s.done) ∧
        fitStatement r.statement = fitStatement c.statement ∧ fitSlotKey r.slotKey = fitSlotKey c.slotKey ∧ r.value = c.value := by
  intro c hc hconf
  have hreviewed : s.Reviewed := h.invariant (I := Reviewed) (fun _ _ _ hx _ hy => hx.step hy) reviewed_empty
  obtain ⟨r, hr, _, hdesc, hdone, hwords⟩ := hreviewed.approved c hc hconf
  exact ⟨r, hr, reflTransGen_of_descends hdesc c hc rfl r hr rfl, hdone, hwords⟩

open MemoryStore.CorrectRun

/-- The theorem at a fact that was confirmed and then moved on to a successor with the same words. -/
theorem confirmed_says_approved_carried : ∃ s : CallState, ∃ c ∈ s.store.vault.claims, c.reviewStatus = .confirmed ∧ c.supersedes = some "c" ∧
    ∃ r ∈ s.store.vault.claims, Relation.ReflTransGen s.store.vault.claims.Supersedes c r ∧
      (∃ sensitive actor now, VaultOp.confirmClaim r.id sensitive actor now ∈ s.done) ∧
      fitStatement r.statement = fitStatement c.statement ∧ fitSlotKey r.slotKey = fitSlotKey c.slotKey ∧ r.value = c.value := by
  obtain ⟨s, hs, c, hc, hconf, hsup⟩ := Steps.exists_of_exec (step MemoryStore.CorrectRun.env) empty
    [.openSpace { id := "s", type := .user, refId := "u", ownerUserId := "u", retiredAt := none },
      .call (.createClaim
        { spaceId := "s", statement := "Lives in Lviv", slotKey := none, value := none, sensitive := false, topicNoteId := none,
          sourceClass := .userDirect, createdTaskId := none, conflictsWith := none } (idsOf 'c') 1) 0 0,
      .call (.confirmClaim "c" false { isUser := true, id := some "u" } 2) 0 0,
      .call (.updateClaim
        { claimId := "c", expectedRevision := 1,
          patch := { statement := some " Lives in Lviv ", value := none, slotKey := none, sensitive := true, topicNoteId := none },
          sourceClass := .userDirect, allowedSpaceIds := ["s"] } (idsOf 'd') 3) 0 0]
    (P := fun s : CallState => ∃ c ∈ s.store.vault.claims, c.reviewStatus = .confirmed ∧ c.supersedes = some "c") (by decide)
  exact ⟨s, c, hc, hconf, hsup, confirmed_says_approved hs c hc hconf⟩

end CallState

end Capka

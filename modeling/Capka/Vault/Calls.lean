import Capka.Vault.Rows

/-!
# Calls on the claims, side by side

The calls on the claims, each in a transaction of its own, in any order and with whatever else happens to the memory in between. A call
takes effect when its statement gets the row it writes, and holds that row from then on. A statement that had to wait for its row checks the
row again as it has become, but what it read of other rows is of the moment when it began (READ COMMITTED). A transaction that makes several
of the calls makes them one after another.
-/

namespace Capka

/-- The compare-and-swap hit. -/
def ClaimResult.hit {α : Type} : ClaimResult α → Bool
  | .ok _ => true
  | .stale _ => false

namespace Vault

/-- The row that `forgetClaim` ends, under its guards. -/
def forgetTarget (args : ForgetClaimArgs) (v : Vault) : Option VaultClaim :=
  (v.claims.get args.claimId).filter fun c => c.revision = args.expectedRevision ∧ c.headIn args.allowedSpaceIds ∧
    (args.requireCreatedTaskId = none ∨ c.createdTaskId = args.requireCreatedTaskId)

/-- What `restoreClaim` asks of the row itself: superseded, in that space. -/
def supersededIn (claimId spaceId : String) (v : Vault) : Prop :=
  ∃ c ∈ v.claims, c.id = claimId ∧ c.spaceId = spaceId ∧ c.supersededAt ≠ none

instance (claimId spaceId : String) (v : Vault) : Decidable (v.supersededIn claimId spaceId) := by
  unfold supersededIn
  infer_instance

def isHead (claimId : String) (v : Vault) : Prop := ∃ c ∈ v.claims, c.id = claimId ∧ c.supersededAt = none

instance (claimId : String) (v : Vault) : Decidable (v.isHead claimId) := by
  unfold isHead
  infer_instance

/-- `updateClaim`, whose statement began when the memory was `seen`. -/
def updateClaimSeen (env : VaultEnv) (args : UpdateClaimArgs) (fresh : Nat → String) (now : Nat) (seen v : Vault) :
    Option (Vault × ClaimResult (String × Nat)) :=
  match seen.updateTarget args with
  | none => (v.findCurrentHead args.claimId args.allowedSpaceIds).map fun current => (v, .stale current)
  | some _ => v.updateClaim env args fresh now

/-- `forgetClaim`, whose statement began when the memory was `seen`. -/
def forgetClaimSeen (args : ForgetClaimArgs) (now : Nat) (seen v : Vault) : Option (Vault × ClaimResult Unit) :=
  match seen.forgetTarget args with
  | none => (v.findCurrentHead args.claimId args.allowedSpaceIds).map fun current => (v, .stale current)
  | some _ => v.forgetClaim args now

/-- `restoreClaim`, which read the tomb when the memory was `read`, and whose statement began when it was `seen`: that no other row supersedes
the claim is asked of `seen`, since the subquery of a statement is not run again for the row it waited for. -/
def restoreClaimSeen (claimId : String) (allowedSpaceIds : List String) (read seen v : Vault) : Option (Vault × Bool) :=
  match read.claimTomb claimId allowedSpaceIds with
  | none => some (v, false)
  | some tomb =>
    if seen.revivable claimId tomb.1 ∧ v.supersededIn claimId tomb.1 then
      (v.graph.restoreNode claimId tomb.1 tomb.2).map fun r =>
        let revived := { v with
          graph := r.1
          claims := v.claims.revive claimId }
        (if r.2 then revived.audit tomb.1 .claimRestore claimId else revived, r.2)
    else some (v, false)

/-- `confirmClaim`, whose statement began when the memory was `seen`. -/
def confirmClaimSeen (claimId : String) (sensitive : Bool) (actor : Actor) (now : Nat) (seen v : Vault) : Vault × Bool :=
  if seen.isHead claimId then v.confirmClaim claimId sensitive actor now else (v, false)

/-- `forgetAllClaims`, whose statement began when the memory was `seen`: it ends the heads it saw that still are heads. -/
def forgetAllClaimsSeen (spaceId : String) (now : Nat) (clock : String → Nat) (seen v : Vault) : Vault × Nat :=
  let heads := v.claims.rows.filter fun c => c.spaceId = spaceId ∧ c.supersededAt = none ∧ seen.isHead c.id
  ({ v with
      claims := v.claims.finish (fun c => c.spaceId = spaceId ∧ c.supersededAt = none ∧ seen.isHead c.id) now
      graph := heads.foldl (fun g c => (g.deleteNode c.id spaceId (clock c.id) none).1) v.graph
      auditEvents := v.auditEvents ++ heads.map fun c => { spaceId, action := .claimForget, subjectId := c.id } }, heads.length)

/-- `resolveConflict`, which began to lock the contesting row when the memory was `seen`, and read the head of the losing chain, behind its own
write, when it was `read`. -/
def resolveConflictSeen (claimId : String) (keep : KeepSide) (allowedSpaceIds : List String) (now : Nat) (read seen v : Vault) :
    Option (Vault × Bool) :=
  match seen.contesting claimId allowedSpaceIds, v.contesting claimId allowedSpaceIds with
  | some _, some c =>
    let cleared := { v with claims := v.claims.clearConflict claimId }
    match keep.loser claimId c.conflictsWith with
    | none => some (cleared.audit c.spaceId .claimConflict claimId, true)
    | some loser =>
      ({ read with claims := read.claims.clearConflict claimId }.findCurrentHead loser allowedSpaceIds).bind fun head =>
        cleared.forgetLoser claimId c.spaceId allowedSpaceIds head now
  | _, _ => some (v, false)

end Vault

namespace VaultOp

/-- An operation as a call: the memory after it, and whether it answers that it did what it was asked. `confirmCandidate` is made of calls. -/
def runSeen (env : VaultEnv) (read seen v : Vault) (op : VaultOp) : Option (Vault × Bool) :=
  match op with
  | createClaim input fresh now => (v.createClaim env input fresh now).map fun r => (r.1, true)
  | updateClaim args fresh now => (Vault.updateClaimSeen env args fresh now seen v).map fun r => (r.1, r.2.hit)
  | forgetClaim args now => (Vault.forgetClaimSeen args now seen v).map fun r => (r.1, r.2.hit)
  | restoreClaim claimId allowedSpaceIds => Vault.restoreClaimSeen claimId allowedSpaceIds read seen v
  | forgetAllClaims spaceId now clock => some ((Vault.forgetAllClaimsSeen spaceId now clock seen v).1, true)
  | confirmClaim claimId sensitive actor now => some (Vault.confirmClaimSeen claimId sensitive actor now seen v)
  | resolveConflict claimId keep allowedSpaceIds now => Vault.resolveConflictSeen claimId keep allowedSpaceIds now read seen v
  | confirmCandidate _ _ _ _ => none
  | op => (op.run env v).map fun w => (w, true)

end VaultOp

/-- The memory, each state of it that a statement may have begun in, the latest first, and the calls that did what they were asked, likewise. -/
structure CallState where
  store : MemoryStore
  past : List Vault
  done : List VaultOp

/-- A call takes effect, given how many states ago it read and its statement began; or a space is opened or retired. -/
inductive CallAct where
  | call (op : VaultOp) (read seen : Nat)
  | openSpace (space : SpaceRow)
  | retire (spaceId : String) (now : Nat)

namespace CallState

def step (env : VaultEnv) (s : CallState) : CallAct → Option CallState
  | .call op read seen =>
    s.past[read]?.bind fun r => s.past[seen]?.bind fun e =>
      if ∀ spaceId ∈ op.fences s.store.vault, s.store.spaces.acceptsWrites spaceId then
        (op.runSeen env r e s.store.vault).map fun x =>
          { store := { s.store with vault := x.1 }
            past := x.1 :: s.past
            done := if x.2 then op :: s.done else s.done }
      else none
  | .openSpace space => (s.store.step env (.openSpace space)).map fun store => { s with store }
  | .retire spaceId now => (s.store.step env (.retire spaceId now)).map fun store => { s with store, past := store.vault :: s.past }

/-- No space, no memory, no call. -/
def empty : CallState where
  store := MemoryStore.empty
  past := [Vault.empty]
  done := []

end CallState

variable {v : Vault}

theorem Vault.claims_retire {spaceId : String} {now : Nat} :
    (v.retire spaceId now).claims = v.claims.filter fun c => c.spaceId ≠ spaceId := by
  unfold Vault.retire
  split <;> rfl

/-! ## What a call does to the claims -/

/-- What a call does to the claims, and whether it answers that it did it. The statement began when the memory was `seen`. -/
inductive CallEffect (seen v : Vault) : VaultOp → Bool → Claims → Prop where
  | untouched (op : VaultOp) (ok : Bool) (hok : ok = true → ∀ args fresh now, op ≠ .updateClaim args fresh now) :
    CallEffect seen v op ok v.claims
  | created (input : ClaimInput) (fresh : Nat → String) (now : Nat) (T : Claims) (hnew : ∀ n ∈ v.graph.nodes, n.id ≠ fresh 0)
      (h : v.claims.insert (input.toRow (fresh 0) now) = some T) : CallEffect seen v (.createClaim input fresh now) true T
  | superseded (args : UpdateClaimArgs) (fresh : Nat → String) (now : Nat) (prev : VaultClaim) (T : Claims)
      (htarget : v.updateTarget args = some prev) (hnew : ∀ n ∈ v.graph.nodes, n.id ≠ fresh 0)
      (h : v.claims.supersede args prev (fresh 0) now = some T) : CallEffect seen v (.updateClaim args fresh now) true T
  | forgotten (args : ForgetClaimArgs) (now : Nat) (htarget : ∃ c, v.forgetTarget args = some c) :
    CallEffect seen v (.forgetClaim args now) true (v.claims.finish (fun c => c.id = args.claimId) now)
  | revived (claimId : String) (allowedSpaceIds : List String) (ok : Bool) (hseen : ¬∃ s ∈ seen.claims, s.supersedes = some claimId) :
    CallEffect seen v (.restoreClaim claimId allowedSpaceIds) ok (v.claims.revive claimId)
  | emptied (spaceId : String) (now : Nat) (clock : String → Nat) :
    CallEffect seen v (.forgetAllClaims spaceId now clock) true
      (v.claims.finish (fun c => c.spaceId = spaceId ∧ c.supersededAt = none ∧ seen.isHead c.id) now)
  | confirmed (claimId : String) (sensitive : Bool) (actor : Actor) (now : Nat) (hhead : v.isHead claimId) :
    CallEffect seen v (.confirmClaim claimId sensitive actor now) true (v.claims.confirm claimId sensitive actor now)
  | cleared (claimId : String) (keep : KeepSide) (allowedSpaceIds : List String) (now : Nat) (ok : Bool) (c : VaultClaim)
      (hc : v.contesting claimId allowedSpaceIds = some c) :
    CallEffect seen v (.resolveConflict claimId keep allowedSpaceIds now) ok (v.claims.clearConflict claimId)
  | dropped (claimId : String) (keep : KeepSide) (allowedSpaceIds : List String) (now : Nat) (c : VaultClaim)
      (hc : v.contesting claimId allowedSpaceIds = some c) (head : String) :
    CallEffect seen v (.resolveConflict claimId keep allowedSpaceIds now) true
      ((v.claims.clearConflict claimId).finish (fun c => c.id = head) now)

namespace CallsAux

variable {env : VaultEnv} {seen read v w : Vault}

variable {id : String}

theorem new_of_insertNode {spaceId : String} {kind : NodeKind} {g g' : MemoryGraph} (h : g.insertNode id spaceId kind = some g') :
    ∀ n ∈ g.nodes, n.id ≠ id := by
  unfold MemoryGraph.insertNode at h
  obtain ⟨T, hT, _⟩ := Option.map_eq_some_iff.mp h
  exact Table.key_ne_of_insert hT

variable {claimId : String} {allowedSpaceIds : List String}

theorem isHead_of_contesting {c : VaultClaim}
    (h : v.contesting claimId allowedSpaceIds = some c) : c ∈ v.claims ∧ c.id = claimId ∧ c.headIn allowedSpaceIds ∧ c.conflictsWith ≠ none := by
  obtain ⟨hget, hcond⟩ := Option.filter_eq_some_iff.mp h
  obtain ⟨hmem, hid⟩ := Table.get_eq_some_iff.mp hget
  exact ⟨hmem, hid, by simpa using hcond⟩

variable {now : Nat}

theorem confirm_of_not_head {sensitive : Bool} {actor : Actor} (h : ¬v.isHead claimId) :
    v.claims.confirm claimId sensitive actor now = v.claims := by
  refine Table.update_eq_self _ ?_
  rintro c hc ⟨hid, hhead⟩
  exact h ⟨c, hc, hid, hhead⟩

/-! ### The operations that leave the claims alone -/

variable {fresh : Nat → String}

theorem claims_createNote {args : CreateNoteArgs} {r : Vault × String × Bool}
    (h : v.createNote env args fresh now = some r) : r.1.claims = v.claims := by
  obtain ⟨w, linked, x, hw, _, hx, hr⟩ := Vault.createNote_cases h
  obtain ⟨_, _, _, _, _, rfl⟩ := Vault.insertNote_cases hw
  obtain ⟨_, _, _, _, _, _, _, hx⟩ := Vault.insertNoteVersion_cases hx
  rw [hr, hx]
  rfl

theorem claims_reviseNote {args : ReviseNoteArgs} {r : Vault × ReviseResult}
    (h : v.reviseNote env args fresh now = some r) : r.1.claims = v.claims := by
  rcases Vault.reviseNote_cases h with ⟨hr, _⟩ | ⟨_, _, _, x, _, _, hx, hr⟩
  · rw [hr]
  · obtain ⟨_, _, _, _, _, _, _, hx⟩ := Vault.insertNoteVersion_cases hx
    rw [hr]
    simp only [hx]
    rfl

theorem claims_resolveTopic {args : ResolveArgs} {r : Vault × Topic} (h : Vault.resolveTopic env args id v v = some r) :
    r.1.claims = v.claims := by
  have hfall : ∀ state, (Vault.topicByKey env args.spaceId id v v).map (fun r => (r.1, { r.2 with state })) = some r →
      r.1.claims = v.claims := by
    intro state hf
    obtain ⟨x, hx, rfl⟩ := Option.map_eq_some_iff.mp hf
    have hclaims := MovesAux.claims_topicByKey hx
    exact hclaims
  unfold Vault.resolveTopic at h
  simp only at h
  split at h
  · exact hfall _ h
  · split at h
    · cases h
      rfl
    · split at h
      · exact hfall _ h
      · split at h
        · exact hfall _ h
        · exact MovesAux.claims_resolveTitle h

variable {r : Vault × Bool}

theorem claims_restoreNote {noteId spaceId : String} (h : v.restoreNote noteId spaceId = some r) :
    r.1.claims = v.claims := by
  unfold Vault.restoreNote at h
  split at h
  · cases h
    rfl
  · obtain ⟨x, _, rfl⟩ := Option.map_eq_some_iff.mp h
    split <;> rfl

theorem claims_forgetNote {args : ForgetNoteArgs} : (v.forgetNote args now).1.claims = v.claims := by
  unfold Vault.forgetNote
  simp only
  split
  · rfl
  · split <;> rfl

theorem claims_proposeCandidate {args : ProposeArgs} {known : Option String} {r : Vault × ProposeResult}
    (h : v.proposeCandidate args id known = some r) : r.1.claims = v.claims := by
  unfold Vault.proposeCandidate at h
  split at h
  · cases h
    rfl
  · split at h
    · cases h
      rfl
    · obtain ⟨T, _, rfl⟩ := Option.map_eq_some_iff.mp h
      rfl

theorem claims_rejectCandidate {candidateId : String} :
    (v.rejectCandidate candidateId allowedSpaceIds now).1.claims = v.claims := by
  unfold Vault.rejectCandidate
  split <;> rfl

/-! ### The calls -/

theorem effect_createClaim {input : ClaimInput} {r : Vault × String × Bool}
    (h : v.createClaim env input fresh now = some r) : CallEffect seen v (.createClaim input fresh now) true r.1.claims := by
  obtain ⟨graph, claims, x, _, hgraph, hclaims, hfile, rfl⟩ := Vault.createClaim_cases h
  have hx : x.claims = claims := by
    rcases hfile with ⟨_, rfl⟩ | ⟨noteId, y, _, hy, rfl, _⟩
    · rfl
    · obtain ⟨_, _, _, hy⟩ := Vault.fileUnder_cases hy
      rw [hy]
  have heff : CallEffect seen v (.createClaim input fresh now) true claims := .created input fresh now claims (new_of_insertNode hgraph) hclaims
  rw [← hx] at heff
  exact heff

theorem effect_updateClaimSeen {args : UpdateClaimArgs} {r : Vault × ClaimResult (String × Nat)}
    (h : Vault.updateClaimSeen env args fresh now seen v = some r) :
    CallEffect seen v (.updateClaim args fresh now) r.2.hit r.1.claims ∧ (r.2.hit = false → r.1 = v) := by
  have hstale : ∀ current, CallEffect seen v (.updateClaim args fresh now) (ClaimResult.stale (α := String × Nat) current).hit v.claims :=
    fun current => .untouched _ _ fun hok => by cases hok
  unfold Vault.updateClaimSeen at h
  split at h
  · obtain ⟨current, _, rfl⟩ := Option.map_eq_some_iff.mp h
    exact ⟨hstale current, fun _ => rfl⟩
  · rcases Vault.updateClaim_cases h with ⟨_, hv, current, hr⟩ | ⟨prev, graph, claims, w, htarget, hgraph, hclaims, hcarry, _, rfl⟩
    · rw [hv, hr]
      exact ⟨hstale current, fun _ => rfl⟩
    · have hw : w.claims = claims := by
        obtain ⟨_, _, hw⟩ := Vault.carryTopics_cases hcarry
        rcases hw with ⟨_, rfl⟩ | ⟨noteId, y, _, _, hy, rfl⟩
        · rfl
        · obtain ⟨_, _, _, hy⟩ := Vault.fileUnder_cases hy
          rw [hy]
      have heff : CallEffect seen v (.updateClaim args fresh now) true claims :=
        .superseded args fresh now prev claims htarget (new_of_insertNode hgraph) hclaims
      rw [← hw] at heff
      exact ⟨heff, fun hmiss => by cases hmiss⟩

theorem effect_forgetClaimSeen {args : ForgetClaimArgs} {r : Vault × ClaimResult Unit}
    (h : Vault.forgetClaimSeen args now seen v = some r) : CallEffect seen v (.forgetClaim args now) r.2.hit r.1.claims := by
  have hstale : ∀ current, CallEffect seen v (.forgetClaim args now) (ClaimResult.stale (α := Unit) current).hit v.claims :=
    fun current => .untouched _ _ fun hok => by cases hok
  unfold Vault.forgetClaimSeen at h
  split at h
  · obtain ⟨current, _, rfl⟩ := Option.map_eq_some_iff.mp h
    exact hstale current
  · unfold Vault.forgetClaim at h
    split at h
    · obtain ⟨current, _, rfl⟩ := Option.map_eq_some_iff.mp h
      exact hstale current
    · rename_i prev hprev
      cases h
      exact .forgotten args now ⟨prev, hprev⟩

theorem effect_restoreClaimSeen
    (h : Vault.restoreClaimSeen claimId allowedSpaceIds read seen v = some r) :
    CallEffect seen v (.restoreClaim claimId allowedSpaceIds) r.2 r.1.claims := by
  have hnone : CallEffect seen v (.restoreClaim claimId allowedSpaceIds) false v.claims := .untouched _ _ fun hok => by cases hok
  unfold Vault.restoreClaimSeen at h
  split at h
  · cases h
    exact hnone
  · split at h
    · rename_i hrev
      obtain ⟨x, _, rfl⟩ := Option.map_eq_some_iff.mp h
      have hclaims : ∀ y : Vault, y.claims = v.claims.revive claimId →
          CallEffect seen v (.restoreClaim claimId allowedSpaceIds) x.2 y.claims := by
        intro y hy
        rw [hy]
        exact .revived claimId allowedSpaceIds x.2 hrev.1.2
      refine hclaims _ ?_
      split <;> rfl
    · cases h
      exact hnone

theorem effect_confirmClaimSeen {sensitive : Bool} {actor : Actor} :
    CallEffect seen v (.confirmClaim claimId sensitive actor now) (Vault.confirmClaimSeen claimId sensitive actor now seen v).2
      (Vault.confirmClaimSeen claimId sensitive actor now seen v).1.claims := by
  have hnone : CallEffect seen v (.confirmClaim claimId sensitive actor now) false v.claims := .untouched _ _ fun hok => by cases hok
  unfold Vault.confirmClaimSeen
  split
  · by_cases hhead : v.isHead claimId
    · have hhit : decide (∃ c ∈ v.claims, c.id = claimId ∧ c.supersededAt = none) = true := decide_eq_true hhead
      simp only [Vault.confirmClaim, hhit]
      exact .confirmed claimId sensitive actor now hhead
    · have hmiss : decide (∃ c ∈ v.claims, c.id = claimId ∧ c.supersededAt = none) = false := decide_eq_false hhead
      simp only [Vault.confirmClaim, hmiss, confirm_of_not_head hhead]
      exact hnone
  · exact hnone

theorem effect_resolveConflictSeen {keep : KeepSide}
    (h : Vault.resolveConflictSeen claimId keep allowedSpaceIds now read seen v = some r) :
    CallEffect seen v (.resolveConflict claimId keep allowedSpaceIds now) r.2 r.1.claims := by
  unfold Vault.resolveConflictSeen at h
  split at h
  · rename_i c _ hc
    simp only at h
    split at h
    · cases h
      exact .cleared claimId keep allowedSpaceIds now true c hc
    · obtain ⟨head, hread, h⟩ := Option.bind_eq_some_iff.mp h
      unfold Vault.forgetLoser at h
      split at h
      · cases h
        exact .cleared claimId keep allowedSpaceIds now false c hc
      · rename_i next
        obtain ⟨x, hx, rfl⟩ := Option.map_eq_some_iff.mp h
        obtain ⟨y, res⟩ := x
        rcases Vault.forgetClaim_cases hx with ⟨hy, current, hres⟩ | ⟨_, _, _, _, _, hx⟩
        · simp only at hy hres
          subst hy hres
          exact .cleared claimId keep allowedSpaceIds now false c hc
        · obtain ⟨rfl, rfl⟩ := Prod.mk.inj hx
          exact .dropped claimId keep allowedSpaceIds now c hc next.id
  · cases h
    exact .untouched _ _ fun hok => by cases hok

end CallsAux

open CallsAux

variable {env : VaultEnv} {op : VaultOp}

theorem VaultOp.effect_of_runSeen {read seen w : Vault} {ok : Bool}
    (h : op.runSeen env read seen v = some (w, ok)) : CallEffect seen v op ok w.claims := by
  have hother : ∀ {op' : VaultOp}, op = op' → (∀ args fresh now, op' ≠ .updateClaim args fresh now) → w.claims = v.claims →
      CallEffect seen v op ok w.claims := by
    rintro _ rfl hne hclaims
    rw [hclaims]
    exact .untouched op ok fun _ => hne
  cases op with
  | createClaim input fresh now =>
    obtain ⟨r, hr, heq⟩ := Option.map_eq_some_iff.mp h
    cases heq
    exact effect_createClaim hr
  | updateClaim args fresh now =>
    obtain ⟨r, hr, heq⟩ := Option.map_eq_some_iff.mp h
    cases heq
    exact (effect_updateClaimSeen hr).1
  | forgetClaim args now =>
    obtain ⟨r, hr, heq⟩ := Option.map_eq_some_iff.mp h
    cases heq
    exact effect_forgetClaimSeen hr
  | restoreClaim claimId allowedSpaceIds => exact effect_restoreClaimSeen h
  | forgetAllClaims spaceId now clock =>
    cases h
    exact .emptied spaceId now clock
  | confirmClaim claimId sensitive actor now =>
    have heff : CallEffect seen v (.confirmClaim claimId sensitive actor now) _
        (Vault.confirmClaimSeen claimId sensitive actor now seen v).1.claims := effect_confirmClaimSeen
    rw [Option.some.inj h] at heff
    exact heff
  | resolveConflict claimId keep allowedSpaceIds now => exact effect_resolveConflictSeen h
  | confirmCandidate args fresh₁ fresh₂ now => cases h
  | attachToTopic claimId noteId edgeId =>
    obtain ⟨x, hx, heq⟩ := Option.map_eq_some_iff.mp h
    obtain ⟨r, hr, rfl⟩ := Option.map_eq_some_iff.mp hx
    cases heq
    obtain ⟨_, _, _, hfile⟩ := Vault.attachToTopic_cases hr
    obtain ⟨_, _, _, hr⟩ := Vault.fileUnder_cases hfile
    exact hother rfl (fun _ _ _ hne => by cases hne) (by rw [hr])
  | createNote args fresh now =>
    obtain ⟨x, hx, heq⟩ := Option.map_eq_some_iff.mp h
    obtain ⟨r, hr, rfl⟩ := Option.map_eq_some_iff.mp hx
    cases heq
    exact hother rfl (fun _ _ _ hne => by cases hne) (claims_createNote hr)
  | reviseNote args fresh now =>
    obtain ⟨x, hx, heq⟩ := Option.map_eq_some_iff.mp h
    obtain ⟨r, hr, rfl⟩ := Option.map_eq_some_iff.mp hx
    cases heq
    exact hother rfl (fun _ _ _ hne => by cases hne) (claims_reviseNote hr)
  | forgetNote args now =>
    cases h
    exact hother rfl (fun _ _ _ hne => by cases hne) claims_forgetNote
  | restoreNote noteId spaceId =>
    obtain ⟨x, hx, heq⟩ := Option.map_eq_some_iff.mp h
    obtain ⟨r, hr, rfl⟩ := Option.map_eq_some_iff.mp hx
    cases heq
    exact hother rfl (fun _ _ _ hne => by cases hne) (claims_restoreNote hr)
  | resolveTopic args id =>
    obtain ⟨x, hx, heq⟩ := Option.map_eq_some_iff.mp h
    obtain ⟨r, hr, rfl⟩ := Option.map_eq_some_iff.mp hx
    cases heq
    exact hother rfl (fun _ _ _ hne => by cases hne) (claims_resolveTopic hr)
  | proposeCandidate args id known =>
    obtain ⟨x, hx, heq⟩ := Option.map_eq_some_iff.mp h
    obtain ⟨r, hr, rfl⟩ := Option.map_eq_some_iff.mp hx
    cases heq
    exact hother rfl (fun _ _ _ hne => by cases hne) (claims_proposeCandidate hr)
  | rejectCandidate candidateId allowedSpaceIds now =>
    cases h
    exact hother rfl (fun _ _ _ hne => by cases hne) claims_rejectCandidate
  | linkNodes spaceId a b relation edgeId =>
    obtain ⟨x, hx, heq⟩ := Option.map_eq_some_iff.mp h
    obtain ⟨r, _, rfl⟩ := Option.map_eq_some_iff.mp hx
    cases heq
    exact hother rfl (fun _ _ _ hne => by cases hne) rfl
  | unlinkEdge edgeId spaceId now =>
    cases h
    exact hother rfl (fun _ _ _ hne => by cases hne) rfl

/-- A call that nothing overtakes is the operation. -/
theorem VaultOp.runSeen_self
    (hop : ∀ args fresh₁ fresh₂ now, op ≠ .confirmCandidate args fresh₁ fresh₂ now) :
    (op.runSeen env v v v).map Prod.fst = op.run env v := by
  have hfst : ∀ {α β : Type} (f : α → β) (o : Option (Vault × α)), (o.map fun r => (r.1, f r.2)).map Prod.fst = o.map Prod.fst := by
    intro α β f o
    cases o <;> rfl
  have hrest : ∀ o : Option Vault, (o.map fun w => (w, true)).map Prod.fst = o := by
    intro o
    cases o <;> rfl
  cases op with
  | createClaim input fresh now => exact hfst (fun _ => true) _
  | updateClaim args fresh now =>
    have hsame : Vault.updateClaimSeen env args fresh now v v = v.updateClaim env args fresh now := by
      unfold Vault.updateClaimSeen
      split
      · rename_i hnone
        simp only [Vault.updateClaim, hnone]
      · rfl
    simp only [runSeen, run, hsame]
    exact hfst ClaimResult.hit _
  | forgetClaim args now =>
    have hsame : Vault.forgetClaimSeen args now v v = v.forgetClaim args now := by
      unfold Vault.forgetClaimSeen Vault.forgetClaim Vault.forgetTarget
      split
      · rename_i hnone
        simp only [hnone]
      · rfl
    simp only [runSeen, run, hsame]
    exact hfst ClaimResult.hit _
  | restoreClaim claimId allowedSpaceIds =>
    have hsame : Vault.restoreClaimSeen claimId allowedSpaceIds v v v = v.restoreClaim claimId allowedSpaceIds := by
      unfold Vault.restoreClaimSeen Vault.restoreClaim
      split
      · rename_i hnone
        simp only [hnone]
      · rename_i tomb htomb
        simp only [htomb, Vault.restoreClaimFrom]
        exact if_congr (and_iff_left_of_imp And.left) rfl rfl
    simp [runSeen, run, hsame]
  | forgetAllClaims spaceId now clock =>
    have hheads : ∀ c ∈ v.claims, (c.spaceId = spaceId ∧ c.supersededAt = none ∧ v.isHead c.id) ↔ (c.spaceId = spaceId ∧ c.supersededAt = none) := by
      intro c hc
      constructor
      · rintro ⟨hspace, hlive, _⟩
        exact ⟨hspace, hlive⟩
      · rintro ⟨hspace, hlive⟩
        exact ⟨hspace, hlive, c, hc, rfl, hlive⟩
    have hrows : v.claims.rows.filter (fun c => decide (c.spaceId = spaceId ∧ c.supersededAt = none ∧ v.isHead c.id)) =
        v.claims.rows.filter fun c => decide (c.spaceId = spaceId ∧ c.supersededAt = none) :=
      List.filter_congr fun c hc => decide_eq_decide.mpr (hheads c hc)
    have hfinish : v.claims.finish (fun c => decide (c.spaceId = spaceId ∧ c.supersededAt = none ∧ v.isHead c.id)) now =
        v.claims.finish (fun c => decide (c.spaceId = spaceId ∧ c.supersededAt = none)) now :=
      Table.update_congr _ fun c hc => by simpa using hheads c hc
    simp only [runSeen, run, Option.map_some, Vault.forgetAllClaimsSeen, Vault.forgetAllClaims, hrows, hfinish]
  | confirmClaim claimId sensitive actor now =>
    simp only [runSeen, run, Option.map_some, Vault.confirmClaimSeen]
    split
    · rfl
    · rename_i hhead
      simp only [Vault.confirmClaim, confirm_of_not_head hhead]
  | resolveConflict claimId keep allowedSpaceIds now =>
    have hsame : Vault.resolveConflictSeen claimId keep allowedSpaceIds now v v v = v.resolveConflict claimId keep allowedSpaceIds now := by
      unfold Vault.resolveConflictSeen Vault.resolveConflict
      cases v.contesting claimId allowedSpaceIds <;> rfl
    simp [runSeen, run, hsame]
  | confirmCandidate args fresh₁ fresh₂ now => exact absurd rfl (hop args fresh₁ fresh₂ now)
  | attachToTopic claimId noteId edgeId
  | createNote args fresh now
  | reviseNote args fresh now
  | restoreNote noteId spaceId
  | resolveTopic args id
  | proposeCandidate args id known
  | linkNodes spaceId a b relation edgeId => exact hrest _
  | forgetNote args now | rejectCandidate candidateId allowedSpaceIds now | unlinkEdge edgeId spaceId now => rfl

theorem VaultOp.keepsNodes_of_runSeen {read seen w : Vault} {ok : Bool}
    (h : op.runSeen env read seen v = some (w, ok)) : MemoryGraph.KeepsNodes MemoryGraph.AnyDies v.graph w.graph := by
  have hrest : (op.run env v).map (fun w => (w, true)) = some (w, ok) → MemoryGraph.KeepsNodes MemoryGraph.AnyDies v.graph w.graph := by
    intro hrun
    obtain ⟨x, hx, heq⟩ := Option.map_eq_some_iff.mp hrun
    cases heq
    exact Vault.keepsNodes_run (VaultOp.run_of_run hx)
  cases op with
  | createClaim input fresh now =>
    obtain ⟨r, hr, heq⟩ := Option.map_eq_some_iff.mp h
    cases heq
    exact Vault.keepsNodes_step (S := [input.spaceId]) (.createClaim input fresh now r List.mem_cons_self hr)
  | updateClaim args fresh now =>
    obtain ⟨r, hr, heq⟩ := Option.map_eq_some_iff.mp h
    cases heq
    unfold Vault.updateClaimSeen at hr
    split at hr
    · obtain ⟨current, _, rfl⟩ := Option.map_eq_some_iff.mp hr
      exact .refl
    · exact Vault.keepsNodes_step (S := args.allowedSpaceIds) (.updateClaim args fresh now r (fun _ _ _ hc => hc) hr)
  | forgetClaim args now =>
    obtain ⟨r, hr, heq⟩ := Option.map_eq_some_iff.mp h
    cases heq
    unfold Vault.forgetClaimSeen at hr
    split at hr
    · obtain ⟨current, _, rfl⟩ := Option.map_eq_some_iff.mp hr
      exact .refl
    · have hstep : VaultStep env [] v r.1 := .forgetClaim args now r hr
      exact Vault.keepsNodes_step hstep
  | restoreClaim claimId allowedSpaceIds =>
    simp only [runSeen, Vault.restoreClaimSeen] at h
    split at h
    · cases h
      exact .refl
    · split at h
      · obtain ⟨g, hg, heq⟩ := Option.map_eq_some_iff.mp h
        cases heq
        have hgraph : ∀ y : Vault, y.graph = g.1 → MemoryGraph.KeepsNodes MemoryGraph.AnyDies v.graph y.graph := by
          intro y hy
          rw [hy]
          exact MemoryGraph.keepsNodes_restoreNode hg
        refine hgraph _ ?_
        split <;> rfl
      · cases h
        exact .refl
  | forgetAllClaims spaceId now clock =>
    cases h
    exact (MemoryGraph.keepsNodes_deleteClaims spaceId clock _).any
  | confirmClaim claimId sensitive actor now =>
    have hgraph : (Vault.confirmClaimSeen claimId sensitive actor now seen v).1.graph = v.graph := by
      unfold Vault.confirmClaimSeen
      split <;> rfl
    rw [Option.some.inj h] at hgraph
    rw [hgraph]
    exact .refl
  | resolveConflict claimId keep allowedSpaceIds now =>
    simp only [runSeen, Vault.resolveConflictSeen] at h
    split at h
    · split at h
      · cases h
        exact .refl
      · obtain ⟨head, _, h⟩ := Option.bind_eq_some_iff.mp h
        rcases Vault.forgetLoser_cases h with hw | ⟨c, x, _, hx, hw⟩
        · simp only at hw
          rw [hw]
          exact .refl
        · have hstep : VaultStep env [] _ x := .forgetClaim _ now (x, .ok ()) hx
          have hkeep := Vault.keepsNodes_step hstep
          simp only at hw
          rw [hw]
          exact hkeep
    · cases h
      exact .refl
  | confirmCandidate args fresh₁ fresh₂ now => cases h
  | attachToTopic claimId noteId edgeId
  | createNote args fresh now
  | reviseNote args fresh now
  | forgetNote args now
  | restoreNote noteId spaceId
  | resolveTopic args id
  | proposeCandidate args id known
  | rejectCandidate candidateId allowedSpaceIds now
  | linkNodes spaceId a b relation edgeId
  | unlinkEdge edgeId spaceId now => exact hrest h

namespace CallState

theorem step_cases {env : VaultEnv} {s t : CallState} {a : CallAct} (h : s.step env a = some t) :
    (∃ op read seen r e ok, a = .call op read seen ∧ s.past[read]? = some r ∧ s.past[seen]? = some e ∧
        (∀ spaceId ∈ op.fences s.store.vault, s.store.spaces.acceptsWrites spaceId) ∧
        op.runSeen env r e s.store.vault = some (t.store.vault, ok) ∧ t.store.spaces = s.store.spaces ∧
        t.past = t.store.vault :: s.past ∧ t.done = if ok then op :: s.done else s.done) ∨
      (∃ space, a = .openSpace space ∧ t.store.vault = s.store.vault ∧ t.past = s.past ∧ t.done = s.done) ∨
      ∃ spaceId now, a = .retire spaceId now ∧ t.store.vault = s.store.vault.retire spaceId now ∧ t.past = t.store.vault :: s.past ∧
        t.done = s.done := by
  cases a with
  | call op read seen =>
    obtain ⟨r, hread, h⟩ := Option.bind_eq_some_iff.mp h
    obtain ⟨e, hseen, h⟩ := Option.bind_eq_some_iff.mp h
    split at h
    · rename_i hfences
      obtain ⟨x, hx, rfl⟩ := Option.map_eq_some_iff.mp h
      exact .inl ⟨op, read, seen, r, e, x.2, rfl, hread, hseen, hfences, hx, rfl, rfl, rfl⟩
    · cases h
  | openSpace space =>
    obtain ⟨store, hstore, rfl⟩ := Option.map_eq_some_iff.mp h
    refine .inr (.inl ⟨space, rfl, ?_, rfl, rfl⟩)
    simp only [MemoryStore.step] at hstore
    split at hstore
    · obtain ⟨spaces, _, rfl⟩ := Option.map_eq_some_iff.mp hstore
      rfl
    · cases hstore
  | retire spaceId now =>
    cases h
    exact .inr (.inr ⟨spaceId, now, rfl, rfl, rfl, rfl⟩)

end CallState

end Capka

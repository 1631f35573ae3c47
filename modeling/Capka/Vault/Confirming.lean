import Capka.Vault.Approved

/-!
# Confirmations side by side

A person's confirmations of candidates, each a transaction that takes one statement after another, in any order and with whatever others do to
the claims in between. A row a transaction wrote stays locked until it ends, and so does its candidate. A statement that had to wait for its
row began when the claims were `seen`. What the graph of the memory refuses is an abort.
-/

namespace Capka

namespace Confirming

/-- Claims as a memory of their own. -/
def memory (T : Claims) : Vault := { Vault.empty with claims := T }

/-- Candidates as a memory of their own. -/
def queue (C : Table MemoryCandidate MemoryCandidate.id) : Vault := { Vault.empty with candidates := C }

/-- What `targetHead` answers, and the heads it read. -/
structure Aim where
  heads : List VaultClaim
  head : Option VaultClaim
  retire : Option VaultClaim

/-- How far a confirmation is: the space is fenced, the candidate is taken, the heads are read, the contested head is ended, the claim is
written, the claim is approved. -/
inductive Phase where
  | fenced
  | taken (cand : MemoryCandidate) (attempt : Nat)
  | aimed (cand : MemoryCandidate) (attempt : Nat) (aim : Aim)
  | cleared (cand : MemoryCandidate) (attempt : Nat) (aim : Aim)
  | written (cand : MemoryCandidate) (attempt : Nat) (aim : Aim) (claimId : String) (sensitive : Bool)
  | approved (cand : MemoryCandidate) (aim : Aim) (claimId : String)

namespace Phase

/-- The candidate, once it is taken. -/
def cand : Phase → Option MemoryCandidate
  | fenced => none
  | taken cand _ | aimed cand _ _ | cleared cand _ _ | written cand _ _ _ _ | approved cand _ _ => some cand

/-- The attempt the confirmation is in. -/
def attempt : Phase → Nat
  | fenced | approved _ _ _ => 0
  | taken _ n | aimed _ n _ | cleared _ n _ | written _ n _ _ _ => n

end Phase

/-- An open confirmation: the space it holds, the claims it has locked, and the rows of them it wrote. -/
structure Tx where
  id : Nat
  args : ConfirmArgs
  share : String
  stamp : Nat
  phase : Phase
  locks : List String
  own : Claims

/-- What a statement leads to, or a lost race. -/
inductive Outcome where
  | go (claims : Claims) (locks : List String) (phase : Phase)
  | retry

namespace Tx

/-- The claims as the transaction sees them. -/
def view (t : Tx) (T : Claims) : Claims := T.merge Table.empty t.own

/-- The person's wording, or the candidate's. -/
def statement (t : Tx) (cand : MemoryCandidate) : String := (t.args.statement.map fitStatement).getD cand.statement

def aim (env : VaultEnv) (t : Tx) (cand : MemoryCandidate) (T : Claims) : Aim where
  heads := (memory T).listHeadClaims cand.spaceId
  head := ((memory T).targetHead env cand.conflictsWith cand.spaceId (fitSlotKey cand.slotKey) (t.statement cand)).1
  retire := ((memory T).targetHead env cand.conflictsWith cand.spaceId (fitSlotKey cand.slotKey) (t.statement cand)).2

/-- The arguments with which the contested head is ended. -/
def retireArgs (t : Tx) (retire : VaultClaim) : ForgetClaimArgs where
  claimId := retire.id
  expectedRevision := retire.revision
  allowedSpaceIds := t.args.allowedSpaceIds
  requireCreatedTaskId := none

/-- The arguments with which a head is superseded. -/
def correctArgs (t : Tx) (cand : MemoryCandidate) (usable : VaultClaim) : UpdateClaimArgs where
  claimId := usable.id
  expectedRevision := usable.revision
  patch :=
    { statement := some (t.statement cand), value := cand.value.map some, slotKey := none, sensitive := usable.sensitive || cand.sensitive,
      topicNoteId := none }
  sourceClass := .ownerAuthored
  allowedSpaceIds := t.args.allowedSpaceIds

/-- The claim that is written where there is no head. -/
def input (t : Tx) (cand : MemoryCandidate) : ClaimInput where
  spaceId := cand.spaceId
  statement := t.statement cand
  slotKey := fitSlotKey cand.slotKey
  value := cand.value
  sensitive := cand.sensitive
  topicNoteId := none
  sourceClass := .ownerAuthored
  createdTaskId := none
  conflictsWith := none

/-- The head says what is confirmed. -/
def agrees (env : VaultEnv) (t : Tx) (cand : MemoryCandidate) (usable : VaultClaim) : Prop :=
  norm env usable.statement = norm env (t.statement cand) ∧ valueAgrees usable.value cand.value

instance (env : VaultEnv) (t : Tx) (cand : MemoryCandidate) (usable : VaultClaim) : Decidable (t.agrees env cand usable) := by
  unfold agrees
  infer_instance

/-- `confirmClaim`. -/
def approve (t : Tx) (claimId : String) (sensitive : Bool) (seen : Claims) (now : Nat) (phase : Phase) (T : Claims) : Outcome :=
  if (memory seen).isHead claimId ∧ (memory T).isHead claimId then .go (T.confirm claimId sensitive t.args.actor now) [claimId] phase
  else .retry

/-- The contested head is ended. -/
def clear (t : Tx) (cand : MemoryCandidate) (n : Nat) (aim : Aim) (seen : Claims) (now : Nat) (T : Claims) : Outcome :=
  match aim.retire with
  | none => .go T [] (.cleared cand n aim)
  | some retire =>
    if ((memory seen).forgetTarget (t.retireArgs retire)).isSome ∧ ((memory T).forgetTarget (t.retireArgs retire)).isSome then
      .go (T.finish (fun c => c.id = retire.id) now) [retire.id] (.cleared cand n aim)
    else .retry

/-- The head is approved or superseded, or there is none and the claim is written; `none` is a throw. -/
def land (env : VaultEnv) (t : Tx) (cand : MemoryCandidate) (n : Nat) (aim : Aim) (seen : Claims) (fresh : String) (now : Nat) (T : Claims) :
    Option Outcome :=
  match aim.head with
  | some usable =>
    if t.agrees env cand usable then
      some (t.approve usable.id (usable.sensitive || cand.sensitive) seen now (.approved cand aim usable.id) T)
    else
      match (memory seen).updateTarget (t.correctArgs cand usable), (memory T).updateTarget (t.correctArgs cand usable) with
      | some _, some prev =>
        (T.supersede (t.correctArgs cand usable) prev fresh now).map fun T' =>
          .go T' [usable.id, fresh] (.written cand n aim fresh (usable.sensitive || cand.sensitive))
      | _, _ => some .retry
  | none =>
    (T.insert ((t.input cand).toRow fresh now)).map fun T' => .go T' [fresh] (.written cand n aim fresh cand.sensitive)

/-- The next statement. -/
def next (env : VaultEnv) (t : Tx) (seen : Claims) (fresh : String) (now : Nat) (T : Claims) : Option Outcome :=
  match t.phase with
  | .fenced => none
  | .taken cand n => some (.go T [] (.aimed cand n (t.aim env cand T)))
  | .aimed cand n aim => some (t.clear cand n aim seen now T)
  | .cleared cand n aim => t.land env cand n aim seen fresh now T
  | .written cand _ aim claimId sensitive => some (t.approve claimId sensitive seen now (.approved cand aim claimId) T)
  | .approved _ _ _ => none

end Tx

/-- The memory as confirmations see it. The ids of all candidates there ever were, and of those that were resolved, one for each time, are on
record for the statements only. -/
structure ConfirmDb where
  spaces : Spaces
  claims : Claims
  candidates : Table MemoryCandidate MemoryCandidate.id
  used : List String
  txs : Table Tx Tx.id
  resolutions : List String

/-- What happens: others change claims, a candidate is proposed or rejected, all of a space are, a space is opened or retired; a confirmation
begins, takes its next statement, commits, or is aborted. -/
inductive ConfirmAct where
  | others (claims : Claims)
  | propose (args : ProposeArgs) (id : String) (known : Option String)
  | reject (candidateId : String) (allowedSpaceIds : List String) (now : Nat)
  | rejectAll (spaceId : String) (now : Nat)
  | openSpace (space : SpaceRow)
  | retire (spaceId : String) (now : Nat)
  | start (id : Nat) (args : ConfirmArgs)
  | next (id : Nat) (seen : Claims) (fresh : String) (now : Nat)
  | commit (id : Nat)
  | abort (id : Nat)

instance (r c : VaultClaim) : Decidable (r.SameRow c) := by
  unfold VaultClaim.SameRow
  infer_instance

namespace ConfirmDb

/-- The claims may become these: locked rows stay as they are, and rows of the spaces that confirmations hold stay what they say. -/
def Allows (db : ConfirmDb) (T : Claims) : Prop :=
  ∀ t ∈ db.txs, (∀ k ∈ t.locks, T.get k = db.claims.get k) ∧ ∀ c ∈ db.claims, c.spaceId = t.share → ∃ x ∈ T, x.SameRow c

instance (db : ConfirmDb) (T : Claims) : Decidable (db.Allows T) := by
  unfold Allows
  infer_instance

theorem resolvedAt_id (now : Nat) (c : MemoryCandidate) : ({ c with resolvedAt := some now } : MemoryCandidate).id = c.id := rfl

/-- A confirmation holds the candidate. -/
def Taken (db : ConfirmDb) (candidateId : String) : Prop := ∃ t ∈ db.txs, ∃ c ∈ t.phase.cand, c.id = candidateId

instance (db : ConfirmDb) (candidateId : String) : Decidable (db.Taken candidateId) := by
  unfold Taken
  infer_instance

/-- The candidates a rejection of all resolves. -/
def openIn (spaceId : String) (db : ConfirmDb) : List MemoryCandidate :=
  db.candidates.rows.filter fun c => c.spaceId = spaceId ∧ c.resolvedAt = none

/-- The statement that takes the candidate, or finds none to take; it waits for another confirmation that took it. -/
def take (t : Tx) (now : Nat) (db : ConfirmDb) : Option ConfirmDb :=
  match (db.candidates.get t.args.candidateId).filter fun c => c.resolvedAt = none ∧ c.spaceId ∈ t.args.allowedSpaceIds with
  | none => some { db with txs := db.txs.erase t.id }
  | some cand => if db.Taken cand.id then none else some { db with txs := db.txs.put { t with stamp := now, phase := .taken cand 0 } }

/-- A statement's outcome: its locks, which it waits for, and its rows; or the next attempt, or the answer to try again. -/
def perform (t : Tx) (db : ConfirmDb) : Outcome → Option ConfirmDb
  | .go T locks phase =>
    if ∀ u ∈ db.txs, u.id ≠ t.id → ∀ k ∈ locks, k ∉ u.locks then
      some { db with
        txs := db.txs.put { t with phase, locks := locks ++ t.locks, own := T.filter fun c => c.id ∈ locks ++ t.locks } }
    else none
  | .retry =>
    match t.phase.cand with
    | some cand =>
      if t.phase.attempt = 0 then some { db with txs := db.txs.put { t with phase := .taken cand 1, locks := [], own := Table.empty } }
      else some { db with txs := db.txs.erase t.id }
    | none => none

/-- The end of a confirmation. -/
def commit (t : Tx) (cand : MemoryCandidate) (claimId : String) (db : ConfirmDb) : ConfirmDb :=
  { db with
    claims := t.view db.claims
    candidates := db.candidates.update (fun c => c.id = cand.id) (fun c => { c with resolvedAt := some t.stamp, claimId := some claimId })
      fun _ => rfl
    resolutions := cand.id :: db.resolutions
    txs := db.txs.erase t.id }

def step (env : VaultEnv) (db : ConfirmDb) : ConfirmAct → Option ConfirmDb
  | .others claims => if db.Allows claims then some { db with claims } else none
  | .propose args id known =>
    if id ∈ db.used then none
    else ((queue db.candidates).proposeCandidate args id known).map fun r => { db with candidates := r.1.candidates, used := id :: db.used }
  | .reject candidateId allowedSpaceIds now =>
    if db.Taken candidateId then none
    else
      let r := (queue db.candidates).rejectCandidate candidateId allowedSpaceIds now
      some { db with
        candidates := r.1.candidates
        resolutions := if r.2 then candidateId :: db.resolutions else db.resolutions }
  | .rejectAll spaceId now =>
    if ∃ c ∈ db.openIn spaceId, db.Taken c.id then none
    else
      some { db with
        candidates := db.candidates.update (fun c => c.spaceId = spaceId ∧ c.resolvedAt = none) (fun c => { c with resolvedAt := some now })
          (resolvedAt_id now)
        resolutions := (db.openIn spaceId).map MemoryCandidate.id ++ db.resolutions }
  | .openSpace space => (db.spaces.insert space).map fun spaces => { db with spaces }
  | .retire spaceId now =>
    let claims := db.claims.filter fun c => c.spaceId ≠ spaceId
    if (∃ t ∈ db.txs, t.share = spaceId) ∨ ¬db.Allows claims then none
    else some { db with
      spaces := db.spaces.close spaceId now
      claims
      candidates := db.candidates.filter fun c => c.spaceId ≠ spaceId }
  | .start id args =>
    match (db.candidates.get args.candidateId).filter fun c => c.spaceId ∈ args.allowedSpaceIds with
    | none => some db
    | some cand =>
      if ¬db.spaces.acceptsWrites cand.spaceId then some db
      else
        (db.txs.insert { id, args, share := cand.spaceId, stamp := 0, phase := .fenced, locks := [], own := Table.empty }).map fun txs =>
          { db with txs }
  | .next id seen fresh now =>
    (db.txs.get id).bind fun t =>
      match t.phase with
      | .fenced => db.take t now
      | _ => (t.next env seen fresh now (t.view db.claims)).bind fun o => db.perform t o
  | .commit id =>
    (db.txs.get id).bind fun t =>
      match t.phase with
      | .approved cand _ claimId => some (db.commit t cand claimId)
      | _ => none
  | .abort id => some { db with txs := db.txs.erase id }

end ConfirmDb

/-! ## What a transaction writes -/

namespace ConfirmAux

theorem get_restrict (T : Claims) (locks : List String) (k : String) :
    (T.filter fun c => c.id ∈ locks).get k = if k ∈ locks then T.get k else none := by
  split
  · rename_i hk
    cases hg : T.get k with
    | none => exact Table.get_eq_none_iff.2 fun c hc => Table.get_eq_none_iff.1 hg c (Table.mem_filter.1 hc).1
    | some c =>
      obtain ⟨hc, rfl⟩ := Table.get_eq_some_iff.1 hg
      exact Table.get_eq_some_iff.2 ⟨Table.mem_filter.2 ⟨hc, decide_eq_true hk⟩, rfl⟩
  · rename_i hk
    refine Table.get_eq_none_iff.2 fun c hc heq => hk ?_
    have hmem := of_decide_eq_true (Table.mem_filter.1 hc).2
    rwa [heq] at hmem

theorem get_view (t : Tx) (T : Claims) (k : String) : (t.view T).get k = (t.own.get k).or (T.get k) := by
  have hempty : (Table.empty : Claims).get k = none := rfl
  rw [Tx.view, Table.get_merge, hempty]
  cases t.own.get k with
  | none => rfl
  | some c => rfl

/-- Each row is still there, and says the same. -/
def Grows (T T' : Claims) : Prop := ∀ k x, T.get k = some x → ∃ y, T'.get k = some y ∧ y.SameRow x

variable {T T' : Claims}

theorem grows_of_mem (h : ∀ x ∈ T, ∃ y ∈ T', y.SameRow x) : Grows T T' := by
  intro k x hx
  obtain ⟨hmem, rfl⟩ := Table.get_eq_some_iff.1 hx
  obtain ⟨y, hy, hrow⟩ := h x hmem
  exact ⟨y, Table.get_eq_some_iff.2 ⟨hy, hrow.1⟩, hrow⟩

/-- What a statement wrote: only rows under its keys are changed or new, and no row says something else. -/
structure Wrote (T T' : Claims) (keys : List String) : Prop where
  grows : Grows T T'
  frame : ∀ k, k ∉ keys → T'.get k = T.get k
  there : ∀ k ∈ keys, ∃ c, T'.get k = some c

theorem Wrote.refl (T : Claims) : Wrote T T [] where
  grows := fun _ x hx => ⟨x, hx, .refl x⟩
  frame := fun _ _ => rfl
  there := fun _ hk => absurd hk List.not_mem_nil

theorem Wrote.trans {T'' : Claims} {keys keys' : List String} (h : Wrote T T' keys) (h' : Wrote T' T'' keys') :
    Wrote T T'' (keys ++ keys') where
  grows := by
    intro k x hx
    obtain ⟨y, hy, hrow⟩ := h.grows k x hx
    obtain ⟨z, hz, hrow'⟩ := h'.grows k y hy
    exact ⟨z, hz, hrow'.trans hrow⟩
  frame := by
    intro k hk
    rw [List.mem_append, not_or] at hk
    exact (h'.frame k hk.2).trans (h.frame k hk.1)
  there := by
    intro k hk
    rcases List.mem_append.1 hk with hk | hk
    · obtain ⟨c, hc⟩ := h.there k hk
      obtain ⟨y, hy, -⟩ := h'.grows k c hc
      exact ⟨y, hy⟩
    · exact h'.there k hk

theorem get_update_self {p : VaultClaim → Prop} [DecidablePred p] {f : VaultClaim → VaultClaim} (hf : ∀ r, (f r).id = r.id)
    {k : String} {c : VaultClaim} (hc : T.get k = some c) (hp : p c) : (T.update p f hf).get k = some (f c) := by
  obtain ⟨hmem, rfl⟩ := Table.get_eq_some_iff.1 hc
  exact Table.get_eq_some_iff.2 ⟨(Table.mem_update hf).2 (.inl ⟨c, hmem, hp, rfl⟩), hf c⟩

theorem wrote_update {p : VaultClaim → Prop} [DecidablePred p] {f : VaultClaim → VaultClaim} (hf : ∀ r, (f r).id = r.id)
    (hrow : ∀ r, (f r).SameRow r) {k : String} (hk : ∀ c, p c → c.id = k) {c : VaultClaim} (hc : T.get k = some c) :
    Wrote T (T.update p f hf) [k] where
  grows := by
    refine grows_of_mem fun x hx => ?_
    obtain ⟨y, hy, -, rfl | rfl⟩ := Table.exists_mem_update p hf hx
    · exact ⟨_, hy, hrow x⟩
    · exact ⟨y, hy, .refl y⟩
  frame := by
    intro i hi
    have hne : i ≠ k := fun heq => hi (List.mem_singleton.2 heq)
    cases hg : T.get i with
    | none =>
      refine Table.get_eq_none_iff.2 fun y hy heq => ?_
      obtain ⟨x, hx, hid, -⟩ := Table.exists_of_mem_update hf hy
      exact Table.get_eq_none_iff.1 hg x hx (hid.symm.trans heq)
    | some x =>
      obtain ⟨hx, rfl⟩ := Table.get_eq_some_iff.1 hg
      exact Table.get_eq_some_iff.2 ⟨(Table.mem_update hf).2 (.inr ⟨hx, fun hp => hne (hk x hp)⟩), rfl⟩
  there := by
    intro i hi
    obtain rfl := List.mem_singleton.1 hi
    obtain ⟨y, hy, -⟩ := (grows_of_mem (T := T) (fun x hx => by
      obtain ⟨y, hy, -, rfl | rfl⟩ := Table.exists_mem_update p hf hx
      · exact ⟨_, hy, hrow x⟩
      · exact ⟨y, hy, .refl y⟩)) i c hc
    exact ⟨y, hy⟩

theorem wrote_insert {r : VaultClaim} (h : T.insert r = some T') : Wrote T T' [r.id] where
  grows := grows_of_mem fun x hx => ⟨x, (Table.mem_of_insert h).2 (.inl hx), .refl x⟩
  frame := by
    intro k hk
    rw [Table.get_of_insert h, if_neg fun heq => hk (List.mem_singleton.2 heq.symm)]
  there := by
    intro k hk
    obtain rfl := List.mem_singleton.1 hk
    exact ⟨r, by rw [Table.get_of_insert h, if_pos rfl]⟩

end ConfirmAux

/-- The rows a transaction wrote are the ones it locked, and they say what the committed ones say. -/
structure LocksOk (T : Claims) (t : Tx) : Prop where
  kept : ∀ k ∈ t.locks, ∃ c, t.own.get k = some c
  only : ∀ k c, t.own.get k = some c → k ∈ t.locks
  words : ∀ k x y, T.get k = some x → t.own.get k = some y → y.SameRow x

namespace ConfirmAux

variable {T : Claims} {t : Tx}

theorem locksOk_none (hlocks : t.locks = []) (hown : t.own = Table.empty) : LocksOk T t where
  kept := fun k hk => absurd (hlocks ▸ hk) List.not_mem_nil
  only := fun k c hc => by
    rw [hown] at hc
    cases hc
  words := fun k x y _ hy => by
    rw [hown] at hy
    cases hy

theorem view_grows (h : LocksOk T t) : Grows T (t.view T) := by
  intro k x hx
  rw [get_view]
  cases hown : t.own.get k with
  | none => exact ⟨x, hx, .refl x⟩
  | some y => exact ⟨y, rfl, h.words k x y hx hown⟩

variable {T' : Claims} {keys : List String}

theorem locksOk_write (phase : Phase) (h : LocksOk T t) (hw : Wrote (t.view T) T' keys) :
    LocksOk T { t with phase, locks := keys ++ t.locks, own := T'.filter fun c => c.id ∈ keys ++ t.locks } where
  kept := by
    intro k hk
    simp only at hk ⊢
    rw [get_restrict, if_pos hk]
    rcases List.mem_append.1 hk with hk | hk
    · exact hw.there k hk
    · obtain ⟨c, hc⟩ := h.kept k hk
      obtain ⟨y, hy, -⟩ := hw.grows k c (by rw [get_view, hc]; rfl)
      exact ⟨y, hy⟩
  only := by
    intro k c hc
    by_contra hk
    simp only at hc hk
    rw [get_restrict, if_neg hk] at hc
    cases hc
  words := by
    intro k x y hx hy
    simp only at hy
    rw [get_restrict] at hy
    split at hy
    · obtain ⟨z, hz, hrow⟩ := view_grows h k x hx
      obtain ⟨y', hy', hrow'⟩ := hw.grows k z hz
      obtain rfl : y' = y := Option.some.inj (hy'.symm.trans hy)
      exact hrow'.trans hrow
    · cases hy

theorem own_frame (h : LocksOk T t) (hw : Wrote (t.view T) T' keys) {k : String}
    {c : VaultClaim} (hc : t.own.get k = some c) (hk : k ∉ keys) : (T'.filter fun c => c.id ∈ keys ++ t.locks).get k = some c := by
  rw [get_restrict, if_pos (List.mem_append_right _ (h.only k c hc)), hw.frame k hk, get_view, hc]
  rfl

theorem own_written {locks : List String} {k : String} {c : VaultClaim} (hc : T'.get k = some c) (hk : k ∈ keys) :
    (T'.filter fun c => c.id ∈ keys ++ locks).get k = some c := by
  rw [get_restrict, if_pos (List.mem_append_left _ hk), hc]

theorem locksOk_others (h : LocksOk T t) (hsame : ∀ k ∈ t.locks, T'.get k = T.get k) : LocksOk T' t where
  kept := h.kept
  only := h.only
  words := by
    intro k x y hx hy
    rw [hsame k (h.only k y hy)] at hx
    exact h.words k x y hx hy

end ConfirmAux

/-! ## What a confirmation knows -/

/-- The wordings are the same. -/
def SameText (env : VaultEnv) (t : Tx) (cand : MemoryCandidate) (h : VaultClaim) : Prop := norm env h.statement = norm env (t.statement cand)

/-- The heads were heads of the space and still say what they said, the chosen one is among them, and it has the wording if one does, for a
candidate without a slot and for a correction. -/
structure AimOk (env : VaultEnv) (T : Claims) (t : Tx) (cand : MemoryCandidate) (aim : Aim) : Prop where
  there : ∀ h ∈ aim.heads, h.spaceId = cand.spaceId ∧ ∃ x ∈ T, x.SameRow h
  head : ∀ h ∈ aim.head, h ∈ aim.heads
  same : cand.conflictsWith ≠ none ∨ fitSlotKey cand.slotKey = none →
    (∀ h ∈ aim.heads, ¬SameText env t cand h) ∨ ∃ h, aim.head = some h ∧ SameText env t cand h

/-- The claim says what was confirmed: it is one of the heads that were read, which agreed, or has exactly the text, and the value where there
is one. -/
def Tells (env : VaultEnv) (t : Tx) (cand : MemoryCandidate) (aim : Aim) (c : VaultClaim) : Prop :=
  c.spaceId = cand.spaceId ∧ ((∃ h ∈ aim.heads, c.SameRow h ∧ t.agrees env cand h) ∨
    c.statement = fitStatement (t.statement cand) ∧ valueAgrees c.value cand.value)

/-- No second head with the wording: the claim is one of the heads that were read, or none of them had the wording, or one that had it is
ended. -/
def NoTwin (env : VaultEnv) (t : Tx) (cand : MemoryCandidate) (aim : Aim) (claimId : String) (T : Claims) : Prop :=
  cand.conflictsWith ≠ none ∨ fitSlotKey cand.slotKey = none →
    (∃ h ∈ aim.heads, h.id = claimId) ∨ (∀ h ∈ aim.heads, ¬SameText env t cand h) ∨
      ∃ h ∈ aim.heads, SameText env t cand h ∧ ∃ x, T.get h.id = some x ∧ x.supersededAt ≠ none

/-- What a confirmation knows, as far as it is. -/
def PhaseOk (env : VaultEnv) (T : Claims) (t : Tx) : Prop :=
  match t.phase with
  | .fenced => t.locks = [] ∧ t.own = Table.empty
  | .taken _ _ => t.locks = [] ∧ t.own = Table.empty
  | .aimed cand _ aim | .cleared cand _ aim => AimOk env T t cand aim
  | .written cand _ aim claimId _ =>
    NoTwin env t cand aim claimId t.own ∧ ∃ c, t.own.get claimId = some c ∧ c.supersededAt = none ∧ Tells env t cand aim c
  | .approved cand aim claimId =>
    NoTwin env t cand aim claimId t.own ∧
      ∃ c, t.own.get claimId = some c ∧ c.supersededAt = none ∧ c.reviewStatus = .confirmed ∧ Tells env t cand aim c

namespace ConfirmAux

variable {env : VaultEnv} {t : Tx} {cand : MemoryCandidate} {aim : Aim} {T seen : Claims} {now : Nat}

theorem mem_heads {v : Vault} {spaceId : String} {h : VaultClaim} (hh : h ∈ v.listHeadClaims spaceId) : h ∈ v.claims ∧ h.spaceId = spaceId := by
  have hmem := (List.perm_insertionSort _ _).mem_iff.1 hh
  obtain ⟨hv, hp⟩ := List.mem_filter.1 hmem
  exact ⟨hv, (of_decide_eq_true hp).1⟩

theorem targetHead_spec (v : Vault) (conflictsWith : Option String) (spaceId : String) (slotKey : Option String) (statement : String) :
    (∀ h ∈ (v.targetHead env conflictsWith spaceId slotKey statement).1, h ∈ v.listHeadClaims spaceId) ∧
      (conflictsWith ≠ none ∨ slotKey = none →
        (∀ h ∈ v.listHeadClaims spaceId, norm env h.statement ≠ norm env statement) ∨
          ∃ h, (v.targetHead env conflictsWith spaceId slotKey statement).1 = some h ∧ norm env h.statement = norm env statement) := by
  have hfound : ∀ {p : VaultClaim → Bool} {h : VaultClaim}, (v.listHeadClaims spaceId).find? p = some h → h ∈ v.listHeadClaims spaceId :=
    fun hf => List.mem_of_find?_eq_some hf
  cases conflictsWith with
  | none =>
    cases slotKey with
    | some key => exact ⟨fun h hh => hfound hh, fun hcond => (hcond.elim (fun hne => hne rfl) nofun).elim⟩
    | none =>
      refine ⟨fun h hh => hfound hh, fun _ => ?_⟩
      cases hsame : (v.listHeadClaims spaceId).find? fun c => norm env c.statement = norm env statement with
      | none => exact .inl fun h hh heq => by simpa [heq] using List.find?_eq_none.1 hsame h hh
      | some h => exact .inr ⟨h, hsame, by simpa using List.find?_some hsame⟩
  | some contestedId =>
    simp only [Vault.targetHead]
    cases hsame : (v.listHeadClaims spaceId).find? fun c => norm env c.statement = norm env statement with
    | none =>
      refine ⟨fun h hh => hfound hh, fun _ => .inl fun h hh heq => ?_⟩
      simpa [heq] using List.find?_eq_none.1 hsame h hh
    | some same =>
      have htext : norm env same.statement = norm env statement := by simpa using List.find?_some hsame
      simp only
      split
      · exact ⟨fun h hh => Option.some.inj hh ▸ hfound hsame, fun _ => .inr ⟨same, rfl, htext⟩⟩
      · rename_i heq
        rw [not_not] at heq
        obtain ⟨contested, hcontested, hid⟩ := Option.map_eq_some_iff.1 heq
        -- The contested head is the one with the wording.
        have hrow : contested = same := Table.eq_of_key (mem_heads (hfound hcontested)).1 (mem_heads (hfound hsame)).1 hid
        exact ⟨fun h hh => hfound hh, fun _ => .inr ⟨contested, hcontested, hrow ▸ htext⟩⟩

theorem aimOk_read (hown : t.own = Table.empty) : AimOk env T t cand (t.aim env cand (t.view T)) where
  there := by
    intro h hh
    obtain ⟨hmem, hspace⟩ := mem_heads hh
    have hget : (t.view T).get h.id = some h := Table.get_eq_some_iff.2 ⟨hmem, rfl⟩
    rw [get_view, hown] at hget
    exact ⟨hspace, h, (Table.get_eq_some_iff.1 hget).1, .refl h⟩
  head := (targetHead_spec (memory (t.view T)) _ _ _ _).1
  same := (targetHead_spec (memory (t.view T)) _ _ _ _).2

theorem head_row (hl : LocksOk T t) (ha : AimOk env T t cand aim) {h : VaultClaim} (hh : aim.head = some h) :
    h.spaceId = cand.spaceId ∧ ∃ c, (t.view T).get h.id = some c ∧ c.SameRow h := by
  obtain ⟨hspace, x, hx, hrow⟩ := ha.there h (ha.head h hh)
  refine ⟨hspace, ?_⟩
  obtain ⟨c, hc, hrow'⟩ := view_grows hl h.id x (Table.get_eq_some_iff.2 ⟨hx, hrow.1⟩)
  exact ⟨c, hc, hrow'.trans hrow⟩

theorem wrote_finish {k : String} {c : VaultClaim} (hc : T.get k = some c) : Wrote T (T.finish (fun c => c.id = k) now) [k] := by
  unfold Claims.finish
  refine wrote_update _ (fun _ => ?_) (fun _ hp => ?_) hc
  · exact ⟨rfl, rfl, rfl, rfl, rfl, rfl⟩
  · exact of_decide_eq_true hp

theorem wrote_confirm {k : String} {c : VaultClaim} {sensitive : Bool} {actor : Actor} (hc : T.get k = some c) :
    Wrote T (T.confirm k sensitive actor now) [k] := by
  unfold Claims.confirm
  refine wrote_update _ (fun _ => ?_) (fun _ hp => ?_) hc
  · exact ⟨rfl, rfl, rfl, rfl, rfl, rfl⟩
  · exact hp.1

theorem approve_cases (claimId : String) (sensitive : Bool) (phase : Phase) :
    t.approve claimId sensitive seen now phase T = .retry ∨
      ∃ c T' c', T.get claimId = some c ∧ c.supersededAt = none ∧ t.approve claimId sensitive seen now phase T = .go T' [claimId] phase ∧
        Wrote T T' [claimId] ∧ T'.get claimId = some c' ∧ c'.supersededAt = none ∧ c'.reviewStatus = .confirmed ∧ c'.SameRow c := by
  unfold Tx.approve
  split
  · rename_i hheads
    obtain ⟨c, hmem, rfl, hlive⟩ := hheads.2
    have hc : T.get c.id = some c := Table.get_eq_some_iff.2 ⟨hmem, rfl⟩
    exact .inr ⟨c, _, _, hc, hlive, rfl, wrote_confirm hc, get_update_self _ hc ⟨rfl, hlive⟩, hlive, rfl, rfl, rfl, rfl, rfl, rfl, rfl⟩
  · exact .inl rfl

theorem clear_cases (n : Nat) :
    t.clear cand n aim seen now T = .retry ∨
      ∃ T' keys, t.clear cand n aim seen now T = .go T' keys (.cleared cand n aim) ∧ Wrote T T' keys := by
  unfold Tx.clear
  split
  · exact .inr ⟨T, [], rfl, .refl T⟩
  · rename_i retire _
    split
    · rename_i htargets
      obtain ⟨c, hc⟩ := Option.isSome_iff_exists.1 htargets.2
      have hget : T.get retire.id = some c := (Option.filter_eq_some_iff.1 hc).1
      exact .inr ⟨_, _, rfl, wrote_finish hget⟩
    · exact .inl rfl

end ConfirmAux

namespace ConfirmAux

variable {env : VaultEnv} {t : Tx} {cand : MemoryCandidate} {aim : Aim} {T seen : Claims} {now : Nat}

/-- A transaction after a statement. -/
def after (t : Tx) (T' : Claims) (keys : List String) (phase : Phase) : Tx :=
  { t with phase, locks := keys ++ t.locks, own := T'.filter fun c => c.id ∈ keys ++ t.locks }

variable {T' : Claims}

theorem aimOk_after {keys : List String} {phase : Phase} (ha : AimOk env T t cand aim) :
    AimOk env T (after t T' keys phase) cand aim := ⟨ha.there, ha.head, ha.same⟩

/-- What a statement comes to: a lost race, or rows that are known to be right. -/
def Right (env : VaultEnv) (T : Claims) (t : Tx) (o : Outcome) : Prop :=
  o = .retry ∨ ∃ T' keys phase, o = .go T' keys phase ∧ Wrote (t.view T) T' keys ∧ phase.cand = t.phase.cand ∧
    PhaseOk env T (after t T' keys phase)

variable {n : Nat}

theorem right_agreed (hphase : t.phase = .cleared cand n aim) (hl : LocksOk T t) (ha : AimOk env T t cand aim) {usable : VaultClaim}
    (hh : aim.head = some usable) (hagrees : t.agrees env cand usable) :
    Right env T t (t.approve usable.id (usable.sensitive || cand.sensitive) seen now (.approved cand aim usable.id) (t.view T)) := by
  rcases @approve_cases t (t.view T) seen now usable.id (usable.sensitive || cand.sensitive) (.approved cand aim usable.id) with
    hretry | ⟨c, T', c', hc, hlive, hgo, hw, hc', hlive', hconf, hrow⟩
  · exact .inl hretry
  · refine .inr ⟨T', _, _, hgo, hw, by rw [hphase]; rfl, ?_⟩
    obtain ⟨hspace, x, hx, hxrow⟩ := head_row hl ha hh
    obtain rfl : x = c := Option.some.inj (hx.symm.trans hc)
    have hsame := hrow.trans hxrow
    exact ⟨fun _ => .inl ⟨usable, ha.head usable hh, rfl⟩, c', own_written hc' List.mem_cons_self, hlive', hconf, hsame.2.1.trans hspace,
      .inl ⟨usable, ha.head usable hh, hsame, hagrees⟩⟩

variable {fresh : String}

theorem right_superseded {sensitive : Bool} (hphase : t.phase = .cleared cand n aim)
    (hl : LocksOk T t) (ha : AimOk env T t cand aim) {usable prev : VaultClaim} (hh : aim.head = some usable)
    (htarget : (memory (t.view T)).updateTarget (t.correctArgs cand usable) = some prev)
    (hT' : (t.view T).supersede (t.correctArgs cand usable) prev fresh now = some T') :
    Right env T t (.go T' [usable.id, fresh] (.written cand n aim fresh sensitive)) := by
  obtain ⟨-, hins⟩ := Claims.ChainAux.supersede_cases hT'
  have hprev : (t.view T).get usable.id = some prev := (Option.filter_eq_some_iff.1 htarget).1
  have hw : Wrote (t.view T) T' ([usable.id] ++ [fresh]) := (wrote_finish hprev).trans (wrote_insert hins)
  have hended := get_update_self (p := fun c => decide (c.id = usable.id) = true)
    (f := fun c : VaultClaim => { c with supersededAt := some now }) (fun _ => rfl) hprev
    (decide_eq_true (Table.get_eq_some_iff.1 hprev).2)
  have hne : fresh ≠ usable.id := fun heq =>
    Table.key_ne_of_insert hins _ (Table.get_eq_some_iff.1 hended).1 ((Table.get_eq_some_iff.1 hended).2.trans heq.symm)
  have hold : T'.get usable.id = some { prev with supersededAt := some now } :=
    (Table.get_of_insert hins usable.id).trans ((if_neg hne).trans hended)
  have hnew : T'.get fresh = some (prev.successor (t.correctArgs cand usable) fresh now) := by
    rw [Table.get_of_insert hins]
    exact if_pos rfl
  obtain ⟨hspace, x, hx, hxrow⟩ := head_row hl ha hh
  obtain rfl : x = prev := Option.some.inj (hx.symm.trans hprev)
  refine .inr ⟨T', _, _, rfl, hw, by rw [hphase]; rfl, fun hcond => ?_, _,
    own_written hnew (List.mem_cons_of_mem _ List.mem_cons_self), rfl, hxrow.2.1.trans hspace, .inr ⟨rfl, ?_⟩⟩
  · rcases ha.same hcond with hnone | ⟨h, hhead, htext⟩
    · exact .inr (.inl hnone)
    · obtain rfl : h = usable := Option.some.inj (hhead.symm.trans hh)
      exact .inr (.inr ⟨h, ha.head h hh, htext, _, own_written hold List.mem_cons_self, nofun⟩)
  · cases hvalue : cand.value with
    | none => exact .inl rfl
    | some v =>
      refine .inr ?_
      simp only [VaultClaim.successor, Tx.correctArgs, hvalue, Option.map_some, Option.getD_some]

theorem right_written (hphase : t.phase = .cleared cand n aim) (ha : AimOk env T t cand aim)
    (hh : aim.head = none) (hT' : (t.view T).insert ((t.input cand).toRow fresh now) = some T') :
    Right env T t (.go T' [fresh] (.written cand n aim fresh cand.sensitive)) := by
  have hnew : T'.get fresh = some ((t.input cand).toRow fresh now) := by
    rw [Table.get_of_insert hT']
    exact if_pos rfl
  refine .inr ⟨T', _, _, rfl, wrote_insert hT', by rw [hphase]; rfl, fun hcond => ?_, _, own_written hnew List.mem_cons_self, rfl, rfl,
    .inr ⟨rfl, .inr rfl⟩⟩
  rcases ha.same hcond with hnone | ⟨h, hhead, -⟩
  · exact .inr (.inl hnone)
  · rw [hh] at hhead
    cases hhead

theorem right_approved {claimId : String} {sensitive : Bool} (hphase : t.phase = .written cand n aim claimId sensitive)
    (hl : LocksOk T t) (hp : PhaseOk env T t) :
    Right env T t (t.approve claimId sensitive seen now (.approved cand aim claimId) (t.view T)) := by
  unfold PhaseOk at hp
  rw [hphase] at hp
  obtain ⟨htwin, c, hc, hlive, htells⟩ := hp
  rcases @approve_cases t (t.view T) seen now claimId sensitive (.approved cand aim claimId) with
    hretry | ⟨x, T', c', hx, -, hgo, hw, hc', hlive', hconf, hrow⟩
  · exact .inl hretry
  · have hview : (t.view T).get claimId = some c := by
      rw [get_view, hc]
      rfl
    obtain rfl : x = c := Option.some.inj (hx.symm.trans hview)
    refine .inr ⟨T', _, _, hgo, hw, by rw [hphase]; rfl, fun hcond => ?_, c', own_written hc' List.mem_cons_self, hlive', hconf,
      hrow.2.1.trans htells.1, ?_⟩
    · rcases htwin hcond with hmem | hnone | ⟨h, hh, htext, y, hy, hended⟩
      · exact .inl hmem
      · exact .inr (.inl hnone)
      · -- The head that is ended is not the claim, which is live.
        have hne : h.id ∉ [claimId] := fun hmem => by
          obtain heq := List.mem_singleton.1 hmem
          obtain rfl : y = x := Option.some.inj ((heq ▸ hy).symm.trans hc)
          exact hended hlive
        exact .inr (.inr ⟨h, hh, htext, y, own_frame hl hw hy hne, hended⟩)
    · rcases htells.2 with ⟨h, hh, hsame, hagrees⟩ | ⟨hstatement, hvalue⟩
      · exact .inl ⟨h, hh, hrow.trans hsame, hagrees⟩
      · refine .inr ⟨hrow.2.2.2.1.trans hstatement, ?_⟩
        rw [hrow.2.2.2.2.2]
        exact hvalue

theorem right_next {o : Outcome} (hl : LocksOk T t) (hp : PhaseOk env T t)
    (h : t.next env seen fresh now (t.view T) = some o) : Right env T t o := by
  unfold Tx.next at h
  split at h
  · cases h
  · rename_i cand n hphase
    obtain rfl := Option.some.inj h
    unfold PhaseOk at hp
    rw [hphase] at hp
    exact .inr ⟨_, _, _, rfl, .refl _, by rw [hphase]; rfl, aimOk_after (aimOk_read hp.2)⟩
  · rename_i cand n aim hphase
    obtain rfl := Option.some.inj h
    have ha := hp
    unfold PhaseOk at ha
    rw [hphase] at ha
    rcases @clear_cases t cand aim (t.view T) seen now n with hretry | ⟨T', keys, hgo, hw⟩
    · exact .inl hretry
    · exact .inr ⟨T', keys, _, hgo, hw, by rw [hphase]; rfl, aimOk_after ha⟩
  · rename_i cand n aim hphase
    have ha := hp
    unfold PhaseOk at ha
    rw [hphase] at ha
    unfold Tx.land at h
    split at h
    · rename_i usable hhead
      split at h
      · rename_i hagrees
        obtain rfl := Option.some.inj h
        exact right_agreed hphase hl ha hhead hagrees
      · split at h
        · rename_i prev _ htarget
          obtain ⟨T', hT', rfl⟩ := Option.map_eq_some_iff.1 h
          exact right_superseded hphase hl ha hhead htarget hT'
        · obtain rfl := Option.some.inj h
          exact .inl rfl
    · rename_i hhead
      obtain ⟨T', hT', rfl⟩ := Option.map_eq_some_iff.1 h
      exact right_written hphase ha hhead hT'
  · rename_i cand n aim claimId sensitive hphase
    obtain rfl := Option.some.inj h
    exact right_approved hphase hl hp
  · cases h

end ConfirmAux

/-! ## The invariant -/

/-- What is known of an open confirmation. -/
structure TxOk (env : VaultEnv) (T : Claims) (C : Table MemoryCandidate MemoryCandidate.id) (used : List String) (t : Tx) : Prop where
  locks : LocksOk T t
  phase : PhaseOk env T t
  known : t.args.candidateId ∈ used
  scope : ∀ c ∈ C, c.id = t.args.candidateId → c.spaceId = t.share
  held : ∀ cand ∈ t.phase.cand, cand ∈ C ∧ cand.resolvedAt = none ∧ cand.spaceId = t.share

/-- What is known of the candidates: each was resolved once at most. -/
structure QueueOk (C : Table MemoryCandidate MemoryCandidate.id) (used resolutions : List String) : Prop where
  listed : ∀ c ∈ C, c.id ∈ used
  known : ∀ id ∈ resolutions, id ∈ used
  resolved : ∀ c ∈ C, c.id ∈ resolutions → c.resolvedAt ≠ none
  once : resolutions.Nodup

/-- What is known of the memory: no two confirmations hold one row or one candidate. -/
structure DbOk (env : VaultEnv) (db : ConfirmDb) : Prop where
  txs : ∀ t ∈ db.txs, TxOk env db.claims db.candidates db.used t
  disjoint : ∀ t ∈ db.txs, ∀ u ∈ db.txs, t.id ≠ u.id → ∀ k ∈ t.locks, k ∉ u.locks
  apart : ∀ t ∈ db.txs, ∀ u ∈ db.txs, t.id ≠ u.id → ∀ c ∈ t.phase.cand, ∀ d ∈ u.phase.cand, c.id ≠ d.id
  queue : QueueOk db.candidates db.used db.resolutions

namespace ConfirmAux

variable {env : VaultEnv} {t : Tx} {T T' : Claims} {C C' : Table MemoryCandidate MemoryCandidate.id} {used used' resolutions : List String}
  {db db' : ConfirmDb}

theorem phaseOk_others (hp : PhaseOk env T t) (hspace : ∀ cand ∈ t.phase.cand, cand.spaceId = t.share)
    (hrows : ∀ c ∈ T, c.spaceId = t.share → ∃ x ∈ T', x.SameRow c) : PhaseOk env T' t := by
  have haim : ∀ {cand aim}, cand ∈ t.phase.cand → AimOk env T t cand aim → AimOk env T' t cand aim := by
    intro cand aim hcand ha
    refine ⟨fun h hh => ?_, ha.head, ha.same⟩
    obtain ⟨hhead, x, hx, hrow⟩ := ha.there h hh
    obtain ⟨y, hy, hrow'⟩ := hrows x hx ((hrow.2.1.trans hhead).trans (hspace cand hcand))
    exact ⟨hhead, y, hy, hrow'.trans hrow⟩
  unfold PhaseOk at hp ⊢
  cases hphase : t.phase with
  | fenced | taken cand n | written cand n aim claimId sensitive | approved cand aim claimId =>
    rw [hphase] at hp
    exact hp
  | aimed cand n aim | cleared cand n aim =>
    rw [hphase] at hp
    exact haim (by rw [hphase]; rfl) hp

theorem txOk_others (h : TxOk env T C used t) (hsame : ∀ k ∈ t.locks, T'.get k = T.get k)
    (hrows : ∀ c ∈ T, c.spaceId = t.share → ∃ x ∈ T', x.SameRow c) : TxOk env T' C used t where
  locks := locksOk_others h.locks hsame
  phase := phaseOk_others h.phase (fun cand hcand => (h.held cand hcand).2.2) hrows
  known := h.known
  scope := h.scope
  held := h.held

theorem txOk_queue (h : TxOk env T C used t) (hused : ∀ id ∈ used, id ∈ used')
    (hrows : ∀ c ∈ C', c.id = t.args.candidateId → ∃ d ∈ C, d.id = c.id ∧ d.spaceId = c.spaceId)
    (hheld : ∀ cand ∈ t.phase.cand, cand ∈ C') : TxOk env T C' used' t where
  locks := h.locks
  phase := h.phase
  known := hused _ h.known
  scope := by
    intro c hc hid
    obtain ⟨d, hd, hdid, hspace⟩ := hrows c hc hid
    exact hspace.symm.trans (h.scope d hd (hdid.trans hid))
  held := fun cand hcand => ⟨hheld cand hcand, (h.held cand hcand).2⟩

theorem dbOk_erase (h : DbOk env db) (id : Nat) : DbOk env { db with txs := db.txs.erase id } where
  txs := fun t ht => h.txs t (Table.mem_erase.1 ht).1
  disjoint := fun t ht u hu => h.disjoint t (Table.mem_erase.1 ht).1 u (Table.mem_erase.1 hu).1
  apart := fun t ht u hu => h.apart t (Table.mem_erase.1 ht).1 u (Table.mem_erase.1 hu).1
  queue := h.queue

theorem dbOk_put (h : DbOk env db) (ht : TxOk env db.claims db.candidates db.used t)
    (hdisjoint : ∀ u ∈ db.txs, u.id ≠ t.id → ∀ k ∈ t.locks, k ∉ u.locks)
    (hapart : ∀ u ∈ db.txs, u.id ≠ t.id → ∀ c ∈ t.phase.cand, ∀ d ∈ u.phase.cand, c.id ≠ d.id) :
    DbOk env { db with txs := db.txs.put t } where
  txs := by
    intro u hu
    rcases Table.mem_put.1 hu with rfl | ⟨hu, -⟩
    · exact ht
    · exact h.txs u hu
  disjoint := by
    intro u hu w hw hne k hk hk'
    rcases Table.mem_put.1 hu with rfl | ⟨hu', hut⟩ <;> rcases Table.mem_put.1 hw with rfl | ⟨hw', hwt⟩
    · exact hne rfl
    · exact hdisjoint w hw' hwt k hk hk'
    · exact hdisjoint u hu' hut k hk' hk
    · exact h.disjoint u hu' w hw' hne k hk hk'
  apart := by
    intro u hu w hw hne c hc d hd
    rcases Table.mem_put.1 hu with rfl | ⟨hu', hut⟩ <;> rcases Table.mem_put.1 hw with rfl | ⟨hw', hwt⟩
    · exact absurd rfl hne
    · exact hapart w hw' hwt c hc d hd
    · exact (hapart u hu' hut d hd c hc).symm
    · exact h.apart u hu' w hw' hne c hc d hd
  queue := h.queue

theorem dbOk_start {id : Nat} {args : ConfirmArgs} (h : DbOk env db) (hs : db.step env (.start id args) = some db') : DbOk env db' := by
  simp only [ConfirmDb.step] at hs
  split at hs
  · obtain rfl := Option.some.inj hs
    exact h
  rename_i cand hcand
  obtain ⟨hget, -⟩ := Option.filter_eq_some_iff.1 hcand
  obtain ⟨hmem, hid⟩ := Table.get_eq_some_iff.1 hget
  split at hs
  · obtain rfl := Option.some.inj hs
    exact h
  · obtain ⟨txs, htxs, rfl⟩ := Option.map_eq_some_iff.1 hs
    have hmemtx := fun u => Table.mem_of_insert (x := u) htxs
    refine ⟨fun u hu => ?_, fun u hu w hw hne k hk hk' => ?_, fun u hu w hw hne c hc d hd => ?_, h.queue⟩
    · rcases (hmemtx u).1 hu with hu | rfl
      · exact h.txs u hu
      · exact ⟨locksOk_none rfl rfl, ⟨rfl, rfl⟩, hid ▸ h.queue.listed cand hmem,
          fun c hc heq => congrArg MemoryCandidate.spaceId (Table.eq_of_key hc hmem (heq.trans hid.symm)), nofun⟩
    · rcases (hmemtx u).1 hu with hu | rfl
      · rcases (hmemtx w).1 hw with hw | rfl
        · exact h.disjoint u hu w hw hne k hk hk'
        · exact absurd hk' List.not_mem_nil
      · exact absurd hk List.not_mem_nil
    · rcases (hmemtx u).1 hu with hu | rfl
      · rcases (hmemtx w).1 hw with hw | rfl
        · exact h.apart u hu w hw hne c hc d hd
        · cases hd
      · cases hc

theorem dbOk_take {now : Nat} (h : DbOk env db) (ht : t ∈ db.txs) (hphase : t.phase = .fenced) (hs : db.take t now = some db') :
    DbOk env db' := by
  unfold ConfirmDb.take at hs
  split at hs
  · obtain rfl := Option.some.inj hs
    exact dbOk_erase h t.id
  rename_i cand hcand
  split at hs
  · cases hs
  rename_i hfree
  obtain rfl := Option.some.inj hs
  obtain ⟨hget, hopen⟩ := Option.filter_eq_some_iff.1 hcand
  obtain ⟨hmem, hid⟩ := Table.get_eq_some_iff.1 hget
  have hok := h.txs t ht
  have hnone := hok.phase
  unfold PhaseOk at hnone
  rw [hphase] at hnone
  refine dbOk_put h ⟨⟨hok.locks.kept, hok.locks.only, hok.locks.words⟩, hnone, hok.known, hok.scope, fun c hc => ?_⟩ (fun u hu hne k hk => ?_)
    fun u hu hne c hc d hd heq => ?_
  · obtain rfl := Option.some.inj hc
    exact ⟨hmem, (of_decide_eq_true hopen).1, hok.scope _ hmem hid⟩
  · exact h.disjoint t ht u hu hne.symm k hk
  · obtain rfl := Option.some.inj hc
    exact hfree ⟨u, hu, d, hd, heq.symm⟩

theorem dbOk_perform {o : Outcome} (h : DbOk env db) (ht : t ∈ db.txs) (ho : Right env db.claims t o) (hs : db.perform t o = some db') :
    DbOk env db' := by
  have hok := h.txs t ht
  rcases ho with rfl | ⟨T', keys, phase, rfl, hw, hcand, hp⟩
  · simp only [ConfirmDb.perform] at hs
    split at hs
    · rename_i cand hcand
      split at hs
      · obtain rfl := Option.some.inj hs
        refine dbOk_put h ⟨locksOk_none rfl rfl, ⟨rfl, rfl⟩, hok.known, hok.scope, fun c hc => ?_⟩ (fun u _ _ k hk => absurd hk List.not_mem_nil)
          fun u hu hne c hc d hd => ?_
        · obtain rfl := Option.some.inj hc
          exact hok.held _ hcand
        · obtain rfl := Option.some.inj hc
          exact h.apart t ht u hu hne.symm _ hcand d hd
      · obtain rfl := Option.some.inj hs
        exact dbOk_erase h t.id
    · cases hs
  · simp only [ConfirmDb.perform] at hs
    split at hs
    · rename_i hfree
      obtain rfl := Option.some.inj hs
      refine dbOk_put h ⟨locksOk_write phase hok.locks hw, hp, hok.known, hok.scope, fun c hc => ?_⟩ (fun u hu hne k hk => ?_)
        fun u hu hne c hc d hd => ?_
      · exact hok.held c (hcand ▸ hc)
      · rcases List.mem_append.1 hk with hk | hk
        · exact hfree u hu hne k hk
        · exact h.disjoint t ht u hu hne.symm k hk
      · exact h.apart t ht u hu hne.symm c (hcand ▸ hc) d hd
    · cases hs

end ConfirmAux

namespace ConfirmAux

variable {env : VaultEnv} {db db' : ConfirmDb} {C C' : Table MemoryCandidate MemoryCandidate.id} {used used' resolutions : List String}

theorem dbOk_claims {T : Claims} (h : DbOk env db) (hallows : db.Allows T) : DbOk env { db with claims := T } where
  txs := fun t ht => txOk_others (h.txs t ht) (hallows t ht).1 (hallows t ht).2
  disjoint := h.disjoint
  apart := h.apart
  queue := h.queue

theorem dbOk_queue (h : DbOk env db) (hused : ∀ id ∈ db.used, id ∈ used')
    (hrows : ∀ t ∈ db.txs, ∀ c ∈ C', c.id = t.args.candidateId → ∃ d ∈ db.candidates, d.id = c.id ∧ d.spaceId = c.spaceId)
    (hheld : ∀ t ∈ db.txs, ∀ cand ∈ t.phase.cand, cand ∈ C') (hqueue : QueueOk C' used' resolutions) :
    DbOk env { db with candidates := C', used := used', resolutions } where
  txs := fun t ht => txOk_queue (h.txs t ht) hused (hrows t ht) (hheld t ht)
  disjoint := h.disjoint
  apart := h.apart
  queue := hqueue

variable {p : MemoryCandidate → Prop} {f : MemoryCandidate → MemoryCandidate}

theorem queueOk_resolve [DecidablePred p] {ids : List String}
    (h : QueueOk C used resolutions) (hf : ∀ c, (f c).id = c.id) (hresolved : ∀ c, (f c).resolvedAt ≠ none) (hids : ids.Nodup)
    (hopen : ∀ id ∈ ids, ∃ c ∈ C, c.id = id ∧ c.resolvedAt = none) (hall : ∀ c ∈ C, c.id ∈ ids → p c) :
    QueueOk (C.update p f hf) used (ids ++ resolutions) where
  listed := by
    intro c hc
    obtain ⟨d, hd, hid, -⟩ := Table.exists_of_mem_update hf hc
    have hmem := h.listed d hd
    rwa [← hid] at hmem
  known := by
    intro id hid
    rcases List.mem_append.1 hid with hid | hid
    · obtain ⟨c, hc, rfl, -⟩ := hopen id hid
      exact h.listed c hc
    · exact h.known id hid
  resolved := by
    intro c hc hid
    rcases (Table.mem_update hf).1 hc with ⟨d, -, -, rfl⟩ | ⟨hc, hp⟩
    · exact hresolved d
    · rcases List.mem_append.1 hid with hid | hid
      · exact absurd (hall c hc hid) hp
      · exact h.resolved c hc hid
  once := by
    rw [List.nodup_append]
    refine ⟨hids, h.once, fun id hid id' hid' heq => ?_⟩
    obtain ⟨c, hc, hcid, hnone⟩ := hopen id hid
    exact h.resolved c hc (by rw [hcid, heq]; exact hid') hnone

theorem update_rows [DecidablePred p] (hf : ∀ c, (f c).id = c.id)
    (hspace : ∀ c, (f c).spaceId = c.spaceId) : ∀ c ∈ C.update p f hf, ∃ d ∈ C, d.id = c.id ∧ d.spaceId = c.spaceId := by
  intro c hc
  obtain ⟨d, hd, hid, rfl | rfl⟩ := Table.exists_of_mem_update hf hc
  · exact ⟨d, hd, hid.symm, (hspace d).symm⟩
  · exact ⟨c, hd, rfl, rfl⟩

theorem dbOk_resolve [DecidablePred p] (ids : List String)
    (h : DbOk env db) (hf : ∀ c, (f c).id = c.id) (hspace : ∀ c, (f c).spaceId = c.spaceId) (hresolved : ∀ c, (f c).resolvedAt ≠ none)
    (hids : ids.Nodup) (hopen : ∀ id ∈ ids, ∃ c ∈ db.candidates, c.id = id ∧ c.resolvedAt = none)
    (hall : ∀ c ∈ db.candidates, c.id ∈ ids → p c) (hfree : ∀ t ∈ db.txs, ∀ c ∈ t.phase.cand, ¬p c) :
    DbOk env { db with candidates := db.candidates.update p f hf, resolutions := ids ++ db.resolutions } :=
  dbOk_queue h (fun _ hi => hi) (fun _ _ c hc _ => update_rows hf hspace c hc)
    (fun t ht c hc => (Table.mem_update hf).2 (.inr ⟨((h.txs t ht).held c hc).1, hfree t ht c hc⟩))
    (queueOk_resolve h.queue hf hresolved hids hopen hall)

theorem dbOk_propose {args : ProposeArgs} {id : String} {known : Option String} (h : DbOk env db)
    (hs : db.step env (.propose args id known) = some db') : DbOk env db' := by
  simp only [ConfirmDb.step] at hs
  split at hs
  · cases hs
  rename_i hnew
  obtain ⟨r, hr, rfl⟩ := Option.map_eq_some_iff.1 hs
  have hsub : ∀ i ∈ db.used, i ∈ id :: db.used := fun i hi => List.mem_cons_of_mem _ hi
  have hsame : r.1.candidates = db.candidates → DbOk env { db with candidates := r.1.candidates, used := id :: db.used } := by
    intro heq
    refine dbOk_queue h hsub (fun t ht c hc _ => ⟨c, heq ▸ hc, rfl, rfl⟩) (fun t ht cand hcand => heq ▸ ((h.txs t ht).held cand hcand).1) ?_
    rw [heq]
    exact ⟨fun c hc => hsub _ (h.queue.listed c hc), fun i hi => hsub _ (h.queue.known i hi), h.queue.resolved, h.queue.once⟩
  unfold Vault.proposeCandidate at hr
  split at hr
  · obtain rfl := Option.some.inj hr
    exact hsame rfl
  · split at hr
    · obtain rfl := Option.some.inj hr
      exact hsame rfl
    · obtain ⟨C', hC', rfl⟩ := Option.map_eq_some_iff.1 hr
      have hmem := fun c => Table.mem_of_insert (x := c) hC'
      refine dbOk_queue h hsub (fun t ht c hc hid => ?_) (fun t ht cand hcand => (hmem cand).2 (.inl ((h.txs t ht).held cand hcand).1)) ?_
      · rcases (hmem c).1 hc with hc | rfl
        · exact ⟨c, hc, rfl, rfl⟩
        · have hknown := (h.txs t ht).known
          rw [← hid] at hknown
          exact absurd hknown hnew
      · refine ⟨fun c hc => ?_, fun i hi => hsub _ (h.queue.known i hi), fun c hc hid => ?_, h.queue.once⟩
        · rcases (hmem c).1 hc with hc | rfl
          · exact hsub _ (h.queue.listed c hc)
          · exact List.mem_cons_self
        · rcases (hmem c).1 hc with hc | rfl
          · exact h.queue.resolved c hc hid
          · exact absurd (h.queue.known _ hid) hnew

variable {now : Nat}

theorem dbOk_reject {candidateId : String} {allowedSpaceIds : List String} (h : DbOk env db)
    (hs : db.step env (.reject candidateId allowedSpaceIds now) = some db') : DbOk env db' := by
  simp only [ConfirmDb.step] at hs
  split at hs
  · cases hs
  rename_i hfree
  obtain rfl := Option.some.inj hs
  unfold Vault.rejectCandidate
  split
  · exact ⟨h.txs, h.disjoint, h.apart, h.queue⟩
  · rename_i cand hcand
    obtain ⟨hget, hopen⟩ := Option.filter_eq_some_iff.1 hcand
    obtain ⟨hmem, hid⟩ := Table.get_eq_some_iff.1 hget
    change DbOk env { db with
      candidates := db.candidates.update (fun c => c.id = candidateId) (fun c => { c with resolvedAt := some now }) fun _ => rfl
      resolutions := [candidateId] ++ db.resolutions }
    refine dbOk_resolve [candidateId] h _ (fun c => ?_) (fun c => ?_) (List.nodup_singleton _) (fun i hi => ?_)
      (fun c _ hi => List.mem_singleton.1 hi) fun t ht c hc heq => hfree ⟨t, ht, c, hc, heq⟩
    · rfl
    · exact Option.some_ne_none now
    · obtain rfl := List.mem_singleton.1 hi
      exact ⟨cand, hmem, hid, (of_decide_eq_true hopen).1⟩

theorem dbOk_rejectAll {spaceId : String} (h : DbOk env db) (hs : db.step env (.rejectAll spaceId now) = some db') :
    DbOk env db' := by
  simp only [ConfirmDb.step] at hs
  split at hs
  · cases hs
  rename_i hfree
  obtain rfl := Option.some.inj hs
  have hmem : ∀ c, c ∈ db.openIn spaceId ↔ c ∈ db.candidates ∧ c.spaceId = spaceId ∧ c.resolvedAt = none := fun c => by
    rw [ConfirmDb.openIn, List.mem_filter, decide_eq_true_eq]
    rfl
  refine dbOk_resolve ((db.openIn spaceId).map MemoryCandidate.id) h _ (fun c => ?_) (fun c => ?_) ?_ (fun i hi => ?_) (fun c hc hi => ?_)
    fun t ht c hc hp => ?_
  · rfl
  · exact Option.some_ne_none now
  · exact db.candidates.nodup.sublist (List.filter_sublist.map _)
  · obtain ⟨c, hc, rfl⟩ := List.mem_map.1 hi
    obtain ⟨hcand, -, hopen⟩ := (hmem c).1 hc
    exact ⟨c, hcand, rfl, hopen⟩
  · obtain ⟨d, hd, hid⟩ := List.mem_map.1 hi
    obtain ⟨hcand, hp⟩ := (hmem d).1 hd
    exact Table.eq_of_key hcand hc hid ▸ hp
  · exact hfree ⟨c, (hmem c).2 ⟨((h.txs t ht).held c hc).1, hp⟩, t, ht, c, hc, rfl⟩

theorem dbOk_retire {spaceId : String} (h : DbOk env db) (hs : db.step env (.retire spaceId now) = some db') : DbOk env db' := by
  simp only [ConfirmDb.step] at hs
  split at hs
  · cases hs
  rename_i hfree
  obtain rfl := Option.some.inj hs
  obtain ⟨hshare, hallows⟩ := not_or.1 hfree
  have hqueue : DbOk env { db with candidates := db.candidates.filter fun c => c.spaceId ≠ spaceId } :=
    dbOk_queue h (fun _ hi => hi) (fun _ _ c hc _ => ⟨c, (Table.mem_filter.1 hc).1, rfl, rfl⟩)
      (fun t ht c hc => by
        obtain ⟨hcand, -, hspace⟩ := (h.txs t ht).held c hc
        exact Table.mem_filter.2 ⟨hcand, decide_eq_true fun heq => hshare ⟨t, ht, hspace.symm.trans heq⟩⟩)
      ⟨fun c hc => h.queue.listed c (Table.mem_filter.1 hc).1, h.queue.known, fun c hc => h.queue.resolved c (Table.mem_filter.1 hc).1,
        h.queue.once⟩
  have hclaims := dbOk_claims hqueue (T := db.claims.filter fun c => c.spaceId ≠ spaceId) (not_not.1 hallows)
  exact ⟨hclaims.txs, hclaims.disjoint, hclaims.apart, hclaims.queue⟩

theorem dbOk_commit {t : Tx} {cand : MemoryCandidate} (claimId : String) (h : DbOk env db) (ht : t ∈ db.txs) (hcand : cand ∈ t.phase.cand) :
    DbOk env (db.commit t cand claimId) := by
  obtain ⟨hmem, hopen, -⟩ := (h.txs t ht).held cand hcand
  have herase := dbOk_erase h t.id
  have hothers : ∀ u, u ∈ db.txs.erase t.id → u ∈ db.txs ∧ u.id ≠ t.id := fun u hu => Table.mem_erase.1 hu
  have hallows : ({ db with txs := db.txs.erase t.id } : ConfirmDb).Allows (t.view db.claims) := by
    intro u hu
    obtain ⟨hu, hne⟩ := hothers u hu
    refine ⟨fun k hk => ?_, fun c hc _ => ?_⟩
    · have hnone : t.own.get k = none := by
        cases hown : t.own.get k with
        | none => rfl
        | some c => exact absurd ((h.txs t ht).locks.only k c hown) (h.disjoint u hu t ht hne k hk)
      rw [get_view, hnone]
      rfl
    · obtain ⟨x, hx, hrow⟩ := view_grows (h.txs t ht).locks c.id c (Table.get_eq_some_iff.2 ⟨hc, rfl⟩)
      exact ⟨x, (Table.get_eq_some_iff.1 hx).1, hrow⟩
  refine dbOk_resolve [cand.id] (dbOk_claims herase hallows) _ (fun c => ?_) (fun c => ?_) (List.nodup_singleton _) (fun i hi => ?_)
    (fun c _ hi => List.mem_singleton.1 hi) fun u hu c hc => ?_
  · rfl
  · exact Option.some_ne_none t.stamp
  · obtain rfl := List.mem_singleton.1 hi
    exact ⟨cand, hmem, rfl, hopen⟩
  · obtain ⟨hu, hne⟩ := hothers u hu
    exact h.apart u hu t ht hne c hc cand hcand

theorem dbOk_step {a : ConfirmAct} (h : DbOk env db) (hs : db.step env a = some db') : DbOk env db' := by
  cases a with
  | others claims =>
    simp only [ConfirmDb.step] at hs
    split at hs
    · rename_i hallows
      obtain rfl := Option.some.inj hs
      exact dbOk_claims h hallows
    · cases hs
  | propose args id known => exact dbOk_propose h hs
  | reject candidateId allowedSpaceIds now => exact dbOk_reject h hs
  | rejectAll spaceId now => exact dbOk_rejectAll h hs
  | openSpace space =>
    obtain ⟨spaces, -, rfl⟩ := Option.map_eq_some_iff.1 hs
    exact ⟨h.txs, h.disjoint, h.apart, h.queue⟩
  | retire spaceId now => exact dbOk_retire h hs
  | start id args => exact dbOk_start h hs
  | next id seen fresh now =>
    obtain ⟨t, hget, hs⟩ := Option.bind_eq_some_iff.1 hs
    have ht := (Table.get_eq_some_iff.1 hget).1
    split at hs
    · rename_i hphase
      exact dbOk_take h ht hphase hs
    · obtain ⟨o, ho, hs⟩ := Option.bind_eq_some_iff.1 hs
      exact dbOk_perform h ht (right_next (h.txs t ht).locks (h.txs t ht).phase ho) hs
  | commit id =>
    obtain ⟨t, hget, hs⟩ := Option.bind_eq_some_iff.1 hs
    have ht := (Table.get_eq_some_iff.1 hget).1
    split at hs
    · rename_i cand aim claimId hphase
      obtain rfl := Option.some.inj hs
      exact dbOk_commit claimId h ht (by rw [hphase]; rfl)
    · cases hs
  | abort id =>
    obtain rfl := Option.some.inj hs
    exact dbOk_erase h id

end ConfirmAux

/-- A confirmation begins, takes a statement, or is aborted. -/
def ConfirmAct.Uncommitted : ConfirmAct → Prop
  | .start _ _ | .next _ _ _ _ | .abort _ => True
  | .others _ | .propose _ _ _ | .reject _ _ _ | .rejectAll _ _ | .openSpace _ | .retire _ _ | .commit _ => False

namespace ConfirmAux

variable {env : VaultEnv} {db db' : ConfirmDb}

/-- Until a confirmation commits, it changes nothing, whatever it answers. -/
theorem unchanged_of_uncommitted {a : ConfirmAct} (ha : a.Uncommitted) (hs : db.step env a = some db') :
    db'.claims = db.claims ∧ db'.candidates = db.candidates ∧ db'.resolutions = db.resolutions := by
  cases a with
  | others _ | propose _ _ _ | reject _ _ _ | rejectAll _ _ | openSpace _ | retire _ _ | commit _ => exact ha.elim
  | start id args =>
    simp only [ConfirmDb.step] at hs
    split at hs
    · obtain rfl := Option.some.inj hs
      exact ⟨rfl, rfl, rfl⟩
    · split at hs
      · obtain rfl := Option.some.inj hs
        exact ⟨rfl, rfl, rfl⟩
      · obtain ⟨txs, -, rfl⟩ := Option.map_eq_some_iff.1 hs
        exact ⟨rfl, rfl, rfl⟩
  | next id seen fresh now =>
    obtain ⟨t, -, hs⟩ := Option.bind_eq_some_iff.1 hs
    split at hs
    · unfold ConfirmDb.take at hs
      split at hs
      · obtain rfl := Option.some.inj hs
        exact ⟨rfl, rfl, rfl⟩
      · split at hs
        · cases hs
        · obtain rfl := Option.some.inj hs
          exact ⟨rfl, rfl, rfl⟩
    · obtain ⟨o, -, hs⟩ := Option.bind_eq_some_iff.1 hs
      cases o with
      | go T keys phase =>
        simp only [ConfirmDb.perform] at hs
        split at hs
        · obtain rfl := Option.some.inj hs
          exact ⟨rfl, rfl, rfl⟩
        · cases hs
      | retry =>
        simp only [ConfirmDb.perform] at hs
        split at hs
        · split at hs
          · obtain rfl := Option.some.inj hs
            exact ⟨rfl, rfl, rfl⟩
          · obtain rfl := Option.some.inj hs
            exact ⟨rfl, rfl, rfl⟩
        · cases hs
  | abort id =>
    obtain rfl := Option.some.inj hs
    exact ⟨rfl, rfl, rfl⟩

theorem dbOk_fresh {start : ConfirmDb} (htxs : start.txs = Table.empty) (hresolutions : start.resolutions = [])
    (hused : ∀ c ∈ start.candidates, c.id ∈ start.used) : DbOk env start where
  txs := fun t ht => absurd (htxs ▸ ht) (Table.not_mem_empty t)
  disjoint := fun t ht => absurd (htxs ▸ ht) (Table.not_mem_empty t)
  apart := fun t ht => absurd (htxs ▸ ht) (Table.not_mem_empty t)
  queue := by
    refine ⟨hused, fun id hid => ?_, fun c _ hid => ?_, ?_⟩
    · rw [hresolutions] at hid
      cases hid
    · rw [hresolutions] at hid
      cases hid
    · rw [hresolutions]
      exact List.nodup_nil

end ConfirmAux

/-- In every interleaving each candidate is resolved once at most. A confirmation that commits names a live approved claim of the candidate's
space: a head it read that agrees with what is confirmed, or one with exactly its text, and its value where it has one. A correction, and a
candidate without a slot, leave no second head with the wording: where a head is written, none of those that were read had it, or one that had
it is ended. Until it commits, and where it does not, a confirmation changes nothing. -/
theorem resolves_once {env : VaultEnv} {start db : ConfirmDb} (htxs : start.txs = Table.empty) (hresolutions : start.resolutions = [])
    (hused : ∀ c ∈ start.candidates, c.id ∈ start.used) (hrun : Steps.Reaches (ConfirmDb.step env) Steps.Free start db) :
    db.resolutions.Nodup ∧
      (∀ id db', db.step env (.commit id) = some db' → ∃ t cand aim claimId, db.txs.get id = some t ∧ t.phase = .approved cand aim claimId ∧
        cand ∈ db.candidates ∧ cand.resolvedAt = none ∧
        (∃ row ∈ db'.candidates, row.id = cand.id ∧ row.resolvedAt ≠ none ∧ row.claimId = some claimId) ∧
        (∃ c ∈ db'.claims, c.id = claimId ∧ c.supersededAt = none ∧ c.reviewStatus = .confirmed ∧ Tells env t cand aim c) ∧
        NoTwin env t cand aim claimId db'.claims) ∧
      ∀ a db', a.Uncommitted → db.step env a = some db' →
        db'.claims = db.claims ∧ db'.candidates = db.candidates ∧ db'.resolutions = db.resolutions := by
  have hok : DbOk env db := hrun.invariant (fun _ _ _ hI _ hx => ConfirmAux.dbOk_step hI hx)
    (ConfirmAux.dbOk_fresh htxs hresolutions hused)
  refine ⟨hok.queue.once, fun id db' hs => ?_, fun a db' ha hs => ConfirmAux.unchanged_of_uncommitted ha hs⟩
  obtain ⟨t, hget, hs⟩ := Option.bind_eq_some_iff.1 hs
  have ht := hok.txs t (Table.get_eq_some_iff.1 hget).1
  split at hs
  · rename_i cand aim claimId hphase
    obtain rfl := Option.some.inj hs
    have hp := ht.phase
    unfold PhaseOk at hp
    rw [hphase] at hp
    obtain ⟨htwin, c, hc, hlive, hconf, htells⟩ := hp
    obtain ⟨hmem, hopen, -⟩ := ht.held cand (by rw [hphase]; rfl)
    have hview : ∀ {k x}, t.own.get k = some x → (t.view db.claims).get k = some x := fun hx => by
      rw [ConfirmAux.get_view, hx]
      rfl
    obtain ⟨hcmem, hcid⟩ := Table.get_eq_some_iff.1 (hview hc)
    refine ⟨t, cand, aim, claimId, hget, hphase, hmem, hopen, ?_, ⟨c, hcmem, hcid, hlive, hconf, htells⟩, fun hcond => ?_⟩
    · have hrow := (Table.mem_update (T := db.candidates) (p := fun c => c.id = cand.id)
        (f := fun c => { c with resolvedAt := some t.stamp, claimId := some claimId }) (fun _ => rfl)).2 (.inl ⟨cand, hmem, rfl, rfl⟩)
      exact ⟨_, hrow, rfl, Option.some_ne_none t.stamp, rfl⟩
    · rcases htwin hcond with hhead | hnone | ⟨h, hh, htext, x, hx, hended⟩
      · exact .inl hhead
      · exact .inr (.inl hnone)
      · exact .inr (.inr ⟨h, hh, htext, x, hview hx, hended⟩)
  · cases hs

/-- A test of the database, in one letter case. -/
def testEnv : VaultEnv where
  production := false
  lower := id
  toLowerCase := id

/-- A head with two blanks between its words. -/
def wideHead : VaultClaim where
  id := "h"
  spaceId := "s"
  statement := "Likes  tea"
  slotKey := none
  value := none
  reviewStatus := .unverified
  approvedAt := none
  approvedByUserId := none
  sensitive := false
  recordedAt := 1
  revision := 1
  supersedes := none
  supersededAt := none
  sourceClass := .agentInferred
  conflictsWith := none
  createdTaskId := none

/-- A candidate with one. -/
def narrowCandidate : MemoryCandidate where
  id := "c"
  idempotencyKey := "k"
  spaceId := "s"
  statement := "Likes tea"
  slotKey := none
  value := none
  sensitive := false
  policyState := .pending
  conflictsWith := none
  claimId := none
  resolvedAt := none

/-- A space with some claims and the candidate. -/
def opened (T : Claims) : ConfirmDb where
  spaces := Table.empty.put { id := "s", type := .user, refId := "u", ownerUserId := "u", retiredAt := none }
  claims := T
  candidates := Table.empty.put narrowCandidate
  used := ["c"]
  txs := Table.empty
  resolutions := []

/-- The person's answer. -/
def keepIt : ConfirmArgs where
  candidateId := "c"
  allowedSpaceIds := ["s"]
  actor := { isUser := true, id := some "u" }
  statement := none

/-- Where there is no head, a claim is written; another confirmation has begun meanwhile. -/
theorem resolves_once_written : ∃ (db' : ConfirmDb) (t : Tx) (cand : MemoryCandidate) (aim : Aim) (claimId : String),
    t.phase = .approved cand aim claimId ∧ db'.resolutions = ["c"] ∧
      (∃ row ∈ db'.candidates, row.id = cand.id ∧ row.resolvedAt ≠ none ∧ row.claimId = some claimId) ∧
      ∃ c ∈ db'.claims, c.id = claimId ∧ c.supersededAt = none ∧ c.reviewStatus = .confirmed ∧ Tells testEnv t cand aim c := by
  obtain ⟨db, hrun, hcommit⟩ := Steps.exists_of_exec (ConfirmDb.step testEnv) (opened Table.empty)
    [.start 0 keepIt, .start 1 keepIt, .next 0 Table.empty "x" 5, .next 0 Table.empty "x" 5, .next 0 Table.empty "x" 5,
      .next 0 Table.empty "x" 5, .next 0 (Table.empty.put ((Tx.input
        { id := 0, args := keepIt, share := "s", stamp := 5, phase := .fenced, locks := [], own := Table.empty } narrowCandidate).toRow
          "x" 5)) "x" 5]
    (P := fun db => ∃ d ∈ db.step testEnv (.commit 0), d.resolutions = ["c"]) (by decide +kernel)
  obtain ⟨db', hstep, hresolved⟩ := hcommit
  obtain ⟨t, cand, aim, claimId, -, hphase, -, -, hrow, hclaim, -⟩ := (resolves_once rfl rfl (by decide) hrun).2.1 0 db' hstep
  exact ⟨db', t, cand, aim, claimId, hphase, hresolved, hrow, hclaim⟩

/-- A confirmation that is merged into a head names a claim without exactly the candidate's text. -/
theorem resolves_once_false : ¬∀ (env : VaultEnv) (start db db' : ConfirmDb) (id : Nat), start.txs = Table.empty → start.resolutions = [] →
    (∀ c ∈ start.candidates, c.id ∈ start.used) → Steps.Reaches (ConfirmDb.step env) Steps.Free start db →
    db.step env (.commit id) = some db' → ∃ t cand aim claimId, db.txs.get id = some t ∧ t.phase = .approved cand aim claimId ∧
      ∃ c ∈ db'.claims, c.id = claimId ∧ c.supersededAt = none ∧ c.reviewStatus = .confirmed ∧
        c.statement = fitStatement (t.statement cand) ∧ c.value = cand.value := by
  intro h
  obtain ⟨db, hrun, htext, hcommit⟩ := Steps.exists_of_exec (ConfirmDb.step testEnv) (opened (Table.empty.put wideHead))
    [.start 0 keepIt, .next 0 Table.empty "x" 5, .next 0 Table.empty "x" 5, .next 0 Table.empty "x" 5,
      .next 0 (Table.empty.put wideHead) "x" 5]
    (P := fun db => ((db.txs.get 0).all fun t => t.phase.cand.all fun cand => fitStatement (t.statement cand) = "Likes tea") = true ∧
      ∃ d ∈ db.step testEnv (.commit 0), ∀ c ∈ d.claims, c.statement ≠ "Likes tea") (by decide +kernel)
  obtain ⟨db', hstep, hnone⟩ := hcommit
  obtain ⟨t, cand, aim, claimId, hget, hphase, c, hc, -, -, -, hstatement, -⟩ :=
    h testEnv _ db db' 0 rfl rfl (by decide) hrun hstep
  refine hnone c hc (hstatement.trans ?_)
  rw [hget, Option.all_some, hphase] at htext
  exact of_decide_eq_true htext

end Confirming

end Capka

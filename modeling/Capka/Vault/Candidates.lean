import Capka.Vault.Notes

/-!
# Candidates

The statements on `memory_candidates`: a proposal, the person's confirmation, which writes the claim, and the rejection.
-/

namespace Capka

structure ProposeArgs where
  idempotencyKey : String
  spaceId : String
  statement : String
  slotKey : Option String
  value : Option String
  sensitive : Bool
  forceConflict : Option String

inductive ProposeResult where
  | known (claimId : String)
  | proposed (state : PolicyState) (candidateId : String)
  | duplicate
  deriving DecidableEq

structure ConfirmArgs where
  candidateId : String
  allowedSpaceIds : List String
  actor : Actor
  statement : Option String

inductive ConfirmResult where
  | ok (claimId : String)
  | alreadyResolved
  | notFound
  | tryAgain
  deriving DecidableEq

/-- What one attempt of a confirmation comes to: the claim, or a lost race that the next attempt reads anew. -/
inductive ConfirmAttempt where
  | done (v : Vault) (claimId : String)
  | retry

/-- `valueAgrees`: a candidate without a value agrees with any. -/
def valueAgrees (headValue candidateValue : Option String) : Prop := candidateValue = none ∨ headValue = candidateValue

instance (headValue candidateValue : Option String) : Decidable (valueAgrees headValue candidateValue) := by
  unfold valueAgrees
  infer_instance

namespace Vault

/-- `proposeCandidate` behind the fence; `known` is the claim with that wording that the model can read already. -/
def proposeCandidate (args : ProposeArgs) (id : String) (known : Option String) (v : Vault) : Option (Vault × ProposeResult) :=
  match known, args.forceConflict with
  | some claimId, none => some (v, .known claimId)
  | _, _ =>
    if ∃ c ∈ v.candidates, c.idempotencyKey = args.idempotencyKey then some (v, .duplicate)
    else
      let policyState := if args.forceConflict.isSome then .conflict else .pending
      (v.candidates.insert
        { id, idempotencyKey := args.idempotencyKey, spaceId := args.spaceId, statement := fitStatement args.statement,
          slotKey := fitSlotKey args.slotKey, value := args.value,
          sensitive := args.sensitive || secretShaped args.statement args.slotKey args.value, policyState,
          conflictsWith := args.forceConflict, claimId := none, resolvedAt := none }).map fun candidates =>
        ({ v with candidates }.audit args.spaceId .candidatePropose id, .proposed policyState id)

/-- `listHeadClaims`: the heads of a space, the latest first. -/
def listHeadClaims (spaceId : String) (v : Vault) : List VaultClaim :=
  (v.claims.rows.filter fun c => c.spaceId = spaceId ∧ c.supersededAt = none).insertionSort fun a b =>
    b.recordedAt < a.recordedAt ∨ (a.recordedAt = b.recordedAt ∧ a.id ≤ b.id)

def headBySlot (spaceId slotKey : String) (v : Vault) : Option VaultClaim :=
  (v.listHeadClaims spaceId).find? fun c => c.slotKey = some slotKey

/-- `targetHead`: the head the confirmation acts on, and the one it ends besides. -/
def targetHead (env : VaultEnv) (conflictsWith : Option String) (spaceId : String) (slotKey : Option String) (statement : String) (v : Vault) :
    Option VaultClaim × Option VaultClaim :=
  let heads := v.listHeadClaims spaceId
  let sameText := heads.find? fun c => norm env c.statement = norm env statement
  match conflictsWith with
  | none => (match slotKey with | some key => v.headBySlot spaceId key | none => sameText, none)
  | some contestedId =>
    let contested := heads.find? fun c => c.id = contestedId
    match sameText with
    | some same => if contested.map VaultClaim.id ≠ some same.id then (some same, contested) else (contested, none)
    | none => (contested, none)

/-- The end of an attempt: the person's approval of the claim. -/
def approve (claimId : String) (sensitive : Bool) (actor : Actor) (now : Nat) (v : Vault) : ConfirmAttempt :=
  let r := v.confirmClaim claimId sensitive actor now
  if r.2 then .done r.1 claimId else .retry

/-- An attempt on the head it acts on, once another was ended. -/
def confirmOn (env : VaultEnv) (args : ConfirmArgs) (cand : MemoryCandidate) (statement : String) (fresh : Nat → String) (now : Nat)
    (head : Option VaultClaim) (v : Vault) : Option ConfirmAttempt :=
  match head with
  | some usable =>
    if norm env usable.statement = norm env statement ∧ valueAgrees usable.value cand.value then
      some (v.approve usable.id (usable.sensitive || cand.sensitive) args.actor now)
    else
      (topicByKey env cand.spaceId (fresh 0) v v).bind fun topic =>
      (topic.1.updateClaim env
        { claimId := usable.id, expectedRevision := usable.revision,
          patch :=
            { statement := some statement, value := cand.value.map some, slotKey := none,
              sensitive := usable.sensitive || cand.sensitive, topicNoteId := some topic.2.id },
          sourceClass := .ownerAuthored, allowedSpaceIds := args.allowedSpaceIds } (fun i => fresh (i + 1)) now).map fun r =>
        match r.2 with
        | .stale _ => .retry
        | .ok successor => r.1.approve successor.1 (usable.sensitive || cand.sensitive) args.actor now
  | none =>
    (topicByKey env cand.spaceId (fresh 0) v v).bind fun topic =>
    (topic.1.createClaim env
      { spaceId := cand.spaceId, statement, slotKey := fitSlotKey cand.slotKey, value := cand.value, sensitive := cand.sensitive,
        topicNoteId := some topic.2.id, sourceClass := .ownerAuthored, createdTaskId := none, conflictsWith := none } (fun i => fresh (i + 1)) now).map fun r =>
      r.1.approve r.2.1 cand.sensitive args.actor now

/-- One attempt, under a savepoint. -/
def confirmAttempt (env : VaultEnv) (args : ConfirmArgs) (cand : MemoryCandidate) (fresh : Nat → String) (now : Nat) (v : Vault) :
    Option ConfirmAttempt :=
  let statement := (args.statement.map fitStatement).getD cand.statement
  let target := v.targetHead env cand.conflictsWith cand.spaceId (fitSlotKey cand.slotKey) statement
  match target.2 with
  | none => v.confirmOn env args cand statement fresh now target.1
  | some retire =>
    (v.forgetClaim
      { claimId := retire.id, expectedRevision := retire.revision, allowedSpaceIds := args.allowedSpaceIds,
        requireCreatedTaskId := none } now).bind fun r =>
      match r.2 with
      | .stale _ => some .retry
      | .ok _ => r.1.confirmOn env args cand statement fresh now target.1

/-- The candidate points at its claim. -/
def finishConfirm (cand : MemoryCandidate) (claimId : String) (v : Vault) : Vault :=
  { v with candidates := v.candidates.update (fun c => c.id = cand.id) (fun c => { c with claimId := some claimId }) fun _ => rfl }.audit
    cand.spaceId .candidateConfirm cand.id

/-- `confirmCandidate` behind the fence; the two attempts draw ids of their own. -/
def confirmCandidate (env : VaultEnv) (args : ConfirmArgs) (fresh₁ fresh₂ : Nat → String) (now : Nat) (v : Vault) :
    Option (Vault × ConfirmResult) :=
  match (v.candidates.get args.candidateId).filter fun c => c.resolvedAt = none ∧ c.spaceId ∈ args.allowedSpaceIds with
  | none =>
    some (v, if ∃ c ∈ v.candidates, c.id = args.candidateId ∧ c.spaceId ∈ args.allowedSpaceIds then .alreadyResolved else .notFound)
  | some cand =>
    let resolved := { v with
      candidates := v.candidates.update (fun c => c.id = args.candidateId) (fun c => { c with resolvedAt := some now }) fun _ => rfl }
    (confirmAttempt env args cand fresh₁ now resolved).bind fun
      | .done w claimId => some (w.finishConfirm cand claimId, .ok claimId)
      | .retry =>
        (confirmAttempt env args cand fresh₂ now resolved).map fun
          | .done w claimId => (w.finishConfirm cand claimId, .ok claimId)
          | .retry => (v, .tryAgain)

/-- `rejectCandidate`: whether it resolved the candidate. -/
def rejectCandidate (candidateId : String) (allowedSpaceIds : List String) (now : Nat) (v : Vault) : Vault × Bool :=
  match (v.candidates.get candidateId).filter fun c => c.resolvedAt = none ∧ c.spaceId ∈ allowedSpaceIds with
  | none => (v, false)
  | some cand =>
    ({ v with
        candidates := v.candidates.update (fun c => c.id = candidateId) (fun c => { c with resolvedAt := some now }) fun _ => rfl }.audit
      cand.spaceId .candidateReject candidateId, true)

end Vault

end Capka

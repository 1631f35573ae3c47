import Capka.Vault.Store

/-!
# Claims

The statements on `vault_claims`. A writer that takes the lifecycle fence is given without it: what it does once the space accepted the
write. `none` is a throw, which rolls the transaction back. `fresh` hands out the ids of `nanoid`, `now` is the time of the call.
-/

namespace Capka

namespace VaultClaim

/-- The claim is not superseded and its space is one of the caller's. -/
def headIn (allowedSpaceIds : List String) (c : VaultClaim) : Prop := c.supersededAt = none ∧ c.spaceId ∈ allowedSpaceIds

instance (allowedSpaceIds : List String) (c : VaultClaim) : Decidable (c.headIn allowedSpaceIds) := by
  unfold headIn
  infer_instance

end VaultClaim

/-- The caller of a write: only a person has an id that approves. -/
structure Actor where
  isUser : Bool
  id : Option String
  deriving DecidableEq, Repr

structure ClaimInput where
  spaceId : String
  statement : String
  slotKey : Option String
  value : Option String
  sensitive : Bool
  topicNoteId : Option String
  sourceClass : SourceClass
  createdTaskId : Option String
  conflictsWith : Option String

/-- What a caller changes; a value is absent, null or given. -/
structure ClaimPatch where
  statement : Option String
  value : Option (Option String)
  slotKey : Option String
  sensitive : Bool
  topicNoteId : Option String

structure UpdateClaimArgs where
  claimId : String
  expectedRevision : Nat
  patch : ClaimPatch
  sourceClass : SourceClass
  allowedSpaceIds : List String

structure ForgetClaimArgs where
  claimId : String
  expectedRevision : Nat
  allowedSpaceIds : List String
  requireCreatedTaskId : Option String

/-- What a compare-and-swap on a claim answers: done, or the head the caller should have had. -/
inductive ClaimResult (α : Type) where
  | ok (a : α)
  | stale (current : Option VaultClaim)
  deriving DecidableEq

/-- Which of two facts in conflict stays. -/
inductive KeepSide where
  | both
  | this
  | other
  deriving DecidableEq

/-- The row that goes: the contested one, or the contesting one. -/
def KeepSide.loser (claimId : String) (contested : Option String) : KeepSide → Option String
  | .both => none
  | .this => contested
  | .other => some claimId

/-- `MAX_CHAIN`. -/
def maxChain : Nat := 1000

/-- The row that `createClaim` writes. -/
def ClaimInput.toRow (input : ClaimInput) (id : String) (now : Nat) : VaultClaim where
  id := id
  spaceId := input.spaceId
  statement := fitStatement input.statement
  slotKey := fitSlotKey input.slotKey
  value := input.value
  reviewStatus := .unverified
  approvedAt := none
  approvedByUserId := none
  sensitive := input.sensitive || secretShaped input.statement input.slotKey input.value
  recordedAt := now
  revision := 1
  supersedes := none
  supersededAt := none
  sourceClass := input.sourceClass
  conflictsWith := input.conflictsWith
  createdTaskId := input.createdTaskId

/-- The row that `updateClaim` writes. -/
def VaultClaim.successor (args : UpdateClaimArgs) (prev : VaultClaim) (id : String) (now : Nat) : VaultClaim :=
  let rawStatement := args.patch.statement.getD prev.statement
  let rawSlotKey := args.patch.slotKey <|> prev.slotKey
  let statement := fitStatement rawStatement
  let slotKey := fitSlotKey rawSlotKey
  let value := args.patch.value.getD prev.value
  let rewritesText := statement ≠ fitStatement prev.statement ∨ slotKey ≠ fitSlotKey prev.slotKey ∨ value ≠ prev.value
  { id
    spaceId := prev.spaceId
    statement
    slotKey
    value
    reviewStatus := if rewritesText then .unverified else prev.reviewStatus
    approvedAt := if rewritesText then none else prev.approvedAt
    approvedByUserId := if rewritesText then none else prev.approvedByUserId
    sensitive := prev.sensitive || args.patch.sensitive || secretShaped rawStatement rawSlotKey value
    recordedAt := now
    revision := prev.revision + 1
    supersedes := some args.claimId
    supersededAt := none
    sourceClass := args.sourceClass
    conflictsWith := none
    createdTaskId := prev.createdTaskId }

namespace Claims

/-- Supersede the rows with a property. -/
def finish (p : VaultClaim → Bool) (now : Nat) (T : Claims) : Claims :=
  T.update (fun c => p c = true) (fun c => { c with supersededAt := some now }) fun _ => rfl

/-- The claims after `prev` was superseded and its successor written; a second successor violates `uniq_vclaims_one_successor`. -/
def supersede (args : UpdateClaimArgs) (prev : VaultClaim) (id : String) (now : Nat) (T : Claims) : Option Claims :=
  if ∃ c ∈ T, c.supersedes = some args.claimId then none
  else (T.finish (fun c => c.id = args.claimId) now).insert (prev.successor args id now)

def revive (claimId : String) (T : Claims) : Claims :=
  T.update (fun c => c.id = claimId) (fun c => { c with supersededAt := none }) fun _ => rfl

def confirm (claimId : String) (sensitive : Bool) (actor : Actor) (now : Nat) (T : Claims) : Claims :=
  T.update (fun c => c.id = claimId ∧ c.supersededAt = none)
    (fun c => { c with
      reviewStatus := .confirmed
      sensitive := c.sensitive || sensitive
      approvedAt := some now
      approvedByUserId := if actor.isUser then actor.id else none }) fun _ => rfl

/-- The conflict is no longer carried by the row. -/
def clearConflict (claimId : String) (T : Claims) : Claims :=
  T.update (fun c => c.id = claimId) (fun c => { c with conflictsWith := none }) fun _ => rfl

end Claims

namespace Vault

/-- `assertTopicInSpace` does not throw. -/
def topicInSpace (v : Vault) (noteId spaceId : String) : Prop := ∃ n ∈ v.notes, n.id = noteId ∧ n.spaceId = spaceId

instance (v : Vault) (noteId spaceId : String) : Decidable (v.topicInSpace noteId spaceId) := by
  unfold topicInSpace
  infer_instance

/-- Put a claim into a topic: the membership, unless it is there, and the edge. -/
def fileUnder (spaceId noteId claimId edgeId : String) (v : Vault) : Option (Vault × String) :=
  if v.topicInSpace noteId spaceId then
    (v.graph.linkNodes spaceId noteId claimId .contains edgeId).map fun r =>
      ({ v with graph := r.1, noteClaims := v.noteClaims.put { noteId, claimId } }, r.2.1)
  else none

/-- The successors of a row, one after another, to the last. -/
def chainEnd (v : Vault) (allowedSpaceIds : List String) : Nat → VaultClaim → Option VaultClaim
  | 0, _ => none
  | hops + 1, row =>
    match v.claims.rows.find? (fun c => c.supersedes = some row.id ∧ c.spaceId ∈ allowedSpaceIds) with
    | none => some row
    | some next => chainEnd v allowedSpaceIds hops next

def findCurrentHead (claimId : String) (allowedSpaceIds : List String) (v : Vault) : Option (Option VaultClaim) :=
  match (v.claims.get claimId).filter (fun c => c.spaceId ∈ allowedSpaceIds) with
  | none => some none
  | some start => (v.chainEnd allowedSpaceIds (maxChain + 1) start).map fun row => if row.supersededAt = none then some row else none

/-- `vault_claims_conflicts_with_fk`. -/
def pointsInto (v : Vault) (spaceId : String) (conflictsWith : Option String) : Prop :=
  ∀ id ∈ conflictsWith, ∃ n ∈ v.graph.nodes, n.id = id ∧ n.spaceId = spaceId

instance (v : Vault) (spaceId : String) (conflictsWith : Option String) : Decidable (v.pointsInto spaceId conflictsWith) := by
  unfold pointsInto
  infer_instance

/-- `createClaim` behind the fence. -/
def createClaim (env : VaultEnv) (input : ClaimInput) (fresh : Nat → String) (now : Nat) (v : Vault) : Option (Vault × String × Bool) :=
  if ¬v.pointsInto input.spaceId input.conflictsWith then none else
  (v.graph.insertNode (fresh 0) input.spaceId .claim).bind fun graph =>
  (v.claims.insert (input.toRow (fresh 0) now)).bind fun claims =>
  let inserted := { v with graph, claims }
  let filed : Option Vault :=
    match input.topicNoteId with
    | none => some inserted
    | some noteId =>
      ((inserted.fileUnder input.spaceId noteId (fresh 0) (fresh 1)).map Prod.fst).filter fun w : Vault => w.parityAsserted env input.spaceId
  filed.map fun w => (w.audit input.spaceId .claimCreate (fresh 0), fresh 0, (input.toRow (fresh 0) now).sensitive)

/-- The row that `updateClaim` swaps out, under its guards. -/
def updateTarget (args : UpdateClaimArgs) (v : Vault) : Option VaultClaim :=
  (v.claims.get args.claimId).filter fun c => c.revision = args.expectedRevision ∧ c.headIn args.allowedSpaceIds

/-- The notes a claim is filed under. -/
def filedUnder (v : Vault) (claimId : String) : List String :=
  (v.noteClaims.rows.filter fun p => p.claimId = claimId).map NoteClaim.noteId

/-- The memberships of a claim, given to another, which has none yet. -/
def moveMemberships (old new : String) (v : Vault) : Table NoteClaim NoteClaim.key :=
  (v.filedUnder old).foldl (fun T noteId => T.put { noteId, claimId := new }) (v.noteClaims.filter fun p => p.claimId ≠ old)

/-- The topics of a superseded claim, carried over to its successor, with the topic of the patch where there were none. -/
def carryTopics (args : UpdateClaimArgs) (spaceId : String) (fresh : Nat → String) (now : Nat) (v : Vault) : Option Vault :=
  let moved := v.filedUnder args.claimId
  ((v.graph.unlinkContainsInto args.claimId spaceId now).linkContains spaceId (fresh 0) fresh moved 1).bind fun graph =>
  let carried := { v with graph, noteClaims := v.moveMemberships args.claimId (fresh 0) }
  match moved, args.patch.topicNoteId with
  | [], some noteId => (carried.fileUnder spaceId noteId (fresh 0) (fresh 1)).map Prod.fst
  | _, _ => some carried

/-- `updateClaim` behind the fence: the successor's id and revision. -/
def updateClaim (env : VaultEnv) (args : UpdateClaimArgs) (fresh : Nat → String) (now : Nat) (v : Vault) :
    Option (Vault × ClaimResult (String × Nat)) :=
  match v.updateTarget args with
  | none => (v.findCurrentHead args.claimId args.allowedSpaceIds).map fun current => (v, .stale current)
  | some prev =>
    (v.graph.insertNode (fresh 0) prev.spaceId .claim).bind fun graph =>
    (v.claims.supersede args prev (fresh 0) now).bind fun claims =>
    (({ v with graph, claims }.carryTopics args prev.spaceId fresh now).filter fun w : Vault =>
      w.parityAsserted env prev.spaceId).map fun w : Vault =>
      (w.audit prev.spaceId .claimSupersede args.claimId, .ok (fresh 0, prev.revision + 1))

def forgetClaim (args : ForgetClaimArgs) (now : Nat) (v : Vault) : Option (Vault × ClaimResult Unit) :=
  match (v.claims.get args.claimId).filter (fun c => c.revision = args.expectedRevision ∧ c.headIn args.allowedSpaceIds ∧
      (args.requireCreatedTaskId = none ∨ c.createdTaskId = args.requireCreatedTaskId)) with
  | none => (v.findCurrentHead args.claimId args.allowedSpaceIds).map fun current => (v, .stale current)
  | some prev =>
    some
      ({ v with
          claims := v.claims.finish (fun c => c.id = args.claimId) now
          graph := (v.graph.deleteNode args.claimId prev.spaceId now none).1 }.audit prev.spaceId .claimForget args.claimId, .ok ())

/-- The claim of the caller's that `restoreClaim` finds deleted: its space, and the stamp of its node. -/
def claimTomb (claimId : String) (allowedSpaceIds : List String) (v : Vault) : Option (String × Nat) :=
  ((v.claims.get claimId).filter fun c => c.spaceId ∈ allowedSpaceIds).bind fun c =>
    ((v.graph.nodes.get claimId).filter fun n => n.spaceId = c.spaceId).bind fun n => n.deletedAt.map fun stamp => (c.spaceId, stamp)

/-- The row `restoreClaim` may bring back: superseded in that space, and by no other row. -/
def revivable (claimId spaceId : String) (v : Vault) : Prop :=
  (∃ c ∈ v.claims, c.id = claimId ∧ c.spaceId = spaceId ∧ c.supersededAt ≠ none) ∧ ¬∃ s ∈ v.claims, s.supersedes = some claimId

instance (claimId spaceId : String) (v : Vault) : Decidable (v.revivable claimId spaceId) := by
  unfold revivable
  infer_instance

/-- `restoreClaim` after its read, which found the stamp: whether it restored. A node that no longer carries the stamp stays as it is. -/
def restoreClaimFrom (claimId spaceId : String) (stamp : Nat) (v : Vault) : Option (Vault × Bool) :=
  if v.revivable claimId spaceId then
    (v.graph.restoreNode claimId spaceId stamp).map fun r =>
      let revived := { v with
        graph := r.1
        claims := v.claims.revive claimId }
      (if r.2 then revived.audit spaceId .claimRestore claimId else revived, r.2)
  else some (v, false)

/-- `restoreClaim`: whether it restored. -/
def restoreClaim (claimId : String) (allowedSpaceIds : List String) (v : Vault) : Option (Vault × Bool) :=
  match v.claimTomb claimId allowedSpaceIds with
  | none => some (v, false)
  | some tomb => v.restoreClaimFrom claimId tomb.1 tomb.2

/-- `confirmClaim`: whether it hit a head. -/
def confirmClaim (claimId : String) (sensitive : Bool) (actor : Actor) (now : Nat) (v : Vault) : Vault × Bool :=
  ({ v with claims := v.claims.confirm claimId sensitive actor now },
    decide (∃ c ∈ v.claims, c.id = claimId ∧ c.supersededAt = none))

/-- `forgetAllClaims`: how many heads it ended, each node deleted at a time of its own. -/
def forgetAllClaims (spaceId : String) (now : Nat) (clock : String → Nat) (v : Vault) : Vault × Nat :=
  let heads := v.claims.rows.filter fun c => c.spaceId = spaceId ∧ c.supersededAt = none
  ({ v with
      claims := v.claims.finish (fun c => c.spaceId = spaceId ∧ c.supersededAt = none) now
      graph := heads.foldl (fun g c => (g.deleteNode c.id spaceId (clock c.id) none).1) v.graph
      auditEvents := v.auditEvents ++ heads.map fun c => { spaceId, action := .claimForget, subjectId := c.id } }, heads.length)

/-- The contesting row `resolveConflict` locks: a head of the caller's that carries a conflict. -/
def contesting (claimId : String) (allowedSpaceIds : List String) (v : Vault) : Option VaultClaim :=
  (v.claims.get claimId).filter fun c => c.headIn allowedSpaceIds ∧ c.conflictsWith ≠ none

/-- `resolveConflict` after it cleared the conflict: the end of the chain that goes, when `head` is what it read of it. -/
def forgetLoser (claimId spaceId : String) (allowedSpaceIds : List String) (head : Option VaultClaim) (now : Nat) (v : Vault) :
    Option (Vault × Bool) :=
  match head with
  | none => some (v, false)
  | some head =>
    (v.forgetClaim { claimId := head.id, expectedRevision := head.revision, allowedSpaceIds, requireCreatedTaskId := none } now).map
      fun r =>
        match r.2 with
        | .ok _ => (r.1.audit spaceId .claimConflict claimId, true)
        | .stale _ => (r.1, false)

/-- `resolveConflict`: whether it took the decision. -/
def resolveConflict (claimId : String) (keep : KeepSide) (allowedSpaceIds : List String) (now : Nat) (v : Vault) : Option (Vault × Bool) :=
  match v.contesting claimId allowedSpaceIds with
  | none => some (v, false)
  | some c =>
    let cleared := { v with claims := v.claims.clearConflict claimId }
    match keep.loser claimId c.conflictsWith with
    | none => some (cleared.audit c.spaceId .claimConflict claimId, true)
    | some loser =>
      (cleared.findCurrentHead loser allowedSpaceIds).bind fun head =>
        cleared.forgetLoser claimId c.spaceId allowedSpaceIds head now

/-- `attachToTopic`: the edge. -/
def attachToTopic (env : VaultEnv) (claimId noteId edgeId : String) (v : Vault) : Option (Vault × String) :=
  (v.claims.get claimId).bind fun c =>
    (v.fileUnder c.spaceId noteId claimId edgeId).filter fun r => r.1.parityAsserted env c.spaceId

end Vault

end Capka

import Capka.Lib.Steps
import Capka.Vault.Candidates

/-!
# The memory as a state machine

Every writer of the memory as one operation, with the spaces whose lifecycle fence it takes, and the retirement of a space. An operation
that throws changes nothing, and neither does one that finds a space closed.
-/

namespace Capka

namespace Spaces

/-- The update of `retireProjectSpace`, which keeps the time of the first retirement. -/
def close (spaceId : String) (now : Nat) (spaces : Spaces) : Spaces :=
  spaces.update (fun s => s.id = spaceId ∧ s.retiredAt = none) (fun s => { s with retiredAt := some now }) fun _ => rfl

/-- `uniq_spaces_type_ref`: the scope is free. -/
def scopeFree (type : SpaceType) (refId : String) (spaces : Spaces) : Prop := ∀ s ∈ spaces, ¬(s.type = type ∧ s.refId = refId)

instance (type : SpaceType) (refId : String) (spaces : Spaces) : Decidable (spaces.scopeFree type refId) := by
  unfold scopeFree
  infer_instance

end Spaces

namespace Vault

/-- What `retireProjectSpace` removes: the claims, notes and candidates of the space with what cascades from them, and its nodes. -/
def wipe (spaceId : String) (now : Nat) (v : Vault) : Vault where
  graph := v.graph.deleteSpaceNodes spaceId now
  notes := v.notes.filter fun n => n.spaceId ≠ spaceId
  noteVersions := v.noteVersions.filter fun r => ¬∃ n ∈ v.notes, n.id = r.noteId ∧ n.spaceId = spaceId
  claims := v.claims.filter fun c => c.spaceId ≠ spaceId
  noteClaims := v.noteClaims.filter fun p => ¬((∃ n ∈ v.notes, n.id = p.noteId ∧ n.spaceId = spaceId) ∨
    ∃ c ∈ v.claims, c.id = p.claimId ∧ c.spaceId = spaceId)
  candidates := v.candidates.filter fun c => c.spaceId ≠ spaceId
  auditEvents := v.auditEvents

/-- The retirement is on record. -/
def retireEvents (spaceId : String) (v : Vault) : List AuditEvent :=
  v.auditEvents.filter fun e => e.spaceId = spaceId ∧ e.action = .spaceRetire

/-- `retireProjectSpace`, from the removals on: exactly one event for a space. -/
def retire (spaceId : String) (now : Nat) (v : Vault) : Vault :=
  if v.retireEvents spaceId = [] then (v.wipe spaceId now).audit spaceId .spaceRetire spaceId else v.wipe spaceId now

end Vault

/-- A writer of the memory. -/
inductive VaultOp where
  | createClaim (input : ClaimInput) (fresh : Nat → String) (now : Nat)
  | updateClaim (args : UpdateClaimArgs) (fresh : Nat → String) (now : Nat)
  | forgetClaim (args : ForgetClaimArgs) (now : Nat)
  | restoreClaim (claimId : String) (allowedSpaceIds : List String)
  | forgetAllClaims (spaceId : String) (now : Nat) (clock : String → Nat)
  | confirmClaim (claimId : String) (sensitive : Bool) (actor : Actor) (now : Nat)
  | resolveConflict (claimId : String) (keep : KeepSide) (allowedSpaceIds : List String) (now : Nat)
  | attachToTopic (claimId noteId edgeId : String)
  | createNote (args : CreateNoteArgs) (fresh : Nat → String) (now : Nat)
  | reviseNote (args : ReviseNoteArgs) (fresh : Nat → String) (now : Nat)
  | forgetNote (args : ForgetNoteArgs) (now : Nat)
  | restoreNote (noteId spaceId : String)
  | resolveTopic (args : ResolveArgs) (id : String)
  | proposeCandidate (args : ProposeArgs) (id : String) (known : Option String)
  | confirmCandidate (args : ConfirmArgs) (fresh₁ fresh₂ : Nat → String) (now : Nat)
  | rejectCandidate (candidateId : String) (allowedSpaceIds : List String) (now : Nat)
  | linkNodes (spaceId a b : String) (relation : EdgeRelation) (edgeId : String)
  | unlinkEdge (edgeId spaceId : String) (now : Nat)

namespace VaultOp

/-- The spaces whose fence the operation takes, in the state it finds. -/
def fences (v : Vault) : VaultOp → List String
  | createClaim input _ _ => [input.spaceId]
  | updateClaim args _ _ =>
    (((v.claims.get args.claimId).filter fun c => c.spaceId ∈ args.allowedSpaceIds).map VaultClaim.spaceId).toList
  | createNote args _ _ => [args.spaceId]
  | reviseNote args _ _ => [args.spaceId]
  | resolveTopic args _ => [args.spaceId]
  | proposeCandidate args _ _ => [args.spaceId]
  | confirmCandidate args _ _ _ =>
    (((v.candidates.get args.candidateId).filter fun c => c.spaceId ∈ args.allowedSpaceIds).map MemoryCandidate.spaceId).toList
  | _ => []

/-- What the operation does behind its fences; `none` is a throw. -/
def run (env : VaultEnv) (v : Vault) : VaultOp → Option Vault
  | createClaim input fresh now => (v.createClaim env input fresh now).map Prod.fst
  | updateClaim args fresh now => (v.updateClaim env args fresh now).map Prod.fst
  | forgetClaim args now => (v.forgetClaim args now).map Prod.fst
  | restoreClaim claimId allowedSpaceIds => (v.restoreClaim claimId allowedSpaceIds).map Prod.fst
  | forgetAllClaims spaceId now clock => some (v.forgetAllClaims spaceId now clock).1
  | confirmClaim claimId sensitive actor now => some (v.confirmClaim claimId sensitive actor now).1
  | resolveConflict claimId keep allowedSpaceIds now => (v.resolveConflict claimId keep allowedSpaceIds now).map Prod.fst
  | attachToTopic claimId noteId edgeId => (v.attachToTopic env claimId noteId edgeId).map Prod.fst
  | createNote args fresh now => (v.createNote env args fresh now).map Prod.fst
  | reviseNote args fresh now => (v.reviseNote env args fresh now).map Prod.fst
  | forgetNote args now => some (v.forgetNote args now).1
  | restoreNote noteId spaceId => (v.restoreNote noteId spaceId).map Prod.fst
  | resolveTopic args id => (v.resolveTopic env args id v).map Prod.fst
  | proposeCandidate args id known => (v.proposeCandidate args id known).map Prod.fst
  | confirmCandidate args fresh₁ fresh₂ now => (v.confirmCandidate env args fresh₁ fresh₂ now).map Prod.fst
  | rejectCandidate candidateId allowedSpaceIds now => some (v.rejectCandidate candidateId allowedSpaceIds now).1
  | linkNodes spaceId a b relation edgeId => (v.graph.linkNodes spaceId a b relation edgeId).map fun r => { v with graph := r.1 }
  | unlinkEdge edgeId spaceId now => some { v with graph := v.graph.unlinkEdge edgeId spaceId now }

end VaultOp

/-- What happens to the memory: a writer's operation, a space that is opened, a space that is retired. -/
inductive MemoryAct where
  | write (op : VaultOp)
  | openSpace (space : SpaceRow)
  | retire (spaceId : String) (now : Nat)

namespace MemoryStore

def write (env : VaultEnv) (op : VaultOp) (s : MemoryStore) : Option MemoryStore :=
  if ∀ spaceId ∈ op.fences s.vault, s.spaces.acceptsWrites spaceId then (op.run env s.vault).map fun vault => { s with vault } else none

def step (env : VaultEnv) (s : MemoryStore) : MemoryAct → Option MemoryStore
  | .write op => s.write env op
  | .openSpace space =>
    if s.spaces.scopeFree space.type space.refId then (s.spaces.insert space).map fun spaces => { s with spaces } else none
  | .retire spaceId now => some { spaces := s.spaces.close spaceId now, vault := s.vault.retire spaceId now }

/-- No space, no memory. -/
def empty : MemoryStore where
  spaces := Table.empty
  vault := Vault.empty

end MemoryStore

end Capka

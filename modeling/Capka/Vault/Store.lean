import Capka.Vault.Graph
import Capka.Vault.Text

/-!
# The rows of the memory

Spaces, notes with their versions, claims, which claims a note holds, candidates and the audit log; and the comparison of the two records
of membership, `note_claims` and the live `contains` edges into claims.
-/

namespace Capka

inductive SpaceType where
  | user
  | project
  deriving DecidableEq, Repr

/-- A row of `spaces`. -/
structure SpaceRow where
  id : String
  type : SpaceType
  refId : String
  ownerUserId : String
  retiredAt : Option Nat
  deriving DecidableEq, Repr

abbrev Spaces := Table SpaceRow SpaceRow.id

/-- `spaceAcceptsWrites`: the space is there and not retired. -/
def Spaces.acceptsWrites (spaces : Spaces) (spaceId : String) : Prop := ∃ s ∈ spaces, s.id = spaceId ∧ s.retiredAt = none

instance (spaces : Spaces) (spaceId : String) : Decidable (spaces.acceptsWrites spaceId) := by
  unfold Spaces.acceptsWrites
  infer_instance

inductive NoteKind where
  | note
  | memoryTopic
  | index
  deriving DecidableEq, Repr

inductive SourceClass where
  | legacyConfirmed
  | ownerAuthored
  | userDirect
  | agentInferred
  | untrustedDerived
  deriving DecidableEq, Repr

/-- A row of `vault_notes`. -/
structure VaultNote where
  id : String
  spaceId : String
  title : String
  body : String
  kind : NoteKind
  topicKey : Option String
  currentRevision : Nat
  deriving DecidableEq, Repr

/-- A row of `vault_note_versions`. -/
structure NoteVersion where
  noteId : String
  revision : Nat
  title : String
  bodyMarkdown : String
  sourceClass : SourceClass
  sensitive : Bool
  createdTaskId : Option String
  deriving DecidableEq, Repr

inductive ReviewStatus where
  | unverified
  | confirmed
  deriving DecidableEq, Repr

/-- A row of `vault_claims`; a value is given by its JSON. -/
structure VaultClaim where
  id : String
  spaceId : String
  statement : String
  slotKey : Option String
  value : Option String
  reviewStatus : ReviewStatus
  approvedAt : Option Nat
  approvedByUserId : Option String
  sensitive : Bool
  recordedAt : Nat
  revision : Nat
  supersedes : Option String
  supersededAt : Option Nat
  sourceClass : SourceClass
  conflictsWith : Option String
  createdTaskId : Option String
  deriving DecidableEq, Repr

abbrev Claims := Table VaultClaim VaultClaim.id

/-- A row of `note_claims`. -/
structure NoteClaim where
  noteId : String
  claimId : String
  deriving DecidableEq, Repr

/-- The columns of `uniq_note_claims`. -/
def NoteClaim.key (p : NoteClaim) : String × String := (p.noteId, p.claimId)

inductive PolicyState where
  | pending
  | conflict
  deriving DecidableEq, Repr

/-- A row of `memory_candidates`. -/
structure MemoryCandidate where
  id : String
  idempotencyKey : String
  spaceId : String
  statement : String
  slotKey : Option String
  value : Option String
  sensitive : Bool
  policyState : PolicyState
  conflictsWith : Option String
  claimId : Option String
  resolvedAt : Option Nat
  deriving DecidableEq, Repr

inductive AuditAction where
  | claimCreate
  | claimSupersede
  | claimForget
  | claimRestore
  | claimConflict
  | noteRevise
  | nodeDelete
  | nodeRestore
  | candidatePropose
  | candidateConfirm
  | candidateReject
  | spaceRetire
  deriving DecidableEq, Repr

/-- A row of `audit_events`. -/
structure AuditEvent where
  spaceId : String
  action : AuditAction
  subjectId : String
  deriving DecidableEq, Repr

/-- The memory of all spaces. -/
structure Vault where
  graph : MemoryGraph
  notes : Table VaultNote VaultNote.id
  noteVersions : Table NoteVersion (fun r => (r.noteId, r.revision))
  claims : Claims
  noteClaims : Table NoteClaim NoteClaim.key
  candidates : Table MemoryCandidate MemoryCandidate.id
  auditEvents : List AuditEvent

namespace Vault

/-- A memory that holds nothing. -/
def empty : Vault where
  graph := { nodes := Table.empty, edges := Table.empty }
  notes := Table.empty
  noteVersions := Table.empty
  claims := Table.empty
  noteClaims := Table.empty
  candidates := Table.empty
  auditEvents := []

/-- Write to the audit log. -/
def audit (spaceId : String) (action : AuditAction) (subjectId : String) (v : Vault) : Vault :=
  { v with auditEvents := v.auditEvents ++ [{ spaceId, action, subjectId }] }

/-- The note holds the claim, and both are live in the space: a pair of `containsParity`. -/
def Holds (v : Vault) (spaceId noteId claimId : String) : Prop :=
  (∃ p ∈ v.noteClaims, p.noteId = noteId ∧ p.claimId = claimId) ∧ v.graph.Live spaceId noteId ∧ v.graph.Live spaceId claimId

/-- A live `contains` edge of the space ends at a claim of the space: an edge of `containsParity`. -/
def Contains (v : Vault) (spaceId noteId claimId : String) : Prop :=
  v.graph.Joined spaceId noteId claimId .contains ∧ ∃ n ∈ v.graph.nodes, n.id = claimId ∧ n.spaceId = spaceId ∧ n.kind = .claim

instance (v : Vault) (spaceId noteId claimId : String) : Decidable (v.Holds spaceId noteId claimId) := by
  unfold Holds
  infer_instance

instance (v : Vault) (spaceId noteId claimId : String) : Decidable (v.Contains spaceId noteId claimId) := by
  unfold Contains MemoryGraph.Joined
  infer_instance

end Vault

structure ContainsParity where
  onlyInNoteClaims : List (String × String)
  onlyInEdges : List (String × String)
  deriving DecidableEq, Repr

def ContainsParity.ok (r : ContainsParity) : Bool := r.onlyInNoteClaims.isEmpty && r.onlyInEdges.isEmpty

namespace Vault

/-- The report on one space. -/
def containsParity (spaceId : String) (v : Vault) : ContainsParity where
  onlyInNoteClaims := (v.noteClaims.rows.map NoteClaim.key).filter fun p => v.Holds spaceId p.1 p.2 ∧ ¬v.Contains spaceId p.1 p.2
  onlyInEdges := (v.graph.edges.rows.map fun e => (e.fromNodeId, e.toNodeId)).filter
    fun p => v.Contains spaceId p.1 p.2 ∧ ¬v.Holds spaceId p.1 p.2

/-- `assertContainsParity` does not throw. -/
def parityAsserted (env : VaultEnv) (spaceId : String) (v : Vault) : Prop :=
  env.production = true ∨ (v.containsParity spaceId).ok = true

instance (env : VaultEnv) (spaceId : String) (v : Vault) : Decidable (v.parityAsserted env spaceId) := by
  unfold parityAsserted
  infer_instance

/-- The two records agree exactly when each pair over live nodes is a live edge into a claim, and back. -/
theorem containsParity_ok_iff {spaceId : String} {v : Vault} :
    (v.containsParity spaceId).ok = true ↔ ∀ noteId claimId, v.Holds spaceId noteId claimId ↔ v.Contains spaceId noteId claimId := by
  simp only [ContainsParity.ok, containsParity, Bool.and_eq_true, List.isEmpty_iff, List.filter_eq_nil_iff, decide_eq_true_eq, not_and,
    Decidable.not_not, List.mem_map]
  constructor
  · rintro ⟨hpairs, hedges⟩ noteId claimId
    constructor
    · intro h
      obtain ⟨p, hp, rfl, rfl⟩ := h.1
      exact hpairs _ ⟨p, hp, rfl⟩ h
    · intro h
      obtain ⟨e, he, hj, _⟩ := h.1
      exact hedges (noteId, claimId) ⟨e, he, by rw [hj.2.1, hj.2.2.1]⟩ h
  · intro h
    refine ⟨?_, ?_⟩
    · rintro _ ⟨p, _, rfl⟩
      exact (h p.noteId p.claimId).mp
    · rintro _ ⟨e, _, rfl⟩
      exact (h e.fromNodeId e.toNodeId).mpr

end Vault

/-- The memory with its spaces. -/
structure MemoryStore where
  spaces : Spaces
  vault : Vault

end Capka

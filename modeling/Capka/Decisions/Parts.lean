import Capka.Chat.Message
import Mathlib.Data.List.Nodup

/-!
# Decisions on the calls of a reply

`approveManageForUser` and `answerAskForUser` are the same operation on different calls: find a waiting call in the parts as
they were read, record the verdict on it, and write the whole metadata back. A call is identified by its place in the parts,
which only grow at their end. `settleMovedPast` decides every waiting call at once.
-/

namespace Capka

/-- How a caller names the call: the first that waits, by id, or by the start of its id's digest. -/
inductive CallName
  | first
  | exactly (id : Nat)
  | digest (start : String)
  deriving Repr, DecidableEq

/-- `matches`; `sha256` is the hex digest of a call id. -/
def CallName.names (sha256 : Nat → String) (n : CallName) (id : Nat) : Bool :=
  match n with
  | .first => true
  | .exactly id' => id = id'
  | .digest start => start.isPrefixOf (sha256 id)

/-- What the user decided: a verdict on a gated call, or the answer to an `ask`. -/
inductive Verdict
  | approval (approved : Bool) (reason : Option String)
  | answer (value : AskAnswer)
  deriving DecidableEq

/-- `ApprovalDecision` and `AskDecision`. -/
structure Decision where
  call : CallName
  verdict : Verdict
  deriving DecidableEq

/-- The decision of `approveManageForUser`. -/
def approveManageForUser (call : CallName) (approved : Bool) (reason : Option String) : Decision where
  call := call
  verdict := .approval approved reason

/-- The decision of `answerAskForUser`, which knows no digests. -/
def answerAskForUser (toolCallId : Option Nat) (action : AskAction) (values : List (String × AskValue)) : Decision where
  call := match toolCallId with
    | some id => .exactly id
    | none => .first
  verdict := .answer { action := action, values := values }

/-- The failure of a turn that cannot resolve a model. -/
structure TurnFailure where
  category : String
  userMessage : String
  adminDetail : String
  deriving Repr, DecidableEq

/-- `UNDECIDED_APPROVAL_REASON`. -/
def undecidedApprovalReason : String := "The user moved on without deciding, so this did not run."

namespace StoredPart

/-- The verdict a call carries. -/
def verdict : StoredPart → Option Verdict
  | .toolCall _ _ _ (some (.approval a)) => a.approved.map (fun approved => .approval approved a.reason)
  | .toolCall _ _ _ (some (.answer q)) => q.value.map .answer
  | _ => none

/-- What `settleMovedPast` makes of a part. -/
def movedPast : StoredPart → StoredPart
  | .toolCall id name input (some (.approval a)) =>
    if a.approved = none then
      .toolCall id name input (some (.approval { a with approved := some false, reason := some undecidedApprovalReason }))
    else .toolCall id name input (some (.approval a))
  | .toolCall id name input (some (.answer q)) =>
    if q.value = none then
      .toolCall id name input (some (.answer { q with value := some { action := .skip, values := [] } }))
    else .toolCall id name input (some (.answer q))
  | p => p

/-- The result `settleMovedPast` appends for an `ask` it skips. -/
def skipResult (p : StoredPart) : Option StoredPart :=
  match p with
  | .toolCall id name _ (some (.answer q)) =>
    if q.value = none then some (.toolResult id name (.answer { action := .skip, values := [] })) else none
  | _ => none

end StoredPart

namespace Verdict

/-- The calls the operation may decide: gated ones for an approval, questions for an answer. -/
def pending : Verdict → StoredPart → Bool
  | .approval _ _, p => p.undecided
  | .answer _, p => p.unanswered

def record : Verdict → StoredPart → StoredPart
  | .approval approved reason, .toolCall id name input (some (.approval a)) =>
    .toolCall id name input (some (.approval { a with approved := some approved, reason := reason }))
  | .answer value, .toolCall id name input (some (.answer q)) =>
    .toolCall id name input (some (.answer { q with value := some value }))
  | _, p => p

/-- The parts the operation appends: an answer's result, or the result of an approved call that will never run. -/
def results (v : Verdict) (failure : Option TurnFailure) : StoredPart → List StoredPart
  | .toolCall id name _ _ =>
    match v, failure with
    | .answer value, _ => [.toolResult id name (.answer value)]
    | .approval true _, some f => [.toolResult id name (.notRun f.category ("Not run. " ++ f.userMessage))]
    | .approval _ _, _ => []
  | _ => []

end Verdict

namespace Decision

def callId : StoredPart → Option Nat
  | .toolCall id _ _ _ => some id
  | _ => none

/-- `parts.find(..)`: the place of the first waiting call the caller names. -/
def find (sha256 : Nat → String) (d : Decision) (parts : List StoredPart) : Option Nat :=
  parts.findIdx? (fun p => d.verdict.pending p && (callId p).any (d.call.names sha256))

/-- The guard of the update: some call of the kind still waits. -/
def guard (v : Verdict) (m : MessageMeta) : Bool := m.partList.any v.pending

/-- The metadata the operation writes, made from the metadata it read. -/
def write (v : Verdict) (index : Nat) (failure : Option TurnFailure) (m : MessageMeta) : MessageMeta :=
  let parts := m.partList.modify index v.record ++ ((m.partList[index]?).map (v.results failure)).getD []
  match failure with
  | none => { m with parts := some parts }
  | some f =>
    { m with
      parts := some parts
      status := some .failed
      error := some f.userMessage
      errorDetail := some f.adminDetail
      errorCategory := some f.category }

end Decision

/-- `settleMovedPast` on the row: nothing unless it waits on the user and a call of it does. -/
def MessageMeta.movedPast (m : MessageMeta) : MessageMeta :=
  if m.awaiting && m.partList.any (fun p => p.undecided || p.unanswered) then
    { m with
      status := some .completed
      parts := some (m.partList.map StoredPart.movedPast ++ m.partList.filterMap StoredPart.skipResult) }
  else m

/-- The call at a place carries the verdict. -/
def DecidedAt (parts : List StoredPart) (index : Nat) (v : Verdict) : Prop := (parts[index]?).bind StoredPart.verdict = some v

instance (parts : List StoredPart) (index : Nat) (v : Verdict) : Decidable (DecidedAt parts index v) :=
  inferInstanceAs (Decidable ((parts[index]?).bind StoredPart.verdict = some v))

namespace DecidedAux

variable {w : Verdict} {p : StoredPart}

theorem pending_cases (h : w.pending p = true) :
    (∃ id name input a approved reason, p = .toolCall id name input (some (.approval a)) ∧ a.approved = none ∧
      w = .approval approved reason) ∨
    ∃ id name input q value, p = .toolCall id name input (some (.answer q)) ∧ q.value = none ∧ w = .answer value := by
  cases w with
  | approval approved reason =>
    simp only [Verdict.pending, StoredPart.undecided] at h
    split at h
    · rename_i id name input a
      exact .inl ⟨id, name, input, a, approved, reason, rfl, of_decide_eq_true h, rfl⟩
    · cases h
  | answer value =>
    simp only [Verdict.pending, StoredPart.unanswered] at h
    split at h
    · rename_i id name input q
      exact .inr ⟨id, name, input, q, value, rfl, of_decide_eq_true h, rfl⟩
    · cases h

theorem verdict_of_pending (h : w.pending p = true) : p.verdict = none := by
  rcases pending_cases h with ⟨id, name, input, a, approved, reason, rfl, ha, rfl⟩ | ⟨id, name, input, q, value, rfl, hq, rfl⟩
  · simp [StoredPart.verdict, ha]
  · simp [StoredPart.verdict, hq]

theorem verdict_record (h : w.pending p = true) : (w.record p).verdict = some w := by
  rcases pending_cases h with ⟨id, name, input, a, approved, reason, rfl, ha, rfl⟩ | ⟨id, name, input, q, value, rfl, hq, rfl⟩
  · rfl
  · rfl

variable {v : Verdict}

theorem movedPast_of_verdict (h : p.verdict = some v) : p.movedPast = p := by
  unfold StoredPart.movedPast
  split
  · rw [if_neg]
    intro ha
    simp [StoredPart.verdict, ha] at h
  · rw [if_neg]
    intro hq
    simp [StoredPart.verdict, hq] at h
  · rfl

variable {parts : List StoredPart} {index : Nat}

theorem decidedAt_iff :
    DecidedAt parts index v ↔ ∃ p, parts[index]? = some p ∧ p.verdict = some v := Option.bind_eq_some_iff

theorem decidedAt_append (h : DecidedAt parts index v)
    (added : List StoredPart) : DecidedAt (parts ++ added) index v := by
  obtain ⟨p, hp, hv⟩ := decidedAt_iff.mp h
  obtain ⟨hlt, _⟩ := List.getElem?_eq_some_iff.mp hp
  exact decidedAt_iff.mpr ⟨p, (List.getElem?_append_left hlt).trans hp, hv⟩

theorem not_decidedAt_of_pending
    (hp : parts[index]? = some p) (hw : w.pending p = true) : ¬DecidedAt parts index v := by
  intro h
  obtain ⟨q, hq, hv⟩ := decidedAt_iff.mp h
  rw [hp] at hq
  cases hq
  rw [verdict_of_pending hw] at hv
  cases hv

theorem decidedAt_modify {j : Nat}
    (h : DecidedAt parts index v) (hp : parts[j]? = some p) (hw : w.pending p = true) :
    DecidedAt (parts.modify j w.record) index v := by
  obtain ⟨q, hq, hv⟩ := decidedAt_iff.mp h
  refine decidedAt_iff.mpr ⟨q, ?_, hv⟩
  have hne : j ≠ index := by
    rintro rfl
    exact not_decidedAt_of_pending hp hw h
  simp [hne, hq]

theorem decidedAt_write {j : Nat} (failure : Option TurnFailure) {m : MessageMeta}
    (hp : m.partList[j]? = some p) (hw : w.pending p = true) :
    DecidedAt (Decision.write w j failure m).partList j w ∧
      ∀ index v, DecidedAt m.partList index v → DecidedAt (Decision.write w j failure m).partList index v := by
  have hparts : (Decision.write w j failure m).partList = m.partList.modify j w.record ++ w.results failure p := by
    unfold Decision.write
    rw [hp]
    cases failure <;> rfl
  rw [hparts]
  refine ⟨decidedAt_append (decidedAt_iff.mpr ⟨w.record p, ?_, verdict_record hw⟩) _, ?_⟩
  · simp [hp]
  · exact fun index v h => decidedAt_append (decidedAt_modify h hp hw) _

theorem decidedAt_movedPast {m : MessageMeta} (h : DecidedAt m.partList index v) :
    DecidedAt m.movedPast.partList index v := by
  unfold MessageMeta.movedPast
  split
  · obtain ⟨p, hp, hv⟩ := decidedAt_iff.mp h
    refine decidedAt_append (decidedAt_iff.mpr ⟨p, ?_, hv⟩) _
    rw [List.getElem?_map, hp, Option.map_some, movedPast_of_verdict hv]
  · exact h

theorem pending_of_find {sha256 : Nat → String} {d : Decision}
    (h : d.find sha256 parts = some index) : ∃ p, parts[index]? = some p ∧ d.verdict.pending p = true := by
  unfold Decision.find at h
  obtain ⟨hlt, hp, _⟩ := List.findIdx?_eq_some_iff_getElem.mp h
  rw [Bool.and_eq_true] at hp
  exact ⟨parts[index], List.getElem?_eq_getElem hlt, hp.1⟩

end DecidedAux

end Capka

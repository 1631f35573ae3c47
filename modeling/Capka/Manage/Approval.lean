import Capka.Manage.Dispatch

/-!
# Is a gated change ever applied unapproved?

`needsApproval` predicts, `execute` applies, and the state moves between them. The policy is the comment over
`requiresApproval`: a confirm-risk control unless the org is autonomous and the change personal, an add unless autonomous and
always when the collection says so, a remove unless autonomous, an enable when the collection opts in. A change the policy
gates when it is applied was asked about, except in two cases: an add whose pre-flight threw at the check, and a change only
the mode gates, when the check still saw the autonomous mode (`approval_iff`).
-/

namespace Capka

namespace Manage

variable {σ ρ : Type}

/-- The confirm policy: the changes that need the user, in state `s`. -/
def policyGates (reg : Registry σ ρ) (ctx : ManageContext) (input : ManageInput ρ) (s : σ) : Prop :=
  match input with
  | .set target _ => ∃ c, reg.get target = some c ∧ canAccess ctx c.requiredRole = true ∧ c.risk = .confirm ∧
      (c.alwaysConfirm = true ∨ c.scope = .org ∨ autonomous reg ctx s = false)
  | .add target _ => ∃ coll, reg.collection target = some coll ∧ canAccess ctx coll.requiredRole = true ∧
      (coll.alwaysConfirm = true ∨ autonomous reg ctx s = false)
  | .remove target _ => ∃ coll, reg.collection target = some coll ∧ canAccess ctx coll.requiredRole = true ∧
      autonomous reg ctx s = false
  | .enable target _ => ∃ coll, reg.collection target = some coll ∧ canAccess ctx coll.requiredRole = true ∧
      coll.confirmEnable = true
  | _ => False

/-- The policy gates the change whatever the mode. -/
def alwaysGated (reg : Registry σ ρ) (input : ManageInput ρ) : Prop :=
  match input with
  | .set target _ => ∃ c, reg.get target = some c ∧ (c.alwaysConfirm = true ∨ c.scope = .org)
  | .add target _ => ∃ coll, reg.collection target = some coll ∧ coll.alwaysConfirm = true
  | .enable _ _ => True
  | _ => False

/-- The state in which the check reads the mode. -/
def modeSeen (input : ManageInput ρ) (seen : Nat → σ) : σ :=
  match input with
  | .add _ _ => seen 1
  | _ => seen 0

/-- An add whose arguments parse and whose pre-flight throws: the check takes it to be doomed. -/
def LooksDoomed (reg : Registry σ ρ) (ctx : ManageContext) (input : ManageInput ρ) (s : σ) : Prop :=
  match input with
  | .add target args => ∃ coll parsed msg, reg.collection target = some coll ∧ parseArgs coll args = .ok parsed ∧
      runValidateAdd coll ctx parsed s = .error msg
  | _ => False

/-- The components carry the change out: the value or the arguments parse, the pre-flight passes, the item is there, and the
mutation succeeds, each in the state it sees. -/
def Carried (reg : Registry σ ρ) (ctx : ManageContext) (input : ManageInput ρ) (seen : Nat → σ) : Prop :=
  match input with
  | .set target value => ∃ c parsed reparsed before s, reg.get target = some c ∧ canAccess ctx c.requiredRole = true ∧
      c.schema value = .ok parsed ∧ c.schema parsed = .ok reparsed ∧ c.read ctx (seen 0) = .ok before ∧
      c.apply ctx reparsed (seen 1) = .ok s
  | .add target args => ∃ coll doAdd parse parsed r, reg.collection target = some coll ∧
      canAccess ctx coll.requiredRole = true ∧ coll.add = some doAdd ∧ coll.addSchema = some parse ∧
      parse args = .ok parsed ∧ runValidateAdd coll ctx parsed (seen 0) = .ok () ∧ doAdd ctx parsed (seen 1) = .ok r
  | .remove target itemId => ∃ coll doRemove items r, reg.collection target = some coll ∧
      canAccess ctx coll.requiredRole = true ∧ coll.remove = some doRemove ∧ coll.list ctx (seen 0) = .ok items ∧
      hasItem items itemId = true ∧ doRemove ctx itemId (seen 1) = .ok r
  | .enable target itemId => ∃ coll setEnabled r, reg.collection target = some coll ∧
      canAccess ctx coll.requiredRole = true ∧ coll.setEnabled = some setEnabled ∧
      setEnabled ctx itemId true (seen 0) = .ok r
  | .disable target itemId => ∃ coll setEnabled r, reg.collection target = some coll ∧
      canAccess ctx coll.requiredRole = true ∧ coll.setEnabled = some setEnabled ∧
      setEnabled ctx itemId false (seen 0) = .ok r
  | _ => False

namespace ApprovalAux

theorem resolveCollection_ok {reg : Registry σ ρ} {ctx : ManageContext} {target : String} {coll : Collection σ ρ}
    (h : reg.collection target = some coll) (ha : canAccess ctx coll.requiredRole = true) :
    resolveCollection reg ctx target = .ok coll := by
  simp [resolveCollection, h, ha]

theorem resolveCollection_error {reg : Registry σ ρ} {ctx : ManageContext} {target : String}
    (h : ∀ coll, reg.collection target = some coll → canAccess ctx coll.requiredRole = false) :
    ∃ e, resolveCollection reg ctx target = .error e := by
  unfold resolveCollection
  cases hg : reg.collection target with
  | none => exact ⟨_, rfl⟩
  | some coll => simp [h coll hg]

theorem collection_cases (reg : Registry σ ρ) (ctx : ManageContext) (target : String) :
    (∃ coll, reg.collection target = some coll ∧ canAccess ctx coll.requiredRole = true) ∨
      ∀ coll, reg.collection target = some coll → canAccess ctx coll.requiredRole = false := by
  cases hg : reg.collection target with
  | none => exact .inr nofun
  | some coll =>
    cases ha : canAccess ctx coll.requiredRole with
    | true => exact .inl ⟨coll, rfl, ha⟩
    | false =>
      refine .inr fun coll' h => ?_
      cases h
      exact ha

theorem applied_set_iff (reg : Registry σ ρ) (ctx : ManageContext) (target value : String) (seen : Nat → σ) :
    (set reg ctx target value seen).Applied ↔ Carried reg ctx (.set target value) seen := by
  unfold set Carried
  cases hg : reg.get target with
  | none => simp [hg]
  | some c =>
    cases ha : canAccess ctx c.requiredRole with
    | false => simp [hg, ha]
    | true =>
      cases hs : c.schema value with
      | error msg => simp [hg, ha, hs]
      | ok parsed =>
        unfold applySet
        cases hs' : c.schema parsed with
        | error msg => simp [hg, ha, hs, hs']
        | ok reparsed =>
          cases hr : c.read ctx (seen 0) with
          | error msg => simp [hg, ha, hs, hs', hr]
          | ok before =>
            cases hp : c.apply ctx reparsed (seen 1) <;> simp [hg, ha, hs, hs', hr, hp]

theorem applied_add_iff (reg : Registry σ ρ) (ctx : ManageContext) (target : String) (args : ρ) (seen : Nat → σ) :
    (add reg ctx target args seen).Applied ↔ Carried reg ctx (.add target args) seen := by
  unfold add Carried
  rcases collection_cases reg ctx target with ⟨coll, hg, ha⟩ | hno
  · rw [resolveCollection_ok hg ha]
    cases hadd : coll.add with
    | none => simp [hg, hadd]
    | some doAdd =>
      cases hschema : coll.addSchema with
      | none => simp [hg, hadd, hschema]
      | some parse =>
        cases hparse : parse args with
        | error msg => simp [hg, hadd, hschema, hparse]
        | ok parsed =>
          unfold applyAdd
          cases hval : runValidateAdd coll ctx parsed (seen 0) with
          | error msg => simp [hg, hadd, hschema, hparse, hval]
          | ok u =>
            cases hdo : doAdd ctx parsed (seen 1) with
            | error msg => simp [hg, hadd, hschema, hparse, hval, hdo]
            | ok r => simpa [hg, ha, hadd, hschema, hparse, hval, hdo] using ⟨r.1, r.2, rfl⟩
  · obtain ⟨e, he⟩ := resolveCollection_error hno
    rw [he]
    simp only [Outcome.applied_answer, false_iff]
    rintro ⟨coll, -, -, -, -, hg, ha, -⟩
    simp [hno coll hg] at ha

theorem applied_remove_iff (reg : Registry σ ρ) (ctx : ManageContext) (target itemId : String) (seen : Nat → σ) :
    (remove reg ctx target itemId seen).Applied ↔ Carried reg ctx (.remove target itemId) seen := by
  unfold remove Carried
  rcases collection_cases reg ctx target with ⟨coll, hg, ha⟩ | hno
  · rw [resolveCollection_ok hg ha]
    cases hrem : coll.remove with
    | none => simp [hg, hrem]
    | some doRemove =>
      cases hlist : coll.list ctx (seen 0) with
      | error msg => simp [hg, hrem, hlist]
      | ok items =>
        cases hany : hasItem items itemId with
        | false => simp [hg, hrem, hlist, hany]
        | true =>
          cases hdo : doRemove ctx itemId (seen 1) with
          | error msg => simp [hg, hrem, hlist, hany, hdo]
          | ok r => simpa [hg, ha, hrem, hlist, hany, hdo] using ⟨r.1, r.2, rfl⟩
  · obtain ⟨e, he⟩ := resolveCollection_error hno
    rw [he]
    simp only [Outcome.applied_answer, false_iff]
    rintro ⟨coll, -, -, -, hg, ha, -⟩
    simp [hno coll hg] at ha

theorem applied_toggle_iff (reg : Registry σ ρ) (ctx : ManageContext) (target itemId : String) (enabled : Bool)
    (seen : Nat → σ) :
    (toggle reg ctx target itemId enabled seen).Applied ↔
      ∃ coll setEnabled r, reg.collection target = some coll ∧ canAccess ctx coll.requiredRole = true ∧
        coll.setEnabled = some setEnabled ∧ setEnabled ctx itemId enabled (seen 0) = .ok r := by
  unfold toggle
  rcases collection_cases reg ctx target with ⟨coll, hg, ha⟩ | hno
  · rw [resolveCollection_ok hg ha]
    cases hset : coll.setEnabled with
    | none => simp [hg, hset]
    | some setEnabled =>
      cases hdo : setEnabled ctx itemId enabled (seen 0) with
      | error msg => simp [hg, hset, hdo]
      | ok r => simpa [hg, ha, hset, hdo] using ⟨r.1, r.2, rfl⟩
  · obtain ⟨e, he⟩ := resolveCollection_error hno
    rw [he]
    simp only [Outcome.applied_answer, false_iff]
    rintro ⟨coll, -, -, hg, ha, -⟩
    simp [hno coll hg] at ha

theorem applied_dispatch_iff (reg : Registry σ ρ) (ctx : ManageContext) (input : ManageInput ρ) (seen : Nat → σ) :
    (dispatch reg ctx input seen).Applied ↔ Carried reg ctx input seen := by
  cases input with
  | set target value => exact applied_set_iff reg ctx target value seen
  | add target args => exact applied_add_iff reg ctx target args seen
  | remove target itemId => exact applied_remove_iff reg ctx target itemId seen
  | enable target itemId => exact applied_toggle_iff reg ctx target itemId true seen
  | disable target itemId => exact applied_toggle_iff reg ctx target itemId false seen
  | capabilities
  | list
  | get target
  | debug target itemId
  | connect target itemId
  | edit target itemId => simp [dispatch, Carried]

theorem requiresApproval_iff {reg : Registry σ ρ} {ctx ctx' : ManageContext} {input : ManageInput ρ}
    {checked applied : Nat → σ} (hadmin : ctx.isAdmin = ctx'.isAdmin) (hc : Carried reg ctx' input applied)
    (hg : policyGates reg ctx' input (applied 1)) :
    requiresApproval reg ctx input checked = true ↔
      ¬LooksDoomed reg ctx input (checked 0) ∧
        (alwaysGated reg input ∨ autonomous reg ctx (modeSeen input checked) = false) := by
  have hacc : ∀ role, canAccess ctx role = canAccess ctx' role := by
    intro role
    simp only [canAccess, hadmin]
  cases input with
  | set target value =>
    obtain ⟨c, hget, ha, hrisk, -⟩ := hg
    simp [requiresApproval, hget, hacc, ha, hrisk, LooksDoomed, alwaysGated, modeSeen, or_assoc]
  | add target args =>
    obtain ⟨coll, -, parse, parsed, -, hget, ha, -, hschema, hparse, -⟩ := hc
    have hargs : parseArgs coll args = .ok parsed := by simp [parseArgs, hschema, hparse]
    cases hval : runValidateAdd coll ctx parsed (checked 0) with
    | error msg => simp [requiresApproval, hget, hacc, ha, hargs, hval, LooksDoomed]
    | ok u => simp [requiresApproval, hget, hacc, ha, hargs, hval, LooksDoomed, alwaysGated, modeSeen]
  | remove target itemId =>
    obtain ⟨coll, hget, ha, -⟩ := hg
    simp [requiresApproval, hget, hacc, ha, LooksDoomed, alwaysGated, modeSeen]
  | enable target itemId =>
    obtain ⟨coll, hget, ha, hconf⟩ := hg
    simp [requiresApproval, hget, hacc, ha, hconf, LooksDoomed, alwaysGated]
  | disable target itemId
  | capabilities
  | list
  | get target
  | debug target itemId
  | connect target itemId
  | edit target itemId => exact hg.elim

end ApprovalAux

open ApprovalAux

/-- The claim of the gate, for one call: if `execute` applies a change that the policy gates in the state it is applied in,
then `needsApproval` had answered true. -/
def NeverUnapproved (reg : Registry σ ρ) (noArgs : ρ) (who : ManageIdentity) (inflight : List (String × ManageResult))
    (a : ManageArgs ρ) (toolCallId : String) (checked applied : Nat → σ) : Prop :=
  ∀ input, toInput noArgs a = some input → policyGates reg (who.ctx (some toolCallId)) input (applied 1) →
    (execute reg noArgs who inflight a toolCallId applied).Applied → needsApproval reg noArgs who a checked = true

/-- The check foresaw the change: whenever the call is run for the first time, its components carry it out and the policy
gates it then, its pre-flight had not thrown at the check, and the check had not read the autonomous mode for a change that
only the mode gates. -/
def Foreseen (reg : Registry σ ρ) (noArgs : ρ) (who : ManageIdentity) (inflight : List (String × ManageResult))
    (a : ManageArgs ρ) (toolCallId : String) (checked applied : Nat → σ) : Prop :=
  ∀ input, toInput noArgs a = some input → inflight.lookup toolCallId = none →
    Carried reg (who.ctx (some toolCallId)) input applied → policyGates reg (who.ctx (some toolCallId)) input (applied 1) →
      ¬LooksDoomed reg (who.ctx none) input (checked 0) ∧
        (alwaysGated reg input ∨ autonomous reg (who.ctx none) (modeSeen input checked) = false)

/-- No gated change is applied unapproved exactly when the check foresaw the change. -/
theorem approval_iff (reg : Registry σ ρ) (noArgs : ρ) (who : ManageIdentity) (inflight : List (String × ManageResult))
    (a : ManageArgs ρ) (toolCallId : String) (checked applied : Nat → σ) :
    NeverUnapproved reg noArgs who inflight a toolCallId checked applied ↔
      Foreseen reg noArgs who inflight a toolCallId checked applied := by
  have happ : ∀ input, toInput noArgs a = some input →
      ((execute reg noArgs who inflight a toolCallId applied).Applied ↔
        inflight.lookup toolCallId = none ∧ Carried reg (who.ctx (some toolCallId)) input applied) := by
    intro input hin
    unfold execute
    cases hl : inflight.lookup toolCallId with
    | some existing => simp
    | none => simp [hin, applied_dispatch_iff]
  have hadmin : (who.ctx none).isAdmin = (who.ctx (some toolCallId)).isAdmin := rfl
  have hneeds : ∀ input, toInput noArgs a = some input →
      needsApproval reg noArgs who a checked = requiresApproval reg (who.ctx none) input checked := by
    intro input hin
    simp [needsApproval, hin]
  constructor
  · intro h input hin hmiss hc hg
    have hyes := h input hin hg ((happ input hin).mpr ⟨hmiss, hc⟩)
    rw [hneeds input hin] at hyes
    exact (requiresApproval_iff hadmin hc hg).mp hyes
  · intro h input hin hg ha
    obtain ⟨hmiss, hc⟩ := (happ input hin).mp ha
    rw [hneeds input hin]
    exact (requiresApproval_iff hadmin hc hg).mpr (h input hin hmiss hc hg)

end Manage

end Capka

import Capka.Automations.Triggers
import Capka.Lib.Steps
import Capka.Lib.Table

/-!
# The automations table and who writes it

A creation checks the cap and then inserts; a toggle, an edit and a new address read the row and then write some of its columns; the
scheduler claims a due row, fires it outside the transaction, and puts the due time back when the firing throws; a failure is counted
and a row that failed too often is turned off by another statement. Anything may happen between the two halves.
-/

namespace Capka

/-- A row of `automations`. For the record: when it was last created or enabled, by the number of the write, and the cap then. -/
structure Automation where
  id : Nat
  userId : Nat
  projectId : Option Nat
  trigger : AutomationTrigger
  enabled : Bool
  webhookToken : Option Nat
  nextRunAt : Option Nat
  consecutiveFailures : Nat
  updatedAt : Nat
  armedAt : Nat
  armedCap : Nat
  deriving Repr, DecidableEq

/-- The table. -/
abbrev Automations := Table Automation Automation.id

/-- `MAX_CONSECUTIVE_FAILURES`. -/
def maxConsecutiveFailures : Nat := 3

namespace Automation

/-- What a write makes of a row, with the write on record when it enabled the row. -/
def noted (seq cap : Nat) (old new : Automation) : Automation :=
  if new.enabled && !old.enabled then { new with id := old.id, armedAt := seq, armedCap := cap }
  else { new with id := old.id, armedAt := old.armedAt, armedCap := old.armedCap }

@[simp] theorem noted_id (seq cap : Nat) (old new : Automation) : (noted seq cap old new).id = old.id := by
  unfold noted
  split <;> rfl

/-- The insert of `add`. -/
def fresh (id userId : Nat) (projectId : Option Nat) (trigger : AutomationTrigger) (token : Nat) (nextRunAt : Option Nat)
    (now seq cap : Nat) : Automation where
  id := id
  userId := userId
  projectId := projectId
  trigger := trigger
  enabled := true
  webhookToken := if trigger.isWebhook then some token else none
  nextRunAt := nextRunAt
  consecutiveFailures := 0
  updatedAt := now
  armedAt := seq
  armedCap := cap

/-- The update of `setEnabled`; `next` is the recomputed horizon. -/
def toggled (enabled : Bool) (next : Option Nat) (now : Nat) (r : Automation) : Automation :=
  if enabled then { r with enabled := true, nextRunAt := next, consecutiveFailures := 0, updatedAt := now }
  else { r with enabled := false, updatedAt := now }

/-- The token a `PATCH` writes: it follows the kind of the trigger, as the row was read. -/
def patchedToken (trigger : Option AutomationTrigger) (read : AutomationTrigger) (token : Nat) (old : Option Nat) : Option Nat :=
  match trigger with
  | none => old
  | some trigger =>
    if trigger.isWebhook = read.isWebhook then old else if trigger.isWebhook then some token else none

/-- The update of `PATCH`. -/
def patched (enabled : Option Bool) (trigger : Option AutomationTrigger) (read : AutomationTrigger) (token : Nat)
    (next : Option Nat) (now : Nat) (r : Automation) : Automation :=
  let recomputes := trigger.isSome || enabled = some true
  { r with
    enabled := enabled.getD r.enabled
    trigger := trigger.getD r.trigger
    webhookToken := patchedToken trigger read token r.webhookToken
    nextRunAt := if recomputes then next else r.nextRunAt
    consecutiveFailures := if recomputes then 0 else r.consecutiveFailures
    updatedAt := now }

/-- The update of the `rotate-token` route. -/
def rotated (token now : Nat) (r : Automation) : Automation := { r with webhookToken := some token, updatedAt := now }

/-- A write that turns a row off. -/
def turnedOff (now : Nat) (r : Automation) : Automation := { r with enabled := false, updatedAt := now }

/-- What deleting a project does to a row: its own are turned off and lose their horizon. -/
def orphaned (projectId now : Nat) (r : Automation) : Automation :=
  if r.projectId = some projectId then { r with enabled := false, nextRunAt := none, updatedAt := now } else r

@[simp] theorem orphaned_id (projectId now : Nat) (r : Automation) : (r.orphaned projectId now).id = r.id := by
  unfold orphaned
  split <;> rfl

/-- The scheduler's claim: the next horizon, and off when there is none and never will be. -/
def claimed (next : Option Nat) (tickTs : Nat) (r : Automation) : Automation :=
  { r with nextRunAt := next, enabled := next.isSome || r.trigger.isWebhook, updatedAt := tickTs }

/-- The scheduler's retry after a firing that threw. -/
def rearmed (dueAt now : Nat) (r : Automation) : Automation :=
  { r with nextRunAt := some dueAt, enabled := true, consecutiveFailures := r.consecutiveFailures + 1, updatedAt := now }

/-- The failure streak, and a write of other columns. -/
def stamped (failures now : Nat) (r : Automation) : Automation := { r with consecutiveFailures := failures, updatedAt := now }

/-- The row is due. -/
def due (now : Nat) (r : Automation) : Bool := r.enabled && r.nextRunAt.any (fun t => decide (t ≤ now))

end Automation

/-- A request between its two halves. -/
inductive AutomationRequest
  | add (userId : Nat) (projectId : Option Nat) (args : TriggerArgs)
  | setEnabled (id : Nat) (enabled : Bool) (read : AutomationTrigger)
  | patch (id : Nat) (enabled : Option Bool) (trigger : Option AutomationTrigger) (read : AutomationTrigger)
  | rotate (id : Nat)
  deriving Repr, DecidableEq

/-- A claimed occurrence that is being fired: the due time it had, and the mark of the tick. -/
structure Firing where
  id : Nat
  dueAt : Nat
  tickTs : Nat
  deriving Repr, DecidableEq

/-- The table, the admin's settings, the accounts that are not active and the projects there are, the requests and firings on their
way, and the rows that are to be turned off; `seq` numbers the writes. -/
structure AutomationState where
  rows : Automations
  on : Bool
  cap : Nat
  minMinutes : Nat
  inactive : List Nat
  projects : List Nat
  requests : List AutomationRequest
  firing : List Firing
  giveUps : List Nat
  seq : Nat

/-- What can happen next. The first lines are an administrator's and the accounts'; `begin…` is the first half of a request and `run`
the second, with the moments at which it reads the clock; then the scheduler, the firings, and the outcomes of runs. -/
inductive AutomationAct
  | setOn (on : Bool)
  | setCap (cap : Nat)
  | setMinInterval (minMinutes : Nat)
  | suspend (userId : Nat)
  | reactivate (userId : Nat)
  | createProject (projectId : Nat)
  | dropProject (projectId now : Nat)
  | beginAdd (userId : Nat) (projectId : Option Nat) (args : TriggerArgs) (now : Nat)
  | beginSetEnabled (userId id : Nat) (enabled : Bool)
  | beginPatch (userId id : Nat) (enabled : Option Bool) (args : Option TriggerArgs) (now : Nat)
  | beginRotate (userId id : Nat)
  | run (i fresh token now later : Nat)
  | abort (i : Nat)
  | remove (userId id : Nat)
  | tickDisable (id now tickTs : Nat)
  | tickClaim (id now tickTs : Nat)
  | fireEnds (i : Nat)
  | fireThrows (i now : Nat)
  | stamp (id now : Nat)
  | recordFailure (id now : Nat)
  | recordSuccess (id now : Nat)
  | refuseHook (id : Nat)
  | giveUp (i now : Nat)

namespace AutomationState

/-- Nothing yet, under the given settings. -/
def init (on : Bool) (cap minMinutes : Nat) : AutomationState where
  rows := .empty
  on := on
  cap := cap
  minMinutes := minMinutes
  inactive := []
  projects := []
  requests := []
  firing := []
  giveUps := []
  seq := 0

/-- How many automations of a user are enabled. -/
def enabledOf (s : AutomationState) (userId : Nat) : Nat := s.rows.count (fun r => r.userId = userId && r.enabled)

/-- One statement on one row. -/
def write (s : AutomationState) (id : Nat) (f : Automation → Automation) : AutomationState :=
  { s with
    rows := s.rows.modify id (fun r => r.noted s.seq s.cap (f r)) (fun r => Automation.noted_id _ _ r _)
    seq := s.seq + 1 }

theorem mem_write {s : AutomationState} {id : Nat} {f : Automation → Automation} {r : Automation} :
    r ∈ (s.write id f).rows ↔
      (∃ r₀ ∈ s.rows, r₀.id = id ∧ r = r₀.noted s.seq s.cap (f r₀)) ∨ (r ∈ s.rows ∧ r.id ≠ id) := by
  unfold write
  rw [Table.mem_modify]

/-- The row of a user. -/
def mustOwn (s : AutomationState) (userId id : Nat) : Except String Automation :=
  match s.rows.get id with
  | none => .error "No such automation."
  | some r => if r.userId = userId then .ok r else .error "No such automation."

def validateAdd (K : Calendar) (s : AutomationState) (userId : Nat) (args : TriggerArgs) (now : Nat) : Except String Unit :=
  if s.on = false then .error "Automations are disabled on this platform."
  else
    match parseTriggerArgs K args now with
    | .error e => .error e
    | .ok trigger =>
      match assertMinInterval K trigger s.minMinutes now with
      | .error e => .error e
      | .ok () =>
        if s.cap ≤ s.enabledOf userId then
          .error ("Active automations limit reached (" ++ toString s.cap ++ "). Disable or remove one first.")
        else .ok ()

/-- `add`: the trigger is parsed again, and the horizon is read a moment later. -/
def add (K : Calendar) (s : AutomationState) (userId : Nat) (projectId : Option Nat) (args : TriggerArgs)
    (id token now later : Nat) : Option AutomationState :=
  match parseTriggerArgs K args now with
  | .error _ => none
  | .ok trigger =>
    match nextOccurrenceAfter K trigger later with
    | .error _ => none
    | .ok next =>
      (s.rows.insert (.fresh id userId projectId trigger token next later s.seq s.cap)).map fun T =>
        { s with rows := T, seq := s.seq + 1 }

/-- The write of `setEnabled`. -/
def setEnabled (K : Calendar) (s : AutomationState) (id : Nat) (enabled : Bool) (read : AutomationTrigger) (now : Nat) :
    Option AutomationState :=
  if enabled then
    match nextOccurrenceAfter K read now with
    | .error _ => none
    | .ok next => some (s.write id (Automation.toggled true next now))
  else some (s.write id (Automation.toggled false none now))

/-- The write of `PATCH`: the horizon is that of the new trigger, or of the one that was read. -/
def patch (K : Calendar) (s : AutomationState) (id : Nat) (enabled : Option Bool) (trigger : Option AutomationTrigger)
    (read : AutomationTrigger) (token now : Nat) : Option AutomationState :=
  if trigger.isSome || enabled = some true then
    match nextOccurrenceAfter K (trigger.getD read) now with
    | .error _ => none
    | .ok next => some (s.write id (Automation.patched enabled trigger read token next now))
  else some (s.write id (Automation.patched enabled trigger read token none now))

/-- The second half of a request. -/
def run (K : Calendar) (s : AutomationState) (q : AutomationRequest) (fresh token now later : Nat) : Option AutomationState :=
  match q with
  | .add userId projectId args => s.add K userId projectId args fresh token now later
  | .setEnabled id enabled read => s.setEnabled K id enabled read now
  | .patch id enabled trigger read => s.patch K id enabled trigger read token now
  | .rotate id => some (s.write id (Automation.rotated token now))

/-- The trigger of an edit: parsed and checked before anything is written. -/
def patchTrigger (K : Calendar) (s : AutomationState) (args : Option TriggerArgs) (now : Nat) :
    Except String (Option AutomationTrigger) :=
  match args with
  | none => .ok none
  | some args =>
    match parseTriggerArgs K args now with
    | .error e => .error e
    | .ok trigger =>
      match assertMinInterval K trigger s.minMinutes now with
      | .error e => .error e
      | .ok () => .ok (some trigger)

/-- A request that was admitted goes on. -/
def admitted (s : AutomationState) (q : AutomationRequest) : AutomationState := { s with requests := s.requests ++ [q] }

/-- The owner is not active, or the project is gone. -/
def ineligible (s : AutomationState) (r : Automation) : Bool :=
  decide (r.userId ∈ s.inactive) || r.projectId.any (fun p => decide (p ∉ s.projects))

/-- The scheduler claims a due row: the horizon moves on before the firing starts. -/
def tickClaim (K : Calendar) (s : AutomationState) (id now tickTs : Nat) : Option AutomationState :=
  (s.rows.get id).bind fun r =>
    match r.nextRunAt with
    | none => none
    | some dueAt =>
      if s.on ∧ r.due now ∧ s.ineligible r = false then
        let next := (nextOccurrenceAfter K r.trigger now).toOption.join
        let t := s.write id (Automation.claimed next tickTs)
        some { t with firing := t.firing ++ [{ id := id, dueAt := dueAt, tickTs := tickTs }] }
      else none

/-- A failure was counted: the third in a row turns the row off, by another statement. -/
def counted (s : AutomationState) (id failures : Nat) (enabled : Bool) : AutomationState :=
  { s with giveUps := if maxConsecutiveFailures ≤ failures ∧ enabled then s.giveUps ++ [id] else s.giveUps }

/-- A firing threw: the occurrence is put back, if the row is as the tick marked it. -/
def fireThrows (s : AutomationState) (f : Firing) (now : Nat) : AutomationState :=
  match s.rows.get f.id with
  | none => s
  | some r =>
    if r.updatedAt = f.tickTs then
      (s.write f.id (Automation.rearmed f.dueAt now)).counted f.id (r.consecutiveFailures + 1) true
    else s

/-- One step. -/
def step (K : Calendar) (s : AutomationState) : AutomationAct → Option AutomationState
  | .setOn on => some { s with on := on }
  | .setCap cap => some { s with cap := cap }
  | .setMinInterval minMinutes => some { s with minMinutes := minMinutes }
  | .suspend userId => some { s with inactive := userId :: s.inactive }
  | .reactivate userId => some { s with inactive := s.inactive.filter (fun u => u ≠ userId) }
  | .createProject projectId => some { s with projects := projectId :: s.projects }
  | .dropProject projectId now =>
    some { s with
      rows := s.rows.map (Automation.orphaned projectId now) (Automation.orphaned_id projectId now)
      projects := s.projects.filter (fun p => p ≠ projectId) }
  | .beginAdd userId projectId args now =>
    match s.validateAdd K userId args now with
    | .ok () => some (s.admitted (.add userId projectId args))
    | .error _ => none
  | .beginSetEnabled userId id enabled =>
    match s.mustOwn userId id with
    | .ok r => some (s.admitted (.setEnabled id enabled r.trigger))
    | .error _ => none
  | .beginPatch userId id enabled args now =>
    match s.mustOwn userId id with
    | .ok r =>
      match s.patchTrigger K args now with
      | .ok trigger => some (s.admitted (.patch id enabled trigger r.trigger))
      | .error _ => none
    | .error _ => none
  | .beginRotate userId id =>
    match s.mustOwn userId id with
    | .ok r => if r.trigger.isWebhook then some (s.admitted (.rotate id)) else none
    | .error _ => none
  | .run i fresh token now later =>
    s.requests[i]?.bind fun q => ({ s with requests := s.requests.eraseIdx i } : AutomationState).run K q fresh token now later
  | .abort i => some { s with requests := s.requests.eraseIdx i }
  | .remove userId id =>
    match s.mustOwn userId id with
    | .ok _ => some { s with rows := s.rows.erase id }
    | .error _ => none
  | .tickDisable id now tickTs =>
    (s.rows.get id).bind fun r =>
      if s.on ∧ r.due now ∧ s.ineligible r = true then some (s.write id (Automation.turnedOff tickTs)) else none
  | .tickClaim id now tickTs => s.tickClaim K id now tickTs
  | .fireEnds i => some { s with firing := s.firing.eraseIdx i }
  | .fireThrows i now =>
    s.firing[i]?.map fun f => ({ s with firing := s.firing.eraseIdx i } : AutomationState).fireThrows f now
  | .stamp id now => (s.rows.get id).map fun r => s.write id (Automation.stamped r.consecutiveFailures now)
  | .recordFailure id now =>
    (s.rows.get id).map fun r =>
      (s.write id (Automation.stamped (r.consecutiveFailures + 1) now)).counted id (r.consecutiveFailures + 1) r.enabled
  | .recordSuccess id now => some (s.write id (Automation.stamped 0 now))
  | .refuseHook id =>
    (s.rows.get id).bind fun r =>
      if r.enabled ∧ r.webhookToken.isSome ∧ s.on ∧ s.ineligible r then some { s with giveUps := s.giveUps ++ [id] } else none
  | .giveUp i now =>
    s.giveUps[i]?.map fun id =>
      ({ s with giveUps := s.giveUps.eraseIdx i } : AutomationState).write id (Automation.turnedOff now)

end AutomationState

end Capka

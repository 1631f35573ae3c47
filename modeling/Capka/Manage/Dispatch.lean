import Capka.Manage.Registry

/-!
# Deciding whether to ask, and doing it

`requiresApproval` decides whether a call suspends for the user; `dispatch` carries it out, later. Each `await` of either may
see a different state, because other calls, other users and the controller go on meanwhile: `seen k` is the state its `k`-th
`await` sees.
-/

namespace Capka

namespace Manage

variable {σ ρ : Type}

/-- `autonomous`: risky personal changes apply without a card. No control, or a read that throws, means supervised. -/
def autonomous (reg : Registry σ ρ) (ctx : ManageContext) (s : σ) : Bool :=
  match reg.get "org.agent_autonomy" with
  | none => false
  | some c =>
    match c.read ctx s with
    | .ok v => v = "autonomous"
    | .error _ => false

/-- The parsed arguments of an add: the raw ones, for a collection without a schema. -/
def parseArgs (coll : Collection σ ρ) (args : ρ) : Except String ρ :=
  match coll.addSchema with
  | some parse => parse args
  | none => .ok args

/-- The collection's pre-flight, when it has one. -/
def runValidateAdd (coll : Collection σ ρ) (ctx : ManageContext) (args : ρ) (s : σ) : Except String Unit :=
  match coll.validateAdd with
  | some validate => validate ctx args s
  | none => .ok ()

def requiresApproval (reg : Registry σ ρ) (ctx : ManageContext) (input : ManageInput ρ) (seen : Nat → σ) : Bool :=
  match input with
  | .set target _ =>
    match reg.get target with
    | none => false
    | some c =>
      if !canAccess ctx c.requiredRole then false
      else c.risk = .confirm && (c.alwaysConfirm || c.scope = .org || !autonomous reg ctx (seen 0))
  | .add target args =>
    match reg.collection target with
    | none => false
    | some coll =>
      if !canAccess ctx coll.requiredRole then false
      else
        -- Arguments the schema or validateAdd rejects are taken to be doomed at apply, so no card is shown for them.
        match parseArgs coll args with
        | .error _ => false
        | .ok parsed =>
          match runValidateAdd coll ctx parsed (seen 0) with
          | .error _ => false
          | .ok _ => coll.alwaysConfirm || !autonomous reg ctx (seen 1)
  | .remove target _ =>
    match reg.collection target with
    | none => false
    | some coll => if !canAccess ctx coll.requiredRole then false else !autonomous reg ctx (seen 0)
  | .enable target _ =>
    match reg.collection target with
    | none => false
    | some coll => if !canAccess ctx coll.requiredRole then false else coll.confirmEnable
  | _ => false

/-- `applySet`, past the lookup of `set`. -/
def applySet (ctx : ManageContext) (c : Control σ) (value : String) (seen : Nat → σ) : Outcome σ :=
  match c.schema value with
  | .error msg => .answer (.error "invalid_value" msg)
  | .ok parsed =>
    match c.read ctx (seen 0) with
    | .error msg => .reject msg
    | .ok before =>
      match c.apply ctx parsed (seen 1) with
      | .error msg => .reject msg
      | .ok s => .mutate (.setting c.id before parsed) s

/-- `set`: the control is looked up, and the value parsed, once here and once more in `applySet`. -/
def set (reg : Registry σ ρ) (ctx : ManageContext) (target value : String) (seen : Nat → σ) : Outcome σ :=
  match reg.get target with
  | none => .answer (.error "not_found" ("No setting \"" ++ target ++ "\"."))
  | some c =>
    if !canAccess ctx c.requiredRole then .answer (.error "not_found" ("No setting \"" ++ target ++ "\"."))
    else
      match c.schema value with
      | .error msg => .answer (.error "invalid_value" msg)
      | .ok parsed => applySet ctx c parsed seen

def resolveCollection (reg : Registry σ ρ) (ctx : ManageContext) (target : String) :
    Except ManageResult (Collection σ ρ) :=
  match reg.collection target with
  | none => .error (.error "not_found" ("No resource \"" ++ target ++ "\"."))
  | some coll =>
    if !canAccess ctx coll.requiredRole then .error (.error "not_found" ("No resource \"" ++ target ++ "\"."))
    else .ok coll

/-- `applyAdd`: `validateAdd` runs once more, then the add. -/
def applyAdd (ctx : ManageContext) (coll : Collection σ ρ) (args : ρ) (seen : Nat → σ) : Outcome σ :=
  match coll.add with
  | none => .answer (.error "unsupported" "This resource doesn't support adding.")
  | some doAdd =>
    match runValidateAdd coll ctx args (seen 0) with
    | .error msg => .answer (.error "apply_failed" msg)
    | .ok _ =>
      match doAdd ctx args (seen 1) with
      | .error msg => .answer (.error "apply_failed" msg)
      | .ok (itemTitle, s) => .mutate (.resource .added coll.id itemTitle) s

def add (reg : Registry σ ρ) (ctx : ManageContext) (target : String) (args : ρ) (seen : Nat → σ) : Outcome σ :=
  match resolveCollection reg ctx target with
  | .error e => .answer e
  | .ok coll =>
    if coll.add.isNone then .answer (.error "unsupported" "This resource doesn't support adding.")
    else
      match coll.addSchema with
      | none => .answer (.error "unsupported" "This resource doesn't support adding.")
      | some parse =>
        match parse args with
        | .error msg =>
          .answer (.error "invalid_value" (match coll.usage with | some u => msg ++ "\n\nUsage — " ++ u | none => msg))
        | .ok parsed => applyAdd ctx coll parsed seen

def hasItem (items : List CollectionItem) (itemId : String) : Bool := items.any (·.id = itemId)

/-- `remove`, with `applyRemove`. -/
def remove (reg : Registry σ ρ) (ctx : ManageContext) (target itemId : String) (seen : Nat → σ) : Outcome σ :=
  match resolveCollection reg ctx target with
  | .error e => .answer e
  | .ok coll =>
    match coll.remove with
    | none => .answer (.error "unsupported" "This resource doesn't support removal.")
    | some doRemove =>
      match coll.list ctx (seen 0) with
      | .error msg => .reject msg
      | .ok items =>
        if !hasItem items itemId then .answer (.error "not_found" "No such item.")
        else
          match doRemove ctx itemId (seen 1) with
          | .error msg => .answer (.error "apply_failed" msg)
          | .ok (itemTitle, s) => .mutate (.resource .removed coll.id itemTitle) s

/-- `toggle`: enable or disable. -/
def toggle (reg : Registry σ ρ) (ctx : ManageContext) (target itemId : String) (enabled : Bool) (seen : Nat → σ) :
    Outcome σ :=
  match resolveCollection reg ctx target with
  | .error e => .answer e
  | .ok coll =>
    match coll.setEnabled with
    | none => .answer (.error "unsupported" "This resource doesn't support enable/disable.")
    | some setEnabled =>
      match setEnabled ctx itemId enabled (seen 0) with
      | .error msg => .answer (.error "apply_failed" msg)
      | .ok (itemTitle, s) => .mutate (.resource (if enabled then .enabled else .disabled) coll.id itemTitle) s

/-- `dispatch`; the actions that only read, or hand the user a link or a checkout, make no mutation of the collection. -/
def dispatch (reg : Registry σ ρ) (ctx : ManageContext) (input : ManageInput ρ) (seen : Nat → σ) : Outcome σ :=
  match input with
  | .set target value => set reg ctx target value seen
  | .add target args => add reg ctx target args seen
  | .remove target itemId => remove reg ctx target itemId seen
  | .enable target itemId => toggle reg ctx target itemId true seen
  | .disable target itemId => toggle reg ctx target itemId false seen
  | _ => .answer .read

/-! ## The tool -/

/-- The actions of the tool; `unknown` is any other name, which the model can send. -/
inductive ManageAction
  | capabilities
  | list
  | get
  | set
  | add
  | remove
  | enable
  | disable
  | debug
  | connect
  | edit
  | unknown (name : String)
  deriving Repr, DecidableEq

/-- The name of an action on the wire. -/
def ManageAction.name : ManageAction → String
  | .capabilities => "capabilities"
  | .list => "list"
  | .get => "get"
  | .set => "set"
  | .add => "add"
  | .remove => "remove"
  | .enable => "enable"
  | .disable => "disable"
  | .debug => "debug"
  | .connect => "connect"
  | .edit => "edit"
  | .unknown name => name

/-- `REQUIRED_FIELDS`, or what stands in for it. -/
def ManageAction.requiredFields : ManageAction → String
  | .get => "`target`"
  | .set => "`target` and `value`"
  | .add => "`target` and `args`"
  | .capabilities | .list | .unknown _ => "more fields"
  | _ => "`target` and `itemId`"

/-- The flat arguments of a tool call. -/
structure ManageArgs (ρ : Type) where
  action : ManageAction
  target : Option String
  value : Option String
  itemId : Option String
  args : Option ρ
  deriving Repr

/-- A string that is present and not empty. -/
def truthy (s : Option String) : Option String := s.filter (· ≠ "")

/-- `toInput`, where `noArgs` is the empty record. -/
def toInput (noArgs : ρ) (a : ManageArgs ρ) : Option (ManageInput ρ) :=
  let onItem (f : String → String → ManageInput ρ) : Option (ManageInput ρ) := do
    let target ← truthy a.target
    let itemId ← truthy a.itemId
    pure (f target itemId)
  match a.action with
  | .capabilities => some .capabilities
  | .list => some .list
  | .get => (truthy a.target).map .get
  | .set => do
    let target ← truthy a.target
    let value ← a.value
    pure (.set target value)
  | .add => (truthy a.target).map (.add · (a.args.getD noArgs))
  | .remove => onItem .remove
  | .enable => onItem .enable
  | .disable => onItem .disable
  | .debug => onItem .debug
  | .connect => onItem .connect
  | .edit => onItem .edit
  | .unknown _ => none

/-- Whom a run's tools act for. -/
structure ManageIdentity where
  userId : String
  isAdmin : Bool
  projectId : Option String
  sessionKey : Option String
  deriving Repr, DecidableEq

/-- `ctx`: the context of a call, which names the call only when it is executed. -/
def ManageIdentity.ctx (who : ManageIdentity) (toolCallId : Option String) : ManageContext where
  userId := who.userId
  isAdmin := who.isAdmin
  projectId := who.projectId
  sessionKey := who.sessionKey
  toolCallId := toolCallId

def needsApproval (reg : Registry σ ρ) (noArgs : ρ) (who : ManageIdentity) (a : ManageArgs ρ) (seen : Nat → σ) : Bool :=
  match toInput noArgs a with
  | some input => requiresApproval reg (who.ctx none) input seen
  | none => false

/-- `execute`: a call already run in this task answers what it answered then. -/
def execute (reg : Registry σ ρ) (noArgs : ρ) (who : ManageIdentity) (inflight : List (String × ManageResult))
    (a : ManageArgs ρ) (toolCallId : String) (seen : Nat → σ) : Outcome σ :=
  match inflight.lookup toolCallId with
  | some existing => .answer existing
  | none =>
    match toInput noArgs a with
    | none =>
      .answer (.error "bad_request"
        ("action=\"" ++ a.action.name ++ "\" needs " ++ a.action.requiredFields ++ " — re-call with them set."))
    | some input => dispatch reg (who.ctx (some toolCallId)) input seen

end Manage

end Capka

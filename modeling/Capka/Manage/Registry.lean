/-!
# Controls, collections and the registry

The manageable things of the product. What a handler reads or writes outside its arguments (settings, rows, the sandbox
controller) is the state `σ`; the fields of an `add` are a record `ρ` each collection parses for itself. A handler that throws
answers `.error` with the message.
-/

namespace Capka

namespace Manage

/-- Where a control lives. -/
inductive Scope
  | user
  | project
  | org
  deriving Repr, DecidableEq

/-- Who may touch it. -/
inductive Role
  | user
  | admin
  deriving Repr, DecidableEq

/-- Whether a change applies at once or waits for the user. -/
inductive Risk
  | safe
  | confirm
  deriving Repr, DecidableEq

/-- What a handler knows of the caller. -/
structure ManageContext where
  userId : String
  isAdmin : Bool
  projectId : Option String
  sessionKey : Option String
  toolCallId : Option String
  deriving Repr, DecidableEq

/-- One manageable setting. -/
structure Control (σ : Type) where
  id : String
  scope : Scope
  requiredRole : Role
  risk : Risk
  alwaysConfirm : Bool
  schema : String → Except String String
  read : ManageContext → σ → Except String String
  apply : ManageContext → String → σ → Except String σ

/-- One row of a collection. -/
structure CollectionItem where
  id : String
  title : String
  deriving Repr, DecidableEq

/-- A managed collection; the mutations answer the item's title and the state they leave. -/
structure Collection (σ ρ : Type) where
  id : String
  requiredRole : Role
  usage : Option String
  alwaysConfirm : Bool
  confirmEnable : Bool
  addSchema : Option (ρ → Except String ρ)
  list : ManageContext → σ → Except String (List CollectionItem)
  add : Option (ManageContext → ρ → σ → Except String (String × σ))
  validateAdd : Option (ManageContext → ρ → σ → Except String Unit)
  remove : Option (ManageContext → String → σ → Except String (String × σ))
  setEnabled : Option (ManageContext → String → Bool → σ → Except String (String × σ))

/-- A lookup over the registered controls and collections. -/
structure Registry (σ ρ : Type) where
  controls : List (Control σ)
  collections : List (Collection σ ρ)

variable {σ ρ : Type}

/-- `reg.get`: the map keeps the last control registered under an id. -/
def Registry.get (reg : Registry σ ρ) (id : String) : Option (Control σ) :=
  reg.controls.reverse.find? (·.id = id)

/-- `reg.collection`. -/
def Registry.collection (reg : Registry σ ρ) (id : String) : Option (Collection σ ρ) :=
  reg.collections.reverse.find? (·.id = id)

/-- `canAccess`: a regular user sees only what is open to users. -/
def canAccess (ctx : ManageContext) (requiredRole : Role) : Bool :=
  requiredRole = .user || ctx.isAdmin

/-- An action on the registry. -/
inductive ManageInput (ρ : Type)
  | capabilities
  | list
  | get (target : String)
  | set (target : String) (value : String)
  | add (target : String) (args : ρ)
  | remove (target : String) (itemId : String)
  | enable (target : String) (itemId : String)
  | disable (target : String) (itemId : String)
  | debug (target : String) (itemId : String)
  | connect (target : String) (itemId : String)
  | edit (target : String) (itemId : String)
  deriving Repr, DecidableEq

/-- What a collection answers about a mutation. -/
inductive ResourceOp
  | added
  | removed
  | enabled
  | disabled
  deriving Repr, DecidableEq

/-- What an action answers; `read` stands for the answers of the actions that change nothing. -/
inductive ManageResult
  | setting (controlId before after : String)
  | resource (op : ResourceOp) (collectionId itemTitle : String)
  | read
  | error (code summary : String)
  deriving Repr, DecidableEq

/-- What a dispatched action came to: its answer, or the message it rejected with, and the state its mutation left, when it
made one. -/
structure Outcome (σ : Type) where
  result : Except String ManageResult
  written : Option σ

/-- The action carried out a mutation. -/
def Outcome.Applied (o : Outcome σ) : Prop := o.written.isSome = true

instance (o : Outcome σ) : Decidable o.Applied := inferInstanceAs (Decidable (_ = _))

/-- An answer that changes nothing. -/
def Outcome.answer (r : ManageResult) : Outcome σ where
  result := .ok r
  written := none

/-- A rejection. -/
def Outcome.reject (msg : String) : Outcome σ where
  result := .error msg
  written := none

/-- A mutation that was carried out. -/
def Outcome.mutate (r : ManageResult) (s : σ) : Outcome σ where
  result := .ok r
  written := some s

@[simp] theorem Outcome.applied_answer (r : ManageResult) : (Outcome.answer r : Outcome σ).Applied ↔ False := by
  simp [Outcome.Applied, Outcome.answer]

@[simp] theorem Outcome.applied_reject (msg : String) : (Outcome.reject msg : Outcome σ).Applied ↔ False := by
  simp [Outcome.Applied, Outcome.reject]

@[simp] theorem Outcome.applied_mutate (r : ManageResult) (s : σ) : (Outcome.mutate r s).Applied ↔ True := by
  simp [Outcome.Applied, Outcome.mutate]

end Manage

end Capka

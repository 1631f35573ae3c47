import Capka.Lib.Table

/-!
# The conversation tree

Messages form a tree through `parentId`, and each chat pins one active leaf; the visible conversation is the chain from that leaf up to
a root. A compaction checkpoint is a message of the tree like any other.
-/

namespace Capka

/-- Who wrote a message. -/
inductive Role
  | user
  | assistant
  deriving Repr, DecidableEq

/-- A row of `messages`, as the tree reads it: `awaiting` is a status that still waits on the user, `compaction` the message a
checkpoint's summary reaches up to. -/
structure Node where
  id : Nat
  chatId : Nat
  parentId : Option Nat
  role : Role
  awaiting : Bool
  compaction : Option Nat
  deriving Repr, DecidableEq

/-- The table of messages. -/
abbrev Nodes := Table Node Node.id

/-- A row of `chats`. -/
structure ChatNode where
  id : Nat
  activeLeafId : Option Nat
  deriving Repr, DecidableEq

/-- The table of chats. -/
abbrev ChatNodes := Table ChatNode ChatNode.id

namespace Node

/-- The node is a checkpoint. -/
def isCheckpoint (n : Node) : Bool := n.compaction.isSome

/-- The node as a user's message is inserted. -/
def ofUser (id chatId : Nat) (parentId : Option Nat) : Node where
  id := id
  chatId := chatId
  parentId := parentId
  role := .user
  awaiting := false
  compaction := none

/-- The node as a turn inserts its reply. -/
def ofReply (id chatId : Nat) (parentId : Option Nat) : Node where
  id := id
  chatId := chatId
  parentId := parentId
  role := .assistant
  awaiting := false
  compaction := none

/-- The reply waits on the user, or no longer does. -/
def wait (awaiting : Bool) (n : Node) : Node := { n with awaiting := awaiting }

@[simp] theorem wait_id (awaiting : Bool) (n : Node) : (n.wait awaiting).id = n.id := rfl

end Node

namespace ChatNode

/-- The leaf moves. -/
def pin (leaf : Nat) (c : ChatNode) : ChatNode := { c with activeLeafId := some leaf }

@[simp] theorem pin_id (leaf : Nat) (c : ChatNode) : (c.pin leaf).id = c.id := rfl

end ChatNode

namespace Nodes

/-- The chain from a message up to its root, the message first; it stops after as many messages as there are, so that a malformed chain
ends too. -/
def chain (T : Nodes) : Nat → Nat → List Node
  | 0, _ => []
  | fuel + 1, id =>
    match T.get id with
    | none => []
    | some n =>
      match n.parentId with
      | none => [n]
      | some p => n :: chain T fuel p

/-- The message lies below another in the tree. -/
def Below (T : Nodes) (above id : Nat) : Prop := id ≠ above ∧ ∃ n ∈ T.chain T.rows.length id, n.id = above

instance (T : Nodes) (above id : Nat) : Decidable (T.Below above id) := inferInstanceAs (Decidable (_ ∧ ∃ n ∈ T.chain _ id, _))

/-- The checkpoint spliced in under a message: `select c.id ... where c.parent_id = parent and c.metadata ? 'compaction' limit 1`. -/
def checkpointUnder (T : Nodes) (parent : Nat) : Option Nat :=
  (T.rows.find? (fun n => n.parentId = some parent && n.isCheckpoint)).map (·.id)

/-- Where a message that was meant to hang off `parent` is inserted: below the checkpoint of a compacted reply. -/
def hangUnder (T : Nodes) (isReply : Bool) (parentId : Option Nat) : Option Nat :=
  if isReply then parentId.map (fun p => (T.checkpointUnder p).getD p) else parentId

end Nodes

end Capka

import Capka.Lib.Steps
import Capka.Tree.Paths

/-!
# Splicing a checkpoint under a reply

The splice inserts a checkpoint under the reply and hangs the reply's children under it, in one transaction; the leaf follows when
nothing followed the reply. Sends choose their parent before that: the web route asks, in its insert, whether a checkpoint is there by
now; a message from a channel, a late steer and a reply do not. A statement sees what was committed when it began, so what it inserts
or re-parents is settled then and takes effect when it commits.
-/

namespace Capka

/-- A message on the active path, as the context is shaped from it: `summary` marks the recap that stands for a checkpoint. -/
structure CtxMessage where
  id : Nat
  role : Role
  summary : Option Nat
  compaction : Option Nat
  deriving Repr, DecidableEq

namespace Compaction

/-- The loop of `applyCompaction`: the index of the last checkpoint. -/
def lastCheckpoint : List CtxMessage → Nat → Option Nat → Option Nat
  | [], _, last => last
  | m :: ms, i, last => lastCheckpoint ms (i + 1) (if m.compaction.isSome then some i else last)

/-- The recap of a checkpoint. -/
def summaryOf (cp : CtxMessage) : CtxMessage where
  id := cp.id
  role := .user
  summary := cp.compaction
  compaction := none

def applyCompaction (messages : List CtxMessage) : List CtxMessage :=
  match lastCheckpoint messages 0 none with
  | none => messages
  | some i => (messages[i]?.map summaryOf).toList ++ messages.drop (i + 1)

/-- A row of the path as `buildModelContext` lifts it. -/
def toCtx (n : Node) : CtxMessage where
  id := n.id
  role := n.role
  summary := none
  compaction := n.compaction

end Compaction

/-- Where a message comes from, with what its parent is taken from: the chat's leaf, or a message the writer names. -/
inductive WriteSource
  | send
  | edit (parentId : Option Nat)
  | channel
  | steer (replyId : Nat)
  | reply (parentId : Option Nat)
  deriving Repr, DecidableEq

/-- Where a write stands: its parent chosen, its insert under way with the parent it resolved, or its row there. -/
inductive WritePhase
  | chosen
  | inserting (parentId : Option Nat)
  | landed
  deriving Repr, DecidableEq

/-- A message being written. -/
structure NodeWrite where
  id : Nat
  chatId : Nat
  source : WriteSource
  parentId : Option Nat
  isReply : Bool
  phase : WritePhase
  deriving Repr, DecidableEq

/-- A splice under way: the children its update found. -/
structure SpliceTx where
  checkpointId : Nat
  chatId : Nat
  replyId : Nat
  moved : List Nat
  deriving Repr, DecidableEq

/-- The tree, and what is under way. -/
structure TreeState where
  nodes : Nodes
  chats : ChatNodes
  writes : Table NodeWrite NodeWrite.id
  splices : Table SpliceTx SpliceTx.checkpointId

/-- What can happen: a write chooses its parent, begins its insert, lands, points the chat at its row, or is given up; a splice begins
its update, commits, or is given up; the user switches to another branch. -/
inductive TreeAct
  | choose (id chatId : Nat) (source : WriteSource)
  | insert (id : Nat)
  | land (id : Nat)
  | point (id : Nat)
  | giveUp (id : Nat)
  | spliceBegin (checkpointId chatId replyId : Nat)
  | spliceCommit (checkpointId : Nat)
  | spliceGiveUp (checkpointId : Nat)
  | switchTo (chatId leaf : Nat)

namespace WriteSource

/-- The web route resolves its parent again in the insert. -/
def guarded : WriteSource → Bool
  | .send => true
  | .edit _ => true
  | .channel => false
  | .steer _ => false
  | .reply _ => false

/-- Who writes the row. -/
def role : WriteSource → Role
  | .reply _ => .assistant
  | _ => .user

end WriteSource

namespace NodeWrite

/-- The write goes on. -/
def goto (phase : WritePhase) (w : NodeWrite) : NodeWrite := { w with phase := phase }

@[simp] theorem goto_id (phase : WritePhase) (w : NodeWrite) : (w.goto phase).id = w.id := rfl

/-- The row it inserts. -/
def node (w : NodeWrite) (parentId : Option Nat) : Node where
  id := w.id
  chatId := w.chatId
  parentId := parentId
  role := w.source.role
  awaiting := false
  compaction := none

end NodeWrite

namespace SpliceTx

/-- The checkpoint it inserts. -/
def node (x : SpliceTx) : Node where
  id := x.checkpointId
  chatId := x.chatId
  parentId := some x.replyId
  role := .assistant
  awaiting := false
  compaction := some x.replyId

/-- The update of a child it found. -/
def reparent (x : SpliceTx) (n : Node) : Node :=
  if n.id ∈ x.moved ∧ n.parentId = some x.replyId then { n with parentId := some x.checkpointId } else n

@[simp] theorem reparent_id (x : SpliceTx) (n : Node) : (x.reparent n).id = n.id := by
  unfold reparent
  split <;> rfl

end SpliceTx

namespace TreeState

/-- A tree with nothing under way. -/
def opened (nodes : Nodes) (chats : ChatNodes) : TreeState where
  nodes := nodes
  chats := chats
  writes := .empty
  splices := .empty

def leafOf (s : TreeState) (chatId : Nat) : Option Nat := (s.chats.get chatId).bind (·.activeLeafId)

/-- The parent a write chooses. -/
def parentOf (s : TreeState) (chatId : Nat) : WriteSource → Option Nat
  | .send => s.leafOf chatId
  | .edit parentId => parentId
  | .channel => s.leafOf chatId
  | .steer replyId => some replyId
  | .reply parentId => parentId

/-- The chosen parent is a reply of the chat. -/
def isReply (s : TreeState) (parentId : Option Nat) : Bool :=
  (parentId.bind s.nodes.get).any (fun n => n.role = .assistant)

/-- The parent is a message of the chat: the web route looks it up and refuses any other. -/
def InChat (s : TreeState) (chatId : Nat) (parentId : Option Nat) : Prop := ∀ p ∈ parentId, ∃ n ∈ s.nodes, n.id = p ∧ n.chatId = chatId

instance (s : TreeState) (chatId : Nat) (parentId : Option Nat) : Decidable (s.InChat chatId parentId) :=
  inferInstanceAs (Decidable (∀ p ∈ parentId, ∃ n ∈ s.nodes, _))

/-- The write goes on. -/
def next (s : TreeState) (w : NodeWrite) (phase : WritePhase) : TreeState :=
  { s with writes := s.writes.modify w.id (NodeWrite.goto phase) (NodeWrite.goto_id phase) }

/-- The chat is pointed at a message. -/
def pinned (s : TreeState) (chatId leaf : Nat) : TreeState :=
  { s with chats := s.chats.modify chatId (ChatNode.pin leaf) (ChatNode.pin_id leaf) }

/-- `update chats set active_leaf_id = leaf where active_leaf_id = from`. -/
def movedLeaf (s : TreeState) (chatId old leaf : Nat) : TreeState :=
  if s.leafOf chatId = some old then s.pinned chatId leaf else s

/-- The insert begins: the web route's own parent is resolved against what is committed. -/
def insert (s : TreeState) (w : NodeWrite) : TreeState :=
  s.next w (.inserting (s.nodes.hangUnder (w.source.guarded && w.isReply) w.parentId))

/-- The row is there, if its parent is (a foreign key). -/
def land (s : TreeState) (w : NodeWrite) (parentId : Option Nat) : Option TreeState :=
  if s.InChat w.chatId parentId then
    (s.nodes.insert (w.node parentId)).map fun nodes => { s with nodes := nodes }.next w .landed
  else none

/-- The chat is pointed at the row: a late steer only while its reply is the leaf. -/
def point (s : TreeState) (w : NodeWrite) : TreeState :=
  match w.source with
  | .steer replyId => s.movedLeaf w.chatId replyId w.id
  | _ => s.pinned w.chatId w.id

/-- The children a splice's update finds. -/
def childrenOf (s : TreeState) (chatId replyId : Nat) : List Nat :=
  (s.nodes.rows.filter (fun n => n.chatId = chatId && n.parentId = some replyId)).map (·.id)

/-- A reply can be compacted: a reply of the chat that no checkpoint stands under yet. A turn ends once, and is compacted once. -/
def Compactable (s : TreeState) (chatId replyId : Nat) : Prop :=
  (∃ n ∈ s.nodes, n.id = replyId ∧ n.chatId = chatId ∧ n.role = .assistant ∧ n.compaction = none) ∧
    (∀ n ∈ s.nodes, n.parentId = some replyId → n.compaction = none) ∧ ∀ x ∈ s.splices, x.replyId ≠ replyId

instance (s : TreeState) (chatId replyId : Nat) : Decidable (s.Compactable chatId replyId) := inferInstanceAs (Decidable (_ ∧ _ ∧ _))

/-- The splice commits. -/
def splice (s : TreeState) (x : SpliceTx) : Option TreeState :=
  ((s.nodes.map x.reparent x.reparent_id).insert x.node).map fun nodes =>
    { s with nodes := nodes, splices := s.splices.erase x.checkpointId }.movedLeaf x.chatId x.replyId x.checkpointId

/-- One step. -/
def step (s : TreeState) : TreeAct → Option TreeState
  | .choose id chatId source =>
    if s.InChat chatId (s.parentOf chatId source) then
      (s.writes.insert
        { id := id, chatId := chatId, source := source, parentId := s.parentOf chatId source,
          isReply := s.isReply (s.parentOf chatId source), phase := .chosen }).map fun writes => { s with writes := writes }
    else none
  | .insert id => (s.writes.get id).bind fun w => if w.phase = .chosen then some (s.insert w) else none
  | .land id => (s.writes.get id).bind fun w =>
    match w.phase with
    | .inserting parentId => s.land w parentId
    | _ => none
  | .point id => (s.writes.get id).bind fun w => if w.phase = .landed then some (s.point w) else none
  | .giveUp id => some { s with writes := s.writes.erase id }
  | .spliceBegin checkpointId chatId replyId =>
    if s.Compactable chatId replyId then
      (s.splices.insert
        { checkpointId := checkpointId, chatId := chatId, replyId := replyId, moved := s.childrenOf chatId replyId }).map
        fun splices => { s with splices := splices }
    else none
  | .spliceCommit checkpointId => (s.splices.get checkpointId).bind fun x => s.splice x
  | .spliceGiveUp checkpointId => some { s with splices := s.splices.erase checkpointId }
  | .switchTo chatId leaf => some (s.pinned chatId leaf)

end TreeState

end Capka

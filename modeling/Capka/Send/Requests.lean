import Capka.Lib.Steps
import Capka.Queue.Tasks
import Capka.Tree.Nodes

/-!
# Sending a message, statement by statement

`POST /api/chat` reads the chat and the parent, inserts the message (or finds it there), points the chat at it and enqueues a turn;
each statement sees the database as it then is. The turn is claimed, answers from the chat's leaf, absorbs what is queued behind it,
inserts its reply and points the chat at that.
-/

namespace Capka

/-- What the parent lookup found out. -/
structure ParentFacts where
  parentId : Option Nat
  isReply : Bool
  waits : Bool
  deriving Repr, DecidableEq

/-- The statement a request is at. -/
inductive SendPhase
  | readChat
  | readParent (existing : Bool) (parentId : Option Nat)
  | readTaken (facts : ParentFacts)
  | insertChat (facts : ParentFacts)
  | insertMessage (facts : ParentFacts)
  | readOwn
  | updateLeaf
  | enqueue
  deriving Repr, DecidableEq

/-- A request in flight. `parent` is the body's `parentId`: absent in a plain send, which anchors to the chat's leaf. -/
structure SendRequest where
  rid : Nat
  chatId : Nat
  userId : Nat
  userMessageId : Nat
  parent : Option (Option Nat)
  taskId : Nat
  phase : SendPhase
  deriving Repr, DecidableEq

/-- A request that was answered: the turn that will answer it was created by it, or already there. -/
structure SendAnswer where
  chatId : Nat
  userMessageId : Nat
  created : Bool
  deriving Repr, DecidableEq

/-- The statement a running turn is at. -/
inductive RunPhase
  | readLeaf
  | absorb (replyParentId : Nat)
  | insertReply (replyParentId : Option Nat)
  | updateLeaf (messageId : Nat)
  | streaming (messageId : Nat)
  deriving Repr, DecidableEq

/-- A running turn. -/
structure RunningTurn where
  taskId : Nat
  chatId : Nat
  phase : RunPhase
  deriving Repr, DecidableEq

/-- The database, what is in flight, and the answers given. `replyParent` is the field of a task's payload. -/
structure SendState where
  nodes : Nodes
  chats : ChatNodes
  tasks : Tasks
  replyParent : Nat → Option Nat
  requests : Table SendRequest SendRequest.rid
  turns : Table RunningTurn RunningTurn.taskId
  answers : List SendAnswer

/-- What can happen: a request arrives or runs its next statement or fails there; a turn is claimed, runs its next statement, or ends,
with its reply waiting on the user or not; a waiting reply is continued; a queued turn is dismissed. -/
inductive SendAct
  | post (rid chatId userId userMessageId taskId : Nat) (parent : Option (Option Nat))
  | send (rid : Nat)
  | sendFails (rid : Nat)
  | claim (taskId workerId : Nat)
  | turn (taskId messageId : Nat)
  | finish (taskId : Nat) (status : TaskStatus) (waits : Bool)
  | resume (taskId chatId userId messageId : Nat)
  | dismiss (taskId : Nat)

namespace SendRequest

/-- The request goes on to a statement. -/
def goto (phase : SendPhase) (q : SendRequest) : SendRequest := { q with phase := phase }

@[simp] theorem goto_rid (phase : SendPhase) (q : SendRequest) : (q.goto phase).rid = q.rid := rfl

end SendRequest

namespace RunningTurn

/-- The turn goes on to a statement. -/
def goto (phase : RunPhase) (r : RunningTurn) : RunningTurn := { r with phase := phase }

@[simp] theorem goto_taskId (phase : RunPhase) (r : RunningTurn) : (r.goto phase).taskId = r.taskId := rfl

end RunningTurn

namespace SendState

/-- A database nothing was sent to: its chats and messages. -/
def opened (nodes : Nodes) (chats : ChatNodes) : SendState where
  nodes := nodes
  chats := chats
  tasks := .empty
  replyParent := fun _ => none
  requests := .empty
  turns := .empty
  answers := []

def leafOf (s : SendState) (chatId : Nat) : Option Nat := (s.chats.get chatId).bind (·.activeLeafId)

/-- The request runs on. -/
def next (s : SendState) (q : SendRequest) (phase : SendPhase) : SendState :=
  { s with requests := s.requests.modify q.rid (SendRequest.goto phase) (SendRequest.goto_rid phase) }

/-- The request is over. -/
def ended (s : SendState) (q : SendRequest) : SendState := { s with requests := s.requests.erase q.rid }

/-- The chat is pointed at a message. -/
def pinned (s : SendState) (chatId leaf : Nat) : SendState :=
  { s with chats := s.chats.modify chatId (ChatNode.pin leaf) (ChatNode.pin_id leaf) }

/-- The row a request inserts. -/
def newNode (s : SendState) (q : SendRequest) (facts : ParentFacts) : Node :=
  .ofUser q.userMessageId q.chatId (s.nodes.hangUnder facts.isReply facts.parentId)

/-- The row under the id is this chat's, and a user's. -/
def ownRow (s : SendState) (q : SendRequest) : Bool :=
  (s.nodes.get q.userMessageId).any (fun n => n.chatId = q.chatId && n.role = .user)

/-- The rest of the transaction of a send past a waiting reply: the leaf, and the reply settled. -/
def settlePast (s : SendState) (q : SendRequest) (facts : ParentFacts) : SendState :=
  let s := s.pinned q.chatId q.userMessageId
  match facts.parentId with
  | some p => { s with nodes := s.nodes.modify p (Node.wait false) (Node.wait_id false) }
  | none => s

/-- The lookup of the parent, which must be a message of the chat; `none` refuses the send. -/
def parentFacts (s : SendState) (q : SendRequest) : Option Nat → Option ParentFacts
  | none => some { parentId := none, isReply := false, waits := false }
  | some p =>
    match s.nodes.get p with
    | some n =>
      if n.chatId = q.chatId then some { parentId := some p, isReply := n.role = .assistant, waits := n.awaiting } else none
    | none => none

/-- The insert of the message: a conflict goes on to look whose row it is. A send past a waiting reply does that, the leaf and the
settling in one transaction. -/
def insertMessage (s : SendState) (q : SendRequest) (facts : ParentFacts) : SendState :=
  match s.nodes.insert (s.newNode q facts) with
  | some nodes =>
    let s := { s with nodes := nodes }
    if facts.waits then (s.settlePast q facts).next q .enqueue else s.next q .updateLeaf
  | none =>
    if facts.waits then (if s.ownRow q then (s.settlePast q facts).next q .enqueue else s.ended q) else s.next q .readOwn

/-- The task a request enqueues. -/
def newTask (q : SendRequest) : TaskRow := .fresh q.taskId q.chatId q.userId none 0

/-- `enqueueTask`: a turn of its own when the chat has none queued, else the one that is. An attempt that finds neither, its slot
taken and freed meanwhile, changes nothing and is made again. -/
def enqueue (s : SendState) (q : SendRequest) : Option SendState :=
  match insertQueued (newTask q) s.tasks with
  | some tasks =>
    some
      { s.ended q with
        tasks := tasks
        replyParent := Function.update s.replyParent q.taskId (some q.userMessageId)
        answers := s.answers ++ [{ chatId := q.chatId, userMessageId := q.userMessageId, created := true }] }
  | none =>
    if (queuedTurn q.chatId s.tasks).isSome then
      some
        { s.ended q with
          answers := s.answers ++ [{ chatId := q.chatId, userMessageId := q.userMessageId, created := false }] }
    else none

/-- The next statement of a request. -/
def send (s : SendState) (q : SendRequest) : Option SendState :=
  match q.phase with
  | .readChat =>
    let chat := s.chats.get q.chatId
    some (s.next q (.readParent chat.isSome (q.parent.getD (chat.bind (·.activeLeafId)))))
  | .readParent existing parentId =>
    match s.parentFacts q parentId with
    | some facts => some (s.next q (if existing then .insertMessage facts else .readTaken facts))
    | none => some (s.ended q)
  | .readTaken facts => some (if (s.nodes.get q.userMessageId).isSome then s.ended q else s.next q (.insertChat facts))
  | .insertChat facts =>
    match s.chats.insert { id := q.chatId, activeLeafId := none } with
    | some chats => some ({ s with chats := chats }.next q (.insertMessage facts))
    | none => some (s.ended q)
  | .insertMessage facts => some (s.insertMessage q facts)
  | .readOwn => some (if s.ownRow q then s.next q .updateLeaf else s.ended q)
  | .updateLeaf => some ((s.pinned q.chatId q.userMessageId).next q .enqueue)
  | .enqueue => s.enqueue q

def turnTo (s : SendState) (r : RunningTurn) (phase : RunPhase) : SendState :=
  { s with turns := s.turns.modify r.taskId (RunningTurn.goto phase) (RunningTurn.goto_taskId phase) }

/-- The turn starts: a continuation on its message, any other at the chat's leaf when that is a user's message, else where its payload
says. -/
def readLeaf (s : SendState) (r : RunningTurn) : SendState :=
  match (s.tasks.get r.taskId).bind (·.resumeMessageId) with
  | some m => { s with nodes := s.nodes.modify m (Node.wait false) (Node.wait_id false) }.turnTo r (.streaming m)
  | none =>
    match s.leafOf r.chatId with
    | some leaf =>
      if (s.nodes.get leaf).any (fun n => n.role = .user) then s.turnTo r (.absorb leaf)
      else s.turnTo r (.insertReply (s.replyParent r.taskId))
    | none => s.turnTo r (.insertReply (s.replyParent r.taskId))

/-- The next statement of a turn; `messageId` is the id of its reply. -/
def turn (s : SendState) (r : RunningTurn) (messageId : Nat) : Option SendState :=
  match r.phase with
  | .readLeaf => some (s.readLeaf r)
  | .absorb p =>
    some ({ s with tasks := s.tasks.filter (fun t => !t.absorbed r.chatId r.taskId) }.turnTo r (.insertReply (some p)))
  | .insertReply parentId =>
    (s.nodes.insert (.ofReply messageId r.chatId parentId)).map fun nodes =>
      { s with nodes := nodes }.turnTo r (.updateLeaf messageId)
  | .updateLeaf m => some ((s.pinned r.chatId m).turnTo r (.streaming m))
  | .streaming _ => none

/-- The message a turn streams into. -/
def streamed (r : RunningTurn) : Option Nat :=
  match r.phase with
  | .streaming m => some m
  | _ => none

/-- One step. -/
def step (s : SendState) : SendAct → Option SendState
  | .post rid chatId userId userMessageId taskId parent =>
    (s.requests.insert
      { rid := rid, chatId := chatId, userId := userId, userMessageId := userMessageId, parent := parent, taskId := taskId,
        phase := .readChat }).map fun requests => { s with requests := requests }
  | .send rid => (s.requests.get rid).bind fun q => s.send q
  | .sendFails rid => (s.requests.get rid).map fun q => s.ended q
  | .claim taskId workerId =>
    (s.tasks.get taskId).bind fun t =>
      if t.status = .queued then
        (s.turns.insert { taskId := taskId, chatId := t.chatId, phase := .readLeaf }).map fun turns =>
          { s with turns := turns, tasks := s.tasks.modify taskId (TaskRow.claimed workerId 0) (TaskRow.claimed_id workerId 0) }
      else none
  | .turn taskId messageId => (s.turns.get taskId).bind fun r => s.turn r messageId
  | .finish taskId status waits =>
    (s.turns.get taskId).bind fun r =>
      if status.terminal then
        some
          { s with
            turns := s.turns.erase taskId
            tasks := s.tasks.modify taskId (TaskRow.settle status none none) (TaskRow.settle_id status none none)
            nodes :=
              match streamed r with
              | some m => s.nodes.modify m (Node.wait waits) (Node.wait_id waits)
              | none => s.nodes }
      else none
  | .resume taskId chatId userId messageId =>
    (s.nodes.get messageId).bind fun n =>
      if n.awaiting = true ∧ n.chatId = chatId then
        (insertQueued (.fresh taskId chatId userId (some messageId) 0) s.tasks).map fun tasks => { s with tasks := tasks }
      else none
  | .dismiss taskId => some { s with tasks := s.tasks.filter (fun t => !(t.id = taskId && t.status = .queued)) }

end SendState

end Capka

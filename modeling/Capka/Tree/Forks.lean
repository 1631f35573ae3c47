import Capka.Chat.Message
import Capka.Tree.ActivePath

/-!
# Forks and clones

A fork copies the path down to a message into a new chat of the same owner, a clone copies the path a shared chat shows into a chat of the
reader's. Both make fresh rows, link them as the rows they come from are linked, and pin the new chat to the last of them.
-/

namespace Capka.Conversation

/-- The id of a chat. -/
abbrev ChatId := List Nat

/-- The `metadata` column: `MessageMeta`, or a value that is no object. -/
inductive Metadata
  | object (m : MessageMeta)
  | other (json : Option String)
  deriving DecidableEq

/-- A row of `messages`. -/
structure ChatMessage extends TreeRow where
  chatId : ChatId
  role : String
  content : List Char
  platform : Option String
  telegramMessageId : Option Int
  metadata : Metadata
  untrustedIngress : Bool
  deriving DecidableEq

/-- `visibility`. -/
inductive Visibility
  | hidden
  | link
  | users
  deriving DecidableEq

def isShared : Visibility → Bool
  | .hidden => false
  | .link => true
  | .users => true

/-- A row of `chats`. -/
structure ChatRow where
  id : ChatId
  userId : Nat
  projectId : Option Nat
  title : Option String
  model : Option String
  visibility : Visibility
  shareToken : Option String
  activeLeafId : Option MessageId
  deriving DecidableEq

/-- The chats and their messages: a message is in a chat there is. -/
structure Db where
  chats : Table ChatRow ChatRow.id
  messages : Table ChatMessage fun r => r.id
  owned : ∀ r ∈ messages, r.chatId ∈ chats.keys

namespace Metadata

/-- The parts of a row. -/
def parts : Metadata → Option (List StoredPart)
  | .object m => m.parts
  | .other _ => none

/-- The status of a row. -/
def status : Metadata → Option MessageStatus
  | .object m => m.status
  | .other _ => none

/-- The task a row names. -/
def taskId : Metadata → Option Nat
  | .object m => m.taskId
  | .other _ => none

end Metadata

def messageText (row : ChatMessage) : List Char :=
  match row.metadata.parts with
  | some parts => if row.metadata.status = some .running then replyText parts else row.content
  | none => row.content

def sanitizeForkedMeta : Metadata → Metadata
  | .object m => .object { m with taskId := none, status := if m.status = some .running then some .completed else m.status }
  | .other json => .other json

/-- `forkedMessageRow`. The time is the column's own default. -/
def forkedMessageRow (now : Int) (node : ChatMessage) (id : {id : MessageId // id ≠ []}) (chatId : ChatId) (parentId : Option MessageId) :
    ChatMessage where
  id := id
  parentId := parentId
  createdAt := some now
  named := id.2
  chatId := chatId
  role := node.role
  content := messageText node
  platform := node.platform
  telegramMessageId := none
  metadata := sanitizeForkedMeta node.metadata
  untrustedIngress := node.untrustedIngress

/-- The rows of a chat, as `loadSkeleton` selects them. -/
def loadSkeleton (db : Db) (chatId : ChatId) : TreeRows where
  rows := (db.messages.rows.filter fun r => r.chatId = chatId).map ChatMessage.toTreeRow
  nodup := by
    rw [List.map_map]
    exact db.messages.nodup.sublist (List.filter_sublist.map _)

local instance lawfulMessageId : LawfulBEq MessageId := inferInstance

/-- The whole rows of a path, in its order. -/
def pathRows (db : Db) (chatId : ChatId) (ids : List MessageId) : List ChatMessage :=
  let full := db.messages.rows.filter fun r => r.chatId = chatId ∧ r.id ∈ ids
  ids.filterMap fun id => full.find? (·.id = id)

/-- `loadActivePath`, the rows only. -/
def loadActivePath (db : Db) (chatId : ChatId) (activeLeafId : Option MessageId) : List ChatMessage :=
  pathRows db chatId ((activePath (loadSkeleton db chatId) activeLeafId).map (·.node.id))

section Copies

variable (nanoid : Nat → {id : List Nat // id ≠ []}) (now : Int)

/-- The copies of the rows of a path: `n` ids were drawn before, and `idMap` is what became of the rows so far. -/
def copyRows (newChatId : ChatId) : Nat → (MessageId → Option MessageId) → List ChatMessage → List ChatMessage
  | _, _, [] => []
  | n, idMap, node :: nodes =>
    let idMap := Function.update idMap node.id (some (nanoid n).1)
    let parentId := node.parentId.bind fun id => if id = [] then none else idMap id
    forkedMessageRow now node (nanoid n) newChatId parentId :: copyRows newChatId (n + 1) idMap nodes

/-- The columns of `messages`. -/
def messageColumns : Nat := 10

/-- The bind parameters Postgres takes in a statement. -/
def maxParams : Nat := 65535

/-- One insert of many rows: it fails whole where a key is taken, a row is in no chat, or there are too many parameters. -/
def insertRows (rows : List ChatMessage) (db : Db) : Option Db :=
  if h : ((db.messages.rows ++ rows).map fun r => r.id).Nodup ∧ (∀ r ∈ rows, r.chatId ∈ db.chats.keys) ∧
      messageColumns * rows.length ≤ maxParams then
    some
      { chats := db.chats
        messages := ⟨db.messages.rows ++ rows, h.1⟩
        owned := by
          intro r hr
          rcases List.mem_append.mp hr with hr | hr
          · exact db.owned r hr
          · exact h.2.1 r hr }
  else none

/-- The loop of `insertMessageChunks`. -/
def insertChunks (size : Nat) : Nat → List ChatMessage → Db → Option Db
  | 0, _, db => some db
  | fuel + 1, rows, db => if rows = [] then some db else (insertRows (rows.take size) db).bind (insertChunks size fuel (rows.drop size))

def insertMessageChunks (rows : List ChatMessage) (db : Db) : Option Db := insertChunks (maxParams / messageColumns) rows.length rows db

def insertChat (chat : ChatRow) (db : Db) : Option Db :=
  match h : db.chats.insert chat with
  | none => none
  | some chats =>
    some
      { chats := chats
        messages := db.messages
        owned := by
          intro r hr
          obtain ⟨c, hc, hid⟩ := Table.mem_keys.mp (db.owned r hr)
          exact Table.mem_keys.mpr ⟨c, (Table.mem_of_insert h).mpr (.inl hc), hid⟩ }

/-- A chat pinned to a leaf. -/
def ChatRow.pin (leaf : MessageId) (c : ChatRow) : ChatRow := { c with activeLeafId := some leaf }

/-- The update of a chat's leaf. -/
def setActiveLeaf (chatId : ChatId) (leaf : MessageId) (db : Db) : Db where
  chats := db.chats.modify chatId (ChatRow.pin leaf) fun _ => rfl
  messages := db.messages
  owned := by
    intro r hr
    obtain ⟨c, hc, hid⟩ := Table.mem_keys.mp (db.owned r hr)
    rw [← hid]
    by_cases hk : c.id = chatId
    · exact Table.mem_keys.mpr ⟨c.pin leaf, Table.mem_modify_of_key _ hc hk, rfl⟩
    · exact Table.mem_keys.mpr ⟨c, (Table.mem_modify_of_ne _ hk).mpr hc, rfl⟩

/-- The transaction of a copy: the chat, the copies of the rows, and the leaf. -/
def copyPath (chat : ChatRow) (path : List ChatMessage) (db : Db) : Option Db :=
  let copies := copyRows nanoid now chat.id 1 (fun _ => none) path
  (insertChat chat db).bind fun db =>
    match copies.getLast? with
    | none => some db
    | some leaf => (insertMessageChunks copies db).map (setActiveLeaf chat.id leaf.id)

/-- The row of the new chat. -/
def copyChat (copySuffix : String) (source : ChatRow) (userId : Nat) (projectId : Option Nat) : ChatRow where
  id := nanoid 0
  userId := userId
  projectId := projectId
  title := some (source.title.getD "Chat" ++ " " ++ copySuffix)
  model := source.model
  visibility := .hidden
  shareToken := none
  activeLeafId := none

/-- `forkChat`: the new chat's id, or nothing where there is no such chat or message, or the transaction fails. -/
def forkChat (copySuffix : String) (sourceChatId : ChatId) (fromMessageId : MessageId) (userId : Nat) (db : Db) : Option (ChatId × Db) :=
  match db.chats.rows.find? fun c => c.id = sourceChatId ∧ c.userId = userId with
  | none => none
  | some source =>
    if ∃ r ∈ (loadSkeleton db sourceChatId).rows, r.id = fromMessageId then
      let chain := pathRows db sourceChatId ((activePath (loadSkeleton db sourceChatId) (some fromMessageId)).map (·.node.id))
      let chat := copyChat nanoid copySuffix source userId source.projectId
      (copyPath nanoid now chat chain db).map fun db => (chat.id, db)
    else none

def cloneSharedChat (copySuffix : String) (token : String) (userId : Nat) (db : Db) : Option (ChatId × Db) :=
  match db.chats.rows.find? fun c => c.shareToken = some token with
  | none => none
  | some source =>
    if isShared source.visibility then
      let path := loadActivePath db source.id source.activeLeafId
      let chat := copyChat nanoid copySuffix source userId none
      (copyPath nanoid now chat path db).map fun db => (chat.id, db)
    else none

end Copies

end Capka.Conversation

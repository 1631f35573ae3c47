import Capka.Vault.Claims

/-!
# Notes and topics

The statements on `vault_notes`. A topic is a note of its own kind, whose folded title and whose key are unique in its space; the default
topic is found by its key. As for claims, what takes the lifecycle fence is given without it.
-/

namespace Capka

/-- What the body of a revision does to the note's links. -/
inductive BodyWrite where
  | unlinkReferences (keepTargets : List String)
  | unlinkEdge (edgeId : String)
  | link (target : String)
  deriving DecidableEq

/-- A body: what computing it does to the graph, and its text, in terms of the edges it linked. -/
structure NoteBody where
  text : List String → String
  writes : List BodyWrite

structure CreateNoteArgs where
  spaceId : String
  title : String
  bodyText : List String → String
  links : List String
  kind : NoteKind
  topicKey : Option String
  sourceClass : SourceClass
  sensitive : Bool
  createdTaskId : Option String

structure ReviseNoteArgs where
  noteId : String
  spaceId : String
  expectedRevision : Nat
  title : String
  body : NoteBody
  sourceClass : SourceClass
  sensitive : Bool
  createdTaskId : Option String

inductive ReviseResult where
  | ok (revision : Nat)
  | moved (currentRevision : Nat) (currentTitle : String)
  deriving DecidableEq

structure ForgetNoteArgs where
  noteId : String
  spaceId : String
  expectedRevision : Nat
  createdTaskId : Option String

inductive ForgetNoteResult where
  | ok
  | notFound
  | revisionMismatch (revision : Nat)
  | notThisTask (revision : Nat)
  deriving DecidableEq

namespace Vault

/-- `uniq_vnotes_topic_title`. -/
def TitlesUnique (env : VaultEnv) (notes : Table VaultNote VaultNote.id) : Prop :=
  ∀ n ∈ notes, ∀ n' ∈ notes, n.kind = .memoryTopic → n'.kind = .memoryTopic → n.spaceId = n'.spaceId →
    foldOf env n.title = foldOf env n'.title → n.id = n'.id

/-- `uniq_vnotes_memory_topic`. -/
def KeysUnique (notes : Table VaultNote VaultNote.id) : Prop :=
  ∀ n ∈ notes, ∀ n' ∈ notes, n.kind = .memoryTopic → n'.kind = .memoryTopic → n.spaceId = n'.spaceId →
    n.topicKey ≠ none → n.topicKey = n'.topicKey → n.id = n'.id

instance (env : VaultEnv) (notes : Table VaultNote VaultNote.id) : Decidable (TitlesUnique env notes) := by
  unfold TitlesUnique
  infer_instance

instance (notes : Table VaultNote VaultNote.id) : Decidable (KeysUnique notes) := by
  unfold KeysUnique
  infer_instance

/-- The body's writes, in their order, and the edges they linked. -/
def applyBody (noteId spaceId : String) (fresh : Nat → String) (now : Nat) :
    List BodyWrite → Nat → MemoryGraph → Option (MemoryGraph × List String)
  | [], _, g => some (g, [])
  | .unlinkReferences keepTargets :: writes, i, g =>
    applyBody noteId spaceId fresh now writes i (g.unlinkReferencesFrom noteId spaceId keepTargets now)
  | .unlinkEdge edgeId :: writes, i, g => applyBody noteId spaceId fresh now writes i (g.unlinkEdge edgeId spaceId now)
  | .link target :: writes, i, g =>
    (g.linkNodes spaceId noteId target .references (fresh i)).bind fun r =>
      (applyBody noteId spaceId fresh now writes (i + 1) r.1).map fun rest => (rest.1, r.2.1 :: rest.2)

def insertNoteVersion (spaceId : String) (version : NoteVersion) (v : Vault) : Option (Vault × Bool) :=
  let sensitive := version.sensitive || looksLikeSecret version.title || looksLikeSecret version.bodyMarkdown
  (v.noteVersions.insert { version with sensitive }).map fun noteVersions =>
    ({ v with noteVersions }.audit spaceId .noteRevise version.noteId, sensitive)

/-- The note's node and row; a row that breaks one of the unique indexes throws. -/
def insertNote (env : VaultEnv) (note : VaultNote) (v : Vault) : Option Vault :=
  (v.graph.insertNode note.id note.spaceId .note).bind fun graph =>
    ((v.notes.insert note).filter fun notes => TitlesUnique env notes ∧ KeysUnique notes).map fun notes => { v with graph, notes }

/-- The note's own copy of its body. -/
def setBody (noteId body : String) (v : Vault) : Vault :=
  { v with notes := v.notes.update (fun n => n.id = noteId) (fun n => { n with body }) fun _ => rfl }

/-- `createNote` behind the fence. -/
def createNote (env : VaultEnv) (args : CreateNoteArgs) (fresh : Nat → String) (now : Nat) (v : Vault) : Option (Vault × String × Bool) :=
  let title := fitNoteTitle args.title
  (v.insertNote env
    { id := fresh 0, spaceId := args.spaceId, title, body := "", kind := args.kind, topicKey := args.topicKey,
      currentRevision := 1 }).bind fun w =>
  (applyBody (fresh 0) args.spaceId fresh now (args.links.map .link) 1 w.graph).bind fun linked =>
  (({ w with graph := linked.1 }.setBody (fresh 0) (args.bodyText linked.2)).insertNoteVersion args.spaceId
    { noteId := fresh 0, revision := 1, title, bodyMarkdown := args.bodyText linked.2, sourceClass := args.sourceClass,
      sensitive := args.sensitive, createdTaskId := args.createdTaskId }).map fun r : Vault × Bool => (r.1, fresh 0, r.2)

/-- `reviseNote` behind the fence. -/
def reviseNote (env : VaultEnv) (args : ReviseNoteArgs) (fresh : Nat → String) (now : Nat) (v : Vault) : Option (Vault × ReviseResult) :=
  let revision := args.expectedRevision + 1
  let title := fitNoteTitle args.title
  if ∃ n ∈ v.notes, n.id = args.noteId ∧ n.spaceId = args.spaceId ∧ n.currentRevision = args.expectedRevision then
    let notes := v.notes.update (fun n => n.id = args.noteId) (fun n => { n with currentRevision := revision, title }) fun _ => rfl
    if TitlesUnique env notes then
      (applyBody args.noteId args.spaceId fresh now args.body.writes 0 v.graph).bind fun linked =>
      (({ v with notes, graph := linked.1 }.setBody args.noteId (args.body.text linked.2)).insertNoteVersion args.spaceId
        { noteId := args.noteId, revision, title, bodyMarkdown := args.body.text linked.2, sourceClass := args.sourceClass,
          sensitive := args.sensitive, createdTaskId := args.createdTaskId }).map fun r : Vault × Bool => (r.1, .ok revision)
    else none
  else
    match (v.notes.get args.noteId).filter (fun n => n.spaceId = args.spaceId) with
    | none => some (v, .moved 0 "")
    | some cur => some (v, .moved cur.currentRevision cur.title)

/-- `noteHead`: the note, live and with the version it names. -/
def noteHead (noteId : String) (allowedSpaceIds : List String) (v : Vault) : Option VaultNote :=
  (v.notes.get noteId).filter fun n => n.spaceId ∈ allowedSpaceIds ∧ (∃ m ∈ v.graph.nodes, m.id = noteId ∧ m.deletedAt = none) ∧
    ∃ r ∈ v.noteVersions, r.noteId = noteId ∧ r.revision = n.currentRevision

/-- The condition under which `forgetNote` deletes: the note's version is the expected one, and the task's, if one is named. -/
def mayForgetNote (args : ForgetNoteArgs) (v : Vault) : Prop :=
  ∃ r ∈ v.noteVersions, r.noteId = args.noteId ∧ r.revision = args.expectedRevision ∧
    (∃ n ∈ v.notes, n.id = args.noteId ∧ n.currentRevision = r.revision) ∧
    (args.createdTaskId = none ∨ r.createdTaskId = args.createdTaskId)

instance (args : ForgetNoteArgs) (v : Vault) : Decidable (v.mayForgetNote args) := by
  unfold mayForgetNote
  infer_instance

def forgetNote (args : ForgetNoteArgs) (now : Nat) (v : Vault) : Vault × ForgetNoteResult :=
  let r := v.graph.deleteNode args.noteId args.spaceId now (some (v.mayForgetNote args))
  if r.2 then ({ v with graph := r.1 }.audit args.spaceId .nodeDelete args.noteId, .ok)
  else
    match v.noteHead args.noteId [args.spaceId] with
    | none => (v, .notFound)
    | some head => (v, if head.currentRevision ≠ args.expectedRevision then .revisionMismatch head.currentRevision
        else .notThisTask head.currentRevision)

/-- `restoreNote`: whether it restored. -/
def restoreNote (noteId spaceId : String) (v : Vault) : Option (Vault × Bool) :=
  match ((v.graph.nodes.get noteId).filter fun n => n.spaceId = spaceId).bind VaultNode.deletedAt with
  | none => some (v, false)
  | some stamp =>
    (v.graph.restoreNode noteId spaceId stamp).map fun r =>
      if r.2 then ({ v with graph := r.1 }.audit spaceId .nodeRestore noteId, true) else (v, false)

end Vault

/-! ## Topics -/

inductive TopicState where
  | default
  | existing
  | revived
  | created
  | secretFallback
  | existingOnlyFallback
  deriving DecidableEq

/-- What `resolveTopic` returns. -/
structure Topic where
  id : String
  title : String
  state : TopicState
  deriving DecidableEq

/-- What a handle stands for in the run: whether it is a note's, and which node it names. -/
structure HandleTarget where
  isNote : Bool
  spaceId : String
  nodeId : String
  deriving DecidableEq

structure ResolveArgs where
  spaceId : String
  nameOrHandle : Option String
  resolveHandle : Option (String → Option HandleTarget)
  existingOnly : Bool

namespace Vault

/-- The topic of the space under a key. -/
def topicWithKey (spaceId key : String) (v : Vault) : Option VaultNote :=
  v.notes.rows.find? fun n => n.spaceId = spaceId ∧ n.topicKey = some key ∧ n.kind = .memoryTopic

/-- The topic of the space whose title folds as the text does, deleted or not. -/
def topicTitled (env : VaultEnv) (spaceId raw : String) (v : Vault) : Option VaultNote :=
  v.notes.rows.find? fun n => n.spaceId = spaceId ∧ n.kind = .memoryTopic ∧ foldOf env n.title = foldOf env raw

/-- The stamp of a node, `none` where it is live or missing. -/
def stampOf (id : String) (v : Vault) : Option Nat := (v.graph.nodes.get id).bind VaultNode.deletedAt

/-- The live topic of the space that a handle names. -/
def topicOfHandle (args : ResolveArgs) (raw : String) (v : Vault) : Option VaultNote :=
  if isHandle raw then
    (args.resolveHandle.bind fun resolve => (resolve raw).filter fun t => t.spaceId = args.spaceId ∧ t.isNote = true).bind fun t =>
      (v.notes.get t.nodeId).filter fun n => n.spaceId = args.spaceId ∧ n.kind = .memoryTopic ∧
        ∃ m ∈ v.graph.nodes, m.id = n.id ∧ m.deletedAt = none
  else none

/-- The arms of `resolveTopic` below the screens: a topic of that title, live or brought back, or a new one. `later` is the memory as other
transactions left it when the call writes: the title can be taken by then, and a deleted topic restored or deleted anew. -/
def resolveTitle (env : VaultEnv) (spaceId raw id : String) (v later : Vault) : Option (Vault × Topic) :=
  match v.topicTitled env spaceId raw with
  | some hit =>
    match v.stampOf hit.id with
    | none => some (v, { id := hit.id, title := hit.title, state := .existing })
    | some stamp =>
      (later.graph.restoreNode hit.id spaceId stamp).map fun r =>
        ({ later with graph := r.1 }, { id := hit.id, title := hit.title, state := .revived })
  | none =>
    match later.topicTitled env spaceId raw with
    | some won => some (later, { id := won.id, title := won.title, state := .existing })
    | none =>
      (later.insertNote env
        { id, spaceId, title := raw, body := "", kind := .memoryTopic, topicKey := some id, currentRevision := 1 }).bind fun w =>
      (w.insertNoteVersion spaceId
        { noteId := id, revision := 1, title := raw, bodyMarkdown := "", sourceClass := .ownerAuthored, sensitive := false,
          createdTaskId := none }).map fun r => (r.1, { id, title := raw, state := .created })

/-- Stamp a system key on a topic that has none of its own. -/
def stampKey (id key : String) (v : Vault) : Option Vault :=
  let notes := v.notes.update (fun n => n.id = id ∧ (n.topicKey = none ∨ n.topicKey = some n.id))
    (fun n => { n with topicKey := some key }) fun _ => rfl
  if KeysUnique notes then some { v with notes } else none

/-- `topicByKey` for the default key, whose label is a title that no screen catches. -/
def topicByKey (env : VaultEnv) (spaceId id : String) (v later : Vault) : Option (Vault × Topic) :=
  match v.topicWithKey spaceId defaultTopicKey with
  | some found => some (v, { id := found.id, title := found.title, state := .default })
  | none =>
    (resolveTitle env spaceId (topicLabel defaultTopicKey) id v later).bind fun r =>
      (r.1.stampKey r.2.id defaultTopicKey).map fun w => (w, { r.2 with state := .default })

/-- `resolveTopic` behind the fence. -/
def resolveTopic (env : VaultEnv) (args : ResolveArgs) (id : String) (v later : Vault) : Option (Vault × Topic) :=
  let fallback (state : TopicState) := (topicByKey env args.spaceId id v later).map fun r => (r.1, { r.2 with state })
  let raw := fitTopicTitle (args.nameOrHandle.getD "")
  if raw = "" then fallback .default
  else
    match v.topicOfHandle args raw with
    | some n => some (v, { id := n.id, title := n.title, state := .existing })
    | none =>
      if looksLikeSecret raw then fallback .secretFallback
      else
        let live := (v.topicTitled env args.spaceId raw).filter fun n => v.stampOf n.id = none
        if live = none ∧ args.existingOnly = true then fallback .existingOnlyFallback
        else resolveTitle env args.spaceId raw id v later

end Vault

end Capka

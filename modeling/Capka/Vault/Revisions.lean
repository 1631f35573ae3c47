import Capka.Vault.Links
import Capka.Vault.Operations

/-!
# Calls on notes, statement by statement

`createNote`, `reviseNote` and `revertNote` as transactions under READ COMMITTED. A call reads what is committed when it reads; from its
compare-and-set on it holds the note's row, which no other transaction changes until the call commits or is undone.
-/

namespace Capka

structure RevertNoteArgs where
  noteId : String
  spaceId : String
  toRevision : Nat
  expectedRevision : Option Nat
  deriving DecidableEq

inductive RevertResult where
  | ok (revision : Nat)
  | notFound
  | notRevertable
  | revisionMoved (revision : Nat)
  deriving DecidableEq

/-- The revision that puts the words of an old version back. -/
def RevertNoteArgs.toRevise (args : RevertNoteArgs) (revision : Nat) (target : NoteVersion) (keepTargets : List String) : ReviseNoteArgs where
  noteId := args.noteId
  spaceId := args.spaceId
  expectedRevision := revision
  title := target.title
  body := { text := fun _ => target.bodyMarkdown, writes := [.unlinkReferences keepTargets] }
  sourceClass := target.sourceClass
  sensitive := target.sensitive
  createdTaskId := none

/-- What `revertNote` answers when its compare-and-set is done. A zero is not a revision. -/
def ReviseResult.asRevert : ReviseResult → RevertResult
  | .ok revision => .ok revision
  | .moved currentRevision _ => if currentRevision < 1 then .notFound else .revisionMoved currentRevision

namespace Vault

/-- The head `revertNote` reads, or what it answers at once. -/
def revertHead (args : RevertNoteArgs) (v : Vault) : Except RevertResult Nat :=
  match v.noteHead args.noteId [args.spaceId] with
  | none => .error .notFound
  | some head =>
    if args.expectedRevision ≠ none ∧ args.expectedRevision ≠ some head.currentRevision then
      .error (.revisionMoved head.currentRevision)
    else if args.toRevision < 1 ∨ head.currentRevision ≤ args.toRevision then .error .notRevertable
    else .ok head.currentRevision

/-- The targets of the links that the restored words make. -/
def revertKeeps (args : RevertNoteArgs) (target : NoteVersion) (v : Vault) : List String :=
  (edgeTargets target.bodyMarkdown args.spaceId v.graph).map fun t => t.2.id

/-- The condition of the compare-and-set. -/
def RevisionIs (args : ReviseNoteArgs) (v : Vault) : Prop :=
  ∃ n ∈ v.notes, n.id = args.noteId ∧ n.spaceId = args.spaceId ∧ n.currentRevision = args.expectedRevision

instance (args : ReviseNoteArgs) (v : Vault) : Decidable (v.RevisionIs args) := by
  unfold RevisionIs
  infer_instance

end Vault

inductive NoteCall where
  | create (args : CreateNoteArgs)
  | revise (args : ReviseNoteArgs)
  | revert (args : RevertNoteArgs)

def NoteCall.noteId : NoteCall → Option String
  | .create _ => none
  | .revise args => some args.noteId
  | .revert args => some args.noteId

/-- The call is on that note and was made with that `expectedRevision`. -/
def NoteCall.Expects (noteId : String) (revision : Nat) : NoteCall → Prop
  | .create _ => False
  | .revise args => args.noteId = noteId ∧ args.expectedRevision = revision
  | .revert args => args.noteId = noteId ∧ args.expectedRevision = some revision

inductive NoteAnswer where
  | created (noteId : String)
  | revised (result : ReviseResult)
  | reverted (result : RevertResult)
  | threw
  deriving DecidableEq

/-- The call did what it was asked. -/
def NoteAnswer.ok : NoteAnswer → Bool
  | .created _ => true
  | .revised (.ok _) => true
  | .reverted (.ok _) => true
  | _ => false

/-- What the call makes of the result of `reviseNote`. -/
def NoteCall.answer (result : ReviseResult) : NoteCall → NoteAnswer
  | .revert _ => .reverted result.asRevert
  | _ => .revised result

/-- How far a call is: it has made no statement; a revert read the head, and then the version to restore; its compare-and-set won, and the
links to keep are to be read; all that is left is to write. -/
inductive NotePhase where
  | begun
  | aimed (revision : Nat)
  | ready (revision : Nat) (target : NoteVersion)
  | won (revision : Nat) (target : NoteVersion)
  | writing (args : ReviseNoteArgs)

/-- The call holds the row of its note. -/
def NotePhase.holds : NotePhase → Bool
  | .won _ _ => true
  | .writing _ => true
  | _ => false

/-- An open call. -/
structure NoteTx where
  id : Nat
  call : NoteCall
  phase : NotePhase

/-- The note whose row the call holds. -/
def NoteTx.locks (t : NoteTx) : Option String := if t.phase.holds then t.call.noteId else none

/-- What a statement comes to: the call goes on, answers without a change, or commits. -/
inductive NoteOutcome where
  | goesOn (phase : NotePhase)
  | answers (answer : NoteAnswer)
  | commits (vault : Vault) (answer : NoteAnswer)

namespace MemoryStore

variable (s : MemoryStore)

/-- The compare-and-set of `reviseNote`, behind its fence: it takes the row, or finds another revision. -/
def swapRevision (args : ReviseNoteArgs) (call : NoteCall) (next : NotePhase) : NoteOutcome :=
  if s.spaces.acceptsWrites args.spaceId then
    if s.vault.RevisionIs args then .goesOn next
    else
      match (s.vault.notes.get args.noteId).filter fun n => n.spaceId = args.spaceId with
      | none => .answers (call.answer (.moved 0 ""))
      | some cur => .answers (call.answer (.moved cur.currentRevision cur.title))
  else .answers .threw

/-- What `reviseNote` writes once it holds the row. -/
def writeRevision (env : VaultEnv) (args : ReviseNoteArgs) (call : NoteCall) (fresh : Nat → String) (now : Nat) : NoteOutcome :=
  match s.vault.reviseNote env args fresh now with
  | none => .answers .threw
  | some r => .commits r.1 (call.answer r.2)

/-- The next statement of a call. A call that only inserts has one; no call is in a phase that is not listed for it. -/
def nextStatement (env : VaultEnv) (call : NoteCall) (fresh : Nat → String) (now : Nat) (phase : NotePhase) : NoteOutcome :=
  match call, phase with
  | .create args, .begun =>
    if s.spaces.acceptsWrites args.spaceId then
      match s.vault.createNote env args fresh now with
      | none => .answers .threw
      | some r => .commits r.1 (.created r.2.1)
    else .answers .threw
  | .revise args, .begun => s.swapRevision args call (.writing args)
  | .revise _, .writing args => s.writeRevision env args call fresh now
  | .revert args, .begun =>
    match s.vault.revertHead args with
    | .error result => .answers (.reverted result)
    | .ok revision => .goesOn (.aimed revision)
  | .revert args, .aimed revision =>
    match s.vault.noteVersions.get (args.noteId, args.toRevision) with
    | none => .answers (.reverted .notFound)
    | some target => .goesOn (.ready revision target)
  | .revert args, .ready revision target => s.swapRevision (args.toRevise revision target []) call (.won revision target)
  | .revert args, .won revision target => .goesOn (.writing (args.toRevise revision target (s.vault.revertKeeps args target)))
  | .revert _, .writing args => s.writeRevision env args call fresh now
  | _, _ => .answers .threw

end MemoryStore

/-- The database with its open calls on notes. What each call answered is on record for the statements only, the last first. -/
structure NoteDb where
  store : MemoryStore
  calls : Table NoteTx NoteTx.id
  done : List (NoteCall × NoteAnswer)

/-- What happens: a call is made, makes its next statement, or is cut off and undone; anything else writes to the memory. -/
inductive NoteAct where
  | begin (id : Nat) (call : NoteCall)
  | run (id : Nat) (fresh : Nat → String) (now : Nat)
  | abort (id : Nat)
  | other (act : MemoryAct)

namespace NoteDb

/-- No open call but that one holds the note's row. -/
def Free (d : NoteDb) (id : Nat) (noteId : Option String) : Prop := ∀ t ∈ d.calls, t.id ≠ id → t.locks ≠ none → t.locks ≠ noteId

/-- The notes whose rows open calls hold, that one apart, are as they were. -/
def Spares (d : NoteDb) (id : Option Nat) (v : Vault) : Prop :=
  ∀ t ∈ d.calls, some t.id ≠ id → ∀ noteId ∈ t.locks, v.notes.get noteId = d.store.vault.notes.get noteId

instance (d : NoteDb) (id : Nat) (noteId : Option String) : Decidable (d.Free id noteId) := by
  unfold Free
  infer_instance

instance (d : NoteDb) (id : Option Nat) (v : Vault) : Decidable (d.Spares id v) := by
  unfold Spares
  infer_instance

/-- The effect of a statement. One that needs a row another call holds has to wait. -/
def apply (d : NoteDb) (t : NoteTx) : NoteOutcome → Option NoteDb
  | .goesOn phase =>
    let t' : NoteTx := { t with phase }
    if d.Free t.id t'.locks then some { d with calls := d.calls.put t' } else none
  | .answers answer => some { d with calls := d.calls.erase t.id, done := (t.call, answer) :: d.done }
  | .commits vault answer =>
    if d.Spares (some t.id) vault then
      some { store := { d.store with vault }, calls := d.calls.erase t.id, done := (t.call, answer) :: d.done }
    else none

def step (env : VaultEnv) (d : NoteDb) : NoteAct → Option NoteDb
  | .begin id call => (d.calls.insert { id, call, phase := .begun }).map fun calls => { d with calls }
  | .run id fresh now => (d.calls.get id).bind fun t => d.apply t (d.store.nextStatement env t.call fresh now t.phase)
  | .abort id => some { d with calls := d.calls.erase id }
  | .other act => ((d.store.step env act).filter fun s : MemoryStore => d.Spares none s.vault).map fun store => { d with store }

/-- No space, no memory, no call. -/
def empty : NoteDb where
  store := MemoryStore.empty
  calls := Table.empty
  done := []

end NoteDb

end Capka

import Mathlib
import Capka.Lib.Steps
import Capka.Queue.Tasks

/-!
# Firing an automation

A firing works from a snapshot of the row its caller read. It computes the local day, looks at the ceiling and at the previous run,
takes a budget hold, asks the condition gate, and then does the rest in one transaction that locks the row. The statements before the
transaction run on the pool, so anything may happen between two of them: another firing, an edit, a turn that ends, midnight.
-/

namespace Capka.AutomationRuns

/-- `AutomationSkip["reason"]`. -/
inductive SkipReason
  | dailyLimit
  | busy
  | condition
  deriving Repr, DecidableEq

/-- The columns of the row a firing reads or writes; days are counted from a fixed one. -/
structure Row where
  timezone : Nat
  webhook : Bool
  maxRunsPerDay : Option Nat
  runWhen : Bool
  single : Bool
  lastTaskId : Option Nat
  threadChatId : Option Nat
  lastSkip : Option SkipReason
  runsDay : Option Nat
  runsToday : Nat
  skippedToday : Nat
  quietToday : Nat
  deriving Repr, DecidableEq

/-- `DEFAULT_WEBHOOK_RUNS_PER_DAY`. -/
def defaultWebhookRunsPerDay : Nat := 100

namespace Row

/-- The ceiling a firing runs under: the owner's, else the floor of a webhook. -/
def cap (a : Row) : Option Nat :=
  a.maxRunsPerDay.or (if a.webhook then some defaultWebhookRunsPerDay else none)

/-- `CASE WHEN runs_day = today THEN same ELSE fresh END`, over the row before the update. -/
def onDay (r : Row) (today same fresh : Nat) : Nat :=
  if r.runsDay = some today then same else fresh

/-- The update of `stampSkip`; the day is left out for an overlap. -/
def stampSkip (reason : SkipReason) (today : Option Nat) (r : Row) : Row :=
  match today with
  | none => { r with lastSkip := some reason }
  | some day =>
    { r with
      lastSkip := some reason
      runsDay := some day
      runsToday := r.onDay day r.runsToday 0
      skippedToday := r.onDay day (r.skippedToday + 1) 1 }

/-- The update that closes the transaction of a firing. -/
def stampFired (turnId : Nat) (opened : Option Nat) (today : Nat) (r : Row) : Row :=
  { r with
    lastTaskId := some turnId
    threadChatId := opened.or r.threadChatId
    runsDay := some today
    runsToday := r.onDay today (r.runsToday + 1) 1
    skippedToday := r.onDay today r.skippedToday 0 }

/-- The update of a quiet result. -/
def stampQuiet (today : Nat) (r : Row) : Row :=
  { r with
    runsDay := some today
    runsToday := r.onDay today r.runsToday 0
    skippedToday := r.onDay today r.skippedToday 0
    quietToday := r.onDay today (r.quietToday + 1) 1 }

/-- The update of `PATCH`; leaving the one-thread mode drops the thread. -/
def patched (trigger : Option (Nat × Bool)) (maxRunsPerDay : Option (Option Nat)) (runWhen single : Option Bool) (r : Row) : Row :=
  { r with
    timezone := (trigger.map Prod.fst).getD r.timezone
    webhook := (trigger.map Prod.snd).getD r.webhook
    maxRunsPerDay := maxRunsPerDay.getD r.maxRunsPerDay
    runWhen := runWhen.getD r.runWhen
    single := single.getD r.single
    threadChatId := if single = some false then none else r.threadChatId }

end Row

/-- What a row of the day's history is about; a run remembers whether a person asked for it and the ceiling it ran under. -/
inductive Tally
  | run (manual : Bool) (cap : Option Nat)
  | skip
  | quiet
  deriving Repr, DecidableEq

/-- For the record: something counted, and the day it was stamped with. -/
structure Stamp where
  tally : Tally
  day : Nat
  deriving Repr, DecidableEq

/-- A row of `tasks`; for the record, whether a firing enqueued it and whether in one-thread mode. -/
structure Task where
  id : Nat
  chatId : Nat
  status : TaskStatus
  firing : Option Bool
  deriving Repr, DecidableEq

/-- A row of `chats`. -/
structure Chat where
  id : Nat
  activeLeafId : Option Nat
  deriving Repr, DecidableEq

/-- A reply with status `awaiting_approval` or `awaiting_answer`, and whether one of its calls is still undecided. -/
structure Waiting where
  messageId : Nat
  chatId : Nat
  undecided : Bool
  deriving Repr, DecidableEq

/-- What a firing comes to. -/
inductive Answer
  | fired (chatId : Nat)
  | busy
  | dailyLimit
  | condition
  | budget
  | overBudget
  | gone
  | threw
  deriving Repr, DecidableEq

/-- Where a firing stands: what it does next. -/
inductive Phase
  | called
  | ceiling (today : Nat)
  | ceilingSkip (today : Nat)
  | overlap (today : Nat)
  | overlapSkip
  | reserve (today : Nat)
  | gate (today : Nat)
  | gateRelease (today : Nat)
  | gateSkip (today : Nat)
  | transaction (today : Nat)
  | release (answer : Answer)
  | done (answer : Answer)
  deriving Repr, DecidableEq

/-- A call of `fireAutomation`: the snapshot it was handed, whether a person pressed the button, and the id it drew for its turn. -/
structure Call where
  snapshot : Row
  manual : Bool
  taskId : Nat
  phase : Phase
  deriving Repr, DecidableEq

/-- What is decided outside: whether the turn is on the shared key, whether the ledger admits its hold, whether the condition holds,
whether the transaction fails. -/
structure Outside where
  shared : Bool
  allowed : Bool
  holds : Bool
  fails : Bool
  deriving Repr, DecidableEq

/-- The database around one automation, the firings in flight, the days quiet results are about to be stamped with, the clock, and
the stamps on record. -/
structure State where
  now : Nat
  row : Option Row
  tasks : List Task
  chats : List Chat
  waiting : List Waiting
  holds : List Nat
  calls : List Call
  quiets : List Nat
  nextId : Nat
  stamps : List Stamp
  deriving Repr, DecidableEq

/-- Whether the row is at the ceiling of the firing on its day: `cap && !opts.manual && runsDay === today && runsToday >= cap`. -/
def Call.full (c : Call) (r : Row) (today : Nat) : Bool :=
  match c.snapshot.cap with
  | none => false
  | some cap => decide (0 < cap) && !c.manual && decide (r.runsDay = some today) && decide (cap ≤ r.runsToday)

namespace State

/-- What a firing in flight becomes. -/
def setCall (s : State) (i : Nat) (c : Call) : State :=
  { s with calls := s.calls.set i c }

@[simp] theorem setCall_row (s : State) (i : Nat) (c : Call) : (s.setCall i c).row = s.row := rfl

@[simp] theorem setCall_stamps (s : State) (i : Nat) (c : Call) : (s.setCall i c).stamps = s.stamps := rfl

/-- Run a stamping update on the row, if it is there, and put the stamp on record. -/
def stamp (s : State) (t : Option Stamp) (f : Row → Row) : State :=
  match s.row with
  | none => s
  | some r => { s with row := some (f r), stamps := s.stamps ++ t.toList }

def stampSkip (s : State) (reason : SkipReason) (today : Option Nat) : State :=
  s.stamp (today.map (⟨.skip, ·⟩)) (Row.stampSkip reason today)

def releaseHold (s : State) (taskId : Nat) : State :=
  { s with holds := s.holds.filter (· ≠ taskId) }

/-- `previousRunBlocks`: whether the previous run is still in the way. -/
def previousRunBlocks (s : State) (lastTaskId : Option Nat) (single : Bool) : Bool :=
  match lastTaskId.bind (fun id => s.tasks.find? (fun t => t.id = id)) with
  | none => false
  | some prev =>
    match prev.status with
    | .queued => !single
    | .running => !single
    | .completed => s.waiting.any (fun w => w.chatId = prev.chatId)
    | .failed => false
    | .cancelled => false

/-- `enqueueTask`: the chat's queued turn if there is one, else a new row. -/
def enqueueTask (s : State) (id chatId : Nat) (firing : Option Bool) : State × Nat × Bool :=
  match s.tasks.find? (fun t => t.chatId = chatId && t.status == .queued) with
  | some t => (s, t.id, false)
  | none => ({ s with tasks := s.tasks ++ [⟨id, chatId, .queued, firing⟩] }, id, true)

/-- `settleMovedPast`: a reply still waiting on an undecided call is settled once a turn goes past it. -/
def settleMovedPast (s : State) (messageId : Nat) : State :=
  { s with waiting := s.waiting.filter (fun w => !(decide (w.messageId = messageId) && w.undecided)) }

/-- A user message appended to a chat, which is created when it is new; the leaf moves on and a waiting leaf is settled. -/
def append (s : State) (thread : Option Chat) (chatId messageId : Nat) : State :=
  let opened := if thread.isSome then s.chats else s.chats ++ [⟨chatId, none⟩]
  let moved := { s with chats := opened.map (fun c => if c.id = chatId then { c with activeLeafId := some messageId } else c) }
  match thread.bind Chat.activeLeafId with
  | none => moved
  | some leaf => moved.settleMovedPast leaf

/-- The thread a firing in one-thread mode finds: looked up, not assumed. -/
def thread (s : State) (single : Bool) (threadChatId : Option Nat) : Option Chat :=
  if single then threadChatId.bind (fun id => s.chats.find? (fun c => c.id = id)) else none

@[simp] theorem append_row (s : State) (thread : Option Chat) (chatId messageId : Nat) :
    (s.append thread chatId messageId).row = s.row := by
  simp only [append]
  split <;> rfl

@[simp] theorem append_stamps (s : State) (thread : Option Chat) (chatId messageId : Nat) :
    (s.append thread chatId messageId).stamps = s.stamps := by
  simp only [append]
  split <;> rfl

@[simp] theorem enqueueTask_row (s : State) (id chatId : Nat) (firing : Option Bool) :
    (s.enqueueTask id chatId firing).1.row = s.row := by
  unfold enqueueTask
  split <;> rfl

@[simp] theorem enqueueTask_stamps (s : State) (id chatId : Nat) (firing : Option Bool) :
    (s.enqueueTask id chatId firing).1.stamps = s.stamps := by
  unfold enqueueTask
  split <;> rfl

/-- The transaction of a firing, which locks the row; the second component is whether a turn of its own was created. -/
def fire (s : State) (c : Call) (today : Nat) (fails : Bool) : State × Answer × Bool :=
  match s.row with
  | none => (s, .gone, false)
  | some locked =>
    if c.full locked today then (s.stampSkip .dailyLimit (some today), .dailyLimit, false)
    else if s.previousRunBlocks locked.lastTaskId c.snapshot.single then (s.stampSkip .busy none, .busy, false)
    else if fails then (s, .threw, false)
    else
      let thread := s.thread c.snapshot.single locked.threadChatId
      let chatId := (thread.map Chat.id).getD s.nextId
      let written := { s.append thread chatId (s.nextId + 1) with nextId := s.nextId + 2 }
      let (queued, turnId, created) := written.enqueueTask c.taskId chatId (some c.snapshot.single)
      let opened := if c.snapshot.single && thread.isNone then some chatId else none
      (queued.stamp (some ⟨.run c.manual c.snapshot.cap, today⟩) (Row.stampFired turnId opened today), .fired chatId, created)

/-- The next statement of a firing. -/
def advance (localDayOf : Nat → Nat → Nat) (s : State) (i : Nat) (c : Call) (o : Outside) : Option State :=
  match c.phase with
  | .called => some (s.setCall i { c with phase := .ceiling (localDayOf c.snapshot.timezone s.now) })
  | .ceiling today =>
    let full := s.row.any (fun live => c.full live today)
    some (s.setCall i { c with phase := if full then .ceilingSkip today else .overlap today })
  | .ceilingSkip today => some ((s.stampSkip .dailyLimit (some today)).setCall i { c with phase := .done .dailyLimit })
  | .overlap today =>
    let blocked := s.previousRunBlocks c.snapshot.lastTaskId c.snapshot.single
    some (s.setCall i { c with phase := if blocked then .overlapSkip else .reserve today })
  | .overlapSkip => some ((s.stampSkip .busy none).setCall i { c with phase := .done .busy })
  | .reserve today =>
    -- a turn on the owner's own key is never gated and never held
    if !o.shared then some (s.setCall i { c with phase := .gate today })
    else if o.allowed then some ({ s with holds := s.holds ++ [c.taskId] }.setCall i { c with phase := .gate today })
    else some (s.setCall i { c with phase := .done (if c.manual then .overBudget else .budget) })
  | .gate today =>
    let met := !c.snapshot.runWhen || c.manual || o.holds
    some (s.setCall i { c with phase := if met then .transaction today else .gateRelease today })
  | .gateRelease today => some ((s.releaseHold c.taskId).setCall i { c with phase := .gateSkip today })
  | .gateSkip today => some ((s.stampSkip .condition (some today)).setCall i { c with phase := .done .condition })
  | .transaction today =>
    let (written, answer, created) := s.fire c today o.fails
    some (written.setCall i { c with phase := if created then .done answer else .release answer })
  | .release answer => some ((s.releaseHold c.taskId).setCall i { c with phase := .done answer })
  | .done _ => none

end State

/-- What happens around an automation: a firing is called or takes its next statement, a quiet result reads its day or stamps it, the
owner edits or deletes the row, a turn moves on, a reply is suspended or decided, a person writes in a chat or deletes it, a hold is
settled or swept, time passes. -/
inductive Act
  | call (manual : Bool)
  | advance (i : Nat) (o : Outside)
  | quiet
  | settleQuiet (i : Nat)
  | patch (trigger : Option (Nat × Bool)) (maxRunsPerDay : Option (Option Nat)) (runWhen single : Option Bool)
  | delete
  | move (id : Nat) (status : TaskStatus)
  | suspend (messageId chatId : Nat)
  | decide (messageId : Nat)
  | send (chatId : Nat)
  | deleteChat (id : Nat)
  | dropHold (id : Nat)
  | wait (ms : Nat)
  deriving Repr, DecidableEq

/-- Whether a turn may go from one status to the other: it is claimed unless its chat runs another one, it ends, or it is put back
unless its chat has a queued one. -/
def State.mayMove (s : State) (t : Task) (status : TaskStatus) : Bool :=
  match t.status, status with
  | .queued, .running => s.tasks.all (fun u => !(u.chatId == t.chatId && u.status == .running))
  | .queued, .cancelled => true
  | .running, .completed => true
  | .running, .failed => true
  | .running, .cancelled => true
  | .running, .queued => s.tasks.all (fun u => !(u.chatId == t.chatId && u.status == .queued))
  | _, _ => false

/-- The transition function, over the local day of a time zone at a moment. -/
def step (localDayOf : Nat → Nat → Nat) (s : State) : Act → Option State
  | .call manual =>
    s.row.map (fun r => { s with calls := s.calls ++ [⟨r, manual, s.nextId, .called⟩], nextId := s.nextId + 1 })
  | .advance i o => s.calls[i]?.bind (fun c => s.advance localDayOf i c o)
  | .quiet => s.row.map (fun r => { s with quiets := s.quiets ++ [localDayOf r.timezone s.now] })
  | .settleQuiet i =>
    s.quiets[i]?.map (fun today => { s.stamp (some ⟨.quiet, today⟩) (Row.stampQuiet today) with quiets := s.quiets.eraseIdx i })
  | .patch trigger maxRunsPerDay runWhen single =>
    s.row.map (fun r => { s with row := some (r.patched trigger maxRunsPerDay runWhen single) })
  | .delete => some { s with row := none }
  | .move id status =>
    (s.tasks.find? (fun t => t.id = id)).bind (fun t =>
      if s.mayMove t status then
        some { s with tasks := s.tasks.map (fun u => if u.id = id then { u with status := status } else u) }
      else none)
  | .suspend messageId chatId =>
    if s.chats.any (fun c => c.id = chatId) then some { s with waiting := s.waiting ++ [⟨messageId, chatId, true⟩] } else none
  | .decide messageId =>
    (s.waiting.find? (fun w => w.messageId = messageId)).map (fun w =>
      let rest := { s with waiting := s.waiting.filter (fun v => v.messageId ≠ messageId), nextId := s.nextId + 1 }
      (rest.enqueueTask s.nextId w.chatId none).1)
  | .send chatId =>
    (s.chats.find? (fun c => c.id = chatId)).map (fun c =>
      (({ s.append (some c) chatId s.nextId with nextId := s.nextId + 2 }).enqueueTask (s.nextId + 1) chatId none).1)
  | .deleteChat id =>
    some { s with
      chats := s.chats.filter (fun c => c.id ≠ id)
      tasks := s.tasks.filter (fun t => t.chatId ≠ id)
      waiting := s.waiting.filter (fun w => w.chatId ≠ id) }
  | .dropHold id => some { s with holds := s.holds.filter (· ≠ id) }
  | .wait ms => some { s with now := s.now + ms }

/-- An automation nobody has fired yet: its columns are as the insert leaves them. -/
def initial (now nextId : Nat) (row : Row) : State where
  now := now
  row := some { row with
    lastTaskId := none
    threadChatId := none
    lastSkip := none
    runsDay := none
    runsToday := 0
    skippedToday := 0
    quietToday := 0 }
  tasks := []
  chats := []
  waiting := []
  holds := []
  calls := []
  quiets := []
  nextId := nextId
  stamps := []

end Capka.AutomationRuns

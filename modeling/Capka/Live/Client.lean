import Mathlib
import Capka.Live.Copy

/-!
# The client of a live chat

The hook keeps four stores of one stream: the rows it draws, a cursor per reply, the pacer's queue, and the events it holds past a
gap. A history load replaces the rows and reseeds the cursor of the running reply; a drain replays what is held. The transcript the
handlers look replies up in is the one last rendered, which may be older than the rows they change.
-/

namespace Capka

open Live

variable {α : Type*}

/-- The cursor of a reply: the highest number counted as applied. `turn` records the task whose numbers those are; the client keeps
the number alone. -/
structure Cursor where
  seq : Nat
  turn : Nat
  deriving Repr, DecidableEq

/-- A message of the client's copy. -/
structure ChatRow (α : Type*) where
  id : Nat
  parts : List (Live.Part α)

/-- A message as `GET /api/chat` returns it. -/
structure HistoryRow (α : Type*) where
  id : Nat
  parts : List (Live.Part α)
  running : Bool
  taskId : Nat
  streamSeq : Option Nat

/-- A gated event, as it is applied, held and replayed. -/
structure GapEvent (α : Type*) where
  messageId : Nat
  taskId : Nat
  seq : Nat
  body : GatedBody α

/-- A delta as the pacer hands it on. -/
def GapEvent.ofPaced (d : Paced α) : GapEvent α where
  messageId := d.messageId
  taskId := d.taskId
  seq := d.seq
  body := .delta d.type d.delta

/-- The state of `createStreamRecovery`. -/
structure Recovery (α : Type*) where
  buffer : List (GapEvent α)
  reloading : Bool
  lastReloadAt : Option Nat
  misses : Nat
  retryTimer : Option Nat
  owed : List Nat

/-- The client of one chat; `rendered` names the messages of the last render (`msgRef`). -/
structure LiveChat (α : Type*) where
  messages : List (ChatRow α)
  rendered : List Nat
  cursors : Nat → Option Cursor
  pacer : Pacer α
  recovery : Recovery α
  now : Nat

/-- What the recovery is created with, and what the pacer asks of a character. -/
structure LiveConfig (α : Type*) where
  letters : Letters α
  minIntervalMs : Nat

/-- What can happen to the client. `deliver` hands it the event a task published under a number, once, again or never, in any order;
`notice` stands for the events that only flush (and may start a load); a load may land at any time. -/
inductive LiveAct (α : Type*)
  | start (taskId : Nat)
  | deliver (taskId seq : Nat)
  | elicit (messageId toolCallId form : Nat)
  | truncated (messageId : Nat)
  | finish (messageId : Option Nat)
  | notice
  | tick (chars : Nat)
  | render
  | elapse (ms : Nat)
  | retry
  | loadHistory (history : List (HistoryRow α))
  | refreshTurn (tail : List (HistoryRow α))
  | drain

namespace LiveChat

/-- The page opened on the transcript it was rendered with. -/
def opened (messages : List (ChatRow α)) : LiveChat α where
  messages := messages
  rendered := messages.map (·.id)
  cursors := fun _ => none
  pacer := { queue := [], held := false, runSinceWs := 0, timer := false }
  recovery := { buffer := [], reloading := false, lastReloadAt := none, misses := 0, retryTimer := none, owed := [] }
  now := 0

/-! ## The rows -/

/-- The parts drawn for a message: those of the first row under its id. -/
def partsOf (m : Nat) : List (ChatRow α) → Option (List (Live.Part α))
  | [] => none
  | r :: rows => if r.id = m then some r.parts else partsOf m rows

/-- `findIndex`, and the row there with its parts changed. -/
def updateRow (m : Nat) (f : List (Live.Part α) → List (Live.Part α)) : List (ChatRow α) → List (ChatRow α)
  | [] => []
  | r :: rows => if r.id = m then { r with parts := f r.parts } :: rows else r :: updateRow m f rows

@[simp] theorem partsOf_updateRow (m : Nat) (f : List (Live.Part α) → List (Live.Part α)) (rows : List (ChatRow α)) (m' : Nat) :
    partsOf m' (updateRow m f rows) = if m = m' then (partsOf m' rows).map f else partsOf m' rows := by
  induction rows with
  | nil => simp [updateRow, partsOf]
  | cons r rows ih =>
    by_cases hr : r.id = m
    · by_cases hm : m = m'
      · simp [updateRow, partsOf, hr, hm]
      · simp [updateRow, partsOf, hr, hm]
    · by_cases hm : r.id = m'
      · have hne : ¬m = m' := fun h => hr (hm.trans h.symm)
        rw [updateRow, if_neg hr, partsOf, if_pos hm, if_neg hne, partsOf, if_pos hm]
      · simp only [updateRow, if_neg hr, partsOf, if_neg hm]
        exact ih

theorem partsOf_append (m : Nat) (rows rows' : List (ChatRow α)) :
    partsOf m (rows ++ rows') = (partsOf m rows).or (partsOf m rows') := by
  induction rows with
  | nil => rfl
  | cons r rows ih =>
    by_cases hr : r.id = m
    · simp [partsOf, hr]
    · simpa [partsOf, hr] using ih

theorem partsOf_isSome (m : Nat) (rows : List (ChatRow α)) : (partsOf m rows).isSome = rows.any (fun r => r.id = m) := by
  induction rows with
  | nil => rfl
  | cons r rows ih =>
    by_cases hr : r.id = m
    · simp [partsOf, hr]
    · simpa [partsOf, hr] using ih

theorem mem_of_partsOf {m : Nat} {rows : List (ChatRow α)} {parts : List (Live.Part α)} (h : partsOf m rows = some parts) :
    ∃ r ∈ rows, r.id = m ∧ r.parts = parts := by
  induction rows with
  | nil => cases h
  | cons r rows ih =>
    unfold partsOf at h
    split at h
    · rename_i hr
      exact ⟨r, List.mem_cons_self, hr, Option.some.inj h⟩
    · obtain ⟨r', hr', hid⟩ := ih h
      exact ⟨r', List.mem_cons_of_mem r hr', hid⟩

/-! ## The recovery -/

/-- `classifyStreamEvent`, with no cursor read as -1. -/
def classifyStreamEvent (cursor : Option Cursor) (seq : Nat) : Stream.ReconcileAction :=
  match cursor with
  | some c => Stream.classifyStreamEvent c.seq seq
  | none => if seq = 0 then .apply else .reconcile

/-- `appliedSeq.set`: the cursor reaches a number, still of the turn it counts. -/
def count (e : GapEvent α) (cursors : Nat → Option Cursor) : Nat → Option Cursor :=
  Function.update cursors e.messageId (some { seq := e.seq, turn := ((cursors e.messageId).map (·.turn)).getD e.taskId })

def RECONCILE_MAX_MS : Nat := 2000

def MAX_GAP_BUFFER : Nat := 300

/-- `reconcile`: start a reload, or arm the retry when the last one is too recent. -/
def reconcile (cfg : LiveConfig α) (s : LiveChat α) : LiveChat α :=
  if s.recovery.reloading || s.recovery.retryTimer.isSome then s
  else
    let spacing := min RECONCILE_MAX_MS (cfg.minIntervalMs * 2 ^ (s.recovery.misses - 1))
    match s.recovery.lastReloadAt with
    | some last =>
      if s.now < last + spacing then { s with recovery := { s.recovery with retryTimer := some (last + spacing) } }
      else { s with recovery := { s.recovery with reloading := true, owed := [] } }
    | none => { s with recovery := { s.recovery with reloading := true, owed := [] } }

def hold (cfg : LiveConfig α) (e : GapEvent α) (s : LiveChat α) : LiveChat α :=
  let buffer := if MAX_GAP_BUFFER ≤ s.recovery.buffer.length then [] else s.recovery.buffer
  reconcile cfg { s with recovery := { s.recovery with buffer := buffer ++ [e] } }

/-- `applyEvent` of a gated event, when its reply is in the transcript last rendered. -/
def applyGated (e : GapEvent α) (s : LiveChat α) : LiveChat α :=
  { s with messages := updateRow e.messageId e.body.apply s.messages }

/-- `if (!applyEvent(data)) recovery.hold(data)`. -/
def applyOrHold (cfg : LiveConfig α) (e : GapEvent α) (s : LiveChat α) : LiveChat α :=
  if e.messageId ∈ s.rendered then applyGated e s else hold cfg e s

/-- `planGapDrain`: what to replay, and what stays held. -/
def planGapDrain (cursors : Nat → Option Cursor) : List (GapEvent α) → List (GapEvent α) × List (GapEvent α)
  | [] => ([], [])
  | e :: rest =>
    match classifyStreamEvent (cursors e.messageId) e.seq with
    | .ignore => planGapDrain cursors rest
    | .reconcile => ([], e :: rest)
    | .apply => (e :: (planGapDrain (count e cursors) rest).1, (planGapDrain (count e cursors) rest).2)

/-- The loop of `drain`: an event whose reply is not rendered goes back to the buffer with all that follows it. -/
def replay : List (GapEvent α) → LiveChat α → LiveChat α
  | [], s => s
  | e :: rest, s =>
    if e.messageId ∈ s.rendered then replay rest { applyGated e s with cursors := count e s.cursors }
    else { s with recovery := { s.recovery with buffer := e :: rest ++ s.recovery.buffer } }

/-- `drain`, when a reload is over. -/
def drain (cfg : LiveConfig α) (s : LiveChat α) : LiveChat α :=
  let plan := planGapDrain s.cursors s.recovery.buffer
  let s := replay plan.1
    { s with recovery := { s.recovery with buffer := plan.2, reloading := false, lastReloadAt := some s.now } }
  if s.recovery.buffer.isEmpty then
    let s := { s with recovery := { s.recovery with misses := 0 } }
    if s.recovery.owed.isEmpty then s else reconcile cfg s
  else reconcile cfg { s with recovery := { s.recovery with misses := s.recovery.misses + 1 } }

def drop (m : Nat) (s : LiveChat α) : LiveChat α :=
  let buffer := s.recovery.buffer.filter (fun e => e.messageId ≠ m)
  let owed := s.recovery.owed.filter (· ≠ m)
  if buffer.isEmpty && owed.isEmpty then
    { s with recovery := { s.recovery with buffer := buffer, owed := owed, misses := 0, retryTimer := none } }
  else { s with recovery := { s.recovery with buffer := buffer, owed := owed } }

/-! ## The pacer -/

/-- The pacer hands on pieces, one after the other. -/
def showAll (cfg : LiveConfig α) : List (Paced α) → LiveChat α → LiveChat α
  | [], s => s
  | d :: rest, s => showAll cfg rest (applyOrHold cfg (.ofPaced d) s)

def flush (cfg : LiveConfig α) (s : LiveChat α) : LiveChat α :=
  showAll cfg s.pacer.queue
    { s with
      pacer :=
        { queue := []
          held := false
          runSinceWs := s.pacer.queue.foldl (fun n d => note cfg.letters d.delta n) s.pacer.runSinceWs
          timer := false } }

/-- `tick`, with the number of characters its rate affords. -/
def tick (cfg : LiveConfig α) (chars : Nat) (s : LiveChat α) : LiveChat α :=
  let r := release cfg.letters s.pacer.queue chars s.pacer.runSinceWs
  showAll cfg r.shown
    { s with
      pacer := { queue := r.queue, held := r.held, runSinceWs := r.runSinceWs, timer := !r.queue.isEmpty && !r.held } }

/-! ## The handlers -/

/-- A gated event met by `onMessage`. -/
def onGated (cfg : LiveConfig α) (e : GapEvent α) (s : LiveChat α) : LiveChat α :=
  match classifyStreamEvent (s.cursors e.messageId) e.seq with
  | .ignore => s
  | .reconcile => hold cfg e s
  | .apply =>
    match e.body with
    | .delta type delta =>
      { s with
        cursors := count e s.cursors
        pacer := s.pacer.enqueue
          { messageId := e.messageId, taskId := e.taskId, seq := e.seq, type := type, delta := delta } }
    | _ => applyOrHold cfg e (flush cfg { s with cursors := count e s.cursors })

/-- `case "task:start"`: the cursor is never lowered, and an empty row is appended unless the reply is there. -/
def onStart (m taskId seq : Nat) (s : LiveChat α) : LiveChat α :=
  let cursor :=
    match s.cursors m with
    | some c => if seq ≤ c.seq then c else { seq := seq, turn := taskId }
    | none => { seq := seq, turn := taskId }
  { s with
    cursors := Function.update s.cursors m (some cursor)
    messages := if s.messages.any (fun r => r.id = m) then s.messages else s.messages ++ [{ id := m, parts := [] }] }

/-- `case "task:reset"`. -/
def onReset (m taskId seq keep : Nat) (s : LiveChat α) : LiveChat α :=
  { s with
    cursors := Function.update s.cursors m (some { seq := seq, turn := taskId })
    messages := updateRow m (fun parts => parts.take keep) s.messages }

/-- `case "task:ask"`, whatever the cursor. -/
def onAsk (m toolCallId form : Nat) (s : LiveChat α) : LiveChat α :=
  { s with messages := updateRow m (applyAsk toolCallId form) s.messages }

/-- `case "task:finish"`; the read of the turn it starts lands later. -/
def onFinish (messageId : Option Nat) (s : LiveChat α) : LiveChat α :=
  match messageId with
  | some m => drop m { s with cursors := Function.update s.cursors m none }
  | none => s

/-- The newest reply a history calls running. -/
def runningOf (history : List (HistoryRow α)) : Option (HistoryRow α) := history.reverse.find? (·.running)

/-- A loaded message takes its place in the copy. -/
def ofHistory (r : HistoryRow α) : ChatRow α where
  id := r.id
  parts := r.parts

/-- `loadHistory`, when its answer lands: the rows are replaced, and the running reply's cursor is set. -/
def adopt (history : List (HistoryRow α)) (s : LiveChat α) : LiveChat α :=
  { s with
    messages := if history.isEmpty then s.messages else history.map ofHistory
    cursors :=
      match runningOf history with
      | some r => Function.update s.cursors r.id (some { seq := r.streamSeq.getD 0, turn := r.taskId })
      | none => s.cursors }

/-- The rows of `refreshTurn`: those before the turn, the turn as it was read, and the live replies past it. -/
def splice (tail : List (HistoryRow α)) (cursors : Nat → Option Cursor) (rows : List (ChatRow α)) : List (ChatRow α) :=
  match tail.head? with
  | none => rows
  | some first =>
    match rows.findIdx? (fun r => r.id = first.id) with
    | none => rows
    | some i =>
      rows.take i ++ tail.map ofHistory ++
        (rows.drop i).filter (fun r => tail.all (fun t => t.id ≠ r.id) && (cursors r.id).isSome)

/-- `refreshTurn`, when its answer lands. What it cannot vouch for it leaves to a full load. -/
def refresh (tail : List (HistoryRow α)) (s : LiveChat α) : LiveChat α :=
  if tail.any (·.running) || !(tail.head?.any (fun t => s.rendered.contains t.id)) then s
  else { s with messages := splice tail s.cursors s.messages }

/-- One step of the client, of turns that publish `turns`. -/
def step (cfg : LiveConfig α) (turns : Nat → Live.Turn α) (s : LiveChat α) : LiveAct α → Option (LiveChat α)
  | .start taskId => some (onStart (turns taskId).messageId taskId (turns taskId).start (flush cfg s))
  | .deliver taskId seq =>
    match (turns taskId).event? seq with
    | some (.gated body) =>
      some (onGated cfg { messageId := (turns taskId).messageId, taskId := taskId, seq := seq, body := body } s)
    | some (.ask i form) => some (onAsk (turns taskId).messageId i form (flush cfg s))
    | some (.reset keep) => some (onReset (turns taskId).messageId taskId seq keep (flush cfg s))
    | none => none
  | .elicit m i form => some (onAsk m i form (flush cfg s))
  | .truncated m => some (reconcile cfg { s with recovery := { s.recovery with owed := s.recovery.owed ++ [m] } })
  | .finish messageId => some (onFinish messageId (flush cfg s))
  | .notice => some (flush cfg s)
  | .tick chars => if s.pacer.timer = true ∧ 0 < chars then some (tick cfg chars s) else none
  | .render => some { s with rendered := s.messages.map (·.id) }
  | .elapse ms => some { s with now := s.now + ms }
  | .retry =>
    match s.recovery.retryTimer with
    | some at_ =>
      if at_ ≤ s.now then some (reconcile cfg { s with recovery := { s.recovery with retryTimer := none } }) else none
    | none => none
  | .loadHistory history => some (adopt history s)
  | .refreshTurn tail => some (refresh tail s)
  | .drain => if s.recovery.reloading = true then some (drain cfg s) else none

end LiveChat

end Capka

import Mathlib
import Capka.Lib.Steps
import Capka.Lib.Table

/-!
# The LISTEN feed

One process keeps one LISTEN connection for all its subscribers and replaces it when it drops. The code runs on an event loop: a step here is
one turn of it, an event with all the promise reactions that follow from it. Queries on a connection are answered in the order they were
sent. A connection that raised `error` or `end` answers nothing more, and what was pending on it is rejected in one turn, some time later.
-/

namespace Capka

/-- A call of `subscribe` that has not returned: the channel, by its Postgres name, and the callback it registered. -/
structure SubscribeCall where
  channel : Nat
  cb : Nat
  deriving DecidableEq

/-- A query on the LISTEN connection. -/
inductive FeedQuery where
  /-- LISTEN, sent by a call of `subscribe` or, with none, by the loop that follows a connect. -/
  | listen (channel : Nat) (call : Option SubscribeCall)
  | unlisten (channel : Nat)
  /-- The heartbeat's SELECT 1. -/
  | ping
  deriving DecidableEq

namespace FeedQuery

/-- The call that awaits the query. -/
def caller : FeedQuery → Option SubscribeCall
  | listen _ call => call
  | _ => none

/-- Whether the server sends a channel's notifications once it has answered the query. -/
def effect (channel : Nat) (before : Bool) : FeedQuery → Bool
  | listen c _ => before || decide (c = channel)
  | unlisten c => before && decide (c ≠ channel)
  | ping => before

end FeedQuery

/-- A client built for the feed: whether it raised `error` or `end`, its unanswered queries, the channels the server listens on for it. -/
structure FeedClient where
  id : Nat
  dropped : Bool
  queue : List FeedQuery
  listening : List Nat

namespace FeedClient

/-- The last query on the connection about the channel, answered or in flight, is a LISTEN. -/
def hears (c : FeedClient) (channel : Nat) : Bool := c.queue.foldl (FeedQuery.effect channel) (decide (channel ∈ c.listening))

def enqueue (q : FeedQuery) (c : FeedClient) : FeedClient := { c with queue := c.queue ++ [q] }

def setDropped (c : FeedClient) : FeedClient := { c with dropped := true }

def clearQueue (c : FeedClient) : FeedClient := { c with queue := [] }

/-- The server answers the oldest query. -/
def answered (c : FeedClient) : FeedClient :=
  match c.queue with
  | [] => c
  | .listen channel _ :: queue => { c with queue := queue, listening := channel :: c.listening }
  | .unlisten channel :: queue => { c with queue := queue, listening := c.listening.filter fun x => x ≠ channel }
  | .ping :: queue => { c with queue := queue }

theorem enqueue_id (q : FeedQuery) (c : FeedClient) : (c.enqueue q).id = c.id := rfl

theorem setDropped_id (c : FeedClient) : c.setDropped.id = c.id := rfl

theorem clearQueue_id (c : FeedClient) : c.clearQueue.id = c.id := rfl

theorem answered_id (c : FeedClient) : c.answered.id = c.id := by
  unfold answered
  split <;> rfl

end FeedClient

/-- A channel and the set of its callbacks. -/
structure ChannelEntry where
  channel : Nat
  cbs : List Nat

namespace ChannelEntry

def add (cb : Nat) (e : ChannelEntry) : ChannelEntry := { e with cbs := if cb ∈ e.cbs then e.cbs else e.cbs ++ [cb] }

def remove (cb : Nat) (e : ChannelEntry) : ChannelEntry := { e with cbs := e.cbs.filter fun x => x ≠ cb }

theorem add_channel (cb : Nat) (e : ChannelEntry) : (e.add cb).channel = e.channel := rfl

theorem remove_channel (cb : Nat) (e : ChannelEntry) : (e.remove cb).channel = e.channel := rfl

end ChannelEntry

/-- The channel map, in insertion order. -/
abbrev Channels := Table ChannelEntry ChannelEntry.channel

namespace Channels

/-- Register a callback. -/
def register (T : Channels) (call : SubscribeCall) : Channels :=
  if call.channel ∈ T.keys then T.modify call.channel (ChannelEntry.add call.cb) (ChannelEntry.add_channel _)
  else T.put { channel := call.channel, cbs := [call.cb] }

/-- Take a callback out, and the channel with its last one. -/
def unregister (T : Channels) (call : SubscribeCall) : Channels :=
  (T.modify call.channel (ChannelEntry.remove call.cb) (ChannelEntry.remove_channel _)).filter fun e =>
    decide (e.channel ≠ call.channel ∨ e.cbs ≠ [])

end Channels

/-- Where a connect attempt stands. -/
inductive ConnectPhase where
  /-- It awaits the connection. -/
  | connecting
  /-- It awaits a LISTEN of its loop over the channel map, which has visited these channels. -/
  | relisten (visited : List Nat)
  deriving DecidableEq

/-- The attempt in flight: its client, the calls of `subscribe` that await it, and whether the reconnect timer's own call awaits it. -/
structure ConnectAttempt where
  client : Nat
  phase : ConnectPhase
  callers : List SubscribeCall
  timer : Bool

/-- The loop's iterator is live: a channel that leaves the map and comes back is visited again. -/
def ConnectAttempt.keep (channels : List Nat) (a : ConnectAttempt) : ConnectAttempt :=
  match a.phase with
  | .connecting => a
  | .relisten visited => { a with phase := .relisten (visited.filter fun x => x ∈ channels) }

/-- The interval that pings the connection: its client, and whether a ping is unanswered. -/
structure Heartbeat where
  client : Nat
  waiting : Bool

/-- The feed of one process, with all the clients it ever built. -/
structure Realtime where
  sub : Option Nat
  subConnecting : Option ConnectAttempt
  chans : Channels
  reconnectDelay : Nat
  reconnectTimer : Bool
  heartbeat : Option Heartbeat
  clients : Table FeedClient FeedClient.id
  built : Nat

/-- What can happen. -/
inductive RealtimeAct where
  /-- A call of `subscribe`. -/
  | subscribe (channel cb : Nat)
  /-- A call of the function that `subscribe` returned. -/
  | unsubscribe (channel cb : Nat)
  /-- The client of the attempt is connected. -/
  | connected
  /-- The client of the attempt could not connect. -/
  | connectFails
  /-- The server answers the oldest query on the current connection. -/
  | answer
  /-- A client raises `error` or `end`, which it may do more than once. -/
  | drop (client : Nat)
  /-- What was pending on a dropped client is rejected. -/
  | reject (client : Nat)
  /-- The reconnect timer fires. -/
  | timer
  /-- The heartbeat interval fires. -/
  | beat

namespace Realtime

def initial : Realtime :=
  { sub := none, subConnecting := none, chans := .empty, reconnectDelay := 0, reconnectTimer := false, heartbeat := none,
    clients := .empty, built := 0 }

def RECONNECT_MAX_MS : Nat := 30000

/-- Change the channel map; the loop of an attempt sees the change. -/
def setChans (s : Realtime) (chans : Channels) : Realtime :=
  { s with chans := chans, subConnecting := s.subConnecting.map (ConnectAttempt.keep chans.keys) }

def send (s : Realtime) (client : Nat) (q : FeedQuery) : Realtime :=
  { s with clients := s.clients.modify client (FeedClient.enqueue q) (FeedClient.enqueue_id _) }

def scheduleReconnect (s : Realtime) : Realtime :=
  if s.reconnectTimer ∨ s.subConnecting.isSome then s
  else
    { s with
      reconnectDelay := min (if s.reconnectDelay = 0 then 1000 else s.reconnectDelay * 2) RECONNECT_MAX_MS
      reconnectTimer := true }

def handleSubDrop (s : Realtime) (dropped : Nat) : Realtime :=
  -- A stale client that was replaced.
  if s.sub.isSome ∧ s.sub ≠ some dropped then s
  else
    let s := { s with sub := none, heartbeat := none }
    if s.chans.rows.length > 0 then s.scheduleReconnect else s

/-- The attempt succeeds: the calls that await it return, and the timer's own call resets the delay. -/
def settle (s : Realtime) (a : ConnectAttempt) : Realtime :=
  { s with subConnecting := none, reconnectDelay := if a.timer then 0 else s.reconnectDelay }

/-- The attempt goes on: LISTEN on the next channel of the map, or it is done. -/
def relisten (s : Realtime) : Realtime :=
  match s.subConnecting with
  | none => s
  | some a =>
    match a.phase with
    | .connecting => s
    | .relisten visited =>
      match s.chans.keys.find? (fun x => x ∉ visited) with
      | none => s.settle a
      | some channel =>
        { s with subConnecting := some { a with phase := .relisten (visited ++ [channel]) } }.send a.client (.listen channel none)

/-- The calls fail and take their registrations back. -/
def rollback (s : Realtime) (calls : List SubscribeCall) : Realtime := s.setChans (calls.foldl Channels.unregister s.chans)

/-- The attempt fails: so do the calls that await it, and the timer's own call schedules the next one. -/
def failConnect (s : Realtime) (a : ConnectAttempt) : Realtime :=
  let s := { s with subConnecting := none }.rollback a.callers
  if a.timer then s.scheduleReconnect else s

/-- Start a connect attempt, with a new client. -/
def startConnect (s : Realtime) (callers : List SubscribeCall) (timer : Bool) : Realtime :=
  { s with
    subConnecting := some { client := s.built, phase := .connecting, callers, timer }
    clients := s.clients.put { id := s.built, dropped := false, queue := [], listening := [] }
    built := s.built + 1 }

/-- A call that found the connection there sends its own LISTEN; another awaits the attempt, which it may have to start. -/
def subscribe (s : Realtime) (call : SubscribeCall) : Realtime :=
  let s := s.setChans (s.chans.register call)
  match s.sub with
  | some client => s.send client (.listen call.channel (some call))
  | none =>
    match s.subConnecting with
    | some a => { s with subConnecting := some { a with callers := a.callers ++ [call] } }
    | none => s.startConnect [call] false

def unsubscribe (s : Realtime) (call : SubscribeCall) : Realtime :=
  let t := s.setChans (s.chans.unregister call)
  if call.channel ∈ s.chans.keys ∧ call.channel ∉ t.chans.keys then
    match t.sub with
    | some client => t.send client (.unlisten call.channel)
    | none => t
  else t

/-- The timer's call of `ensureSub`. -/
def timerFires (s : Realtime) : Realtime :=
  let s := { s with reconnectTimer := false }
  if s.sub.isSome then { s with reconnectDelay := 0 }
  else
    match s.subConnecting with
    | some a => { s with subConnecting := some { a with timer := true } }
    | none => s.startConnect [] true

/-- The connection stands: it becomes the current one before the loop begins. -/
def connected (s : Realtime) : Option Realtime :=
  match s.subConnecting with
  | some a =>
    if a.phase = .connecting ∧ ∃ c ∈ s.clients, c.id = a.client ∧ c.dropped = false then
      some
        { s with
          sub := some a.client
          heartbeat := some { client := a.client, waiting := false }
          subConnecting := some { a with phase := .relisten [] } }.relisten
    else none
  | none => none

def connectFails (s : Realtime) : Option Realtime :=
  match s.subConnecting with
  | some a => if a.phase = .connecting then some (s.failConnect a) else none
  | none => none

/-- What follows an answer: the loop goes on, or the heartbeat has its ping back. -/
def resume (s : Realtime) : FeedQuery → Realtime
  | .listen _ none => s.relisten
  | .ping => { s with heartbeat := s.heartbeat.map fun h => { h with waiting := false } }
  | _ => s

def answer (s : Realtime) : Option Realtime :=
  s.sub.bind fun client =>
    (s.clients.get client).bind fun c =>
      c.queue.head?.map fun q =>
        { s with clients := s.clients.modify client FeedClient.answered FeedClient.answered_id }.resume q

def drop (s : Realtime) (client : Nat) : Option Realtime :=
  if client ∈ s.clients.keys then
    some ({ s with clients := s.clients.modify client FeedClient.setDropped FeedClient.setDropped_id }.handleSubDrop client)
  else none

/-- The pending calls of a dropped client fail, and so does the attempt whose loop awaits one of its queries. -/
def reject (s : Realtime) (client : Nat) : Option Realtime :=
  (s.clients.get client).bind fun c =>
    if c.dropped then
      let t := { s with clients := s.clients.modify client FeedClient.clearQueue FeedClient.clearQueue_id }.rollback
        (c.queue.filterMap FeedQuery.caller)
      match t.subConnecting with
      | some a => some (if a.client = client ∧ a.phase ≠ .connecting then t.failConnect a else t)
      | none => some t
    else none

/-- A ping, or the end of a connection that left the last one unanswered. -/
def beat (s : Realtime) : Option Realtime :=
  s.heartbeat.bind fun h =>
    if h.waiting then s.drop h.client
    else some ({ s with heartbeat := some { h with waiting := true } }.send h.client .ping)

/-- The step function. -/
def step (s : Realtime) : RealtimeAct → Option Realtime
  | .subscribe channel cb => some (s.subscribe ⟨channel, cb⟩)
  | .unsubscribe channel cb => some (s.unsubscribe ⟨channel, cb⟩)
  | .connected => s.connected
  | .connectFails => s.connectFails
  | .answer => s.answer
  | .drop client => s.drop client
  | .reject client => s.reject client
  | .timer => if s.reconnectTimer then some s.timerFires else none
  | .beat => s.beat

end Realtime

end Capka

import Mathlib.Data.List.Basic
import Mathlib.Tactic.Simps.Basic
import Capka.Stream.Parts

/-!
# A live copy of a reply

A turn publishes numbered events about one reply; the client folds them into its parts. Deltas reach the screen through a pacer that
cuts and glues their text but never reorders it (`release_settle`). Characters are of any type, so what is said here of the
text is said of each character and of where it came from.
-/

namespace Capka

namespace Live

variable {α : Type*}

/-! ## Parts and events -/

/-- The AI SDK state of a tool part. -/
inductive ToolState
  | inputStreaming
  | inputAvailable
  | approvalRequested
  | approvalResponded
  | outputAvailable
  | outputError
  deriving Repr, DecidableEq

/-- `{ type: "dynamic-tool" }`. Bodies (arguments, results, forms, error texts) are opaque. -/
structure DynamicTool where
  toolCallId : Nat
  toolName : Nat
  state : ToolState
  input : Option Nat
  output : Option Nat
  errorText : Option Nat
  approval : Option Nat
  askForm : Option Nat
  deriving Repr, DecidableEq

/-- A part of a reply as the client draws it. -/
inductive Part (α : Type*)
  | run (type : RunType) (text : List α)
  | tool (part : DynamicTool)
  deriving Repr, DecidableEq

/-- What a gated event does to its reply. `error` is the text of a failed result. -/
inductive GatedBody (α : Type*)
  | delta (type : RunType) (text : List α)
  | toolInputStart (toolCallId toolName : Nat)
  | toolCall (toolCallId toolName args : Nat)
  | toolResult (toolCallId : Nat) (result : Option Nat) (error : Option Nat)
  | toolApproval (toolCallId approvalId : Nat)
  deriving Repr, DecidableEq

/-- A numbered event of a turn: a gated one, a question, or a retry that threw away all but the first `keep` parts. -/
inductive TurnEvent (α : Type*)
  | gated (body : GatedBody α)
  | ask (toolCallId form : Nat)
  | reset (keep : Nat)
  deriving Repr, DecidableEq

/-- The handler of both deltas: the text joins the last part when that is a run of its type. -/
def appendRun (type : RunType) (delta : List α) (parts : List (Part α)) : List (Part α) :=
  match parts.getLast? with
  | some (.run type' text) =>
    if type' = type then parts.dropLast ++ [.run type (text ++ delta)] else parts ++ [.run type delta]
  | _ => parts ++ [.run type delta]

/-- The part is the card of a tool call. -/
def Part.isTool (toolCallId : Nat) : Part α → Bool
  | .run _ _ => false
  | .tool p => p.toolCallId = toolCallId

/-- Change the card of a tool call. -/
def mapTool (toolCallId : Nat) (f : DynamicTool → DynamicTool) (parts : List (Part α)) : List (Part α) :=
  parts.map fun
    | .run type text => .run type text
    | .tool p => if p.toolCallId = toolCallId then .tool (f p) else .tool p

/-- A card as an event opens it. -/
def newTool (toolCallId toolName : Nat) (state : ToolState) : DynamicTool where
  toolCallId := toolCallId
  toolName := toolName
  state := state
  input := none
  output := none
  errorText := none
  approval := none
  askForm := none

/-- The name of the `ask` tool. -/
def askTool : Nat := 0

/-- The five gated handlers of `applyEvent`, on the parts of the row they found. -/
def GatedBody.apply : GatedBody α → List (Part α) → List (Part α)
  | .delta type text, parts => appendRun type text parts
  | .toolInputStart i name, parts =>
    if parts.any (Part.isTool i) then parts else parts ++ [.tool (newTool i name .inputStreaming)]
  | .toolCall i name args, parts =>
    if parts.any (Part.isTool i) then mapTool i (fun p => { p with state := .inputAvailable, input := some args }) parts
    else parts ++ [.tool { newTool i name .inputAvailable with input := some args }]
  | .toolResult i result error, parts =>
    mapTool i (fun p =>
      { p with state := if error.isSome then .outputError else .outputAvailable, output := result, errorText := error }) parts
  | .toolApproval i approvalId, parts =>
    mapTool i (fun p => { p with state := .approvalRequested, approval := some approvalId }) parts

/-- `case "task:ask"`. -/
def applyAsk (toolCallId form : Nat) (parts : List (Part α)) : List (Part α) :=
  if parts.any (Part.isTool toolCallId) then
    mapTool toolCallId (fun p => { p with state := .inputAvailable, askForm := some form }) parts
  else parts ++ [.tool { newTool toolCallId askTool .inputAvailable with askForm := some form }]

/-- What one event of a turn does to a copy that has seen all before it. -/
def TurnEvent.apply : TurnEvent α → List (Part α) → List (Part α)
  | .gated body, parts => body.apply parts
  | .ask i form, parts => applyAsk i form parts
  | .reset keep, parts => parts.take keep

theorem appendRun_append (type : RunType) (a b : List α) (parts : List (Part α)) :
    appendRun type b (appendRun type a parts) = appendRun type (a ++ b) parts := by
  unfold appendRun
  cases h : parts.getLast? with
  | none => simp
  | some p =>
    cases p with
    | tool p => simp
    | run type' text =>
      by_cases ht : type' = type
      · simp [ht, List.append_assoc]
      · simp [ht]

/-! ## What a turn publishes -/

/-- A turn: the reply it writes, the parts the row held when it began (the suspended half of a continuation), the number it started
from, and all it publishes after that, in the order of its numbers. -/
structure Turn (α : Type*) where
  messageId : Nat
  base : List (Part α)
  start : Nat
  events : List (TurnEvent α)

/-- The fold of the published events up to a number. -/
def Turn.fold (t : Turn α) (seq : Nat) : List (Part α) :=
  (t.events.take (seq - t.start)).foldl (fun parts e => e.apply parts) t.base

/-- The event published under a number. -/
def Turn.event? (t : Turn α) (seq : Nat) : Option (TurnEvent α) :=
  if t.start < seq then t.events[seq - t.start - 1]? else none

theorem Turn.fold_next {t : Turn α} {seq : Nat} {e : TurnEvent α} (h : t.event? (seq + 1) = some e) :
    t.fold (seq + 1) = e.apply (t.fold seq) := by
  unfold Turn.event? at h
  split at h
  · rename_i hlt
    have hsub : seq + 1 - t.start = (seq - t.start) + 1 := by omega
    have hidx : seq + 1 - t.start - 1 = seq - t.start := by omega
    rw [hidx] at h
    unfold Turn.fold
    rw [hsub, List.take_add_one, h]
    simp
  · cases h

/-! ## The pacer -/

/-- What `createDeltaPacer` asks of a character. -/
structure Letters (α : Type*) where
  isSpace : α → Bool
  isHighSurrogate : α → Bool

/-- A delta in the pacer's queue. -/
structure Paced (α : Type*) where
  messageId : Nat
  taskId : Nat
  seq : Nat
  type : RunType
  delta : List α
  deriving Repr, DecidableEq

/-- The pacer: what waits, whether only a word's stub does, the characters shown since the last blank, and the armed timer. -/
structure Pacer (α : Type*) where
  queue : List (Paced α)
  held : Bool
  runSinceWs : Nat
  timer : Bool

/-- `sameKind`: the two deltas belong to one part. -/
def Paced.sameKind (a b : Paced α) : Bool := a.messageId = b.messageId && (a.taskId = b.taskId && a.type = b.type)

/-- Put a delta at the end of the queue: glued to the last one when they are of one kind. -/
def enqueueTo (event : Paced α) : List (Paced α) → List (Paced α)
  | [] => [event]
  | [tail] => if tail.sameKind event then [{ tail with delta := tail.delta ++ event.delta }] else [tail, event]
  | head :: rest => head :: enqueueTo event rest

def Pacer.enqueue (event : Paced α) (p : Pacer α) : Pacer α where
  queue := enqueueTo event p.queue
  held := false
  runSinceWs := p.runSinceWs
  timer := true

/-- The length of the word the text ends in. -/
def stubLength (L : Letters α) (text : List α) : Nat := (text.reverse.takeWhile (fun c => !L.isSpace c)).length

/-- `note`, as far as `release` reads it. -/
def note (L : Letters α) (part : List α) (runSinceWs : Nat) : Nat :=
  if part.any L.isSpace then stubLength L part else runSinceWs + part.length

/-- A run longer than any word. -/
def MAX_WORD_EXTEND : Nat := 24

/-- What of the only delta left may be shown: not the stub of a word that is still arriving. -/
def available (L : Letters α) (runSinceWs : Nat) (delta : List α) : List α :=
  let stub := stubLength L delta
  let runLen := stub + if stub = delta.length then runSinceWs else 0
  if 0 < stub && runLen < MAX_WORD_EXTEND then delta.take (delta.length - stub) else delta

/-- Where `release` cuts a text longer than its budget: at the last blank the budget reaches, else after the word it lands in,
and never inside a surrogate pair. -/
def cutAt (L : Letters α) (avail : List α) (budget : Nat) : Nat :=
  let head := avail.take budget
  let cut :=
    if head.any L.isSpace then head.length - stubLength L head
    else
      match ((avail.drop budget).take MAX_WORD_EXTEND).findIdx? L.isSpace with
      | some ws => budget + ws + 1
      | none => budget
  match avail[cut - 1]? with
  | some c => if cut < avail.length && L.isHighSurrogate c then cut + 1 else cut
  | none => cut

/-- What one `release` does: the pieces it shows, in order, and what stays. -/
structure Release (α : Type*) where
  shown : List (Paced α)
  queue : List (Paced α)
  held : Bool
  runSinceWs : Nat

def release (L : Letters α) : List (Paced α) → Nat → Nat → Release α
  | [], _, runSinceWs => { shown := [], queue := [], held := false, runSinceWs := runSinceWs }
  | head :: rest, budget, runSinceWs =>
    if budget = 0 then { shown := [], queue := head :: rest, held := false, runSinceWs := runSinceWs }
    else
      let avail := if rest = [] then available L runSinceWs head.delta else head.delta
      if avail = [] then { shown := [], queue := head :: rest, held := true, runSinceWs := runSinceWs }
      else if avail.length ≤ budget then
        if avail.length = head.delta.length then
          let r := release L rest (budget - avail.length) (note L avail runSinceWs)
          { r with shown := head :: r.shown }
        else
          { shown := [{ head with delta := avail }]
            queue := { head with delta := head.delta.drop avail.length } :: rest
            held := true
            runSinceWs := note L avail runSinceWs }
      else
        let cut := cutAt L avail budget
        { shown := [{ head with delta := avail.take cut }]
          queue := { head with delta := head.delta.drop cut } :: rest
          held := false
          runSinceWs := note L (avail.take cut) runSinceWs }

/-- What the queue adds to the parts of a reply once all of it is shown. -/
def settle (messageId : Nat) (queue : List (Paced α)) (parts : List (Part α)) : List (Part α) :=
  queue.foldl (fun parts d => if d.messageId = messageId then appendRun d.type d.delta parts else parts) parts

@[simp] theorem settle_nil (m : Nat) (parts : List (Part α)) : settle m [] parts = parts := rfl

theorem settle_cons (m : Nat) (d : Paced α) (q : List (Paced α)) (parts : List (Part α)) :
    settle m (d :: q) parts = settle m q (if d.messageId = m then appendRun d.type d.delta parts else parts) := rfl

theorem settle_append (m : Nat) (q q' : List (Paced α)) (parts : List (Part α)) :
    settle m (q ++ q') parts = settle m q' (settle m q parts) := by
  simp [settle, List.foldl_append]

theorem settle_of_free {m : Nat} {q : List (Paced α)} (h : ∀ d ∈ q, d.messageId ≠ m) (parts : List (Part α)) :
    settle m q parts = parts := by
  induction q generalizing parts with
  | nil => rfl
  | cons d q ih =>
    rw [settle_cons, if_neg (h d List.mem_cons_self)]
    exact ih (fun d' hd' => h d' (List.mem_cons_of_mem d hd')) parts

theorem settle_cut (m : Nat) (d : Paced α) (a b : List α) (h : a ++ b = d.delta) (q : List (Paced α)) (parts : List (Part α)) :
    settle m ({ d with delta := a } :: { d with delta := b } :: q) parts = settle m (d :: q) parts := by
  rw [settle_cons, settle_cons, settle_cons]
  by_cases hm : d.messageId = m
  · rw [if_pos hm, if_pos hm, if_pos hm, appendRun_append, h]
  · rw [if_neg hm, if_neg hm, if_neg hm]

theorem settle_enqueueTo (m : Nat) (event : Paced α) (q : List (Paced α)) (parts : List (Part α)) :
    settle m (enqueueTo event q) parts = settle m [event] (settle m q parts) := by
  induction q generalizing parts with
  | nil => rfl
  | cons head rest ih =>
    cases rest with
    | cons head' rest' =>
      rw [enqueueTo, settle_cons, ih, ← settle_cons]
      exact List.cons_ne_nil head' rest'
    | nil =>
      unfold enqueueTo
      split
      · rename_i hsame
        simp only [Paced.sameKind, Bool.and_eq_true, decide_eq_true_eq] at hsame
        obtain ⟨hid, _, htype⟩ := hsame
        rw [settle_cons, settle_cons, settle_cons, settle_nil, settle_nil, settle_nil, ← hid, ← htype]
        by_cases hm : head.messageId = m
        · rw [if_pos hm, if_pos hm, if_pos hm, appendRun_append]
        · rw [if_neg hm, if_neg hm, if_neg hm]
      · rfl

theorem available_prefix (L : Letters α) (runSinceWs : Nat) (delta : List α) : available L runSinceWs delta <+: delta := by
  unfold available
  dsimp only
  generalize stubLength L delta + (if stubLength L delta = delta.length then runSinceWs else 0) = runLen
  split
  · exact List.take_prefix _ _
  · exact List.prefix_refl _

theorem prefix_append_drop {a c : List α} (h : a <+: c) : a ++ c.drop a.length = c := by
  obtain ⟨b, rfl⟩ := h
  simp

theorem take_append_drop_of_prefix {a c : List α} (h : a <+: c) {n : Nat} (hn : n ≤ a.length) : a.take n ++ c.drop n = c := by
  obtain ⟨b, rfl⟩ := h
  rw [List.drop_append_of_le_length hn, ← List.append_assoc, List.take_append_drop]

theorem cutAt_le (L : Letters α) {avail : List α} {budget : Nat} (h : budget < avail.length) : cutAt L avail budget ≤ avail.length := by
  have hcut : ∀ cut, cut ≤ avail.length →
      (match avail[cut - 1]? with
        | some c => if cut < avail.length && L.isHighSurrogate c then cut + 1 else cut
        | none => cut) ≤ avail.length := by
    intro cut hle
    split
    · split
      · rename_i hc
        simp only [Bool.and_eq_true, decide_eq_true_eq] at hc
        exact hc.1
      · exact hle
    · exact hle
  refine hcut _ ?_
  split
  · rw [List.length_take]
    omega
  · split
    · rename_i ws hws
      have hlt := (List.findIdx?_eq_some_iff_getElem.mp hws).1
      rw [List.length_take, List.length_drop] at hlt
      omega
    · omega

theorem release_settle (L : Letters α) (m : Nat) (q : List (Paced α)) (budget runSinceWs : Nat) (parts : List (Part α)) :
    settle m ((release L q budget runSinceWs).shown ++ (release L q budget runSinceWs).queue) parts = settle m q parts := by
  induction q generalizing budget runSinceWs parts with
  | nil => rfl
  | cons head rest ih =>
    unfold release
    have hprefix : (if rest = [] then available L runSinceWs head.delta else head.delta) <+: head.delta := by
      split
      · exact available_prefix L runSinceWs head.delta
      · exact List.prefix_refl _
    split
    · rfl
    · dsimp only
      generalize (if rest = [] then available L runSinceWs head.delta else head.delta) = avail at hprefix ⊢
      split
      · rfl
      · split
        · split
          · rw [List.cons_append, settle_cons, settle_cons]
            exact ih _ _ _
          · exact settle_cut m head _ _ (prefix_append_drop hprefix) rest parts
        · rename_i hlong
          exact settle_cut m head _ _ ( take_append_drop_of_prefix hprefix (cutAt_le L (Nat.not_le.mp hlong))) rest parts

end Live

end Capka

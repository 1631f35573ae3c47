import Mathlib
import Capka.Lib.Steps
import Capka.Chat.Presenter
import Capka.Stream.Parts

/-!
# A discarded attempt

A restart throws away what its attempt added to the reply: the runner cuts its parts back to the ones the turn loaded, puts the results of
the approved calls behind them, and tells the client how many parts of its own copy to keep. Both undo an attempt by a length, while the
text of an attempt joins the last part in place, and an event about a call is about every part of that id. The client here has every event
published, in order.
-/

namespace Capka

namespace Discard

/-! ## The parts of the runner -/

/-- A delta joins the last part where that takes it, and opens a part where not. -/
def joinLast {α : Type*} (join : α → Option α) (new : α) (xs : List α) : List α :=
  match xs.getLast?.bind join with
  | some x => xs.dropLast ++ [x]
  | none => xs ++ [new]

def runPart : RunType → List Char → StoredPart
  | .text, text => .text text
  | .reasoning, text => .reasoning text

/-- A stored part with a delta of its kind: `last.text += delta`. -/
def joined (type : RunType) (delta : List Char) : StoredPart → Option StoredPart
  | .text text => if type = .text then some (.text (text ++ delta)) else none
  | .reasoning text => if type = .reasoning then some (.reasoning (text ++ delta)) else none
  | _ => none

def appendRun (type : RunType) (delta : List Char) (parts : List StoredPart) : List StoredPart :=
  joinLast (joined type delta) (runPart type delta) parts

def appendText (delta : List Char) (parts : List StoredPart) : List StoredPart := appendRun .text delta parts

def appendReasoning (delta : List Char) (parts : List StoredPart) : List StoredPart := appendRun .reasoning delta parts

/-- The id of a part that has one. -/
def partId : StoredPart → Option Nat
  | .toolCall id _ _ _ => some id
  | .toolResult id _ _ => some id
  | .toolError id _ _ _ => some id
  | _ => none

def isCall (id : Nat) : StoredPart → Bool
  | .toolCall i _ _ _ => i = id
  | _ => false

/-- The approval of a call that has one. -/
def approvalOf : StoredPart → Option Approval
  | .toolCall _ _ _ (some (.approval a)) => some a
  | _ => none

/-- Some call of the id has an approval: what `recordApprovedRun` asks. -/
def gated (parts : List StoredPart) (id : Nat) : Bool := parts.any (fun p => isCall id p && (approvalOf p).isSome)

/-- The first call of the id is approved: what a denied output is stored for. -/
def approved (parts : List StoredPart) (id : Nat) : Bool :=
  ((parts.find? (isCall id)).bind approvalOf).any (fun a => a.approved = some true)

/-- The first call of an id waits on something from now on; an `ask` is never gated. -/
def mark (id : Nat) (waitsOn : Suspension) : List StoredPart → List StoredPart
  | [] => []
  | .toolCall i name input w :: rest =>
    if i = id then .toolCall i name input (some waitsOn) :: rest else .toolCall i name input w :: mark id waitsOn rest
  | p :: rest => p :: mark id waitsOn rest

/-- A part the presenter draws: a call, or a run that has text. -/
def drawn : StoredPart → Bool
  | .text text => text ≠ []
  | .reasoning text => text ≠ []
  | .toolCall _ _ _ _ => true
  | .toolResult _ _ _ => false
  | .toolError _ _ _ _ => false

/-- What an approved call that is not run any more gets. -/
def notRun (present : Bool) : ToolOutput :=
  if present then
    .notRun "rule_changed"
      "Not run. This tool no longer asks for approval, so the approved call was not run. Call it again if it is still needed."
  else .notRun "tool_unavailable" "Not run. This tool was not available when the approved call was due to run."

/-! ## The copy of the client -/

/-- What a card shows as output: a result, or the object the client is sent for an error. -/
inductive CardOutput
  | result (output : ToolOutput)
  | error (error : String)
  deriving DecidableEq

/-- A `dynamic-tool` part of the copy. -/
structure Card where
  toolCallId : Nat
  toolName : String
  state : ToolState
  input : Option String
  output : Option CardOutput
  errorText : Option String
  approval : Option Approval
  askForm : Option AskForm
  askValue : Option AskAnswer
  deriving DecidableEq

/-- A part of the copy. -/
inductive CopyPart
  | run (type : RunType) (text : List Char)
  | card (card : Card)
  deriving DecidableEq

/-- A tool part of the presenter, as a card. -/
def Card.ofPart (part : ToolPart) : Card where
  toolCallId := part.toolCallId
  toolName := part.toolName
  state := part.state
  input := some part.input
  output := part.output.map .result
  errorText := part.errorText
  approval := part.approval
  askForm := part.askForm
  askValue := part.askValue

/-- A part of the presenter, as the copy has it. -/
def CopyPart.ofUI : UIPart → CopyPart
  | .text text => .run .text text
  | .reasoning text => .run .reasoning text
  | .dynamicTool part => .card (.ofPart part)

def drawing (movedPast : Bool) (row : PresenterRow) (parts : List StoredPart) : List CopyPart :=
  (Presenter.messageParts movedPast { row with parts := some parts }).map CopyPart.ofUI

/-- A card with nothing but its call. -/
def Card.opened (id : Nat) (name : String) (state : ToolState) : Card where
  toolCallId := id
  toolName := name
  state := state
  input := none
  output := none
  errorText := none
  approval := none
  askForm := none
  askValue := none

/-- A published event of the reply. -/
inductive CopyEvent
  | delta (type : RunType) (text : List Char)
  | toolInputStart (id : Nat) (name : String)
  | toolCall (id : Nat) (name args : String)
  | ask (id : Nat) (form : AskForm)
  | toolApproval (id approvalId : Nat)
  | toolResult (id : Nat) (result : Option ToolOutput)
  | toolError (id : Nat) (error : String)
  | reset (keep : Nat)
  deriving DecidableEq

/-- The part takes a delta of the kind. -/
def CopyPart.joined (type : RunType) (delta : List Char) : CopyPart → Option CopyPart
  | .run type' text => if type' = type then some (.run type (text ++ delta)) else none
  | .card _ => none

def CopyPart.isCard (id : Nat) : CopyPart → Bool
  | .run _ _ => false
  | .card c => c.toolCallId = id

/-- A card of the id, changed. -/
def CopyPart.onCard (id : Nat) (f : Card → Card) : CopyPart → CopyPart
  | .run type text => .run type text
  | .card c => if c.toolCallId = id then .card (f c) else .card c

/-- What a result does to a card. -/
def Card.result (result : Option ToolOutput) (c : Card) : Card :=
  { c with
    state := .outputAvailable
    output := result.map .result
    errorText := none }

/-- What an error does to a card. -/
def Card.error (error : String) (c : Card) : Card :=
  { c with
    state := .outputError
    output := some (.error error)
    errorText := some error }

/-- The handlers of the client, and `resetReply`. -/
def CopyEvent.apply : CopyEvent → List CopyPart → List CopyPart
  | .delta type text, copy => joinLast (CopyPart.joined type text) (.run type text) copy
  | .toolInputStart id name, copy =>
    if copy.any (CopyPart.isCard id) then copy else copy ++ [.card (.opened id name .inputStreaming)]
  | .toolCall id name args, copy =>
    if copy.any (CopyPart.isCard id) then
      copy.map (CopyPart.onCard id fun c => { c with state := .inputAvailable, input := some args })
    else copy ++ [.card { Card.opened id name .inputAvailable with input := some args }]
  | .ask id form, copy =>
    if copy.any (CopyPart.isCard id) then
      copy.map (CopyPart.onCard id fun c => { c with state := .inputAvailable, askForm := some form })
    else copy ++ [.card { Card.opened id "ask" .inputAvailable with askForm := some form }]
  | .toolApproval id approvalId, copy =>
    copy.map (CopyPart.onCard id fun c =>
      { c with state := .approvalRequested, approval := some { id := approvalId, approved := none, reason := none } })
  | .toolResult id result, copy => copy.map (CopyPart.onCard id (Card.result result))
  | .toolError id error, copy => copy.map (CopyPart.onCard id (Card.error error))
  | .reset keep, copy => copy.take keep

/-! ## A turn that restarts -/

/-- What the stream of an attempt brings, with NULs stripped and the seam of a resume stitched; besides, the form of a connector, the timer
that publishes what is buffered, and the discard. -/
inductive Event
  | reasoningDelta (text : List Char)
  | textDelta (text : List Char)
  | toolInputStart (id : Nat) (name : String)
  | toolCall (id : Nat) (name input : String)
  | askCall (id : Nat) (input : String) (form : AskForm)
  | toolApprovalRequest (id : Nat) (name input : String) (approvalId : Nat)
  | toolResult (id : Nat) (name : String) (output : ToolOutput)
  | toolError (id : Nat) (name error : String) (invalid : Bool)
  | toolOutputDenied (id : Nat) (name : String) (present : Bool)
  | elicit (id : Nat) (form : AskForm)
  | flush
  | discard
  deriving DecidableEq

/-- The reply of a turn, and the client's copy of it. For the record: the parts before the attempt, and the results of the approved calls
the attempt ran. -/
structure Reply where
  parts : List StoredPart
  approvedRuns : List Nat
  reasonBuf : List Char
  textBuf : List Char
  copy : List CopyPart
  before : List StoredPart
  executed : List StoredPart
  deriving DecidableEq

/-- A turn begins with the parts it loaded, which the client has drawn. -/
def start (movedPast : Bool) (row : PresenterRow) (base : List StoredPart) : Reply where
  parts := base
  approvedRuns := []
  reasonBuf := []
  textBuf := []
  copy := drawing movedPast row base
  before := base
  executed := []

namespace Reply

/-- `publishTaskEvent`. -/
def publish (e : CopyEvent) (s : Reply) : Reply := { s with copy := e.apply s.copy }

def flushReasoning (s : Reply) : Reply :=
  if s.reasonBuf = [] then s else { publish (.delta .reasoning s.reasonBuf) s with reasonBuf := [] }

def flushText (s : Reply) : Reply :=
  if s.textBuf = [] then s else { publish (.delta .text s.textBuf) s with textBuf := [] }

def flushBuffers (s : Reply) : Reply := s.flushReasoning.flushText

/-- A part at the end of the reply. -/
def push (p : StoredPart) (s : Reply) : Reply := { s with parts := s.parts ++ [p] }

/-- `recordApprovedRun`, and the part of the result at the end of the reply. -/
def pushResult (id : Nat) (p : StoredPart) (s : Reply) : Reply :=
  if gated s.parts id then
    { s with approvedRuns := id :: s.approvedRuns, executed := s.executed ++ [p], parts := s.parts ++ [p] }
  else s.push p

/-- The part of a call whose result was recorded. -/
def recorded (s : Reply) (p : StoredPart) : Bool := (partId p).any (s.approvedRuns.contains ·)

def discardPartial (suspendedParts : Nat) (s : Reply) : Reply :=
  let approvedResults := (s.parts.drop suspendedParts).filter s.recorded
  let parts := s.parts.take suspendedParts ++ approvedResults
  let keep := ((parts.take suspendedParts).filter drawn).length
  { parts := parts
    approvedRuns := s.approvedRuns
    reasonBuf := []
    textBuf := []
    copy := (CopyEvent.reset keep).apply s.copy
    before := parts
    executed := [] }

end Reply

open Reply

/-- What an event does; `fits` says whether a result is small enough to be published. -/
def step (fits : ToolOutput → Bool) (suspendedParts : Nat) (s : Reply) : Event → Reply
  | .reasoningDelta text => { s with parts := appendReasoning text s.parts, reasonBuf := s.reasonBuf ++ text }
  | .textDelta text => if text = [] then s else { s with parts := appendText text s.parts, textBuf := s.textBuf ++ text }
  | .toolInputStart id name => s.flushBuffers.publish (.toolInputStart id name)
  | .toolCall id name input => (s.flushBuffers.push (.toolCall id name input none)).publish (.toolCall id name input)
  | .askCall id input form =>
    let s := (s.flushBuffers.push (.toolCall id "ask" input none)).publish (.toolCall id "ask" input)
    { s with parts := mark id (.answer { form := form, value := none }) s.parts }.publish (.ask id form)
  | .toolApprovalRequest id name input approvalId =>
    let parts := if s.parts.any (isCall id) then s.parts else s.parts ++ [.toolCall id name input none]
    let waiting := mark id (.approval { id := approvalId, approved := none, reason := none }) parts
    ({ s with parts := waiting }.flushBuffers).publish (.toolApproval id approvalId)
  | .toolResult id name output =>
    (s.flushBuffers.pushResult id (.toolResult id name output)).publish (.toolResult id (if fits output then some output else none))
  | .toolError id name error invalid =>
    (s.flushBuffers.pushResult id (.toolError id name error invalid)).publish (.toolError id error)
  | .toolOutputDenied id name present =>
    if approved s.parts id then
      (s.flushBuffers.pushResult id (.toolResult id name (notRun present))).publish (.toolResult id (some (notRun present)))
    else s
  | .elicit id form => s.publish (.ask id form)
  | .flush => s.flushBuffers
  | .discard => s.discardPartial suspendedParts

/-- A discard now gives the parts before the attempt with the results of the approved calls it ran, and a copy that is their drawing. -/
def Restored (movedPast : Bool) (row : PresenterRow) (suspendedParts : Nat) (s : Reply) : Prop :=
  (s.discardPartial suspendedParts).parts = s.before ++ s.executed ∧
    (s.discardPartial suspendedParts).copy = drawing movedPast row (s.discardPartial suspendedParts).parts

/-! ## The events that leave the loaded half alone -/

/-- Nothing stands behind the first `n`, and the last of them takes what comes. -/
def joins {α : Type*} (takes : α → Option α) (n : Nat) (xs : List α) : Bool := xs.length ≤ n && (xs.getLast?.bind takes).isSome

/-- The number of parts drawn of the loaded half. -/
def kept (suspendedParts : Nat) (s : Reply) : Nat := ((s.parts.take suspendedParts).filter drawn).length

/-- What is buffered joins no part drawn of the loaded half. -/
def flushSpares (suspendedParts : Nat) (s : Reply) : Bool :=
  (s.reasonBuf = [] || !joins (CopyPart.joined .reasoning []) (kept suspendedParts s) s.copy) &&
    (s.textBuf = [] || !joins (CopyPart.joined .text []) (kept suspendedParts s) s.flushReasoning.copy)

/-- The id is that of a call of the loaded half. -/
def loaded (suspendedParts : Nat) (s : Reply) (id : Nat) : Bool := (s.parts.take suspendedParts).any (isCall id)

/-- Every call of the id in the loaded half has an approval that is decided. -/
def decided (suspendedParts : Nat) (s : Reply) (id : Nat) : Bool :=
  (s.parts.take suspendedParts).all (fun p => !isCall id p || (approvalOf p).any (fun a => a.approved.isSome))

/-- The result of a decided call of the loaded half, or of a call of the attempt that waits on no approval. -/
def resultSpares (suspendedParts : Nat) (s : Reply) (id : Nat) (fits : Bool) : Bool :=
  if loaded suspendedParts s id then decided suspendedParts s id && fits else !gated s.parts id

/-- The event leaves the loaded half alone, but for the result of a call of it that was decided on. -/
def spares (fits : ToolOutput → Bool) (suspendedParts : Nat) (s : Reply) : Event → Bool
  | .reasoningDelta text => text = [] || !joins (joined .reasoning []) suspendedParts s.parts
  | .textDelta text => text = [] || !joins (joined .text []) suspendedParts s.parts
  | .toolInputStart _ _ => flushSpares suspendedParts s
  | .toolCall id _ _ => flushSpares suspendedParts s && !loaded suspendedParts s id
  | .askCall id _ _ => flushSpares suspendedParts s && !loaded suspendedParts s id
  | .toolApprovalRequest id _ _ _ => flushSpares suspendedParts s && !loaded suspendedParts s id
  | .toolResult id _ output => flushSpares suspendedParts s && resultSpares suspendedParts s id (fits output)
  | .toolError id _ _ _ => flushSpares suspendedParts s && (!loaded suspendedParts s id && !gated s.parts id)
  | .toolOutputDenied id _ _ =>
    !approved s.parts id || (flushSpares suspendedParts s && resultSpares suspendedParts s id true)
  | .elicit id _ => !loaded suspendedParts s id
  | .flush => flushSpares suspendedParts s
  | .discard => true

namespace DiscardAux

/-! ### Joining the last part -/

variable {α : Type*}

variable {xs : List α}

theorem joinLast_take (join : α → Option α) (new : α) {n : Nat} (hn : n ≤ xs.length) (h : joins join n xs = false) :
    (joinLast join new xs).take n = xs.take n ∧ n ≤ (joinLast join new xs).length := by
  unfold joinLast
  cases hj : xs.getLast?.bind join with
  | none => exact ⟨List.take_append_of_le_length hn, by simp only [List.length_append]; omega⟩
  | some x =>
    have hlt : n < xs.length := by
      unfold joins at h
      simpa [hj] using h
    have hle : n ≤ xs.dropLast.length := by
      rw [List.length_dropLast]
      omega
    refine ⟨?_, by simp only [List.length_append]; omega⟩
    rw [List.take_append_of_le_length hle, List.dropLast_eq_take, List.take_take, min_eq_left (by omega)]

theorem joinLast_append (join : α → Option α) (new : α) {ys : List α} (h : joins join xs.length (xs ++ ys) = false) :
    joinLast join new (xs ++ ys) = xs ++ joinLast join new ys := by
  unfold joinLast
  cases ys with
  | nil =>
    simp only [List.append_nil, joins, le_refl, decide_true, Bool.true_and] at h ⊢
    cases hj : xs.getLast?.bind join with
    | none => simp
    | some x => simp [hj] at h
  | cons y ys =>
    rw [List.getLast?_append_of_ne_nil xs (List.cons_ne_nil y ys)]
    cases (y :: ys).getLast?.bind join with
    | none => simp
    | some x => simp [List.dropLast_append_of_ne_nil (List.cons_ne_nil y ys)]

variable {join : α → Option α} {new : α}

theorem joinLast_of_same (hjoin : ∀ x y, join x = some y → y = x) :
    joinLast join new xs = xs ∨ joinLast join new xs = xs ++ [new] := by
  unfold joinLast
  cases hj : xs.getLast?.bind join with
  | none => exact .inr rfl
  | some x =>
    obtain ⟨y, hy, hx⟩ := Option.bind_eq_some_iff.mp hj
    rw [hjoin y x hx]
    exact .inl (List.dropLast_append_getLast? _ hy)

theorem filter_joinLast {p : α → Bool} (hnew : p new = false)
    (hjoin : ∀ x y, join x = some y → p x = false ∧ p y = false) (xs : List α) :
    (joinLast join new xs).filter p = xs.filter p := by
  unfold joinLast
  cases hj : xs.getLast?.bind join with
  | none => simp [hnew]
  | some x =>
    obtain ⟨y, hy, hx⟩ := Option.bind_eq_some_iff.mp hj
    conv_rhs => rw [← List.dropLast_append_getLast? _ hy]
    simp [(hjoin y x hx).1, (hjoin y x hx).2]

theorem mem_joinLast {x : α} (h : x ∈ joinLast join new xs) :
    x ∈ xs ∨ x = new ∨ ∃ y, join y = some x := by
  unfold joinLast at h
  cases hj : xs.getLast?.bind join with
  | none =>
    simp only [hj, List.mem_append, List.mem_singleton] at h
    exact h.imp_right .inl
  | some z =>
    simp only [hj, List.mem_append, List.mem_singleton] at h
    obtain ⟨y, hy, hz⟩ := Option.bind_eq_some_iff.mp hj
    rcases h with h | rfl
    · exact .inl (List.mem_of_mem_dropLast h)
    · exact .inr (.inr ⟨y, hz⟩)

/-! ### Runs and marks -/

theorem joined_isSome (type : RunType) (delta : List Char) (p : StoredPart) :
    (joined type delta p).isSome = (joined type [] p).isSome := by
  cases p <;> simp only [joined] <;> split <;> rfl

theorem copy_joined_isSome (type : RunType) (delta : List Char) (p : CopyPart) :
    (CopyPart.joined type delta p).isSome = (CopyPart.joined type [] p).isSome := by
  cases p with
  | run type' text =>
    simp only [CopyPart.joined]
    split <;> rfl
  | card c => rfl

theorem joins_congr {f g : α → Option α} (h : ∀ x, (f x).isSome = (g x).isSome) (n : Nat) (xs : List α) :
    joins f n xs = joins g n xs := by
  unfold joins
  cases xs.getLast? with
  | none => rfl
  | some x => simp [h x]

theorem partId_runPart (type : RunType) (delta : List Char) : partId (runPart type delta) = none := by
  cases type <;> rfl

variable {type : RunType} {p q : StoredPart}

theorem partId_joined {delta : List Char} (h : joined type delta p = some q) :
    partId p = none ∧ partId q = none := by
  cases p <;> simp only [joined] at h
  · split at h
    · cases h
      exact ⟨rfl, rfl⟩
    · cases h
  · split at h
    · cases h
      exact ⟨rfl, rfl⟩
    · cases h
  all_goals cases h

theorem joined_nil (h : joined type [] p = some q) : q = p := by
  cases p <;> simp only [joined, List.append_nil] at h
  · split at h
    · exact (Option.some.inj h).symm
    · cases h
  · split at h
    · exact (Option.some.inj h).symm
    · cases h
  all_goals cases h

variable {id : Nat} {w : Suspension} {parts : List StoredPart}

theorem mem_mark (h : p ∈ mark id w parts) :
    p ∈ parts ∨ partId p = some id := by
  induction parts with
  | nil => exact .inl h
  | cons q rest ih =>
    cases q with
    | toolCall i name input v =>
      simp only [mark] at h
      split at h
      · rename_i hi
        rcases List.mem_cons.mp h with rfl | h
        · exact .inr (by simp [partId, hi])
        · exact .inl (List.mem_cons_of_mem _ h)
      · rcases List.mem_cons.mp h with rfl | h
        · exact .inl List.mem_cons_self
        · exact (ih h).imp_left (List.mem_cons_of_mem _)
    | _ =>
      rcases List.mem_cons.mp h with rfl | h
      · exact .inl List.mem_cons_self
      · exact (ih h).imp_left (List.mem_cons_of_mem _)

theorem filter_mark {f : StoredPart → Bool} (hf : ∀ p, partId p = some id → f p = false)
    (parts : List StoredPart) : (mark id w parts).filter f = parts.filter f := by
  induction parts with
  | nil => rfl
  | cons q rest ih =>
    cases q with
    | toolCall i name input v =>
      simp only [mark]
      split
      · rename_i hi
        subst hi
        simp [hf _ (rfl : partId (.toolCall i name input v) = some i), hf _ (rfl : partId (.toolCall i name input (some w)) = some i)]
      · simp [List.filter_cons, ih]
    | _ => simp [mark, List.filter_cons, ih]

theorem mark_append {xs : List StoredPart} (h : xs.any (isCall id) = false) (ys : List StoredPart) :
    mark id w (xs ++ ys) = xs ++ mark id w ys := by
  induction xs with
  | nil => rfl
  | cons q rest ih =>
    simp only [List.any_cons, Bool.or_eq_false_iff] at h
    cases q with
    | toolCall i name input v =>
      have hi : i ≠ id := by simpa [isCall] using h.1
      simp [mark, hi, ih h.2]
    | _ => simp [mark, ih h.2]

/-! ### The runner's parts -/

variable {base tail : List StoredPart} {s t : Reply}

/-- A part without the id of a call of the loaded half. -/
def Loose (base : List StoredPart) (p : StoredPart) : Prop := ∀ i, partId p = some i → base.any (isCall i) = false

/-- The loaded half stands as it was, and what stands behind it has no part of a call of it but the results recorded. -/
structure HalfKept (base tail : List StoredPart) (s : Reply) : Prop where
  parts : s.parts = base ++ tail
  runs : ∀ i ∈ s.approvedRuns, base.any (isCall i) = true
  fresh : ∀ p ∈ tail, Loose base p ∨ (drawn p = false ∧ s.recorded p = true)
  same : base ++ tail.filter s.recorded = s.before ++ s.executed

theorem recorded_of_loose (h : ∀ i ∈ s.approvedRuns, base.any (isCall i) = true) (hp : Loose base p) :
    s.recorded p = false := by
  unfold recorded
  cases hid : partId p with
  | none => rfl
  | some i =>
    simp only [Option.any_some, List.contains_eq_mem, decide_eq_false_iff_not]
    intro hi
    have := h i hi
    rw [hp i hid] at this
    cases this

theorem loose_of_none (h : partId p = none) : Loose base p := by
  intro i hi
  rw [h] at hi
  cases hi

theorem loose_of_id (h : partId p = some id) (hid : base.any (isCall id) = false) : Loose base p := by
  intro i hi
  rw [h] at hi
  cases hi
  exact hid

theorem HalfKept.congr (h : HalfKept base tail s) (hparts : t.parts = s.parts) (hruns : t.approvedRuns = s.approvedRuns)
    (hbefore : t.before = s.before) (hexecuted : t.executed = s.executed) : HalfKept base tail t := by
  have hrec : t.recorded = s.recorded := by
    funext p
    simp only [recorded, hruns]
  exact ⟨hparts.trans h.parts, hruns ▸ h.runs, hrec ▸ h.fresh, by rw [hrec, hbefore, hexecuted, h.same]⟩

theorem HalfKept.loose {tail' : List StoredPart} (h : HalfKept base tail s) (hparts : t.parts = base ++ tail')
    (hruns : t.approvedRuns = s.approvedRuns) (hbefore : t.before = s.before) (hexecuted : t.executed = s.executed)
    (hmem : ∀ p ∈ tail', p ∈ tail ∨ Loose base p) (hfilter : tail'.filter s.recorded = tail.filter s.recorded) :
    HalfKept base tail' t := by
  have hrec : t.recorded = s.recorded := by
    funext p
    simp only [recorded, hruns]
  refine ⟨hparts, hruns ▸ h.runs, ?_, by rw [hrec, hfilter, h.same, hbefore, hexecuted]⟩
  intro p hp
  rw [hrec]
  exact (hmem p hp).elim (h.fresh p) .inl

theorem HalfKept.push (h : HalfKept base tail s) (hp : Loose base p) : HalfKept base (tail ++ [p]) (s.push p) := by
  refine h.loose (by simp [Reply.push, h.parts]) rfl rfl rfl ?_ ?_
  · intro q hq
    rcases List.mem_append.mp hq with hq | hq
    · exact .inl hq
    · exact .inr (List.mem_singleton.mp hq ▸ hp)
  · simp [List.filter_append, recorded_of_loose h.runs hp]

theorem HalfKept.appendRun (h : HalfKept base tail s) (type : RunType) (text : List Char)
    (hj : text = [] ∨ joins (joined type []) base.length s.parts = false) (ht : t.parts = appendRun type text s.parts)
    (hruns : t.approvedRuns = s.approvedRuns) (hbefore : t.before = s.before) (hexecuted : t.executed = s.executed) :
    ∃ tail', HalfKept base tail' t := by
  have hnew : Loose base (runPart type text) := loose_of_none (partId_runPart type text)
  have hjoin : joins (joined type []) base.length s.parts = false →
      HalfKept base (joinLast (joined type text) (runPart type text) tail) t := by
    intro hjf
    rw [joins_congr (fun p => (joined_isSome type text p).symm), h.parts] at hjf
    refine h.loose ?_ hruns hbefore hexecuted ?_ ?_
    · rw [ht, Discard.appendRun, h.parts, joinLast_append _ _ hjf]
    · intro p hp
      rcases mem_joinLast hp with hp | rfl | ⟨q, hq⟩
      · exact .inl hp
      · exact .inr hnew
      · exact .inr (loose_of_none (partId_joined hq).2)
    · refine filter_joinLast (recorded_of_loose h.runs hnew) (fun p q hpq => ?_) tail
      exact ⟨recorded_of_loose h.runs (loose_of_none (partId_joined hpq).1),
        recorded_of_loose h.runs (loose_of_none (partId_joined hpq).2)⟩
  rcases hj with rfl | hjf
  · have hsame : Discard.appendRun type [] s.parts = s.parts ∨ Discard.appendRun type [] s.parts = s.parts ++ [runPart type []] :=
      joinLast_of_same fun _ _ => joined_nil
    rcases hsame with hsame | hsame
    · exact ⟨tail, h.congr (ht.trans hsame) hruns hbefore hexecuted⟩
    · exact ⟨_, (h.push hnew).congr (ht.trans hsame) hruns hbefore hexecuted⟩
  · exact ⟨_, hjoin hjf⟩

theorem HalfKept.mark (h : HalfKept base tail s) (hid : base.any (isCall id) = false) (w : Suspension) :
    HalfKept base (Discard.mark id w tail) { s with parts := Discard.mark id w s.parts } := by
  refine h.loose ?_ rfl rfl rfl (fun p hp => (mem_mark hp).imp_right fun hp => loose_of_id hp hid) ?_
  · rw [h.parts, mark_append hid]
  · exact filter_mark (fun p hp => recorded_of_loose h.runs (loose_of_id hp hid)) tail

theorem pushResult_of_not_gated (hg : gated s.parts id = false) : s.pushResult id p = s.push p :=
  if_neg (by simp [hg])

theorem HalfKept.recorded_cons (h : HalfKept base tail s) (hid : base.any (isCall id) = true) :
    ∀ q ∈ tail, (partId q).any ((id :: s.approvedRuns).contains ·) = s.recorded q := by
  intro q hq
  rcases h.fresh q hq with hl | hr
  · rw [recorded_of_loose h.runs hl]
    cases hi : partId q with
    | none => rfl
    | some i =>
      have hne : i ≠ id := by
        rintro rfl
        rw [hl i hi] at hid
        cases hid
      have := recorded_of_loose h.runs hl
      simpa [recorded, hi, hne] using this
  · rw [hr.2]
    have hrec := hr.2
    unfold recorded at hrec
    cases hi : partId q with
    | none => simp [hi] at hrec
    | some i =>
      simp only [hi, Option.any_some, List.contains_eq_mem, decide_eq_true_eq] at hrec
      simp [hrec]

theorem HalfKept.pushResult_recorded (h : HalfKept base tail s) (hp : partId p = some id)
    (hd : drawn p = false) (hid : base.any (isCall id) = true) (hg : gated s.parts id = true) :
    HalfKept base (tail ++ [p]) (s.pushResult id p) := by
  unfold pushResult
  rw [if_pos hg]
  have hrec := h.recorded_cons hid
  have hself : (partId p).any ((id :: s.approvedRuns).contains ·) = true := by simp [hp]
  refine ⟨by simp [h.parts], ?_, ?_, ?_⟩
  · intro i hi
    rcases List.mem_cons.mp hi with rfl | hi
    · exact hid
    · exact h.runs i hi
  · intro q hq
    rcases List.mem_append.mp hq with hq | hq
    · refine (h.fresh q hq).imp_right (fun hr => ⟨hr.1, ?_⟩)
      exact (hrec q hq).trans hr.2
    · exact .inr ⟨List.mem_singleton.mp hq ▸ hd, List.mem_singleton.mp hq ▸ hself⟩
  · have hfilter :
        (tail ++ [p]).filter (fun q => (partId q).any ((id :: s.approvedRuns).contains ·)) = tail.filter s.recorded ++ [p] := by
      have hlast : [p].filter (fun q => (partId q).any ((id :: s.approvedRuns).contains ·)) = [p] :=
        List.filter_eq_self.mpr fun q hq => List.mem_singleton.mp hq ▸ hself
      rw [List.filter_append, List.filter_congr hrec, hlast]
    change base ++ (tail ++ [p]).filter (fun q => (partId q).any ((id :: s.approvedRuns).contains ·)) = _
    rw [hfilter, ← List.append_assoc, h.same, List.append_assoc]

theorem HalfKept.call_kept (h : HalfKept base tail s) (hp : p ∈ s.before ++ s.executed) :
    p ∈ base ∨ drawn p = false := by
  rw [← h.same] at hp
  rcases List.mem_append.mp hp with hp | hp
  · exact .inl hp
  · obtain ⟨hp, hrec⟩ := List.mem_filter.mp hp
    rcases h.fresh p hp with hl | hr
    · rw [recorded_of_loose h.runs hl] at hrec
      cases hrec
    · exact .inr hr.1

/-! ### The drawing -/

variable {movedPast : Bool} {row : PresenterRow}

theorem drawing_eq (parts : List StoredPart) :
    drawing movedPast row parts = (parts.filterMap (Presenter.uiPart row.status movedPast parts)).map CopyPart.ofUI := rfl

theorem uiPart_isSome (status : Option MessageStatus) (parts : List StoredPart) (p : StoredPart) :
    (Presenter.uiPart status movedPast parts p).isSome = drawn p := by
  cases p with
  | text text | reasoning text => by_cases h : text = [] <;> simp [Presenter.uiPart, drawn, h]
  | _ => rfl

theorem length_filterMap_uiPart (status : Option MessageStatus) (all parts : List StoredPart) :
    (parts.filterMap (Presenter.uiPart status movedPast all)).length = (parts.filter drawn).length := by
  induction parts with
  | nil => rfl
  | cons p rest ih =>
    have hp : (Presenter.uiPart status movedPast all p).isSome = drawn p := uiPart_isSome status all p
    cases hu : Presenter.uiPart status movedPast all p with
    | none =>
      have hd : drawn p = false := by simpa [hu] using hp.symm
      simp [hu, hd, ih]
    | some u =>
      have hd : drawn p = true := by simpa [hu] using hp.symm
      simp [hu, hd, ih]

theorem length_drawing (parts : List StoredPart) : (drawing movedPast row parts).length = (parts.filter drawn).length := by
  rw [drawing_eq, List.length_map, length_filterMap_uiPart]

theorem callPart_id (status : Option MessageStatus) (parts : List StoredPart) (id : Nat) (name input : String) (w : Option Suspension) :
    (Presenter.callPart status movedPast parts id name input w).toolCallId = id := by
  cases w with
  | none => rfl
  | some w => cases w <;> rfl

theorem isCard_ofUI {status : Option MessageStatus} {u : UIPart}
    (hu : Presenter.uiPart status movedPast parts p = some u) : (CopyPart.ofUI u).isCard id = isCall id p := by
  cases p with
  | text text | reasoning text =>
    simp only [Presenter.uiPart] at hu
    split at hu
    · cases hu
    · cases hu
      rfl
  | toolCall i name input w =>
    cases hu
    simp [CopyPart.ofUI, CopyPart.isCard, Card.ofPart, callPart_id, isCall]
  | toolResult i name output | toolError i name error invalid => cases hu

theorem any_isCard_drawing (h : ∀ p ∈ parts, isCall id p = false) :
    ∀ c ∈ drawing movedPast row parts, c.isCard id = false := by
  intro c hc
  rw [drawing_eq] at hc
  obtain ⟨u, hu, rfl⟩ := List.mem_map.mp hc
  obtain ⟨p, hp, hpu⟩ := List.mem_filterMap.mp hu
  rw [isCard_ofUI hpu]
  exact h p hp

theorem resultMap_snoc (parts : List StoredPart) (i id : Nat) (name : String) (output : ToolOutput) :
    Presenter.resultMap (parts ++ [.toolResult i name output]) id = if i = id then some output else Presenter.resultMap parts id := by
  simp [Presenter.resultMap, List.foldl_append]

theorem errorMap_snoc (parts : List StoredPart) (i id : Nat) (name : String) (output : ToolOutput) :
    Presenter.errorMap (parts ++ [.toolResult i name output]) id = Presenter.errorMap parts id := by
  simp [Presenter.errorMap, List.foldl_append]

theorem uiPart_snoc (status : Option MessageStatus) (parts : List StoredPart) (i : Nat) (name : String) (output : ToolOutput)
    (hp : isCall i p = true → (approvalOf p).any (fun a => a.approved.isSome) = true) :
    (Presenter.uiPart status movedPast (parts ++ [.toolResult i name output]) p).map CopyPart.ofUI =
      ((Presenter.uiPart status movedPast parts p).map CopyPart.ofUI).map (CopyPart.onCard i (Card.result (some output))) := by
  cases p with
  | text text =>
    simp only [Presenter.uiPart]
    split <;> rfl
  | reasoning text =>
    simp only [Presenter.uiPart]
    split <;> rfl
  | toolResult j name' output' => rfl
  | toolError j name' error invalid => rfl
  | toolCall j name' input w =>
    by_cases hj : j = i
    · subst hj
      have hdec := hp (by simp [isCall])
      cases w with
      | none => simp [approvalOf] at hdec
      | some w =>
        cases w with
        | answer q => simp [approvalOf] at hdec
        | approval a =>
          obtain ⟨b, hb⟩ := Option.isSome_iff_exists.mp (show a.approved.isSome = true by simpa [approvalOf] using hdec)
          simp [Presenter.uiPart, Presenter.callPart, Presenter.approvalPart, resultMap_snoc, errorMap_snoc, hb, CopyPart.ofUI,
            Card.ofPart, CopyPart.onCard, Card.result]
    · have hij : ¬i = j := fun h => hj h.symm
      simp only [Presenter.uiPart, Presenter.callPart, resultMap_snoc, errorMap_snoc, if_neg hij, Option.map_some, CopyPart.ofUI,
        CopyPart.onCard]
      rw [if_neg]
      change ¬(Presenter.callPart status movedPast parts j name' input w).toolCallId = i
      rw [callPart_id]
      exact hj

theorem drawing_snoc (parts : List StoredPart) (i : Nat) (name : String) (output : ToolOutput)
    (h : ∀ p ∈ parts, isCall i p = true → (approvalOf p).any (fun a => a.approved.isSome) = true) :
    drawing movedPast row (parts ++ [.toolResult i name output]) =
      (drawing movedPast row parts).map (CopyPart.onCard i (Card.result (some output))) := by
  rw [drawing_eq, drawing_eq, List.filterMap_append]
  simp only [List.filterMap_cons, List.filterMap_nil, Presenter.uiPart, List.append_nil, List.map_filterMap]
  exact List.filterMap_congr fun p hp => uiPart_snoc row.status parts i name output (h p hp)

/-! ### The client's copy -/

/-- The first `k` parts of the copy are the drawing, whatever stands behind them. -/
structure Shows (k : Nat) (shown copy : List CopyPart) : Prop where
  take : copy.take k = shown
  long : k ≤ copy.length

variable {k : Nat} {shown copy : List CopyPart}

theorem Shows.append (h : Shows k shown copy) (p : CopyPart) : Shows k shown (copy ++ [p]) where
  take := (List.take_append_of_le_length h.long).trans h.take
  long := by
    have := h.long
    simp only [List.length_append]
    omega

theorem Shows.delta (h : Shows k shown copy) {text : List Char}
    (hj : joins (CopyPart.joined type []) k copy = false) : Shows k shown ((CopyEvent.delta type text).apply copy) := by
  rw [joins_congr (fun p => (copy_joined_isSome type text p).symm)] at hj
  obtain ⟨htake, hlong⟩ := joinLast_take _ (.run type text) h.long hj
  exact ⟨htake.trans h.take, hlong⟩

theorem Shows.map (h : Shows k shown copy) (f : CopyPart → CopyPart) : Shows k (shown.map f) (copy.map f) where
  take := by rw [← List.map_take, h.take]
  long := by
    rw [List.length_map]
    exact h.long

theorem Shows.onCard (h : Shows k shown copy) (hid : ∀ c ∈ shown, c.isCard id = false) (f : Card → Card) :
    Shows k shown (copy.map (CopyPart.onCard id f)) := by
  have hsame : shown.map (CopyPart.onCard id f) = shown := by
    conv_rhs => rw [← List.map_id shown]
    refine List.map_congr_left (fun c hc => ?_)
    cases c with
    | run type text => rfl
    | card c => exact if_neg (by simpa [CopyPart.isCard] using hid _ hc)
  have := h.map (CopyPart.onCard id f)
  rwa [hsame] at this

theorem Shows.openCard (h : Shows k shown copy) (hid : ∀ c ∈ shown, c.isCard id = false) (f : Card → Card) (p : CopyPart) :
    Shows k shown (if copy.any (CopyPart.isCard id) then copy.map (CopyPart.onCard id f) else copy ++ [p]) := by
  split
  · exact h.onCard hid f
  · exact h.append p

/-! ### Steps -/

@[simp] theorem flushBuffers_parts (s : Reply) : s.flushBuffers.parts = s.parts := by
  unfold flushBuffers flushText flushReasoning
  split <;> split <;> rfl

@[simp] theorem flushBuffers_approvedRuns (s : Reply) : s.flushBuffers.approvedRuns = s.approvedRuns := by
  unfold flushBuffers flushText flushReasoning
  split <;> split <;> rfl

@[simp] theorem flushBuffers_before (s : Reply) : s.flushBuffers.before = s.before := by
  unfold flushBuffers flushText flushReasoning
  split <;> split <;> rfl

@[simp] theorem flushBuffers_executed (s : Reply) : s.flushBuffers.executed = s.executed := by
  unfold flushBuffers flushText flushReasoning
  split <;> split <;> rfl

/-- The loaded half stands, and the copy shows it. -/
structure Sound (movedPast : Bool) (row : PresenterRow) (base : List StoredPart) (s : Reply) : Prop where
  half : ∃ tail, HalfKept base tail s
  shows : Shows (base.filter drawn).length (drawing movedPast row (s.before ++ s.executed)) s.copy

variable {fits : ToolOutput → Bool} {id : Nat}

theorem take_parts (h : Sound movedPast row base s) : s.parts.take base.length = base := by
  obtain ⟨tail, hs⟩ := h.half
  rw [hs.parts, List.take_left]

theorem loaded_eq (h : Sound movedPast row base s) (id : Nat) : loaded base.length s id = base.any (isCall id) := by
  rw [loaded, take_parts h]

theorem not_isCall (h : drawn p = false) (id : Nat) : isCall id p = false := by
  cases p with
  | toolCall i name input w => cases h
  | _ => rfl

theorem not_drawn (h : Sound movedPast row base s) (hid : base.any (isCall id) = false) :
    ∀ c ∈ drawing movedPast row (s.before ++ s.executed), c.isCard id = false := by
  obtain ⟨tail, hs⟩ := h.half
  refine any_isCard_drawing fun p hp => ?_
  rcases hs.call_kept hp with hp | hp
  · simpa using List.any_eq_false.mp hid p hp
  · exact not_isCall hp id

theorem decided_kept (h : Sound movedPast row base s) (hd : decided base.length s id = true)
    (hp : p ∈ s.before ++ s.executed) (hc : isCall id p = true) : (approvalOf p).any (fun a => a.approved.isSome) = true := by
  obtain ⟨tail, hs⟩ := h.half
  rw [decided, take_parts h, List.all_eq_true] at hd
  rcases hs.call_kept hp with hp | hp
  · simpa [hc] using hd p hp
  · rw [not_isCall hp id] at hc
    cases hc

theorem gated_of_decided (h : Sound movedPast row base s) (hl : base.any (isCall id) = true) (hd : decided base.length s id = true) :
    gated s.parts id = true := by
  obtain ⟨tail, hs⟩ := h.half
  rw [decided, take_parts h, List.all_eq_true] at hd
  obtain ⟨p, hp, hc⟩ := List.any_eq_true.mp hl
  have hp' := hd p hp
  simp only [hc, Bool.not_true, Bool.false_or] at hp'
  have hsome : (approvalOf p).isSome = true := by
    cases ha : approvalOf p with
    | none => simp [ha] at hp'
    | some a => rfl
  refine List.any_eq_true.mpr ⟨p, ?_, by simp [hc, hsome]⟩
  rw [hs.parts]
  exact List.mem_append_left _ hp

theorem Sound.congr (h : Sound movedPast row base s) (hparts : t.parts = s.parts) (hruns : t.approvedRuns = s.approvedRuns)
    (hbefore : t.before = s.before) (hexecuted : t.executed = s.executed)
    (hshows : Shows (base.filter drawn).length (drawing movedPast row (s.before ++ s.executed)) t.copy) : Sound movedPast row base t := by
  obtain ⟨tail, hs⟩ := h.half
  refine ⟨⟨tail, hs.congr hparts hruns hbefore hexecuted⟩, ?_⟩
  rw [hbefore, hexecuted]
  exact hshows

theorem Sound.publish (h : Sound movedPast row base s) {e : CopyEvent}
    (he : Shows (base.filter drawn).length (drawing movedPast row (s.before ++ s.executed)) (e.apply s.copy)) :
    Sound movedPast row base (s.publish e) := h.congr rfl rfl rfl rfl he

theorem flushSpares_congr {n : Nat} (hparts : t.parts.take n = s.parts.take n) (hreason : t.reasonBuf = s.reasonBuf)
    (htext : t.textBuf = s.textBuf) (hcopy : t.copy = s.copy) : flushSpares n t = flushSpares n s := by
  have hflush : t.flushReasoning.copy = s.flushReasoning.copy := by
    unfold flushReasoning Reply.publish
    rw [hreason, hcopy]
    split
    · exact hcopy
    · rfl
  unfold flushSpares kept
  rw [hparts, hreason, htext, hcopy, hflush]

theorem Sound.flush (h : Sound movedPast row base s) (hf : flushSpares base.length s = true) :
    Sound movedPast row base s.flushBuffers := by
  refine h.congr (by simp) (by simp) (by simp) (by simp) ?_
  simp only [flushSpares, kept, take_parts h, Bool.and_eq_true, Bool.or_eq_true, decide_eq_true_eq, Bool.not_eq_true'] at hf
  have hreason : Shows (base.filter drawn).length (drawing movedPast row (s.before ++ s.executed)) s.flushReasoning.copy := by
    unfold flushReasoning
    split
    · exact h.shows
    · rename_i hne
      exact h.shows.delta (hf.1.resolve_left hne)
  have hbuf : s.flushReasoning.textBuf = s.textBuf := by
    unfold flushReasoning
    split <;> rfl
  unfold flushBuffers flushText
  rw [hbuf]
  split
  · exact hreason
  · rename_i hne
    exact hreason.delta (hf.2.resolve_left hne)

theorem Sound.push (h : Sound movedPast row base s) (hp : Loose base p) : Sound movedPast row base (s.push p) := by
  obtain ⟨tail, hs⟩ := h.half
  exact ⟨⟨_, hs.push hp⟩, h.shows⟩

theorem Sound.mark (h : Sound movedPast row base s) (hid : base.any (isCall id) = false) (w : Suspension) :
    Sound movedPast row base { s with parts := Discard.mark id w s.parts } := by
  obtain ⟨tail, hs⟩ := h.half
  exact ⟨⟨_, hs.mark hid w⟩, h.shows⟩

theorem Sound.appendRun (h : Sound movedPast row base s) (type : RunType) (text : List Char)
    (hj : (text = [] || !joins (joined type []) base.length s.parts) = true) (ht : t.parts = Discard.appendRun type text s.parts)
    (hruns : t.approvedRuns = s.approvedRuns) (hbefore : t.before = s.before) (hexecuted : t.executed = s.executed)
    (hcopy : t.copy = s.copy) : Sound movedPast row base t := by
  obtain ⟨tail, hs⟩ := h.half
  simp only [Bool.or_eq_true, decide_eq_true_eq, Bool.not_eq_true'] at hj
  refine ⟨hs.appendRun type text hj ht hruns hbefore hexecuted, ?_⟩
  rw [hbefore, hexecuted, hcopy]
  exact h.shows

variable {name : String}

theorem Sound.result (h : Sound movedPast row base s) {output : ToolOutput} {fit : Bool}
    (hr : resultSpares base.length s id fit = true) :
    Sound movedPast row base
      ((s.pushResult id (.toolResult id name output)).publish (.toolResult id (if fit then some output else none))) := by
  obtain ⟨tail, hs⟩ := h.half
  unfold resultSpares at hr
  rw [loaded_eq h] at hr
  by_cases hl : base.any (isCall id) = true
  · rw [if_pos hl, Bool.and_eq_true] at hr
    obtain ⟨hd, rfl⟩ := hr
    have hg := gated_of_decided h hl hd
    refine ⟨⟨_, (hs.pushResult_recorded rfl rfl hl hg).congr rfl rfl rfl rfl⟩, ?_⟩
    have hshow := h.shows.map (CopyPart.onCard id (Card.result (some output)))
    rw [← drawing_snoc _ id name output (fun p hp hc => decided_kept h hd hp hc)] at hshow
    simpa [Reply.publish, pushResult, hg, CopyEvent.apply] using hshow
  · rw [if_neg hl, Bool.not_eq_true'] at hr
    have hid : base.any (isCall id) = false := by simpa using hl
    have hp := h.push (loose_of_id rfl hid : Loose base (.toolResult id name output))
    rw [← pushResult_of_not_gated hr] at hp
    exact hp.publish (hp.shows.onCard (not_drawn hp hid) _)

theorem Sound.restored (h : Sound movedPast row base s) : Restored movedPast row base.length s := by
  obtain ⟨tail, hs⟩ := h.half
  have hparts : (s.discardPartial base.length).parts = s.before ++ s.executed := by
    rw [← hs.same]
    simp [discardPartial, hs.parts]
  refine ⟨hparts, ?_⟩
  rw [hparts, ← h.shows.take]
  simp [discardPartial, hs.parts, CopyEvent.apply]

theorem Sound.discard (h : Sound movedPast row base s) : Sound movedPast row base (s.discardPartial base.length) := by
  obtain ⟨hparts, hcopy⟩ := h.restored
  obtain ⟨tail, hs⟩ := h.half
  have hkept : (s.discardPartial base.length).parts = base ++ tail.filter s.recorded := by rw [hparts, hs.same]
  refine ⟨⟨tail.filter s.recorded, hkept, hs.runs, fun p hp => hs.fresh p (List.mem_of_mem_filter hp), ?_⟩, ?_⟩
  · change base ++ (tail.filter s.recorded).filter s.recorded = (s.discardPartial base.length).parts ++ []
    rw [hkept, List.filter_filter, List.append_nil]
    simp
  · change Shows _ (drawing movedPast row ((s.discardPartial base.length).parts ++ [])) _
    rw [hcopy, List.append_nil, hparts]
    refine ⟨?_, ?_⟩
    · rw [← h.shows.take, List.take_take, min_self]
    · rw [← h.shows.take, List.length_take, min_eq_left h.shows.long]

theorem sound_askCall (h : Sound movedPast row base s) {input : String} {form : AskForm}
    (he : spares fits base.length s (.askCall id input form) = true) :
    Sound movedPast row base (step fits base.length s (.askCall id input form)) := by
  simp only [spares, Bool.and_eq_true, Bool.not_eq_true', loaded_eq h] at he
  have hp := (h.flush he.1).push (loose_of_id rfl he.2 : Loose base (.toolCall id "ask" input none))
  have hc := hp.publish (e := .toolCall id "ask" input) (hp.shows.openCard (not_drawn hp he.2) _ _)
  have hm := hc.mark he.2 (.answer { form := form, value := none })
  exact hm.publish (hm.shows.openCard (not_drawn hm he.2) _ _)

theorem sound_toolApprovalRequest (h : Sound movedPast row base s) {input : String} {approvalId : Nat}
    (he : spares fits base.length s (.toolApprovalRequest id name input approvalId) = true) :
    Sound movedPast row base (step fits base.length s (.toolApprovalRequest id name input approvalId)) := by
  simp only [spares, Bool.and_eq_true, Bool.not_eq_true', loaded_eq h] at he
  have hp : Sound movedPast row base
      { s with parts := if s.parts.any (isCall id) then s.parts else s.parts ++ [.toolCall id name input none] } := by
    split
    · exact h
    · exact h.push (loose_of_id rfl he.2)
  have hm := hp.mark he.2 (.approval { id := approvalId, approved := none, reason := none })
  have hf := hm.flush ((flushSpares_congr ((take_parts hm).trans (take_parts h).symm) rfl rfl rfl).trans he.1)
  exact hf.publish (hf.shows.onCard (not_drawn hf he.2) _)

theorem sound_toolError (h : Sound movedPast row base s) {error : String} {invalid : Bool}
    (he : spares fits base.length s (.toolError id name error invalid) = true) :
    Sound movedPast row base (step fits base.length s (.toolError id name error invalid)) := by
  simp only [spares, Bool.and_eq_true, Bool.not_eq_true', loaded_eq h] at he
  have hf := h.flush he.1
  have hg : gated s.flushBuffers.parts id = false := by simpa using he.2.2
  have hp := hf.push (loose_of_id rfl he.2.1 : Loose base (.toolError id name error invalid))
  rw [← pushResult_of_not_gated hg] at hp
  exact hp.publish (hp.shows.onCard (not_drawn hp he.2.1) _)

theorem sound_step (h : Sound movedPast row base s) {e : Event} (he : spares fits base.length s e = true) :
    Sound movedPast row base (step fits base.length s e) := by
  cases e with
  | reasoningDelta text => exact h.appendRun .reasoning text he rfl rfl rfl rfl rfl
  | textDelta text =>
    simp only [step]
    split
    · exact h
    · exact h.appendRun .text text he rfl rfl rfl rfl rfl
  | toolInputStart id name =>
    have hf := h.flush he
    refine hf.publish ?_
    simp only [CopyEvent.apply]
    split
    · exact hf.shows
    · exact hf.shows.append _
  | toolCall id name input =>
    simp only [spares, Bool.and_eq_true, Bool.not_eq_true', loaded_eq h] at he
    have hp := (h.flush he.1).push (loose_of_id rfl he.2 : Loose base (.toolCall id name input none))
    exact hp.publish (hp.shows.openCard (not_drawn hp he.2) _ _)
  | askCall id input form => exact sound_askCall h he
  | toolApprovalRequest id name input approvalId => exact sound_toolApprovalRequest h he
  | toolResult id name output =>
    simp only [spares, Bool.and_eq_true] at he
    refine (h.flush he.1).result ?_
    simpa [resultSpares, loaded, decided] using he.2
  | toolError id name error invalid => exact sound_toolError h he
  | toolOutputDenied id name present =>
    simp only [step]
    split
    · rename_i happ
      simp only [spares, happ, Bool.not_true, Bool.false_or, Bool.and_eq_true] at he
      have hr : resultSpares base.length s.flushBuffers id true = true := by simpa [resultSpares, loaded, decided] using he.2
      exact (h.flush he.1).result hr
    · exact h
  | elicit id form =>
    simp only [spares, Bool.not_eq_true', loaded_eq h] at he
    exact h.publish (h.shows.openCard (not_drawn h he) _ _)
  | flush => exact h.flush he
  | discard => exact h.discard

theorem joined_ne {text : List Char} (ht : text ≠ []) (h : joined type text p = some q) :
    q ≠ p := by
  cases p <;> simp only [joined] at h
  · split at h
    · cases h
      simpa using ht
    · cases h
  · split at h
    · cases h
      simpa using ht
    · cases h
  all_goals cases h

theorem sound_start (movedPast : Bool) (row : PresenterRow) (base : List StoredPart) :
    Sound movedPast row base (start movedPast row base) where
  half := ⟨[], (List.append_nil base).symm, fun i hi => (List.not_mem_nil hi).elim, fun p hp => (List.not_mem_nil hp).elim, rfl⟩
  shows := by
    refine ⟨?_, (length_drawing base).ge⟩
    have hlength : (drawing movedPast row base).length = (base.filter drawn).length := length_drawing base
    rw [← hlength, start, List.append_nil, List.take_length]

end DiscardAux

open DiscardAux in
/-- A delta that joins a part of the loaded half is not undone. -/
theorem not_restored_of_joins (fits : ToolOutput → Bool) {movedPast : Bool} {row : PresenterRow} {base : List StoredPart} {s : Reply}
    (h : Sound movedPast row base s) {text : List Char} (ht : text ≠ [])
    (hj : joins (joined .text []) base.length s.parts = true) :
    ¬Restored movedPast row base.length (step fits base.length s (.textDelta text)) := by
  obtain ⟨tail, hs⟩ := h.half
  rw [joins_congr (fun p => (joined_isSome .text text p).symm), joins, Bool.and_eq_true, decide_eq_true_eq] at hj
  obtain ⟨hlen, hsome⟩ := hj
  obtain rfl : tail = [] := by
    rw [hs.parts, List.length_append] at hlen
    exact List.length_eq_zero_iff.mp (by omega)
  have hbase : s.parts = base := hs.parts.trans (List.append_nil base)
  obtain ⟨q, hq⟩ := Option.isSome_iff_exists.mp hsome
  obtain ⟨p, hp, hpq⟩ := Option.bind_eq_some_iff.mp hq
  have hparts : appendText text s.parts = base.dropLast ++ [q] := by
    unfold appendText appendRun joinLast
    rw [hq, hbase]
  have hlast : base = base.dropLast ++ [p] := (List.dropLast_append_getLast? p (hbase ▸ hp)).symm
  have hlength : (base.dropLast ++ [q]).length = base.length := by
    conv_rhs => rw [hlast]
    simp
  intro hr
  have hrest := hr.1
  have hkept : s.before ++ s.executed = base := by
    rw [← hs.same]
    simp
  simp only [step, if_neg ht, discardPartial, hparts] at hrest
  rw [hkept, ← hlength, List.take_length, List.drop_length, List.filter_nil, List.append_nil] at hrest
  rw [hlast, List.dropLast_concat] at hrest
  exact joined_ne ht hpq (List.singleton_inj.mp (List.append_cancel_left hrest))

open DiscardAux in
/-- Wherever a turn is thrown away that left the half it loaded alone, the parts are those before the attempt with the results of the
approved calls it ran, and the client's copy is their drawing. -/
theorem discard_restores (fits : ToolOutput → Bool) (movedPast : Bool) (row : PresenterRow) (base : List StoredPart) (s : Reply)
    (h : Steps.Reaches (fun s e => some (step fits base.length s e)) (fun s e => spares fits base.length s e = true)
      (start movedPast row base) s) : Restored movedPast row base.length s := by
  refine (h.invariant (fun x e y hx he hy => ?_) (sound_start movedPast row base)).restored
  cases hy
  exact sound_step hx he

/-- A reply that is written. -/
def running : PresenterRow where
  id := 1
  role := .assistant
  content := []
  status := some .running
  parts := none
  toolCalls := none
  toolResults := []

/-- A call the user let run, under a text. -/
def letRun : List StoredPart :=
  [.text ['a'], .toolCall 1 "send" "{}" (some (.approval { id := 7, approved := some true, reason := none }))]

/-- The approved call runs, the attempt goes on with another one, and is thrown away. -/
theorem discard_restores_letRun : ∃ s : Reply,
    Restored false running 2 s ∧ s.executed = [.toolResult 1 "send" (.other "sent")] ∧ s.parts.length = 6 := by
  obtain ⟨s, hrun, hs⟩ := Steps.exists_of_execOk (fun s e => some (step (fun _ => true) 2 s e))
    (fun s e => spares (fun _ => true) 2 s e = true) (start false running letRun)
    [.toolResult 1 "send" (.other "sent"), .textDelta ['b'], .toolCall 2 "read" "{}", .flush, .toolResult 2 "read" (.other "c")]
    (P := fun s => s.executed = [.toolResult 1 "send" (.other "sent")] ∧ s.parts.length = 6) (by decide +kernel)
  exact ⟨s, discard_restores (fun _ => true) false running letRun s hrun, hs⟩

/-- A call the user declined, and the text the model wrote behind it. -/
def declined : List StoredPart :=
  [.toolCall 1 "send" "{}" (some (.approval { id := 7, approved := some false, reason := none })), .text ['a']]

/-- The text of an attempt joins the text the turn loaded, and the discard keeps it. -/
theorem text_kept : ¬∀ s : Reply,
    Steps.Reaches (fun s e => some (step (fun _ => true) 2 s e)) Steps.Free (start false running declined) s →
      Restored false running 2 s := by
  intro h
  obtain ⟨s, hrun, hs⟩ := Steps.exists_of_exec (fun s e => some (step (fun _ => true) 2 s e)) (start false running declined)
    [.textDelta ['b'], .flush] (P := fun s => (s.discardPartial 2).parts ≠ s.before ++ s.executed) (by decide +kernel)
  exact hs (h s hrun).1

end Discard

end Capka

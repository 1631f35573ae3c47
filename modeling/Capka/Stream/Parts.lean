import Mathlib.Data.List.Basic
import Mathlib.Data.List.Range

/-!
# The parts of a streamed reply, and the client that rebuilds them

A reply is a list of parts: runs of reasoning, runs of text, and tool calls between them. The runner appends every token to
its own parts at once and publishes the tokens later, in numbered deltas. A client adopts the parts of a persisted snapshot
and applies the published events the snapshot does not cover.
-/

namespace Capka

/-- The two kinds of streamed run (`{ type: "reasoning" }` and `{ type: "text" }`). -/
inductive RunType
  | reasoning
  | text
  deriving Repr, DecidableEq

/-- A part of a reply. The client draws no part of its own for a tool result: it lands on the card of its call. -/
inductive ReplyPart
  | run (type : RunType) (text : List Char)
  | toolCall (toolCallId : Nat)
  | toolResult (toolCallId : Nat)
  deriving Repr, DecidableEq

/-- The tool events of a reply. -/
inductive ToolEvent
  | toolInputStart (toolCallId : Nat)
  | toolCall (toolCallId : Nat)
  | toolApproval (toolCallId : Nat)
  | toolResult (toolCallId : Nat)
  deriving Repr, DecidableEq

/-- A published event of a reply: a delta of a run, or a tool event. -/
inductive StreamEvent
  | delta (type : RunType) (text : List Char)
  | tool (event : ToolEvent)
  deriving Repr, DecidableEq

namespace Stream

/-- `appendText` and `appendReasoning`: a token joins the last part when that is a run of its kind, and opens a new part
otherwise. The client's handlers of the two delta events do the same. -/
def appendRun (type : RunType) (delta : List Char) (parts : List ReplyPart) : List ReplyPart :=
  match parts.getLast? with
  | some (.run type' text) =>
    if type' = type then parts.dropLast ++ [.run type (text ++ delta)] else parts ++ [.run type delta]
  | _ => parts ++ [.run type delta]

def appendText (delta : List Char) (parts : List ReplyPart) : List ReplyPart := appendRun .text delta parts

def appendReasoning (delta : List Char) (parts : List ReplyPart) : List ReplyPart := appendRun .reasoning delta parts

/-- The characters of one kind in a part. -/
def partText (type : RunType) : ReplyPart → List Char
  | .run type' text => if type' = type then text else []
  | .toolCall _ => []
  | .toolResult _ => []

/-- `getFullText` (and `getReasoning`): every character of one kind, in order. -/
def runText (type : RunType) (parts : List ReplyPart) : List Char :=
  parts.flatMap (partText type)

@[simp] theorem runText_nil (type : RunType) : runText type [] = [] := rfl

@[simp] theorem runText_append (type : RunType) (ps qs : List ReplyPart) :
    runText type (ps ++ qs) = runText type ps ++ runText type qs := by
  simp [runText]

@[simp] theorem runText_run (type type' : RunType) (text : List Char) :
    runText type [.run type' text] = if type' = type then text else [] := by
  simp [runText, partText]

@[simp] theorem runText_toolCall (type : RunType) (i : Nat) : runText type [.toolCall i] = [] := by
  simp [runText, partText]

@[simp] theorem runText_toolResult (type : RunType) (i : Nat) : runText type [.toolResult i] = [] := by
  simp [runText, partText]

/-- A token adds its characters to its own kind, at the end, and none to the other. -/
theorem runText_appendRun (type type' : RunType) (delta : List Char) (parts : List ReplyPart) :
    runText type' (appendRun type delta parts) = runText type' parts ++ if type = type' then delta else [] := by
  unfold appendRun
  split
  · rename_i k text hlast
    have hsplit : parts = parts.dropLast ++ [.run k text] := (List.dropLast_append_getLast? _ hlast).symm
    split
    · rename_i hk
      subst hk
      conv_rhs => rw [hsplit]
      by_cases h : k = type' <;> simp [h]
    · simp
  · simp

/-- What one published event does to the client's copy of the parts. -/
def applyEvent (parts : List ReplyPart) : StreamEvent → List ReplyPart
  | .delta type delta => appendRun type delta parts
  | .tool (.toolCall i) => parts ++ [.toolCall i]
  | .tool _ => parts

/-- The characters of one kind that an event carries. -/
def eventText (type : RunType) : StreamEvent → List Char
  | .delta type' delta => if type' = type then delta else []
  | .tool _ => []

theorem runText_applyEvent (type : RunType) (parts : List ReplyPart) (e : StreamEvent) :
    runText type (applyEvent parts e) = runText type parts ++ eventText type e := by
  cases e with
  | delta type' delta => simp [applyEvent, eventText, runText_appendRun]
  | tool event => cases event <;> simp [applyEvent, eventText]

/-- A persisted snapshot: the parts and the number of the last event they cover. -/
structure Snapshot where
  parts : List ReplyPart
  streamSeq : Nat
  deriving Repr, DecidableEq

/-- The client that adopts a snapshot and applies exactly the events numbered above its `streamSeq`. -/
def resumeFrom (snap : Snapshot) (published : List (Nat × StreamEvent)) : List ReplyPart :=
  published.foldl (fun parts e => if snap.streamSeq < e.1 then applyEvent parts e.2 else parts) snap.parts

theorem resumeFrom_nil (snap : Snapshot) : resumeFrom snap [] = snap.parts := rfl

theorem resumeFrom_snoc (snap : Snapshot) (published : List (Nat × StreamEvent)) (e : Nat × StreamEvent) :
    resumeFrom snap (published ++ [e]) =
      if snap.streamSeq < e.1 then applyEvent (resumeFrom snap published) e.2 else resumeFrom snap published := by
  simp [resumeFrom]

theorem resumeFrom_covered (snap : Snapshot) (published : List (Nat × StreamEvent))
    (h : ∀ e ∈ published, e.1 ≤ snap.streamSeq) : resumeFrom snap published = snap.parts := by
  induction published using List.reverseRecOn with
  | nil => rfl
  | append_singleton es e ih =>
    rw [resumeFrom_snoc, if_neg (Nat.not_lt.mpr (h e (by simp)))]
    exact ih fun e' he' => h e' (by simp [he'])

/-! ## The cursor of the real client -/

/-- What a client does with a numbered event, given the highest number it has applied. -/
inductive ReconcileAction
  | apply
  | ignore
  | reconcile
  deriving Repr, DecidableEq

/-- `classifyStreamEvent` of a publisher that stamps its events. -/
def classifyStreamEvent (appliedSeq eventSeq : Nat) : ReconcileAction :=
  if eventSeq ≤ appliedSeq then .ignore
  else if eventSeq = appliedSeq + 1 then .apply
  else .reconcile

/-- The client's copy of a reply: its cursor and its parts. -/
structure ClientCopy where
  appliedSeq : Nat
  parts : List ReplyPart
  deriving Repr, DecidableEq

/-- One event met by the client; `none` asks for a fresh snapshot. -/
def ClientCopy.receive (c : ClientCopy) (e : Nat × StreamEvent) : Option ClientCopy :=
  match classifyStreamEvent c.appliedSeq e.1 with
  | .apply => some { appliedSeq := e.1, parts := applyEvent c.parts e.2 }
  | .ignore => some c
  | .reconcile => none

theorem ClientCopy.receive_of_le {c : ClientCopy} {e : Nat × StreamEvent} (h : e.1 ≤ c.appliedSeq) :
    c.receive e = some c := by
  simp [ClientCopy.receive, classifyStreamEvent, h]

theorem ClientCopy.receive_next {c : ClientCopy} {e : Nat × StreamEvent} (h : e.1 = c.appliedSeq + 1) :
    c.receive e = some { appliedSeq := e.1, parts := applyEvent c.parts e.2 } := by
  have hgt : ¬e.1 ≤ c.appliedSeq := by omega
  unfold ClientCopy.receive classifyStreamEvent
  rw [if_neg hgt, if_pos h]

/-- A client seeded from a snapshot that meets the published events in order. -/
def follow (snap : Snapshot) (published : List (Nat × StreamEvent)) : Option ClientCopy :=
  published.foldl (fun c e => c.bind (·.receive e)) (some { appliedSeq := snap.streamSeq, parts := snap.parts })

/-- The events are numbered one after the other, from the one after `start`. -/
def Numbered (start : Nat) (published : List (Nat × StreamEvent)) : Prop :=
  published.map (·.1) = List.range' (start + 1) published.length

theorem Numbered.snoc {start : Nat} {published : List (Nat × StreamEvent)} (h : Numbered start published)
    (e : StreamEvent) : Numbered start (published ++ [(start + published.length + 1, e)]) := by
  unfold Numbered at h ⊢
  rw [List.map_append, h, List.length_append, List.length_singleton, List.range'_concat]
  simp only [List.map_cons, List.map_nil, Nat.one_mul, List.append_cancel_left_eq, List.cons.injEq, and_true]
  omega

theorem Numbered.le {start : Nat} {published : List (Nat × StreamEvent)} (h : Numbered start published)
    {e : Nat × StreamEvent} (he : e ∈ published) : e.1 ≤ start + published.length := by
  have hmem : e.1 ∈ published.map (·.1) := List.mem_map_of_mem he
  rw [h, List.mem_range'_1] at hmem
  omega

/-- The real client never meets a gap, and its copy is the one that applies exactly the events above the snapshot. -/
theorem follow_eq_resumeFrom (snap : Snapshot) {start : Nat} {published : List (Nat × StreamEvent)}
    (hn : Numbered start published) (hs : start ≤ snap.streamSeq) :
    follow snap published =
      some { appliedSeq := max snap.streamSeq (start + published.length), parts := resumeFrom snap published } := by
  induction published using List.reverseRecOn with
  | nil => simp [follow, resumeFrom, Nat.max_eq_left hs]
  | append_singleton es e ih =>
    have hnum : es.map (·.1) = List.range' (start + 1) es.length ∧ e.1 = start + 1 + es.length := by
      unfold Numbered at hn
      rw [List.map_append, List.length_append, List.length_singleton, List.range'_concat, Nat.one_mul] at hn
      have := List.append_inj' hn rfl
      exact ⟨this.1, by simpa using this.2⟩
    have hfold : follow snap (es ++ [e]) = (follow snap es).bind (·.receive e) := by
      simp [follow]
    rw [hfold, ih hnum.1, Option.bind_some, resumeFrom_snoc, List.length_append, List.length_singleton]
    by_cases h : snap.streamSeq < e.1
    · have hcur : max snap.streamSeq (start + es.length) = start + es.length := by omega
      have hcur' : max snap.streamSeq (start + (es.length + 1)) = e.1 := by omega
      rw [ClientCopy.receive_next (by simp only [hcur]; omega), if_pos h, hcur']
    · have hcur : max snap.streamSeq (start + es.length) = snap.streamSeq := by omega
      have hcur' : max snap.streamSeq (start + (es.length + 1)) = snap.streamSeq := by omega
      rw [ClientCopy.receive_of_le (by simp only [hcur]; omega), if_neg h, hcur, hcur']

end Stream

end Capka

import Capka.Chat.Message
import Capka.Chat.Prompt

/-!
# The compaction request

The summary of a conversation is asked for in one request. Where the backend rejects echoed reasoning it is asked for once more with the
reasoning folded into text, and past an overflow with all reasoning dropped and every tool body cleared; that request splits the
conversation in two at a user turn when it overflows too, and the summary of the first half opens the second.
-/

namespace Capka.Prompt

namespace Message

/-- A message of the step's prompt, its other contents left out. -/
def traffic : Message → StepControl.ModelMessage
  | .system content _ => .system content
  | .user _ _ => .user ""
  | .assistant (.string _) _ => .assistant []
  | .assistant (.parts ps) _ => .assistant (ps.filterMap fun p => match p with
    | .part p => some p
    | .text _ => none
    | .reasoning _ => none)
  | .tool content _ => .tool content

/-- A message before the cut. -/
def clear (stale : List String) : Message → Message
  | .assistant (.parts ps) opts => .assistant (.parts (ps.map fun p => match p with
    | .part p => .part (p.clear stale)
    | .text t => .text t
    | .reasoning t => .reasoning t)) opts
  | .assistant (.string s) opts => .assistant (.string s) opts
  | .tool content opts => .tool (content.map (StepControl.ToolContent.clear stale)) opts
  | .system content opts => .system content opts
  | .user content opts => .user content opts

end Message

/-- `pruneTurnToolTraffic`, of messages with all a provider is sent. -/
def pruneTurnToolTraffic (messages : List Message) (boundary : Nat) : List Message :=
  let stale := StepControl.staleIds (messages.map Message.traffic) boundary
  if boundary = 0 ∨ messages.length ≤ boundary then messages
  else if stale = [] then messages
  else messages.mapIdx fun i m => if boundary ≤ i then m else m.clear stale

theorem Message.traffic_clear (stale : List String) (m : Message) : (m.clear stale).traffic = m.traffic.clear stale := by
  cases m with
  | system _ _ => rfl
  | user _ _ => rfl
  | tool _ _ => rfl
  | assistant content _ =>
    cases content with
    | string _ => rfl
    | parts ps =>
      simp only [Message.clear, Message.traffic, StepControl.ModelMessage.clear, List.filterMap_map, List.map_filterMap]
      congr 1
      refine List.filterMap_congr fun p _ => ?_
      cases p <;> rfl

/-- The cut is the one of the step's prompt. -/
theorem map_traffic_prune (messages : List Message) (boundary : Nat) :
    (pruneTurnToolTraffic messages boundary).map Message.traffic =
      StepControl.pruneTurnToolTraffic (messages.map Message.traffic) boundary := by
  unfold pruneTurnToolTraffic StepControl.pruneTurnToolTraffic
  dsimp only
  rw [List.length_map]
  split
  · rfl
  · split
    · rfl
    · refine List.ext_getElem (by simp) fun i hi hi' => ?_
      simp only [List.getElem_map, List.getElem_mapIdx]
      split
      · rfl
      · exact Message.traffic_clear _ _

/-- `foldReasoningIntoText`, on the parts of a message. -/
def foldReasoningParts (ps : List ReplyPart) : List ReplyPart :=
  let reasoning := String.join (ps.filterMap fun p => match p with
    | .reasoning t => some t
    | .text _ => none
    | .part _ => none)
  if reasoning = "" then ps
  else
    let rest := ps.filter fun p => match p with
      | .reasoning _ => false
      | .text _ => true
      | .part _ => true
    let i := rest.findIdx fun p => match p with
      | .text _ => true
      | .reasoning _ => false
      | .part _ => false
    match rest[i]? with
    | some (.text t) => rest.set i (.text (reasoning ++ "\n\n" ++ t))
    | _ => .text reasoning :: rest

def foldReasoningIntoText (messages : List Message) : List Message :=
  messages.map fun m => match m with
    | .assistant (.parts ps) opts => .assistant (.parts (foldReasoningParts ps)) opts
    | .assistant (.string s) opts => .assistant (.string s) opts
    | .system content opts => .system content opts
    | .user content opts => .user content opts
    | .tool content opts => .tool content opts

end Capka.Prompt

namespace Capka.Compactor

open Prompt

/-- `COMPACTION_INSTRUCTION`. -/
def compactionInstruction : String :=
  String.intercalate "\n"
    ["Before we continue, compact our conversation so far into a high-fidelity summary",
     "that lets you carry on with no loss of important context.",
     "",
     "PRESERVE (never drop): my goals and constraints, decisions we made, unresolved",
     "problems and open bugs, key facts, file paths and names, and important results",
     "you produced.",
     "",
     "DISCARD: raw tool outputs you already acted on, verbose logs, redundant",
     "restatements, pleasantries, and resolved tangents.",
     "",
     "Write concise plain prose organized by topic. Output ONLY the summary."]

/-- `SUMMARY_HEADING`. -/
def summaryHeading : String := "[Summary of the earlier conversation]"

def buildCompactionMessages (systemMessages modelMessages : List Message) : List Message :=
  systemMessages ++ modelMessages ++ [.user (.string compactionInstruction) none]

/-- An error of a request, as `isContextOverflowError` and `isReasoningEchoRejectedError` read it. -/
structure Failure where
  overflow : Bool
  echoRejected : Bool
  deriving Repr, DecidableEq

/-- The requests so far, with what each came to: the trimmed text, or an error. -/
abbrev Requests := List (List Message × Except Failure String)

/-- A model: what it answers, given the requests before. -/
abbrev LanguageModel := Requests → List Message → Except Failure String

section Compaction

variable (model : LanguageModel) (estimatePromptTokens : List Message → Nat) (systemMessages : List Message)

/-- `run`: one request. -/
def run (msgs : List Message) (sent : Requests) : Except Failure String × Requests :=
  let answer := (model sent msgs).map fun text => String.ofList (trim text.toList)
  (answer, sent ++ [(msgs, answer)])

/-- The loop of `fold` for the user turn nearest the middle: the best so far, and how far it is from there. -/
def nearestTurn (total : Nat) : Nat → Nat → Option (Nat × Nat) → List Message → Option (Nat × Nat)
  | _, _, best, [] => best
  | i, before, best, m :: ms =>
    -- Twice the distance from the half, which may be no whole number.
    let gap := (2 * (before : Int) - total).natAbs
    let best := if 0 < i ∧ m.isUser ∧ best.all (fun b => gap < b.2) then some (i, gap) else best
    nearestTurn total (i + 1) (before + estimatePromptTokens [m]) best ms

/-- Where the conversation is cut. -/
def cutOf (conv : List Message) : Option Nat := (nearestTurn estimatePromptTokens (estimatePromptTokens conv) 0 0 none conv).map Prod.fst

/-- A user's message with the summary of what came before in front. -/
def openWith (head : String) : Message → Message
  | .user content opts => .user (.parts (.text (summaryHeading ++ "\n" ++ head) none :: content.userParts)) opts
  | .system content opts => .system content opts
  | .assistant content opts => .assistant content opts
  | .tool content opts => .tool content opts

/-- The tail of a conversation that the summary of its head opens. -/
def carry (head : String) : List Message → List Message
  | [] => []
  | first :: rest => openWith head first :: rest

/-- `fold`, with the splits that are left. -/
def fold : Nat → List Message → Requests → Except Failure String × Requests
  | 0, conv, sent => run model (buildCompactionMessages systemMessages conv) sent
  | left + 1, conv, sent =>
    match run model (buildCompactionMessages systemMessages conv) sent with
    | (.ok summary, sent) => (.ok summary, sent)
    | (.error e, sent) =>
      if e.overflow then
        match cutOf estimatePromptTokens conv with
        | none => (.error e, sent)
        | some cut =>
          match fold left (conv.take cut) sent with
          | (.error e', sent) => (.error e', sent)
          | (.ok head, sent) => if head = "" then (.error e, sent) else fold left (carry head (conv.drop cut)) sent
      else (.error e, sent)

/-- A message without its reasoning, where anything is left of it. -/
def withoutReasoning : Message → Option Message
  | .assistant (.parts ps) opts =>
    let content := ps.filter fun p => match p with
      | .reasoning _ => false
      | .text _ => true
      | .part _ => true
    if content = [] then none else some (.assistant (.parts content) opts)
  | .assistant (.string s) opts => some (.assistant (.string s) opts)
  | .system content opts => some (.system content opts)
  | .user content opts => some (.user content opts)
  | .tool content opts => some (.tool content opts)

/-- The conversation `shed` folds. -/
def bareMessages (modelMessages : List Message) : List Message :=
  let bare := (buildCompactionMessages [] modelMessages).filterMap withoutReasoning
  (pruneTurnToolTraffic bare (bare.length - 1)).dropLast

def shed (modelMessages : List Message) (e : Failure) (sent : Requests) : Except Failure String × Requests :=
  if e.overflow then fold model estimatePromptTokens systemMessages 2 (bareMessages modelMessages) sent else (.error e, sent)

/-- The requests of `compactConversation`. -/
def attempt (modelMessages : List Message) : Except Failure String × Requests :=
  let messages := buildCompactionMessages systemMessages modelMessages
  match run model messages [] with
  | (.ok summary, sent) => (.ok summary, sent)
  | (.error e, sent) =>
    if e.echoRejected then
      match run model (foldReasoningIntoText messages) sent with
      | (.ok summary, sent) => (.ok summary, sent)
      | (.error e, sent) => shed model estimatePromptTokens systemMessages modelMessages e sent
    else shed model estimatePromptTokens systemMessages modelMessages e sent

/-- `compactConversation`: the summary with its mark, or nothing; and the requests that were made. -/
def compactConversation (modelMessages : List Message) (sourceTrust : Bool) : Option (String × Bool) × Requests :=
  match attempt model estimatePromptTokens systemMessages modelMessages with
  | (.ok summary, sent) => (if summary = "" then none else some (summary, sourceTrust), sent)
  | (.error _, sent) => (none, sent)

end Compaction

end Capka.Compactor

import Capka.Ask.Types
import Capka.Lib.Steps
import Mathlib.Logic.Function.Basic

/-!
# Collecting answers in a Telegram chat

A question is put to its user one field a message, and a chat has one collection at a time. A button carries the field and the
option, or `skip`, but not the question; text carries nothing. A complete or skipped collection leaves the chat and is submitted,
by its message; a refusal that recorded nothing puts it back, unless the chat has another by then.
-/

namespace Capka

/-- How a question waits: as a call of a suspended reply, or as a row that a live tool call polls. -/
inductive QuestionKind
  | ask
  | elicitation
  deriving Repr, DecidableEq

/-- A question on record: the message it belongs to, the user it is put to, its form. -/
structure Question where
  id : Nat
  kind : QuestionKind
  messageId : Nat
  userId : Nat
  form : AskForm
  deriving Repr, DecidableEq

structure Collection where
  question : Question
  locale : Option String
  cursor : Nat
  collected : List (String × AskValue)
  expiresAt : Option Nat
  deriving Repr, DecidableEq

namespace Collection

/-- The deadline has passed. -/
def expired (now : Nat) (c : Collection) : Bool := c.expiresAt.any (fun deadline => decide (deadline ≤ now))

def field (c : Collection) : Option AskField := c.question.form.fields[c.cursor]?

/-- `collected[id] = value`; a string assigned to `__proto__` sets nothing. -/
def assign (id : String) (value : AskValue) (c : Collection) : Collection :=
  if id = "__proto__" then c
  else if c.collected.any (fun kv => kv.1 = id) then
    { c with collected := c.collected.map (fun kv => if kv.1 = id then (id, value) else kv) }
  else { c with collected := c.collected ++ [(id, value)] }

end Collection

/-- `collections`. -/
abbrev Collections := Nat → Option Collection

/-- `live`: the collection of a chat, dropped when it has expired. -/
def live (now chatId : Nat) (C : Collections) : Option Collection × Collections :=
  match C chatId with
  | none => (none, C)
  | some c => if c.expired now then (none, Function.update C chatId none) else (some c, C)

def fieldOptions (t : String → String) (field : AskField) : Option (List AskOption) :=
  match field.kind with
  | .choice => some field.options
  | .boolean => some [{ value := "true", label := t "yes" }, { value := "false", label := t "no" }]
  | .text => none
  | .number => none

/-- What a button carries: `ta:<field>:<option>` or `taskip`. -/
inductive CallbackData
  | choice (fieldIdx optIdx : Nat)
  | skip
  deriving Repr, DecidableEq

/-- A prompt that was sent, for the record with the question and the field it was sent for. -/
structure Prompt where
  chatId : Nat
  question : Question
  locale : Option String
  cursor : Nat
  deriving Repr, DecidableEq

namespace Prompt

def field (p : Prompt) : Option AskField := p.question.form.fields[p.cursor]?

/-- The options the prompt shows. -/
def options (t : Option String → String → String) (p : Prompt) : List AskOption :=
  (p.field.bind (fieldOptions (t p.locale))).getD []

/-- The keyboard of `promptField`. -/
def buttons (t : Option String → String → String) (p : Prompt) : List (String × CallbackData) :=
  (p.options t).zipIdx.map (fun (op, i) => (op.label, .choice p.cursor i)) ++ [(t p.locale "skip", .skip)]

end Prompt

/-- The prompt of `promptField`. -/
def Collection.prompt (chatId : Nat) (c : Collection) : Prompt where
  chatId := chatId
  question := c.question
  locale := c.locale
  cursor := c.cursor

/-- A collection on its way to the database. `loaded` is what `answerAskForUser` found: the call it will answer, and the others that
waited. -/
structure Submission where
  chatId : Nat
  collection : Collection
  action : AskAction
  loaded : Option (Nat × List Nat)
  deriving DecidableEq

/-- The values a submission carries. -/
def Submission.values (sub : Submission) : List (String × AskValue) :=
  match sub.action with
  | .submit => sub.collection.collected
  | .skip => []

/-- How a submission ends. `lost` is a throw after the answer was committed. -/
inductive AnswerOutcome
  | applied
  | failed
  | gone
  | busy
  | budget
  | limited
  | threw
  | lost
  deriving Repr, DecidableEq

namespace AnswerOutcome

def records : AnswerOutcome → Bool
  | .applied | .failed | .lost => true
  | .gone | .busy | .budget | .limited | .threw => false

/-- The question is offered again. -/
def reoffers : AnswerOutcome → Bool
  | .busy | .budget | .limited => true
  | .applied | .failed | .gone | .threw | .lost => false

end AnswerOutcome

/-- A submission that ended, with the ids of the questions its answer went to. -/
structure Submitted where
  question : Question
  values : List (String × AskValue)
  outcome : AnswerOutcome
  recorded : List Nat
  deriving DecidableEq

/-- What a user gave, and the prompt it was given to. -/
structure Given where
  userId : Nat
  prompt : Prompt
  value : AskValue
  deriving DecidableEq

/-- The clock, the collections by chat, the questions on record and those still unanswered, the submissions on their way; and for the
record the prompts that arrived, what users gave, and the submissions that ended. -/
structure CollectState where
  now : Nat
  collections : Collections
  asked : List Question
  unanswered : List Nat
  submissions : List Submission
  prompts : List Prompt
  given : List Given
  log : List Submitted

/-- What can happen next. A question is raised, or answered or withdrawn elsewhere; its collection starts; a user taps a button of any
prompt that arrived, or writes a text having seen `seen` last; a submission reads its row, and ends. `sent` says whether the prompt
of the step arrives. -/
inductive CollectAct
  | tick (ms : Nat)
  | raise (q : Question)
  | close (id : Nat)
  | start (chatId : Nat) (q : Question) (locale : Option String) (ttlMs : Option Nat) (sent : Bool)
  | tap (userId : Nat) (p : Prompt) (data : CallbackData) (sent : Bool)
  | text (chatId userId : Nat) (text : String) (seen : Option Prompt) (sent : Bool)
  | read (i : Nat)
  | finish (i : Nat) (outcome : AnswerOutcome) (sent : Bool)

namespace CollectState

/-- Nothing has been asked. -/
def init : CollectState where
  now := 0
  collections := fun _ => none
  asked := []
  unanswered := []
  submissions := []
  prompts := []
  given := []
  log := []

def promptField (s : CollectState) (chatId : Nat) (c : Collection) (sent : Bool) : CollectState :=
  { s with prompts := if sent then s.prompts ++ [c.prompt chatId] else s.prompts }

/-- The collection of a chat is there, or changes in place. -/
def put (s : CollectState) (chatId : Nat) (c : Collection) : CollectState :=
  { s with collections := Function.update s.collections chatId (some c) }

def startAskCollection (s : CollectState) (chatId : Nat) (q : Question) (locale : Option String) (ttlMs : Option Nat)
    (sent : Bool) : CollectState :=
  if q.form.fields = [] then s
  else
    let swept : Collections := fun id => (s.collections id).filter (fun c => !c.expired s.now)
    let c : Collection :=
      { question := q, locale := locale, cursor := 0, collected := [], expiresAt := ttlMs.map (fun ms => s.now + ms) }
    ({ s with collections := swept }.put chatId c).promptField chatId c sent

/-- The start of `finish`: the collection leaves the chat and is on its way. -/
def submit (s : CollectState) (chatId : Nat) (c : Collection) (action : AskAction) : CollectState :=
  { s with
    collections := Function.update s.collections chatId none
    submissions := s.submissions ++ [{ chatId := chatId, collection := c, action := action, loaded := none }] }

def advance (s : CollectState) (chatId : Nat) (c : Collection) (sent : Bool) : CollectState :=
  let c := { c with cursor := c.cursor + 1 }
  if c.question.form.fields.length ≤ c.cursor then s.submit chatId c .submit
  else (s.put chatId c).promptField chatId c sent

/-- The state once `live` has looked at a chat. -/
def looked (s : CollectState) (chatId : Nat) : CollectState := { s with collections := (live s.now chatId s.collections).2 }

/-- `onAskChoice`, and what it returns. -/
def onAskChoice (t : Option String → String → String) (s : CollectState) (chatId tapperUserId fieldIdx optIdx : Nat)
    (sent : Bool) : CollectState × Bool :=
  match (live s.now chatId s.collections).1 with
  | none => (s.looked chatId, false)
  | some c =>
    if c.question.userId ≠ tapperUserId ∨ c.cursor ≠ fieldIdx then (s.looked chatId, false)
    else
      match c.field with
      | none => (s.looked chatId, false)
      | some field =>
        match ((fieldOptions (t c.locale) field).getD [])[optIdx]? with
        | none => (s.looked chatId, false)
        | some op => ((s.looked chatId).advance chatId (c.assign field.id (.one op.value)) sent, true)

def onAskSkip (s : CollectState) (chatId tapperUserId : Nat) : CollectState × Bool :=
  match (live s.now chatId s.collections).1 with
  | none => (s.looked chatId, false)
  | some c =>
    if c.question.userId ≠ tapperUserId then (s.looked chatId, false)
    else ((s.looked chatId).submit chatId c .skip, true)

def onAskText (s : CollectState) (chatId senderUserId : Nat) (text : String) (sent : Bool) : CollectState × Bool :=
  match (live s.now chatId s.collections).1 with
  | none => (s.looked chatId, false)
  | some c =>
    if c.question.userId ≠ senderUserId then (s.looked chatId, false)
    else
      match c.field with
      | none => (s.looked chatId, false)
      | some field =>
        if field.kind ≠ .text ∧ field.kind ≠ .number then (s.looked chatId, false)
        else ((s.looked chatId).advance chatId (c.assign field.id (.one text)) sent, true)

/-- What a tap gives: the value of the option the prompt shows. -/
def tapped (t : Option String → String → String) (userId : Nat) (p : Prompt) (data : CallbackData) : List Given :=
  match data with
  | .choice _ i => ((p.options t)[i]?.map (fun op => (⟨userId, p, .one op.value⟩ : Given))).toList
  | .skip => []

/-- The bot's handlers of the two buttons. -/
def onTap (t : Option String → String → String) (s : CollectState) (userId : Nat) (p : Prompt) (data : CallbackData)
    (sent : Bool) : CollectState :=
  match data with
  | .choice fieldIdx optIdx => (s.onAskChoice t p.chatId userId fieldIdx optIdx sent).1
  | .skip => (s.onAskSkip p.chatId userId).1

/-- The ids of the questions a submission by message and user may go to. -/
def addressed (s : CollectState) (q : Question) : List Nat :=
  (s.asked.filter (fun q' => q'.kind = q.kind && q'.messageId = q.messageId && q'.userId = q.userId)).map Question.id

/-- Those that wait for an answer. -/
def waiting (s : CollectState) (q : Question) : List Nat := (s.addressed q).filter (fun id => id ∈ s.unanswered)

def ended (s : CollectState) (i : Nat) (sub : Submission) (outcome : AnswerOutcome) (recorded unanswered : List Nat) :
    CollectState :=
  { s with
    submissions := s.submissions.eraseIdx i
    unanswered := unanswered
    log := s.log ++
      [{ question := sub.collection.question, values := sub.values, outcome := outcome, recorded := recorded }] }

/-- The end of `finish` after a refusal that recorded nothing: the last field is offered again, unless a newer question took the
chat. -/
def reoffer (s : CollectState) (sub : Submission) (sent : Bool) : CollectState :=
  if (s.collections sub.chatId).isSome then s
  else
    let c := { sub.collection with cursor := min sub.collection.cursor (sub.collection.question.form.fields.length - 1) }
    (s.put sub.chatId c).promptField sub.chatId c sent

/-- `answerAskForUser` reads the reply: it will answer the first call that waits. -/
def read (s : CollectState) (i : Nat) : Option CollectState :=
  s.submissions[i]?.bind fun sub =>
    if sub.collection.question.kind = .ask ∧ sub.loaded = none then
      match s.waiting sub.collection.question with
      | [] => some (s.ended i sub .gone [] s.unanswered)
      | id :: rest => some { s with submissions := s.submissions.set i { sub with loaded := some (id, rest) } }
    else none

/-- `answerAskForUser` commits while some call still waits, and writes the calls as it read them; every other outcome leaves them. -/
def finishAsk (s : CollectState) (i : Nat) (sub : Submission) (outcome : AnswerOutcome) (sent : Bool) : Option CollectState :=
  match sub.loaded with
  | none => if outcome = .threw then some (s.ended i sub outcome [] s.unanswered) else none
  | some (id, rest) =>
    if outcome.records then
      if s.waiting sub.collection.question = [] then none
      else
        some (s.ended i sub outcome [id]
          (s.unanswered.filter (fun id' => id' ∉ s.addressed sub.collection.question) ++ rest))
    else if outcome.reoffers then some ((s.ended i sub outcome [] s.unanswered).reoffer sub sent)
    else some (s.ended i sub outcome [] s.unanswered)

/-- `answerElicitationForUser` answers every row that waits. -/
def finishElicitation (s : CollectState) (i : Nat) (sub : Submission) (outcome : AnswerOutcome) : Option CollectState :=
  let rows := s.waiting sub.collection.question
  match outcome with
  | .applied =>
    if rows = [] then none else some (s.ended i sub outcome rows (s.unanswered.filter (fun id => id ∉ rows)))
  | .gone => if rows = [] then some (s.ended i sub outcome [] s.unanswered) else none
  | .threw => some (s.ended i sub outcome [] s.unanswered)
  | .failed | .busy | .budget | .limited | .lost => none

/-- The end of `finish`. -/
def finish (s : CollectState) (i : Nat) (outcome : AnswerOutcome) (sent : Bool) : Option CollectState :=
  s.submissions[i]?.bind fun sub =>
    match sub.collection.question.kind with
    | .ask => s.finishAsk i sub outcome sent
    | .elicitation => s.finishElicitation i sub outcome

/-- One step. -/
def step (t : Option String → String → String) (s : CollectState) : CollectAct → Option CollectState
  | .tick ms => some { s with now := s.now + ms }
  | .raise q =>
    if ∀ q' ∈ s.asked, q'.id ≠ q.id then some { s with asked := s.asked ++ [q], unanswered := s.unanswered ++ [q.id] }
    else none
  | .close id => some { s with unanswered := s.unanswered.filter (fun id' => id' ≠ id) }
  | .start chatId q locale ttlMs sent =>
    if q ∈ s.asked then some (s.startAskCollection chatId q locale ttlMs sent) else none
  | .tap userId p data sent =>
    if p ∈ s.prompts ∧ data ∈ (p.buttons t).map Prod.snd then
      some ({ s with given := s.given ++ tapped t userId p data }.onTap t userId p data sent)
    else none
  | .text chatId userId text seen sent =>
    if ∀ p ∈ seen, p ∈ s.prompts ∧ p.chatId = chatId then
      some ({ s with given := s.given ++ (seen.map (fun p => (⟨userId, p, .one text⟩ : Given))).toList }.onAskText
        chatId userId text sent).1
    else none
  | .read i => s.read i
  | .finish i outcome sent => s.finish i outcome sent

end CollectState

end Capka

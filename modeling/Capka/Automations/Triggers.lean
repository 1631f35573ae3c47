import Mathlib.Data.List.Basic

/-!
# Triggers of an automation

How an automation fires, when it fires next, and how a trigger is made of the flat arguments of the `manage` tool and of the
settings page. Cron expressions, wall-clock times and time zones are read by libraries, which are parameters here.
-/

namespace Capka

inductive AutomationTrigger
  | schedule (cron timezone : String)
  | once (at_ timezone : String)
  | webhook (timezone : String)
  deriving Repr, DecidableEq

/-- `kind === "webhook"`. -/
def AutomationTrigger.isWebhook : AutomationTrigger → Bool
  | .webhook _ => true
  | .schedule _ _ => false
  | .once _ _ => false

/-- The libraries: the next occurrence of a cron expression in a zone, an ISO date and time read in a zone, and the zones
`Intl` knows. A failure carries the library's words. -/
structure Calendar where
  cronNext : String → String → Nat → Except String Nat
  fromISO : String → String → Except String Nat
  intlKnows : String → Bool

def Calendar.isValidTimezone (K : Calendar) (tz : String) : Bool := tz ≠ "" && decide (tz.length ≤ 64) && K.intlKnows tz

def onceInstant (K : Calendar) (at_ timezone : String) : Except String Nat :=
  match K.fromISO at_ (if timezone = "" then "UTC" else timezone) with
  | .ok instant => .ok instant
  | .error reason => .error ("Invalid once_at \"" ++ at_ ++ "\" (" ++ reason ++ ").")

def nextOccurrenceAfter (K : Calendar) (trigger : AutomationTrigger) (after : Nat) : Except String (Option Nat) :=
  match trigger with
  | .webhook _ => .ok none
  | .once at_ timezone =>
    match onceInstant K at_ timezone with
    | .ok instant => .ok (if after < instant then some instant else none)
    | .error e => .error e
  | .schedule cron timezone =>
    match K.cronNext cron timezone after with
    | .ok next => .ok (some next)
    | .error e => .error e

def nextOccurrences (K : Calendar) (trigger : AutomationTrigger) : Nat → Nat → Except String (List Nat)
  | 0, _ => .ok []
  | n + 1, after =>
    match nextOccurrenceAfter K trigger after with
    | .error e => .error e
    | .ok none => .ok []
    | .ok (some next) =>
      match nextOccurrences K trigger n next with
      | .error e => .error e
      | .ok rest => .ok (next :: rest)

/-- The arguments of a trigger; a text that is not a string is not there. -/
structure TriggerArgs where
  cron : Option String
  onceAt : Option String
  webhook : Option Bool
  timezone : Option String
  deriving Repr, DecidableEq

namespace TriggerArgs

/-- A text that counts as given. -/
def truthy (text : Option String) : Bool := text.any (fun s => s ≠ "")

/-- How many forms are given. -/
def given (args : TriggerArgs) : Nat :=
  (if truthy args.cron then 1 else 0) + (if truthy args.onceAt then 1 else 0) + if args.webhook = some true then 1 else 0

end TriggerArgs

def parseTriggerArgs (K : Calendar) (args : TriggerArgs) (now : Nat) : Except String AutomationTrigger :=
  let timezone := args.timezone.getD ""
  if 1 < args.given then
    .error "Give exactly one trigger: a recurring schedule (cron), a one-off moment (once_at), or webhook: true."
  else if args.webhook = some true then
    if K.isValidTimezone timezone then .ok (.webhook timezone)
    else
      .error ("A valid IANA timezone is required with webhook (e.g. Europe/Kyiv). Use the user's timezone setting — it defines the " ++
        "day a daily run limit counts against.")
  else if TriggerArgs.truthy args.cron then
    if K.isValidTimezone timezone then
      let trigger := .schedule (args.cron.getD "") timezone
      match nextOccurrenceAfter K trigger now with
      | .ok _ => .ok trigger
      | .error e => .error e
    else .error "A valid IANA timezone is required with cron (e.g. Europe/Kyiv). Use the user's timezone setting."
  else if TriggerArgs.truthy args.onceAt then
    if K.isValidTimezone timezone then
      let trigger := .once (args.onceAt.getD "") timezone
      match nextOccurrenceAfter K trigger now with
      | .ok (some _) => .ok trigger
      | .ok none => .error "once_at is already in the past."
      | .error e => .error e
    else .error "A valid IANA timezone is required with once_at (e.g. Europe/Kyiv). Use the user's timezone setting."
  else .error "A trigger is required: cron, once_at, or webhook: true."

def assertMinInterval (K : Calendar) (trigger : AutomationTrigger) (minMinutes now : Nat) : Except String Unit :=
  match trigger with
  | .schedule _ _ =>
    match nextOccurrences K trigger 2 now with
    | .ok [a, b] =>
      if b - a < minMinutes * 60000 then
        .error ("This schedule runs more often than the platform minimum of " ++ toString minMinutes ++ " minutes between runs.")
      else .ok ()
    | .ok _ => .ok ()
    | .error e => .error e
  | .once _ _ => .ok ()
  | .webhook _ => .ok ()

theorem nextOccurrenceAfter_of_webhook {K : Calendar} {trigger : AutomationTrigger} {after : Nat} {next : Option Nat}
    (hw : trigger.isWebhook = true) (h : nextOccurrenceAfter K trigger after = .ok next) : next = none := by
  cases trigger with
  | webhook timezone =>
    cases h
    rfl
  | once at_ timezone => cases hw
  | schedule cron timezone => cases hw

end Capka

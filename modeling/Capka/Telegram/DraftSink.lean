import Mathlib
import Capka.Lib.Steps

/-!
# The draft of a turn

While a turn runs its text is shown as a draft, which a flush sends when there is something new and a keepalive sends again before it lapses;
the answer is sent at the end, and a draft that Telegram takes after it comes back to life. The end waits for the draft request it has the
handle of: the last that was started. A draft request is in the list of all that were started; it is in flight until it has settled.
-/

namespace Capka.Telegram

/-- The message of the end, and its text in the pieces that are sent when Telegram refuses it. -/
structure Final (β : Type*) where
  markdown : β
  parts : List β
  deriving Repr, DecidableEq

/-- Where `flush` is. -/
inductive FlushAt (α : Type*)
  | idle
  | bot (preview : α)
  | sent (id : Nat) (draft : α)
  deriving Repr, DecidableEq

/-- Where a `refresh` is. -/
inductive RefreshAt
  | bot
  | sent (id : Nat)
  deriving Repr, DecidableEq

/-- Where `finish` is. -/
inductive FinishAt (β : Type*)
  | idle
  | waiting (sending : Option Nat) (final : Option (Final β))
  | bot (final : Final β)
  | bridged (id : Nat) (final : Final β)
  | rich (final : Final β)
  | plain (final : Final β) (sent : Nat)
  | done
  deriving Repr, DecidableEq

/-- A message that Telegram posted: the rich one, or a piece of the plain text. -/
inductive Posted (β : Type*)
  | rich (markdown : β)
  | plain (part : β)
  deriving Repr, DecidableEq

/-- The answer to the rich message: it was posted, it was refused and so was not, or that is unknown. -/
inductive RichAnswer
  | ok
  | refused
  | unknown (posted : Bool)
  deriving Repr, DecidableEq

/-- A sink. `drafts` has the draft requests in the order they were started, each with whether it went through, once it has settled. For the
record: what the first `finish` was to send, how many draft requests were started when the message of the end was sent, and what was
posted. -/
structure DraftSink (α β : Type*) where
  closed : Bool
  pending : Option α
  timer : Bool
  inflight : Bool
  flush : FlushAt α
  lastDraft : Option α
  keepaliveTimer : Bool
  refreshes : List RefreshAt
  sending : Option Nat
  streamed : Bool
  drafts : List (Option Bool)
  finish : FinishAt β
  given : Option (Final β)
  finalAfter : Option Nat
  posted : List (Posted β)
  deriving Repr, DecidableEq

namespace DraftSink

variable {α β : Type*}

def init : DraftSink α β where
  closed := false
  pending := none
  timer := false
  inflight := false
  flush := .idle
  lastDraft := none
  keepaliveTimer := false
  refreshes := []
  sending := none
  streamed := false
  drafts := []
  finish := .idle
  given := none
  finalAfter := none
  posted := []

/-- A request is in flight. -/
def InFlight (s : DraftSink α β) (id : Nat) : Prop := s.drafts[id]? = some none

instance (s : DraftSink α β) (id : Nat) : Decidable (s.InFlight id) := inferInstanceAs (Decidable (_ = _))

/-- A request has settled. -/
def settled (s : DraftSink α β) (id : Nat) : Bool := (s.drafts[id]?.getD none).isSome

def schedule (s : DraftSink α β) : DraftSink α β := if s.closed || s.timer || s.inflight then s else { s with timer := true }

def scheduleKeepalive (s : DraftSink α β) : DraftSink α β := if s.closed then s else { s with keepaliveTimer := true }

/-- The `finally` of `flush`. -/
def flushed (s : DraftSink α β) : DraftSink α β :=
  let s := { s with flush := .idle, inflight := false }
  if !s.closed && s.pending.isSome then s.schedule else s

/-- A draft request is started; its handle is kept. -/
def startDraft (s : DraftSink α β) : DraftSink α β := { s with drafts := s.drafts ++ [none], sending := some s.drafts.length }

/-- What is sent of the message of the end is the rich one first. -/
def sendFinal (s : DraftSink α β) (final : Final β) : DraftSink α β :=
  { s with finish := .rich final, finalAfter := some s.drafts.length }

/-- The next piece of the plain text, if there is one. -/
def sendPlain (s : DraftSink α β) (final : Final β) (sent : Nat) : DraftSink α β :=
  { s with finish := if sent < final.parts.length then .plain final sent else .done }

end DraftSink

/-- What can happen to a sink: its calls, its timers, the settling of what it awaits, in any order. -/
inductive SinkAct (α β : Type*)
  | push (preview : α)
  | timer
  /-- `flush` has the bot, or has none. -/
  | flushBot (bot : Bool)
  /-- `flush` throws before it has sent. -/
  | flushThrows
  | flushResume
  | keepalive
  | refreshBot (i : Nat) (bot : Bool)
  | refreshThrows (i : Nat)
  | refreshResume (i : Nat)
  /-- A draft request settles. -/
  | settle (id : Nat) (ok : Bool)
  | finish (final : Option (Final β))
  | finishWaited
  | finishBot (bot : Bool)
  /-- The bridge throws before it is sent. -/
  | bridgeThrows
  | bridgeResume
  | richSettles (answer : RichAnswer)
  | plainSettles (posted ok : Bool)
  deriving Repr, DecidableEq

namespace DraftSink

variable {α β : Type*}

/-- One step of a sink that shows its drafts or does not; `shown` is whether there is something to show. `none`: it cannot happen now. -/
def step (streamDrafts : Bool) (shown : α → Bool) (s : DraftSink α β) : SinkAct α β → Option (DraftSink α β)
  | .push preview => some (if s.closed || !streamDrafts then s else { s with pending := some preview }.schedule)
  | .timer =>
    if !s.timer then none
    else
      let s := { s with timer := false }
      match s.pending with
      | none => some s
      | some preview => some (if s.closed then s else { s with pending := none, inflight := true, flush := .bot preview })
  | .flushBot bot =>
    match s.flush with
    | .bot preview =>
      if !bot || s.closed || !shown preview then some s.flushed
      else some { s.startDraft with streamed := true, flush := .sent s.drafts.length preview }
    | _ => none
  | .flushThrows =>
    match s.flush with
    | .bot _ => some s.flushed
    | _ => none
  | .flushResume =>
    match s.flush with
    | .sent id draft =>
      match s.drafts[id]? with
      | some (some true) => some { s with lastDraft := some draft }.scheduleKeepalive.flushed
      | some (some false) => some s.flushed
      | _ => none
    | _ => none
  | .keepalive =>
    if !s.keepaliveTimer then none
    else
      let s := { s with keepaliveTimer := false }
      if s.closed then some s
      else if s.lastDraft.isNone || s.pending.isSome || s.inflight then some s.scheduleKeepalive
      else some { s with refreshes := s.refreshes ++ [.bot] }
  | .refreshBot i bot =>
    if s.refreshes[i]? = some .bot then
      if bot && !s.closed then some { s.startDraft with refreshes := s.refreshes.set i (.sent s.drafts.length) }
      else some { s with refreshes := s.refreshes.eraseIdx i }.scheduleKeepalive
    else none
  | .refreshThrows i =>
    if s.refreshes[i]? = some .bot then some { s with refreshes := s.refreshes.eraseIdx i }.scheduleKeepalive else none
  | .refreshResume i =>
    match s.refreshes[i]? with
    | some (.sent id) => if s.settled id then some { s with refreshes := s.refreshes.eraseIdx i }.scheduleKeepalive else none
    | _ => none
  | .settle id ok => if s.drafts[id]? = some none then some { s with drafts := s.drafts.set id (some ok) } else none
  | .finish final =>
    some (if s.closed then s
      else
        { s with
          closed := true
          timer := false
          keepaliveTimer := false
          pending := none
          lastDraft := none
          finish := .waiting s.sending final
          given := final })
  | .finishWaited =>
    match s.finish with
    | .waiting sending final =>
      if sending.all s.settled then
        match final with
        | none => some { s with finish := .done }
        | some final => some { s with finish := .bot final }
      else none
    | _ => none
  | .finishBot bot =>
    match s.finish with
    | .bot final =>
      if !bot then some { s with finish := .done }
      else if s.streamed then
        some { s with streamed := false, drafts := s.drafts ++ [none], finish := .bridged s.drafts.length final }
      else some (s.sendFinal final)
    | _ => none
  | .bridgeThrows =>
    match s.finish with
    | .bot final => if s.streamed then some ({ s with streamed := false }.sendFinal final) else none
    | _ => none
  | .bridgeResume =>
    match s.finish with
    | .bridged id final => if s.settled id then some (s.sendFinal final) else none
    | _ => none
  | .richSettles answer =>
    match s.finish with
    | .rich final =>
      match answer with
      | .ok => some { s with finish := .done, posted := s.posted ++ [.rich final.markdown] }
      | .refused => some (s.sendPlain final 0)
      | .unknown true => some { s with finish := .done, posted := s.posted ++ [.rich final.markdown] }
      | .unknown false => some { s with finish := .done }
    | _ => none
  | .plainSettles posted ok =>
    match s.finish with
    | .plain final sent =>
      match final.parts[sent]? with
      | some part =>
        -- What goes through was posted; what does not may have been, and is the last.
        let s := if posted || ok then { s with posted := s.posted ++ [.plain part] } else s
        some (if ok then s.sendPlain final (sent + 1) else { s with finish := .done })
      | none => none
    | _ => none

/-- The end is called while the draft requests in flight are the one it has the handle of, or none. -/
def EndsNamed (s : DraftSink α β) : SinkAct α β → Prop
  | .finish _ => s.closed = false → ∀ id, s.InFlight id → s.sending = some id
  | _ => True

/-- The message of the end was sent with no draft request in flight. -/
def FinalAlone (s : DraftSink α β) : Prop := s.finalAfter.isSome = true → ∀ id, ¬s.InFlight id

/-- No draft request was started after the message of the end. -/
def NoneAfter (s : DraftSink α β) : Prop := ∀ n, s.finalAfter = some n → s.drafts.length = n

/-- Nothing was posted twice: what was is the rich message, or the plain text in its pieces, as far as it came. -/
def PostedOnce (s : DraftSink α β) : Prop :=
  s.posted = [] ∨ ∃ f, s.given = some f ∧ (s.posted = [.rich f.markdown] ∨ ∃ k, s.posted = (f.parts.take k).map .plain)

end DraftSink

namespace DraftSinkAux

variable {α β : Type*} {streamDrafts : Bool} {shown : α → Bool} {s t u : DraftSink α β}

/-! ### What a step leaves -/

/-- The end is where it was, and once the sink is closed so are the draft requests. -/
structure Kept (s t : DraftSink α β) : Prop where
  finish : t.finish = s.finish
  closed : t.closed = s.closed
  given : t.given = s.given
  finalAfter : t.finalAfter = s.finalAfter
  posted : t.posted = s.posted
  drafts : s.closed = true → t.drafts = s.drafts

theorem Kept.refl (s : DraftSink α β) : Kept s s := ⟨rfl, rfl, rfl, rfl, rfl, fun _ => rfl⟩

theorem Kept.trans (h : Kept s t) (h' : Kept t u) : Kept s u where
  finish := h'.finish.trans h.finish
  closed := h'.closed.trans h.closed
  given := h'.given.trans h.given
  finalAfter := h'.finalAfter.trans h.finalAfter
  posted := h'.posted.trans h.posted
  drafts := fun hc => (h'.drafts (h.closed.trans hc)).trans (h.drafts hc)

theorem Kept.schedule (h : Kept s t) : Kept s t.schedule := by
  refine h.trans ?_
  unfold DraftSink.schedule
  split_ifs
  · exact .refl t
  · exact ⟨rfl, rfl, rfl, rfl, rfl, fun _ => rfl⟩

theorem Kept.scheduleKeepalive (h : Kept s t) : Kept s t.scheduleKeepalive := by
  refine h.trans ?_
  unfold DraftSink.scheduleKeepalive
  split_ifs
  · exact .refl t
  · exact ⟨rfl, rfl, rfl, rfl, rfl, fun _ => rfl⟩

theorem Kept.flushed (h : Kept s t) : Kept s t.flushed := by
  refine h.trans ?_
  have hidle : Kept t { t with flush := .idle, inflight := false } := ⟨rfl, rfl, rfl, rfl, rfl, fun _ => rfl⟩
  simp only [DraftSink.flushed]
  split_ifs
  · exact hidle.schedule
  · exact hidle

/-- A step of the end. -/
def IsEnding : SinkAct α β → Prop
  | .finish _ | .finishWaited | .finishBot _ | .bridgeThrows | .bridgeResume | .richSettles _ | .plainSettles _ _ => True
  | _ => False

theorem step_cases {a : SinkAct α β} (h : s.step streamDrafts shown a = some t) :
    IsEnding a ∨ (∃ id ok, s.InFlight id ∧ t = { s with drafts := s.drafts.set id (some ok) }) ∨ Kept s t := by
  cases a with
  | push preview =>
    simp only [DraftSink.step, Option.some.injEq] at h
    subst h
    refine .inr (.inr ?_)
    split_ifs
    · exact .refl s
    · exact Kept.schedule ⟨rfl, rfl, rfl, rfl, rfl, fun _ => rfl⟩
  | timer =>
    simp only [DraftSink.step] at h
    refine .inr (.inr ?_)
    split_ifs at h
    · split at h
      · cases h
        exact ⟨rfl, rfl, rfl, rfl, rfl, fun _ => rfl⟩
      · cases h
        exact ⟨rfl, rfl, rfl, rfl, rfl, fun _ => rfl⟩
    · split at h
      · cases h
        exact ⟨rfl, rfl, rfl, rfl, rfl, fun _ => rfl⟩
      · cases h
        exact ⟨rfl, rfl, rfl, rfl, rfl, fun _ => rfl⟩
  | flushBot bot =>
    simp only [DraftSink.step] at h
    refine .inr (.inr ?_)
    split at h
    · split_ifs at h with hstop
      · cases h
        exact (Kept.refl s).flushed
      · cases h
        refine ⟨rfl, rfl, rfl, rfl, rfl, fun hclosed => ?_⟩
        simp [hclosed] at hstop
    · cases h
  | flushThrows =>
    simp only [DraftSink.step] at h
    refine .inr (.inr ?_)
    split at h
    · cases h
      exact (Kept.refl s).flushed
    · cases h
  | flushResume =>
    simp only [DraftSink.step] at h
    refine .inr (.inr ?_)
    split at h
    · split at h
      · cases h
        exact Kept.flushed (Kept.scheduleKeepalive ⟨rfl, rfl, rfl, rfl, rfl, fun _ => rfl⟩)
      · cases h
        exact (Kept.refl s).flushed
      · cases h
    · cases h
  | keepalive =>
    simp only [DraftSink.step] at h
    refine .inr (.inr ?_)
    split_ifs at h
    · cases h
      exact ⟨rfl, rfl, rfl, rfl, rfl, fun _ => rfl⟩
    · cases h
      exact Kept.scheduleKeepalive ⟨rfl, rfl, rfl, rfl, rfl, fun _ => rfl⟩
    · cases h
      exact ⟨rfl, rfl, rfl, rfl, rfl, fun _ => rfl⟩
  | refreshBot i bot =>
    simp only [DraftSink.step] at h
    refine .inr (.inr ?_)
    split_ifs at h with hi hsend
    · cases h
      refine ⟨rfl, rfl, rfl, rfl, rfl, fun hclosed => ?_⟩
      simp [hclosed] at hsend
    · cases h
      exact Kept.scheduleKeepalive ⟨rfl, rfl, rfl, rfl, rfl, fun _ => rfl⟩
  | refreshThrows i =>
    simp only [DraftSink.step] at h
    refine .inr (.inr ?_)
    split_ifs at h
    cases h
    exact Kept.scheduleKeepalive ⟨rfl, rfl, rfl, rfl, rfl, fun _ => rfl⟩
  | refreshResume i =>
    simp only [DraftSink.step] at h
    refine .inr (.inr ?_)
    split at h
    · split_ifs at h
      cases h
      exact Kept.scheduleKeepalive ⟨rfl, rfl, rfl, rfl, rfl, fun _ => rfl⟩
    · cases h
  | settle id ok =>
    simp only [DraftSink.step] at h
    split_ifs at h with hid
    cases h
    exact .inr (.inl ⟨id, ok, hid, rfl⟩)
  | finish final
  | finishWaited
  | finishBot bot
  | bridgeThrows
  | bridgeResume
  | richSettles answer
  | plainSettles posted ok => exact .inl trivial

/-! ### Where the end is -/

/-- What holds where the end is. -/
def Stage (s : DraftSink α β) : Prop :=
  match s.finish with
  | .idle => s.closed = false ∧ s.finalAfter = none ∧ s.posted = []
  | .waiting _ final => s.closed = true ∧ s.given = final ∧ s.finalAfter = none ∧ s.posted = []
  | .bot final => s.closed = true ∧ s.given = some final ∧ s.finalAfter = none ∧ s.posted = []
  | .bridged _ final => s.closed = true ∧ s.given = some final ∧ s.finalAfter = none ∧ s.posted = []
  | .rich final => s.closed = true ∧ s.given = some final ∧ s.finalAfter = some s.drafts.length ∧ s.posted = []
  | .plain final sent =>
    s.closed = true ∧ s.given = some final ∧ s.finalAfter = some s.drafts.length ∧ s.posted = (final.parts.take sent).map .plain
  | .done => s.closed = true ∧ s.NoneAfter ∧ s.PostedOnce

/-- What is in flight where the end is, once it was called with its handle on all that was. -/
def Named (s : DraftSink α β) : Prop :=
  match s.finish with
  | .idle => True
  | .waiting sending _ => ∀ id, s.InFlight id → sending = some id
  | .bot _ => ∀ id, ¬s.InFlight id
  | .bridged bridge _ => ∀ id, s.InFlight id → id = bridge
  | .rich _ => ∀ id, ¬s.InFlight id
  | .plain _ _ => ∀ id, ¬s.InFlight id
  | .done => s.FinalAlone

theorem idle_of_open (h : Stage s) (hopen : s.closed = false) : s.finish = .idle := by
  unfold Stage at h
  cases hf : s.finish with
  | idle => rfl
  | _ => simp [hf, hopen] at h

theorem stage_kept (h : Stage s) (hk : Kept s t) : Stage t := by
  cases hclosed : s.closed with
  | false =>
    have hf := idle_of_open h hclosed
    simp only [Stage, hf] at h
    simp only [Stage, hk.finish, hf, hk.closed, hk.finalAfter, hk.posted]
    exact h
  | true =>
    simp only [Stage, DraftSink.NoneAfter, DraftSink.PostedOnce, hk.finish, hk.closed, hk.given, hk.finalAfter, hk.posted,
      hk.drafts hclosed] at h ⊢
    exact h

theorem named_kept (hs : Stage s) (h : Named s) (hk : Kept s t) : Named t := by
  cases hclosed : s.closed with
  | false => simp only [Named, hk.finish, idle_of_open hs hclosed]
  | true =>
    simp only [Named, DraftSink.InFlight, DraftSink.FinalAlone, hk.finish, hk.finalAfter, hk.drafts hclosed] at h ⊢
    exact h

theorem stage_settle (h : Stage s) (id : Nat) (ok : Bool) : Stage { s with drafts := s.drafts.set id (some ok) } := by
  simpa only [Stage, DraftSink.NoneAfter, DraftSink.PostedOnce, List.length_set] using h

theorem inFlight_of_settle {id i : Nat} {ok : Bool} (h : ({ s with drafts := s.drafts.set id (some ok) } : DraftSink α β).InFlight i) :
    s.InFlight i := by
  unfold DraftSink.InFlight at h ⊢
  rw [List.getElem?_set] at h
  split_ifs at h with heq hlt
  · cases h
  · exact h

theorem named_settle (h : Named s) (id : Nat) (ok : Bool) : Named { s with drafts := s.drafts.set id (some ok) } := by
  unfold Named at h ⊢
  cases hf : s.finish with
  | idle => trivial
  | waiting sending final | bot final | bridged bridge final | rich final | plain final sent =>
    simp only [hf] at h
    exact fun i hi => h i (inFlight_of_settle hi)
  | done =>
    simp only [hf] at h
    exact fun hfinal i hi => h hfinal i (inFlight_of_settle hi)

theorem not_inFlight_of_settled {id : Nat} (h : s.settled id = true) : ¬s.InFlight id := by
  intro hid
  unfold DraftSink.InFlight at hid
  simp [DraftSink.settled, hid] at h

theorem none_inFlight {sending : Option Nat} (h : ∀ id, s.InFlight id → sending = some id) (hwaited : sending.all s.settled = true) :
    ∀ id, ¬s.InFlight id := by
  intro id hid
  rw [h id hid, Option.all_some] at hwaited
  exact not_inFlight_of_settled hwaited hid

theorem noneAfter_of_eq (h : s.finalAfter = some s.drafts.length) : s.NoneAfter := fun _ hn => Option.some.inj (h.symm.trans hn)

/-! ### The steps of the end -/

theorem stage_plain {final : Final β} {sent : Nat} (hclosed : s.closed = true) (hgiven : s.given = some final)
    (hafter : s.finalAfter = some s.drafts.length) (hposted : s.posted = (final.parts.take sent).map .plain) :
    Stage (s.sendPlain final sent) := by
  unfold Stage DraftSink.sendPlain
  split_ifs
  · exact ⟨hclosed, hgiven, hafter, hposted⟩
  · exact ⟨hclosed, noneAfter_of_eq hafter, .inr ⟨final, hgiven, .inr ⟨sent, hposted⟩⟩⟩

theorem named_plain {final : Final β} {sent : Nat} (h : ∀ id, ¬s.InFlight id) : Named (s.sendPlain final sent) := by
  unfold Named DraftSink.sendPlain
  split_ifs
  · exact h
  · exact fun _ => h

/-- What a step of the end does. -/
inductive EndStep (s : DraftSink α β) : SinkAct α β → DraftSink α β → Prop
  | ended (final : Option (Final β)) (hclosed : s.closed = true) : EndStep s (.finish final) s
  | finish (final : Option (Final β)) (hopen : s.closed = false) :
    EndStep s (.finish final)
      { s with
        closed := true
        timer := false
        keepaliveTimer := false
        pending := none
        lastDraft := none
        finish := .waiting s.sending final
        given := final }
  | nothing (sending : Option Nat) (hf : s.finish = .waiting sending none) (hwaited : sending.all s.settled = true) :
    EndStep s .finishWaited { s with finish := .done }
  | waited (sending : Option Nat) (final : Final β) (hf : s.finish = .waiting sending (some final))
    (hwaited : sending.all s.settled = true) : EndStep s .finishWaited { s with finish := .bot final }
  | noBot (final : Final β) (hf : s.finish = .bot final) : EndStep s (.finishBot false) { s with finish := .done }
  | bridge (final : Final β) (hf : s.finish = .bot final) :
    EndStep s (.finishBot true)
      { s with streamed := false, drafts := s.drafts ++ [none], finish := .bridged s.drafts.length final }
  | rich (final : Final β) (hf : s.finish = .bot final) : EndStep s (.finishBot true) (s.sendFinal final)
  | bridgeThrows (final : Final β) (hf : s.finish = .bot final) : EndStep s .bridgeThrows ({ s with streamed := false }.sendFinal final)
  | bridgeResume (id : Nat) (final : Final β) (hf : s.finish = .bridged id final) (hsettled : s.settled id = true) :
    EndStep s .bridgeResume (s.sendFinal final)
  | richPosted (answer : RichAnswer) (final : Final β) (hf : s.finish = .rich final) :
    EndStep s (.richSettles answer) { s with finish := .done, posted := s.posted ++ [.rich final.markdown] }
  | richRefused (final : Final β) (hf : s.finish = .rich final) : EndStep s (.richSettles .refused) (s.sendPlain final 0)
  | richLost (final : Final β) (hf : s.finish = .rich final) : EndStep s (.richSettles (.unknown false)) { s with finish := .done }
  | plainNext (posted : Bool) (final : Final β) (sent : Nat) (part : β) (hf : s.finish = .plain final sent)
    (hpart : final.parts[sent]? = some part) :
    EndStep s (.plainSettles posted true) ({ s with posted := s.posted ++ [Posted.plain part] }.sendPlain final (sent + 1))
  | plainLast (final : Final β) (sent : Nat) (part : β) (hf : s.finish = .plain final sent) (hpart : final.parts[sent]? = some part) :
    EndStep s (.plainSettles true false) { s with posted := s.posted ++ [Posted.plain part], finish := .done }
  | plainLost (final : Final β) (sent : Nat) (hf : s.finish = .plain final sent) :
    EndStep s (.plainSettles false false) { s with finish := .done }

theorem end_step {a : SinkAct α β} (ha : IsEnding a) (h : s.step streamDrafts shown a = some t) : EndStep s a t := by
  cases a with
  | finish final =>
    simp only [DraftSink.step, Option.some.injEq] at h
    subst h
    split_ifs with hclosed
    · exact .ended final hclosed
    · exact .finish final (by simpa using hclosed)
  | finishWaited =>
    simp only [DraftSink.step] at h
    split at h
    · rename_i sending final hf
      split_ifs at h with hwaited
      cases final with
      | none =>
        cases h
        exact .nothing sending hf hwaited
      | some f =>
        cases h
        exact .waited sending f hf hwaited
    · cases h
  | finishBot bot =>
    simp only [DraftSink.step] at h
    split at h
    · rename_i final hf
      cases bot with
      | false =>
        cases h
        exact .noBot final hf
      | true =>
        rw [if_neg (by decide)] at h
        split_ifs at h
        · cases h
          exact .bridge final hf
        · cases h
          exact .rich final hf
    · cases h
  | bridgeThrows =>
    simp only [DraftSink.step] at h
    split at h
    · rename_i final hf
      split_ifs at h
      cases h
      exact .bridgeThrows final hf
    · cases h
  | bridgeResume =>
    simp only [DraftSink.step] at h
    split at h
    · rename_i id final hf
      split_ifs at h with hsettled
      cases h
      exact .bridgeResume id final hf hsettled
    · cases h
  | richSettles answer =>
    simp only [DraftSink.step] at h
    split at h
    · rename_i final hf
      cases answer with
      | ok =>
        cases h
        exact .richPosted .ok final hf
      | refused =>
        cases h
        exact .richRefused final hf
      | unknown posted =>
        cases posted with
        | true =>
          cases h
          exact .richPosted (.unknown true) final hf
        | false =>
          cases h
          exact .richLost final hf
    · cases h
  | plainSettles posted ok =>
    simp only [DraftSink.step] at h
    split at h
    · rename_i final sent hf
      split at h
      · rename_i part hpart
        cases ok with
        | true =>
          simp only [Bool.or_true, if_true, Option.some.injEq] at h
          subst h
          exact .plainNext posted final sent part hf hpart
        | false =>
          cases posted with
          | true =>
            cases h
            exact .plainLast final sent part hf hpart
          | false =>
            cases h
            exact .plainLost final sent hf
      · cases h
    · cases h
  | _ => cases ha

theorem stage_ending {a : SinkAct α β} (hs : Stage s) (h : EndStep s a t) : Stage t := by
  have hnext : ∀ {final : Final β} {sent : Nat} {part : β}, s.posted = (final.parts.take sent).map .plain →
      final.parts[sent]? = some part → s.posted ++ [.plain part] = (final.parts.take (sent + 1)).map .plain := by
    intro final sent part hposted hpart
    rw [hposted, List.take_add_one, hpart, List.map_append]
    rfl
  cases h with
  | ended final hclosed => exact hs
  | finish final hopen =>
    have hf := idle_of_open hs hopen
    simp only [Stage, hf] at hs
    exact ⟨rfl, rfl, hs.2⟩
  | nothing sending hf hwaited | noBot final hf =>
    simp only [Stage, hf] at hs
    exact ⟨hs.1, fun n hn => by simp [hs.2.2.1] at hn, .inl hs.2.2.2⟩
  | waited sending final hf hwaited | bridge final hf =>
    simp only [Stage, hf] at hs
    exact hs
  | rich final hf | bridgeThrows final hf | bridgeResume id final hf hsettled =>
    simp only [Stage, hf] at hs
    exact ⟨hs.1, hs.2.1, rfl, hs.2.2.2⟩
  | richPosted answer final hf =>
    simp only [Stage, hf] at hs
    obtain ⟨hclosed, hgiven, hafter, hposted⟩ := hs
    exact ⟨hclosed, noneAfter_of_eq hafter, .inr ⟨final, hgiven, .inl (by simp [hposted])⟩⟩
  | richRefused final hf =>
    simp only [Stage, hf] at hs
    exact stage_plain hs.1 hs.2.1 hs.2.2.1 (by simpa using hs.2.2.2)
  | richLost final hf =>
    simp only [Stage, hf] at hs
    exact ⟨hs.1, noneAfter_of_eq hs.2.2.1, .inl hs.2.2.2⟩
  | plainNext posted final sent part hf hpart =>
    simp only [Stage, hf] at hs
    exact stage_plain hs.1 hs.2.1 hs.2.2.1 (hnext hs.2.2.2 hpart)
  | plainLast final sent part hf hpart =>
    simp only [Stage, hf] at hs
    exact ⟨hs.1, noneAfter_of_eq hs.2.2.1, .inr ⟨final, hs.2.1, .inr ⟨sent + 1, hnext hs.2.2.2 hpart⟩⟩⟩
  | plainLost final sent hf =>
    simp only [Stage, hf] at hs
    exact ⟨hs.1, noneAfter_of_eq hs.2.2.1, .inr ⟨final, hs.2.1, .inr ⟨sent, hs.2.2.2⟩⟩⟩

theorem named_ending {a : SinkAct α β} (hn : Named s) (hguard : s.EndsNamed a) (h : EndStep s a t) : Named t := by
  cases h with
  | ended final hclosed => exact hn
  | finish final hopen => exact hguard hopen
  | nothing sending hf hwaited =>
    simp only [Named, hf] at hn
    exact fun _ => none_inFlight hn hwaited
  | waited sending final hf hwaited =>
    simp only [Named, hf] at hn
    exact none_inFlight hn hwaited
  | bridge final hf =>
    simp only [Named, hf] at hn
    intro id hid
    -- Nothing but the bridge.
    by_contra hne
    refine hn id ?_
    have hlt : id < (s.drafts ++ [none]).length := (List.getElem?_eq_some_iff.mp hid).1
    rw [List.length_append, List.length_singleton] at hlt
    have hlt' : id < s.drafts.length := by omega
    unfold DraftSink.InFlight at hid ⊢
    rwa [List.getElem?_append_left hlt'] at hid
  | bridgeResume bridge final hf hsettled =>
    simp only [Named, hf] at hn
    intro id hid
    exact not_inFlight_of_settled hsettled (hn id hid ▸ hid)
  | noBot final hf
  | richPosted answer final hf
  | richLost final hf
  | plainLast final sent part hf hpart
  | plainLost final sent hf =>
    simp only [Named, hf] at hn
    exact fun _ => hn
  | rich final hf | bridgeThrows final hf =>
    simp only [Named, hf] at hn
    exact hn
  | richRefused final hf | plainNext posted final sent part hf hpart =>
    simp only [Named, hf] at hn
    exact named_plain hn

/-! ### Runs -/

theorem stage_step {a : SinkAct α β} (hs : Stage s) (h : s.step streamDrafts shown a = some t) : Stage t := by
  rcases step_cases h with ha | ⟨id, ok, _, rfl⟩ | hk
  · exact stage_ending hs (end_step ha h)
  · exact stage_settle hs id ok
  · exact stage_kept hs hk

theorem named_step {a : SinkAct α β} (hs : Stage s) (hn : Named s) (hguard : s.EndsNamed a)
    (h : s.step streamDrafts shown a = some t) : Named t := by
  rcases step_cases h with ha | ⟨id, ok, _, rfl⟩ | hk
  · exact named_ending hn hguard (end_step ha h)
  · exact named_settle hn id ok
  · exact named_kept hs hn hk

theorem stage_init : Stage (DraftSink.init : DraftSink α β) := ⟨rfl, rfl, rfl⟩

theorem noneAfter_of_stage (h : Stage s) : s.NoneAfter := by
  intro n hn
  unfold Stage at h
  cases hf : s.finish with
  | idle | waiting sending final | bot final | bridged id final => simp [hf, hn] at h
  | rich final | plain final sent =>
    simp only [hf, hn, Option.some.injEq] at h
    exact h.2.2.1.symm
  | done =>
    simp only [hf] at h
    exact h.2.1 n hn

theorem postedOnce_of_stage (h : Stage s) : s.PostedOnce := by
  unfold Stage at h
  cases hf : s.finish with
  | plain final sent =>
    simp only [hf] at h
    exact .inr ⟨final, h.2.1, .inr ⟨sent, h.2.2.2⟩⟩
  | done =>
    simp only [hf] at h
    exact h.2.2
  | _ =>
    simp only [hf] at h
    exact .inl (by simp [h])

theorem finalAlone_of_named (hs : Stage s) (h : Named s) : s.FinalAlone := by
  intro hfinal
  unfold Stage at hs
  unfold Named at h
  cases hf : s.finish with
  | idle | waiting sending final | bot final | bridged id final => simp [hf] at hs; simp [hs] at hfinal
  | rich final | plain final sent => simpa only [hf] using h
  | done =>
    simp only [hf] at h
    exact h hfinal

end DraftSinkAux

open DraftSinkAux in
/-- Whatever happens in whatever order, no draft request is started after the message of the end, and it is posted once at most; it is sent
with no draft request in flight when the end was called while those in flight were the one it has the handle of. -/
theorem final_is_last {α β : Type*} (streamDrafts : Bool) (shown : α → Bool) :
    (∀ s : DraftSink α β, Steps.Reaches (DraftSink.step streamDrafts shown) Steps.Free DraftSink.init s → s.NoneAfter ∧ s.PostedOnce) ∧
      ∀ s : DraftSink α β, Steps.Reaches (DraftSink.step streamDrafts shown) DraftSink.EndsNamed DraftSink.init s → s.FinalAlone := by
  constructor
  · intro s hrun
    have hstage : Stage s := hrun.invariant (fun x a y hx _ hstep => stage_step hx hstep) stage_init
    exact ⟨noneAfter_of_stage hstage, postedOnce_of_stage hstage⟩
  · intro s hrun
    have hboth : Stage s ∧ Named s := by
      refine hrun.invariant (I := fun x => Stage x ∧ Named x) ?_ ⟨stage_init, trivial⟩
      rintro x a y ⟨hstage, hnamed⟩ hguard hstep
      exact ⟨stage_step hstage hstep, named_step hstage hnamed hguard hstep⟩
    exact finalAlone_of_named hboth.1 hboth.2

/-- A keepalive is on its way when a flush starts the next draft, which is the one that the end waits for. -/
def overtaken : List (SinkAct Nat Nat) :=
  [.push 1, .timer, .flushBot true, .settle 0 true, .flushResume, .keepalive, .refreshBot 0 true, .push 2, .timer, .flushBot true,
    .finish (some ⟨3, [3]⟩), .settle 2 true, .finishWaited, .finishBot true, .settle 3 true, .bridgeResume]

/-- The message of the end is sent while the keepalive is in flight. -/
theorem keepalive_outlives_end : ¬∀ s : DraftSink Nat Nat,
    Steps.Reaches (DraftSink.step true fun _ => true) Steps.Free DraftSink.init s → s.FinalAlone := by
  intro h
  obtain ⟨s, hrun, hfinal, hflying⟩ := Steps.exists_of_exec (DraftSink.step true fun _ => true) DraftSink.init overtaken
    (P := fun s => s.finalAfter.isSome = true ∧ s.InFlight 1) (by decide +kernel)
  exact h s hrun hfinal 1 hflying

end Capka.Telegram

import Capka.Usage.Ledger

/-!
# What a turn bills

A run is a sequence of attempts. Every finish-step event adds its tokens to the live accumulator; an attempt that is thrown
away folds the accumulator into `discarded`, an attempt that is resumed keeps it. When the run ends, the finalize path settles
the two sums together, but only if the live one is not empty; the catch path settles them too, but only if it still owns the
turn's outcome and nothing was settled before. `settles_exactly_iff` says exactly which runs bill what they spent.
-/

namespace Capka

/-- The usage a finish-step event reports, as the SDK normalizes it. -/
structure StepUsage where
  inputTokens : Option Nat
  outputTokens : Option Nat
  noCacheTokens : Option Nat
  cacheReadTokens : Option Nat
  cacheWriteTokens : Option Nat
  deriving Repr, DecidableEq

/-- The tokens an event reports, by bucket: input without cache reads when the provider says so, else the total less the
cached reads. -/
def StepUsage.spend (u : StepUsage) : Spend :=
  let cached := u.cacheReadTokens.getD 0
  { input := u.noCacheTokens.getD (u.inputTokens.getD 0 - cached)
    output := u.outputTokens.getD 0
    cached := cached
    cacheWrite := u.cacheWriteTokens.getD 0 }

/-- Why an attempt is thrown away and streamed again from scratch. -/
inductive Restart
  | modalityUnsupported
  | effortRejected
  | reasoningUnsupported
  | reasoningEchoRejected
  | streamUsageRejected
  | contextOverflow
  | emptyResponse
  | nothingToResume
  deriving Repr, DecidableEq

/-- How an attempt ends: thrown away, continued from its partial reply, or the run ends with it. -/
inductive AttemptEnd
  | restart (cause : Restart)
  | resume
  | last
  deriving Repr, DecidableEq

/-- One attempt: the finish-step events it saw, and how it ended. -/
structure Attempt where
  steps : List StepUsage
  ending : AttemptEnd
  deriving Repr, DecidableEq

/-- How a run ends. The finalize path reaches the settlement, and may still throw after it; an earlier throw goes straight to
the catch path. `owned` is what the catch path's `commitTurnOutcome` answers, a throw there counting as owned. -/
inductive RunExit
  | finalized
  | finalizedThenThrew (owned : Bool)
  | threw (owned : Bool)
  deriving Repr, DecidableEq

/-- A run: the model `prepareRun` resolved, without which nothing streams, the attempts and the exit. -/
structure Run where
  modelId : Option String
  attempts : List Attempt
  exit : RunExit
  streams_resolved : modelId = none → attempts = []

namespace Usage

/-- `liveUsage` and `discarded`. -/
structure Accum where
  live : Spend
  discarded : Spend
  deriving Repr, DecidableEq

/-- `case "finish-step"`. -/
def Accum.finishStep (a : Accum) (u : StepUsage) : Accum :=
  { a with live := a.live + u.spend }

def Accum.foldDiscarded (a : Accum) : Accum where
  live := 0
  discarded := a.discarded + a.live

/-- One attempt: its steps, then the fold when it is thrown away. -/
def Accum.attempt (a : Accum) (x : Attempt) : Accum :=
  let streamed := x.steps.foldl Accum.finishStep a
  match x.ending with
  | .restart _ => streamed.foldDiscarded
  | .resume => streamed
  | .last => streamed

/-- The accumulators at the end of a run. -/
def accumulate (attempts : List Attempt) : Accum := attempts.foldl Accum.attempt { live := 0, discarded := 0 }

/-- The finalize path's settlement: `usageMeta` is absent when the live accumulator is empty. Answers `spendSettled` too. -/
def finalizeSettle (t : Nat) (a : Accum) (L : Ledger) : Ledger × Bool :=
  if a.live = 0 then (L, false) else (L.reconcileUsage t (a.live + a.discarded), true)

/-- The catch path's settlement, past its ownership check. -/
def catchSettle (t : Nat) (r : Run) (a : Accum) (owned spendSettled : Bool) (L : Ledger) : Ledger :=
  if owned && !spendSettled && r.modelId.isSome && decide (a.live + a.discarded ≠ 0) then
    L.reconcileUsage t (a.live + a.discarded)
  else L

/-- What a run does to the ledger, up to the release in `finally`. -/
def settle (t : Nat) (r : Run) (L : Ledger) : Ledger :=
  let a := accumulate r.attempts
  match r.exit with
  | .finalized => (finalizeSettle t a L).1.releaseHold t
  | .finalizedThenThrew owned =>
    let (L', spendSettled) := finalizeSettle t a L
    (catchSettle t r a owned spendSettled L').releaseHold t
  | .threw owned => (catchSettle t r a owned false L).releaseHold t

/-- The tokens of a list of finish-step events. -/
def reported (us : List StepUsage) : Spend := (us.map StepUsage.spend).sum

/-- The finish-step events since the last attempt that was thrown away, starting from those already seen. -/
def sinceRestart (seen : List StepUsage) : List Attempt → List StepUsage
  | [] => seen
  | x :: xs =>
    match x.ending with
    | .restart _ => sinceRestart [] xs
    | .resume => sinceRestart (seen ++ x.steps) xs
    | .last => sinceRestart (seen ++ x.steps) xs

/-- Every finish-step event of a run. -/
def steps (r : Run) : List StepUsage := r.attempts.flatMap (·.steps)

/-- The finish-step events of the reply that is kept: those since the last attempt that was thrown away. -/
def keptSteps (r : Run) : List StepUsage := sinceRestart [] r.attempts

/-- The task's ledger rows grew by exactly what the run's events reported, and no hold is pending. -/
def SettlesExactly (t : Nat) (r : Run) (L : Ledger) : Prop :=
  (∀ c, (settle t r L).settled t c = L.settled t c + (reported (steps r)).column c) ∧ (settle t r L).NoHold t

/-- The runs that bill what they spent: nothing was spent; or the finalize path settled, because the kept reply reported
tokens; or the run left through the catch path and that path owned the outcome. -/
def Bills (r : Run) : Prop :=
  reported (steps r) = 0 ∨
    match r.exit with
    | .finalized => reported (keptSteps r) ≠ 0
    | .finalizedThenThrew owned => reported (keptSteps r) ≠ 0 ∨ owned = true
    | .threw owned => owned = true

namespace SettleAux

@[simp] theorem reported_nil : reported [] = 0 := rfl

@[simp] theorem reported_append (us vs : List StepUsage) : reported (us ++ vs) = reported us + reported vs := by
  simp [reported]

theorem foldl_finishStep (us : List StepUsage) (a : Accum) :
    us.foldl Accum.finishStep a = { a with live := a.live + reported us } := by
  induction us generalizing a with
  | nil => simp
  | cons u us ih =>
    rw [List.foldl_cons, ih]
    simp [Accum.finishStep, reported, add_assoc]

theorem live_foldl_attempt (xs : List Attempt) (a : Accum) (seen : List StepUsage) (h : a.live = reported seen) :
    (xs.foldl Accum.attempt a).live = reported (sinceRestart seen xs) := by
  induction xs generalizing a seen with
  | nil => exact h
  | cons x xs ih =>
    rw [List.foldl_cons]
    unfold Accum.attempt sinceRestart
    cases x.ending with
    | restart cause => exact ih _ [] rfl
    | resume => exact ih _ _ (by simp [foldl_finishStep, h])
    | last => exact ih _ _ (by simp [foldl_finishStep, h])

theorem total_foldl_attempt (xs : List Attempt) (a : Accum) :
    (xs.foldl Accum.attempt a).live + (xs.foldl Accum.attempt a).discarded =
      a.live + a.discarded + reported (xs.flatMap (·.steps)) := by
  induction xs generalizing a with
  | nil => simp
  | cons x xs ih =>
    have hone : (a.attempt x).live + (a.attempt x).discarded = a.live + a.discarded + reported x.steps := by
      unfold Accum.attempt
      rw [foldl_finishStep]
      cases x.ending with
      | restart cause =>
        simp only [Accum.foldDiscarded, zero_add]
        ac_rfl
      | resume =>
        simp only
        ac_rfl
      | last =>
        simp only
        ac_rfl
    rw [List.foldl_cons, ih, hone, List.flatMap_cons, reported_append, add_assoc]

theorem live_accumulate (r : Run) : (accumulate r.attempts).live = reported (keptSteps r) :=
  live_foldl_attempt r.attempts _ [] rfl

theorem total_accumulate (r : Run) :
    (accumulate r.attempts).live + (accumulate r.attempts).discarded = reported (steps r) := by
  have h := total_foldl_attempt r.attempts { live := 0, discarded := 0 }
  simpa [accumulate, steps] using h

theorem isSome_of_reported {r : Run} (h : reported (steps r) ≠ 0) : r.modelId.isSome = true := by
  cases hm : r.modelId with
  | some m => rfl
  | none =>
    refine absurd ?_ h
    rw [steps, r.streams_resolved hm]
    rfl

theorem noHold_settle (t : Nat) (r : Run) (L : Ledger) : (settle t r L).NoHold t := by
  unfold settle
  cases r.exit <;> exact Ledger.noHold_releaseHold t _

theorem settled_finalizeSettle (t : Nat) (r : Run) (L : Ledger) (c : Column) :
    (finalizeSettle t (accumulate r.attempts) L).1.settled t c =
      L.settled t c + if reported (keptSteps r) = 0 then 0 else (reported (steps r)).column c := by
  unfold finalizeSettle
  rw [live_accumulate]
  split
  · simp
  · rw [Ledger.settled_reconcileUsage, ← live_accumulate, total_accumulate]

theorem settled_catchSettle (t : Nat) (r : Run) (owned spendSettled : Bool) (L : Ledger) (c : Column) :
    (catchSettle t r (accumulate r.attempts) owned spendSettled L).settled t c =
      L.settled t c + if owned = true ∧ spendSettled = false then (reported (steps r)).column c else 0 := by
  unfold catchSettle
  rw [total_accumulate]
  by_cases hz : reported (steps r) = 0
  · simp [hz]
  · simp only [isSome_of_reported hz, hz, Bool.and_true, ne_eq, not_false_eq_true, decide_true]
    cases owned <;> cases spendSettled <;> simp [Ledger.settled_reconcileUsage]

theorem snd_finalizeSettle (t : Nat) (r : Run) (L : Ledger) :
    (finalizeSettle t (accumulate r.attempts) L).2 = decide (reported (keptSteps r) ≠ 0) := by
  unfold finalizeSettle
  rw [live_accumulate]
  split
  · rename_i h
    simp [h]
  · rename_i h
    simp [h]

theorem settled_settle (t : Nat) (r : Run) (L : Ledger) (c : Column) :
    (settle t r L).settled t c = L.settled t c +
      match r.exit with
      | .finalized => if reported (keptSteps r) = 0 then 0 else (reported (steps r)).column c
      | .finalizedThenThrew owned =>
        if reported (keptSteps r) = 0 ∧ owned = false then 0 else (reported (steps r)).column c
      | .threw owned => if owned = true then (reported (steps r)).column c else 0 := by
  cases he : r.exit with
  | finalized => simp only [settle, he, Ledger.settled_releaseHold, settled_finalizeSettle]
  | finalizedThenThrew owned =>
    simp only [settle, he, Ledger.settled_releaseHold, settled_catchSettle, settled_finalizeSettle, snd_finalizeSettle]
    by_cases hk : reported (keptSteps r) = 0 <;> cases owned <;> simp [hk]
  | threw owned => simp [settle, he, Ledger.settled_releaseHold, settled_catchSettle]

theorem settled_settle_of_bills {r : Run} (h : Bills r) (t : Nat) (L : Ledger) (c : Column) :
    (settle t r L).settled t c = L.settled t c + (reported (steps r)).column c := by
  rw [settled_settle]
  rcases h with hz | h
  · have hcol : (reported (steps r)).column c = 0 := by rw [hz, Spend.column_zero]
    cases r.exit <;> simp [hcol]
  · cases he : r.exit with
    | finalized =>
      simp only [he] at h
      simp [h]
    | finalizedThenThrew owned =>
      simp only [he] at h
      rcases h with h | h <;> simp [h]
    | threw owned =>
      simp only [he] at h
      simp [h]

theorem settled_settle_of_not_bills {r : Run} (h : ¬Bills r) (t : Nat) (L : Ledger) (c : Column) :
    (settle t r L).settled t c = L.settled t c := by
  rw [settled_settle]
  have hexit := (not_or.mp h).2
  cases he : r.exit <;> simp only [he] at hexit <;> simp_all

end SettleAux

open SettleAux

/-- A run's ledger rows sum to exactly the tokens its finish-step events reported, with no hold pending afterwards, if and
only if the run bills: it spent nothing, or the finalize path settled a kept reply that reported tokens, or the catch path
owned the outcome. -/
theorem settles_exactly_iff (t : Nat) (r : Run) (L : Ledger) : SettlesExactly t r L ↔ Bills r := by
  constructor
  · intro h
    by_contra hb
    refine hb (.inl (Spend.eq_zero_of_column fun c => ?_))
    have hc := h.1 c
    rw [settled_settle_of_not_bills hb] at hc
    omega
  · intro hb
    exact ⟨settled_settle_of_bills hb t L, noHold_settle t r L⟩

/-! ## A run that does not bill -/

/-- The usage of a reply with no content. -/
def emptyUsage : StepUsage where
  inputTokens := some 900
  outputTokens := some 40
  noCacheTokens := some 900
  cacheReadTokens := some 0
  cacheWriteTokens := none

/-- A turn whose first reply was empty, and thrown away after it reported its tokens, and whose retry failed before it finished
a step. -/
def emptyThenFailed : Run where
  modelId := some "m"
  attempts := [{ steps := [emptyUsage], ending := .restart .emptyResponse }, { steps := [], ending := .last }]
  exit := .finalized
  streams_resolved := nofun

/-- A ledger with the hold of task 1. -/
def heldLedger : Ledger where
  rows := [{ taskId := some 1, inputTokens := 0, outputTokens := 0, cachedInputTokens := 0, pending := true }]
  onePending _ := Nat.le_trans (List.length_filter_le _ _) (Nat.le_refl 1)

/-- Not every run bills what it spent: the tokens of the discarded reply are dropped and the hold is released. -/
theorem settles_exactly_false : ¬∀ (t : Nat) (r : Run) (L : Ledger), SettlesExactly t r L := by
  intro hall
  have hcol : (settle 1 emptyThenFailed heldLedger).settled 1 .input =
      heldLedger.settled 1 .input + (reported (steps emptyThenFailed)).column .input :=
    (hall 1 emptyThenFailed heldLedger).1 .input
  have hspent : (reported (steps emptyThenFailed)).column .input = 900 := by decide
  have hbilled : (settle 1 emptyThenFailed heldLedger).settled 1 .input = 0 := by decide
  have hbefore : heldLedger.settled 1 .input = 0 := by decide
  omega

end Usage

end Capka

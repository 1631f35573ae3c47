import Mathlib.Logic.Function.Basic
import Capka.Lib.Steps

/-!
# The review pin of a repo install

The preview of a suspended install resolves HEAD to a commit, shows the review built at it, and parks the pair under the call's
id; the add that runs after the approval takes the pair and applies it. The pin is one row per call: every preview of the call,
from any card, overwrites it and opens it again, and the approval itself says nothing of what the card showed.
-/

namespace Capka

namespace Manage

/-- What a card shows and an add applies: the commit and the hash of the review built at it. -/
structure ReviewPin where
  sha : String
  reviewHash : String
  deriving Repr, DecidableEq

/-- A row of the staging table that holds a pin. -/
structure PinRow where
  userId : Nat
  pin : ReviewPin
  identity : String
  expiresAt : Nat
  consumed : Bool
  deriving Repr, DecidableEq

/-- The row can still be claimed by the user. -/
def PinRow.Live (r : PinRow) (user now : Nat) : Prop := r.userId = user ∧ r.consumed = false ∧ now < r.expiresAt

instance (r : PinRow) (user now : Nat) : Decidable (r.Live user now) := inferInstanceAs (Decidable (_ ∧ _ ∧ _))

/-- The suspended install calls: whose run each belongs to, and what its arguments identify (repository, scope and the sorted
selection). -/
structure InstallCalls where
  owner : Nat → Nat
  identity : Nat → String

/-- A decision on a call, with what the card it was taken on displayed. -/
structure Decision where
  approved : Bool
  displayed : Option ReviewPin
  deriving Repr, DecidableEq

/-- What the installer answers. -/
inductive InstallOutcome
  | succeeded
  | stale
  | blocked
  | failed
  deriving Repr, DecidableEq

/-- The state of the hand-off: the clock, the staging table by call, the previews on their way back to a card, what each card
displays, the decisions, and the installs that were applied. -/
structure PinState where
  now : Nat
  pins : Nat → Option PinRow
  responses : List (Nat × Option ReviewPin)
  shown : Nat → Option ReviewPin
  decisions : Nat → Option Decision
  applied : List (Nat × ReviewPin)

/-- What can happen. `preview` resolves HEAD, whatever it is by then, for a card of some user and parks the pin; `previewFails`
has nothing to show. -/
inductive PinAction
  | tick (d : Nat)
  | preview (card user call : Nat) (identity : String) (pin : ReviewPin)
  | previewFails (card : Nat)
  | show (response : Nat)
  | decide (card user call : Nat) (approved : Bool)
  | execute (call : Nat) (outcome : InstallOutcome)
  | cleanup (call : Nat)
  deriving Repr, DecidableEq

namespace ReviewPins

/-- `PIN_TTL_MS`. -/
def pinTtl : Nat := 10 * 60 * 1000

/-- No pin, no card, nothing decided. -/
def start : PinState where
  now := 0
  pins := fun _ => none
  responses := []
  shown := fun _ => none
  decisions := fun _ => none
  applied := []

/-- `stage` under a chosen id: insert, or overwrite the caller's own row and open it again. -/
def stage (row : Option PinRow) (user : Nat) (identity : String) (pin : ReviewPin) (now : Nat) : Option PinRow :=
  let fresh : PinRow := { userId := user, pin := pin, identity := identity, expiresAt := now + pinTtl, consumed := false }
  match row with
  | none => some fresh
  | some r => if r.userId = user then some fresh else some r

/-- `consume`: a live row of the user flips to consumed and comes back. -/
def consume (row : Option PinRow) (user now : Nat) : Option PinRow × Option PinRow :=
  match row with
  | none => (none, none)
  | some r => if r.Live user now then (some { r with consumed := true }, some r) else (some r, none)

/-- `claimReviewPin`: the pin, when it was parked for these arguments. A mismatch has consumed it all the same. -/
def claimReviewPin (row : Option PinRow) (user now : Nat) (identity : String) : Option PinRow × Option ReviewPin :=
  let (left, taken) := consume row user now
  (left, (taken.filter (·.identity = identity)).map (·.pin))

/-- What an execution adds to the installs: the claimed pair, when there is one and the installer succeeds with it. -/
def installed (call : Nat) (claimed : Option ReviewPin) (outcome : InstallOutcome) : List (Nat × ReviewPin) :=
  match claimed, outcome with
  | some pin, .succeeded => [(call, pin)]
  | _, _ => []

variable (calls : InstallCalls)

/-- One step. A decision is taken once, by the owner of the run; an add runs only after an approval, any number of times. -/
def step (s : PinState) : PinAction → Option PinState
  | .tick d => some { s with now := s.now + d }
  | .preview card user call identity pin =>
    some { s with
      pins := Function.update s.pins call (stage (s.pins call) user identity pin s.now)
      responses := s.responses ++ [(card, some pin)] }
  | .previewFails card => some { s with responses := s.responses ++ [(card, none)] }
  | .show response =>
    match s.responses[response]? with
    | some (card, shown) => some { s with shown := Function.update s.shown card shown }
    | none => none
  | .decide card user call approved =>
    if s.decisions call = none ∧ user = calls.owner call then
      some { s with
        decisions := Function.update s.decisions call (some { approved := approved, displayed := s.shown card }) }
    else none
  | .execute call outcome =>
    if (s.decisions call).any (·.approved) then
      let (left, claimed) := claimReviewPin (s.pins call) (calls.owner call) s.now (calls.identity call)
      some { s with
        pins := Function.update s.pins call left
        applied := s.applied ++ installed call claimed outcome }
    else none
  | .cleanup call =>
    if (s.pins call).any (fun r => r.expiresAt < s.now) then some { s with pins := Function.update s.pins call none }
    else none

/-- The call has been applied. -/
def WasApplied (s : PinState) (call : Nat) : Prop := ∃ e ∈ s.applied, e.1 = call

instance (s : PinState) (call : Nat) : Decidable (WasApplied s call) :=
  inferInstanceAs (Decidable (∃ e ∈ s.applied, e.1 = call))

/-- The condition on a step. A decision is taken on a card that displays the pin parked for the call, when a live one is; and a
preview of the owner that parks after the decision parks the very pin that was decided on, before the call was applied. -/
def CardsAgree (s : PinState) : PinAction → Prop
  | .decide card user call _ => ∀ r, s.pins call = some r → r.Live user s.now → s.shown card = some r.pin
  | .preview _ user call _ pin =>
    user = calls.owner call → (s.pins call).all (fun r => decide (r.userId = user)) = true →
      ∀ d, s.decisions call = some d → d.displayed = some pin ∧ ¬WasApplied s call
  | _ => True

instance (s : PinState) : (a : PinAction) → Decidable (CardsAgree calls s a)
  | .tick _ => isTrue trivial
  | .preview _ user call _ pin =>
    inferInstanceAs (Decidable (user = calls.owner call → (s.pins call).all (fun r => decide (r.userId = user)) = true →
      ∀ d, s.decisions call = some d → d.displayed = some pin ∧ ¬WasApplied s call))
  | .previewFails _ => isTrue trivial
  | .show _ => isTrue trivial
  | .decide card user call _ =>
    inferInstanceAs (Decidable (∀ r, s.pins call = some r → r.Live user s.now → s.shown card = some r.pin))
  | .execute _ _ => isTrue trivial
  | .cleanup _ => isTrue trivial

/-- What a repo install owes the user: every applied pair was displayed by the card on which its call was approved, and no call
is applied twice. -/
def AppliesWhatWasApproved (s : PinState) : Prop :=
  (∀ e ∈ s.applied, ∃ d, s.decisions e.1 = some d ∧ d.approved = true ∧ d.displayed = some e.2) ∧
    ∀ call, s.applied.countP (·.1 = call) ≤ 1

namespace PinAux

theorem claimReviewPin_spec (row : Option PinRow) (user now : Nat) (identity : String) :
    (∀ pin, (claimReviewPin row user now identity).2 = some pin → ∃ r, row = some r ∧ r.Live user now ∧ r.pin = pin) ∧
      ∀ r, (claimReviewPin row user now identity).1 = some r → ¬r.Live user now := by
  unfold claimReviewPin consume
  cases row with
  | none => simp
  | some r =>
    by_cases hl : r.Live user now
    · simp only [hl, if_true]
      refine ⟨?_, ?_⟩
      · intro pin hpin
        obtain ⟨r', ⟨hr', -⟩, hpin'⟩ : ∃ r', (r = r' ∧ r'.identity = identity) ∧ r'.pin = pin := by simpa using hpin
        exact ⟨r, rfl, hl, by rw [hr', hpin']⟩
      · intro r' hr' hl'
        cases hr'
        exact absurd hl'.2.1 (by simp)
    · simp only [hl, if_false]
      refine ⟨?_, ?_⟩
      · intro pin hpin
        simp at hpin
      · intro r' hr'
        cases hr'
        exact hl

theorem stage_spec {row : Option PinRow} {user now : Nat} {identity : String} {pin : ReviewPin} {r : PinRow}
    (h : stage row user identity pin now = some r) :
    (r.userId = user ∧ r.pin = pin ∧ row.all (fun r => decide (r.userId = user)) = true) ∨
      (row = some r ∧ r.userId ≠ user) := by
  unfold stage at h
  cases row with
  | none =>
    cases h
    exact .inl ⟨rfl, rfl, rfl⟩
  | some r' =>
    by_cases hu : r'.userId = user
    · simp only [hu, if_true, Option.some.injEq] at h
      subst h
      exact .inl ⟨rfl, rfl, by simp [hu]⟩
    · simp only [hu, if_false, Option.some.injEq] at h
      subst h
      exact .inr ⟨rfl, hu⟩

theorem live_of_le {r : PinRow} {user now now' : Nat} (h : r.Live user now') (hle : now ≤ now') : r.Live user now :=
  ⟨h.1, h.2.1, Nat.lt_of_le_of_lt hle h.2.2⟩

theorem installed_cases (call : Nat) (claimed : Option ReviewPin) (outcome : InstallOutcome) :
    installed call claimed outcome = [] ∨ ∃ pin, claimed = some pin ∧ installed call claimed outcome = [(call, pin)] := by
  cases claimed with
  | none => exact .inl rfl
  | some pin =>
    cases outcome with
    | succeeded => exact .inr ⟨pin, rfl, rfl⟩
    | stale => exact .inl rfl
    | blocked => exact .inl rfl
    | failed => exact .inl rfl

/-- The invariant: what was applied was approved as displayed, once; and a pin that could still be claimed for a decided call is
the one decided on, of a call not applied yet. -/
structure Sealed (s : PinState) : Prop where
  consented : ∀ e ∈ s.applied, ∃ d, s.decisions e.1 = some d ∧ d.approved = true ∧ d.displayed = some e.2
  once : ∀ call, s.applied.countP (·.1 = call) ≤ 1
  kept : ∀ call d r, s.decisions call = some d → s.pins call = some r → r.Live (calls.owner call) s.now →
    d.displayed = some r.pin ∧ ¬WasApplied s call

variable {calls}

theorem sealed_start : Sealed calls start :=
  ⟨nofun, fun _ => Nat.zero_le 1, nofun⟩

theorem sealed_preview {s : PinState} (h : Sealed calls s) {card user call : Nat} {identity : String} {pin : ReviewPin}
    (hok : CardsAgree calls s (.preview card user call identity pin)) {t : PinState}
    (ht : step calls s (.preview card user call identity pin) = some t) : Sealed calls t := by
  cases ht
  refine ⟨h.consented, h.once, ?_⟩
  intro call' d r hd hr hl
  simp only at hd hr hl
  by_cases hc : call' = call
  · subst hc
    rw [Function.update_self] at hr
    rcases stage_spec hr with ⟨hu, hpin, hall⟩ | ⟨hrow, hu⟩
    · rw [hpin]
      exact hok (hu.symm.trans hl.1) hall d hd
    · exact h.kept call' d r hd hrow hl
  · rw [Function.update_of_ne hc] at hr
    exact h.kept call' d r hd hr hl

theorem sealed_decide {s : PinState} (h : Sealed calls s) {card user call : Nat} {approved : Bool}
    (hok : CardsAgree calls s (.decide card user call approved)) {t : PinState}
    (ht : step calls s (.decide card user call approved) = some t) : Sealed calls t := by
  simp only [step, Option.ite_none_right_eq_some, Option.some.injEq] at ht
  obtain ⟨⟨hnone, hu⟩, rfl⟩ := ht
  have hfresh : ∀ e ∈ s.applied, e.1 ≠ call := by
    intro e he hcall
    obtain ⟨d, hd, -⟩ := h.consented e he
    rw [hcall, hnone] at hd
    cases hd
  refine ⟨?_, h.once, ?_⟩
  · intro e he
    simp only [Function.update_of_ne (hfresh e he)]
    exact h.consented e he
  · intro call' d r hd hr hl
    simp only at hd hr hl
    by_cases hc : call' = call
    · subst hc
      rw [Function.update_self] at hd
      cases hd
      refine ⟨hok r hr (hu ▸ hl), ?_⟩
      rintro ⟨e, he, hcall⟩
      exact hfresh e he hcall
    · rw [Function.update_of_ne hc] at hd
      exact h.kept call' d r hd hr hl

theorem sealed_execute {s : PinState} (h : Sealed calls s) {call : Nat} {outcome : InstallOutcome} {t : PinState}
    (ht : step calls s (.execute call outcome) = some t) : Sealed calls t := by
  simp only [step, Option.ite_none_right_eq_some, Option.some.injEq] at ht
  obtain ⟨happ, rfl⟩ := ht
  obtain ⟨hclaim, hleft⟩ := claimReviewPin_spec (s.pins call) (calls.owner call) s.now (calls.identity call)
  generalize claimReviewPin (s.pins call) (calls.owner call) s.now (calls.identity call) = res at hclaim hleft
  obtain ⟨left, claimed⟩ := res
  obtain ⟨d, hd, hyes⟩ : ∃ d, s.decisions call = some d ∧ d.approved = true := by
    cases hdec : s.decisions call with
    | none => simp [hdec] at happ
    | some d => exact ⟨d, rfl, by simpa [hdec] using happ⟩
  -- After the claim no pin of this call is live; the other calls keep theirs.
  have hkept : ∀ call' d' r, s.decisions call' = some d' → Function.update s.pins call left call' = some r →
      r.Live (calls.owner call') s.now → call' ≠ call ∧ d'.displayed = some r.pin ∧ ¬WasApplied s call' := by
    intro call' d' r hd' hr hl
    by_cases hc : call' = call
    · subst hc
      rw [Function.update_self] at hr
      exact absurd hl (hleft r hr)
    · rw [Function.update_of_ne hc] at hr
      exact ⟨hc, h.kept call' d' r hd' hr hl⟩
  rcases installed_cases call claimed outcome with hnil | ⟨pin, hpin, hone⟩
  · simp only [hnil, List.append_nil]
    exact ⟨h.consented, h.once, fun call' d' r hd' hr hl => (hkept call' d' r hd' hr hl).2⟩
  · obtain ⟨r, hr, hl, hrpin⟩ := hclaim pin hpin
    obtain ⟨hdisp, hnot⟩ := h.kept call d r hd hr hl
    have hzero : s.applied.countP (·.1 = call) = 0 := by
      rw [List.countP_eq_zero]
      intro e he hcall
      exact hnot ⟨e, he, by simpa using hcall⟩
    simp only [hone]
    refine ⟨?_, ?_, ?_⟩
    · intro e he
      rcases List.mem_append.mp he with he | he
      · exact h.consented e he
      · cases List.mem_singleton.mp he
        exact ⟨d, hd, hyes, by rw [hdisp, hrpin]⟩
    · intro call'
      have hold := h.once call'
      simp only [List.countP_append, List.countP_singleton]
      by_cases hc : call = call'
      · subst hc
        simp [hzero]
      · simpa [hc] using hold
    · intro call' d' r' hd' hr' hl'
      obtain ⟨hc, hdisp', hnot'⟩ := hkept call' d' r' hd' hr' hl'
      refine ⟨hdisp', ?_⟩
      rintro ⟨e, he, hcall⟩
      rcases List.mem_append.mp he with he | he
      · exact hnot' ⟨e, he, hcall⟩
      · cases List.mem_singleton.mp he
        exact hc hcall.symm

theorem sealed_step {s t : PinState} {a : PinAction} (h : Sealed calls s) (hok : CardsAgree calls s a)
    (ht : step calls s a = some t) : Sealed calls t := by
  cases a with
  | tick d =>
    cases ht
    refine ⟨h.consented, h.once, fun call d' r hd hr hl => h.kept call d' r hd hr ?_⟩
    exact live_of_le hl (Nat.le_add_right _ _)
  | preview card user call identity pin => exact sealed_preview h hok ht
  | previewFails card =>
    cases ht
    exact ⟨h.consented, h.once, h.kept⟩
  | «show» response =>
    simp only [step] at ht
    split at ht
    · cases ht
      exact ⟨h.consented, h.once, h.kept⟩
    · cases ht
  | decide card user call approved => exact sealed_decide h hok ht
  | execute call outcome => exact sealed_execute h ht
  | cleanup call =>
    simp only [step, Option.ite_none_right_eq_some, Option.some.injEq] at ht
    obtain ⟨-, rfl⟩ := ht
    refine ⟨h.consented, h.once, ?_⟩
    intro call' d r hd hr hl
    simp only at hd hr hl
    by_cases hc : call' = call
    · subst hc
      rw [Function.update_self] at hr
      cases hr
    · rw [Function.update_of_ne hc] at hr
      exact h.kept call' d r hd hr hl

end PinAux

open PinAux

/-- In every run whose decisions are taken on cards that display the parked pin, and whose later previews park the pin decided
on, each applied pair is the one displayed by the card on which its call was approved, and no call is applied twice. -/
theorem applies_what_was_approved (s : PinState) (h : Steps.Reaches (step calls) (CardsAgree calls) start s) :
    AppliesWhatWasApproved s := by
  have hs : Sealed calls s :=
    h.invariant (fun _ _ _ hx hok hy => sealed_step hx hok hy) sealed_start
  exact ⟨hs.consented, hs.once⟩

/-! ## Runs -/

/-- One suspended call of user 7. -/
def oneCall : InstallCalls where
  owner _ := 7
  identity _ := "repo"

def pinA : ReviewPin := { sha := "c1", reviewHash := "h1" }

def pinB : ReviewPin := { sha := "c2", reviewHash := "h2" }

/-- Two tabs preview the same commit, the second is approved, and the call is executed twice. -/
def agreeingRun : List PinAction :=
  [.preview 0 7 1 "repo" pinA, .show 0, .tick 5, .preview 1 7 1 "repo" pinA, .show 1, .decide 1 7 1 true,
    .execute 1 .succeeded, .execute 1 .succeeded]

/-- In that run the install is applied, once, as displayed. -/
theorem applies_what_was_approved_agreeingRun :
    ∃ s, s.applied = [(1, pinA)] ∧ AppliesWhatWasApproved s := by
  have hrun : ∃ s, Steps.Reaches (step oneCall) (CardsAgree oneCall) start s ∧ s.applied = [(1, pinA)] :=
    Steps.exists_of_execOk _ _ _ agreeingRun (by decide)
  obtain ⟨s, hs, happ⟩ := hrun
  exact ⟨s, happ, applies_what_was_approved oneCall s hs⟩

/-- The first tab shows one commit, another tab previews the next one, and the user approves on the first. -/
def crossedRun : List PinAction :=
  [.preview 0 7 1 "repo" pinA, .show 0, .preview 1 7 1 "repo" pinB, .show 1, .decide 0 7 1 true, .execute 1 .succeeded]

/-- Without the condition, the approved card and the applied install part: the card showed `c1` and `c2` is installed. -/
theorem applies_what_was_approved_false :
    ¬∀ (calls : InstallCalls) (s : PinState), Steps.Reaches (step calls) Steps.Free start s → AppliesWhatWasApproved s := by
  intro hall
  have hrun : ∃ s, Steps.Reaches (step oneCall) Steps.Free start s ∧
      (s.applied = [(1, pinB)] ∧ s.decisions 1 = some { approved := true, displayed := some pinA }) :=
    Steps.exists_of_exec _ _ crossedRun (by decide)
  obtain ⟨s, hs, happ, hdec⟩ := hrun
  obtain ⟨d, hd, -, hdisp⟩ := (hall oneCall s hs).1 (1, pinB) (by simp [happ])
  rw [hdec] at hd
  cases hd
  revert hdisp
  decide

end ReviewPins

end Manage

end Capka

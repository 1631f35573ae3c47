import Mathlib.Logic.Relation

/-!
# Runs of a guarded labelled system

A system is a partial step function `step : σ → α → Option σ` over states and labelled actions; `none` is an action that
cannot happen in the state. A guard `ok : σ → α → Prop` selects the actions a family of runs is about. The rules here turn
what one step preserves into what a whole run preserves, and turn an executed list of actions into a run.
-/

namespace Steps

variable {σ α : Type*}

/-- One permitted step: some action the guard allows takes `s` to `t`. -/
def Next (step : σ → α → Option σ) (ok : σ → α → Prop) (s t : σ) : Prop :=
  ∃ a, ok s a ∧ step s a = some t

/-- `t` is reached from `s` by a run all of whose steps the guard allows. -/
def Reaches (step : σ → α → Option σ) (ok : σ → α → Prop) : σ → σ → Prop :=
  Relation.ReflTransGen (Next step ok)

/-- The guard that allows every action. -/
def Free : σ → α → Prop := fun _ _ => True

variable {step : σ → α → Option σ} {ok : σ → α → Prop} {s t u : σ}

theorem Reaches.refl (s : σ) : Reaches step ok s s :=
  Relation.ReflTransGen.refl

theorem Reaches.trans (h₁ : Reaches step ok s t) (h₂ : Reaches step ok t u) : Reaches step ok s u :=
  Relation.ReflTransGen.trans h₁ h₂

theorem Reaches.snoc {a : α} (h : Reaches step ok s t) (hok : ok t a) (hu : step t a = some u) : Reaches step ok s u :=
  Relation.ReflTransGen.tail h ⟨a, hok, hu⟩

theorem Reaches.invariant {I : σ → Prop} (h : Reaches step ok s t)
    (hstep : ∀ x a y, I x → ok x a → step x a = some y → I y) (hs : I s) : I t := by
  induction h with
  | refl => exact hs
  | tail _ hn ih =>
    obtain ⟨a, hok, hy⟩ := hn
    exact hstep _ a _ ih hok hy

/-- The two-state rule: a relation that is reflexive and that each permitted step extends, in states where the invariant
holds, relates the two ends of the run. -/
theorem Reaches.relates {I : σ → Prop} {R : σ → σ → Prop} (h : Reaches step ok s t)
    (hinv : ∀ x a y, I x → ok x a → step x a = some y → I y) (hs : I s) (hrefl : R s s)
    (hstep : ∀ x a y, I x → R s x → ok x a → step x a = some y → R s y) : R s t := by
  have hboth : I t ∧ R s t := by
    refine h.invariant (I := fun x => I x ∧ R s x) ?_ ⟨hs, hrefl⟩
    intro x a y hx hok hy
    exact ⟨hinv x a y hx.1 hok hy, hstep x a y hx.1 hx.2 hok hy⟩
  exact hboth.2

/-- Execute a list of actions, stopping with `none` at the first that cannot happen. -/
def exec (step : σ → α → Option σ) (s : σ) : List α → Option σ
  | [] => some s
  | a :: as =>
    match step s a with
    | some t => exec step t as
    | none => none

/-- Execute a list of actions, stopping with `none` at the first that cannot happen or that the guard forbids. -/
def execOk (step : σ → α → Option σ) (ok : σ → α → Prop) [∀ x a, Decidable (ok x a)] (s : σ) : List α → Option σ
  | [] => some s
  | a :: as =>
    if ok s a then
      match step s a with
      | some t => execOk step ok t as
      | none => none
    else none

theorem reaches_of_exec {as : List α} (h : exec step s as = some t) : Reaches step Free s t := by
  induction as generalizing s with
  | nil =>
    cases h
    exact Reaches.refl _
  | cons a as ih =>
    simp only [exec] at h
    split at h
    · rename_i x hx
      exact Reaches.trans ((Reaches.refl s).snoc trivial hx) (ih h)
    · cases h

/-- A guarded execution is a run under the guard. -/
theorem reaches_of_execOk [∀ x a, Decidable (ok x a)] {as : List α} (h : execOk step ok s as = some t) :
    Reaches step ok s t := by
  induction as generalizing s with
  | nil =>
    cases h
    exact Reaches.refl _
  | cons a as ih =>
    simp only [execOk] at h
    split at h
    · rename_i hok
      split at h
      · rename_i x hx
        exact Reaches.trans ((Reaches.refl s).snoc hok hx) (ih h)
      · cases h
    · cases h

theorem exists_of_execOk (step : σ → α → Option σ) (ok : σ → α → Prop) [∀ x a, Decidable (ok x a)] (s : σ) (as : List α)
    {P : σ → Prop} [DecidablePred P]
    (h : (execOk step ok s as).any (fun x => decide (P x)) = true) : ∃ x, Reaches step ok s x ∧ P x := by
  cases hx : execOk step ok s as with
  | none => simp [hx] at h
  | some x => exact ⟨x, reaches_of_execOk hx, by simpa [hx] using h⟩

theorem exists_of_exec (step : σ → α → Option σ) (s : σ) (as : List α) {P : σ → Prop} [DecidablePred P]
    (h : (exec step s as).any (fun x => decide (P x)) = true) : ∃ x, Reaches step Free s x ∧ P x := by
  cases hx : exec step s as with
  | none => simp [hx] at h
  | some x => exact ⟨x, reaches_of_exec hx, by simpa [hx] using h⟩

end Steps

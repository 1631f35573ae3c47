import Mathlib

/-!
# The usage ledger

A turn that runs on the shared key reserves a hold (a pending row) before it starts, settles that row to what it really spent,
and releases whatever hold is left when it ends. The database keeps at most one pending row per task
(`uq_usage_one_pending_per_task`), which a ledger carries as a field.
-/

namespace Capka

/-- The four billable counts of a model call. `input` excludes both cache reads (`cached`) and cache writes. -/
@[ext] structure Spend where
  input : Nat
  output : Nat
  cached : Nat
  cacheWrite : Nat
  deriving Repr, DecidableEq

namespace Spend

instance : Zero Spend := ⟨⟨0, 0, 0, 0⟩⟩

instance : Add Spend :=
  ⟨fun a b => ⟨a.input + b.input, a.output + b.output, a.cached + b.cached, a.cacheWrite + b.cacheWrite⟩⟩

@[simp] theorem zero_input : (0 : Spend).input = 0 := rfl
@[simp] theorem zero_output : (0 : Spend).output = 0 := rfl
@[simp] theorem zero_cached : (0 : Spend).cached = 0 := rfl
@[simp] theorem zero_cacheWrite : (0 : Spend).cacheWrite = 0 := rfl
@[simp] theorem add_input (a b : Spend) : (a + b).input = a.input + b.input := rfl
@[simp] theorem add_output (a b : Spend) : (a + b).output = a.output + b.output := rfl
@[simp] theorem add_cached (a b : Spend) : (a + b).cached = a.cached + b.cached := rfl
@[simp] theorem add_cacheWrite (a b : Spend) : (a + b).cacheWrite = a.cacheWrite + b.cacheWrite := rfl

instance : AddCommMonoid Spend where
  add_assoc a b c := by ext <;> simp [Nat.add_assoc]
  zero_add a := by ext <;> simp
  add_zero a := by ext <;> simp
  add_comm a b := by ext <;> simp [Nat.add_comm]
  nsmul := nsmulRec

end Spend

/-- The three token columns of a ledger row. -/
inductive Column
  | input
  | output
  | cached
  deriving Repr, DecidableEq

/-- What the ledger stores of a spend: cache writes are input tokens, already priced at their own rate. -/
def Spend.column (u : Spend) : Column → Nat
  | .input => u.input + u.cacheWrite
  | .output => u.output
  | .cached => u.cached

@[simp] theorem Spend.column_add (a b : Spend) (c : Column) : (a + b).column c = a.column c + b.column c := by
  cases c <;> simp [Spend.column]
  omega

@[simp] theorem Spend.column_zero (c : Column) : (0 : Spend).column c = 0 := by
  cases c <;> rfl

theorem Spend.eq_zero_of_column {u : Spend} (h : ∀ c, u.column c = 0) : u = 0 := by
  have hi := h .input
  have ho := h .output
  have hc := h .cached
  simp only [Spend.column] at hi ho hc
  ext <;> simp <;> omega

/-- A row of the usage table: a settled spend, or a pending hold. -/
structure UsageRow where
  taskId : Option Nat
  inputTokens : Nat
  outputTokens : Nat
  cachedInputTokens : Nat
  pending : Bool
  deriving Repr, DecidableEq

namespace UsageRow

def column (r : UsageRow) : Column → Nat
  | .input => r.inputTokens
  | .output => r.outputTokens
  | .cached => r.cachedInputTokens

/-- The row is the task's hold. -/
def isHold (t : Nat) (r : UsageRow) : Bool := r.taskId = some t && r.pending

/-- The row is a settled spend of the task. -/
def isSettled (t : Nat) (r : UsageRow) : Bool := r.taskId = some t && !r.pending

/-- A settled row. -/
def ofSpend (taskId : Option Nat) (u : Spend) : UsageRow where
  taskId := taskId
  inputTokens := u.input + u.cacheWrite
  outputTokens := u.output
  cachedInputTokens := u.cached
  pending := false

@[simp] theorem column_ofSpend (taskId : Option Nat) (u : Spend) (c : Column) :
    (ofSpend taskId u).column c = u.column c := by
  cases c <;> rfl

/-- What the settling update does to a row: a hold of the task becomes the real spend. -/
def settleHold (t : Nat) (u : Spend) (r : UsageRow) : UsageRow :=
  if r.isHold t then ofSpend (some t) u else r

end UsageRow

/-- The tokens of a task's settled rows, by column. -/
def settledTokens (t : Nat) (c : Column) (rows : List UsageRow) : Nat :=
  ((rows.filter (·.isSettled t)).map (·.column c)).sum

/-- The task's pending rows. -/
def holds (t : Nat) (rows : List UsageRow) : List UsageRow := rows.filter (·.isHold t)

namespace LedgerAux

theorem settledTokens_cons (t : Nat) (c : Column) (r : UsageRow) (rows : List UsageRow) :
    settledTokens t c (r :: rows) = (if r.isSettled t then r.column c else 0) + settledTokens t c rows := by
  unfold settledTokens
  rw [List.filter_cons]
  split <;> simp

theorem settledTokens_append (t : Nat) (c : Column) (xs ys : List UsageRow) :
    settledTokens t c (xs ++ ys) = settledTokens t c xs + settledTokens t c ys := by
  simp [settledTokens]

theorem settledTokens_ofSpend (t : Nat) (c : Column) (u : Spend) :
    settledTokens t c [UsageRow.ofSpend (some t) u] = u.column c := by
  simp [settledTokens, UsageRow.isSettled, UsageRow.ofSpend]
  cases c <;> rfl

theorem settledTokens_settleHold (t : Nat) (c : Column) (u : Spend) (rows : List UsageRow) :
    settledTokens t c (rows.map (·.settleHold t u)) = settledTokens t c rows + (holds t rows).length * u.column c := by
  induction rows with
  | nil => simp [settledTokens, holds]
  | cons r rows ih =>
    rw [List.map_cons, settledTokens_cons, settledTokens_cons, ih]
    by_cases hr : r.isHold t
    · have hpend : r.isSettled t = false := by
        simp only [UsageRow.isHold, Bool.and_eq_true] at hr
        simp [UsageRow.isSettled, hr.2]
      have hnew : (UsageRow.ofSpend (some t) u).isSettled t = true := by
        simp [UsageRow.isSettled, UsageRow.ofSpend]
      have hlen : (holds t (r :: rows)).length = (holds t rows).length + 1 := by
        simp [holds, hr]
      rw [UsageRow.settleHold, if_pos hr, hnew, hpend, hlen]
      simp only [if_true, UsageRow.column_ofSpend, Bool.false_eq_true, if_false, Nat.zero_add]
      rw [Nat.succ_mul]
      omega
    · have hlen : (holds t (r :: rows)).length = (holds t rows).length := by
        simp [holds, hr]
      rw [UsageRow.settleHold, if_neg hr, hlen]
      omega

theorem isHold_settleHold (t t' : Nat) (u : Spend) (r : UsageRow) :
    (r.settleHold t u).isHold t' = (r.isHold t' && decide (t' ≠ t)) := by
  unfold UsageRow.settleHold
  by_cases hr : r.isHold t
  · rw [if_pos hr]
    simp only [UsageRow.isHold, Bool.and_eq_true, decide_eq_true_eq] at hr
    by_cases ht : t = t' <;> simp [UsageRow.isHold, UsageRow.ofSpend, hr.1, ht]
  · rw [if_neg hr]
    by_cases ht : t' = t
    · subst ht
      simp [hr]
    · simp [ht]

theorem holds_settleHold (t t' : Nat) (u : Spend) (rows : List UsageRow) :
    (holds t' (rows.map (·.settleHold t u))).length = if t' = t then 0 else (holds t' rows).length := by
  induction rows with
  | nil => simp [holds]
  | cons r rows ih =>
    unfold holds at ih ⊢
    rw [List.map_cons, List.filter_cons, isHold_settleHold, List.filter_cons]
    by_cases ht : t' = t
    · simpa [ht] using ih
    · by_cases hr : r.isHold t' <;> simpa [ht, hr] using ih

end LedgerAux

/-- A usage table that keeps its partial unique index: at most one pending row per task. -/
structure Ledger where
  rows : List UsageRow
  onePending : ∀ t, (holds t rows).length ≤ 1

namespace Ledger

open LedgerAux

/-- The tokens of a task's settled rows, by column. -/
def settled (L : Ledger) (t : Nat) (c : Column) : Nat := settledTokens t c L.rows

/-- The task has no pending row. -/
def NoHold (L : Ledger) (t : Nat) : Prop := holds t L.rows = []

instance (L : Ledger) (t : Nat) : Decidable (L.NoHold t) := inferInstanceAs (Decidable (_ = _))

/-- `recordUsage`: a fresh settled row. -/
def recordUsage (t : Nat) (u : Spend) (L : Ledger) : Ledger where
  rows := L.rows ++ [UsageRow.ofSpend (some t) u]
  onePending t' := by
    have hnew : (UsageRow.ofSpend (some t) u).isHold t' = false := by simp [UsageRow.isHold, UsageRow.ofSpend]
    simpa [holds, List.filter_append, List.filter_cons, hnew] using L.onePending t'

/-- The update branch of `reconcileUsage`: every hold of the task becomes the real spend. -/
def settleHolds (t : Nat) (u : Spend) (L : Ledger) : Ledger where
  rows := L.rows.map (·.settleHold t u)
  onePending t' := by
    rw [holds_settleHold]
    split
    · exact Nat.zero_le 1
    · exact L.onePending t'

/-- `reconcileUsage` of a turn: settle the task's hold, or record the spend fresh when there is none. -/
def reconcileUsage (t : Nat) (u : Spend) (L : Ledger) : Ledger :=
  if holds t L.rows = [] then L.recordUsage t u else L.settleHolds t u

/-- `releaseHold`: delete the task's pending rows. -/
def releaseHold (t : Nat) (L : Ledger) : Ledger where
  rows := L.rows.filter (fun r => !r.isHold t)
  onePending t' := by
    refine Nat.le_trans ?_ (L.onePending t')
    exact ((List.filter_sublist).filter _).length_le

theorem settled_recordUsage (t : Nat) (u : Spend) (L : Ledger) (c : Column) :
    (L.recordUsage t u).settled t c = L.settled t c + u.column c := by
  simp only [settled, recordUsage, settledTokens_append, settledTokens_ofSpend]

/-- Settling adds the spend to the task's total exactly once, whether or not there was a hold. -/
theorem settled_reconcileUsage (t : Nat) (u : Spend) (L : Ledger) (c : Column) :
    (L.reconcileUsage t u).settled t c = L.settled t c + u.column c := by
  unfold reconcileUsage
  split
  · exact settled_recordUsage t u L c
  · rename_i hne
    have hone : (holds t L.rows).length = 1 := by
      have hpos := List.length_pos_of_ne_nil hne
      have hle := L.onePending t
      omega
    simp only [settled, settleHolds, settledTokens_settleHold, hone, Nat.one_mul]

theorem settled_releaseHold (t : Nat) (L : Ledger) (c : Column) : (L.releaseHold t).settled t c = L.settled t c := by
  have himp : ∀ r : UsageRow, (!r.isHold t && r.isSettled t) = r.isSettled t := by
    intro r
    cases hp : r.pending <;> simp [UsageRow.isHold, UsageRow.isSettled, hp]
  simp only [settled, settledTokens, releaseHold, List.filter_filter]
  simp only [Bool.and_comm _ (!_), himp]

theorem noHold_releaseHold (t : Nat) (L : Ledger) : (L.releaseHold t).NoHold t := by
  simp [NoHold, holds, releaseHold, List.filter_filter]

end Ledger

end Capka

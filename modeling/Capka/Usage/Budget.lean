import Mathlib
import Capka.Lib.Steps

/-!
# The budget gate

A turn on the shared key reserves an estimated hold before it runs. The gate takes a lock of the user, sums what the user spent and holds
over three windows, and writes the hold; what a turn really cost is settled, and holds are released, by statements that take no lock.
Amounts are hundred-millionths of a dollar, the scale of the column; times are milliseconds.
-/

namespace Capka.Budget

inductive WindowKey
  | h5
  | d7
  | m1
  deriving Repr, DecidableEq

/-- `ORDER`. -/
def order : List WindowKey := [.h5, .d7, .m1]

/-- A row of `usage`. -/
structure Spent where
  taskId : Option Nat
  userId : Nat
  cost : Nat
  onSharedKey : Bool
  pending : Bool
  createdAt : Nat
  deriving Repr, DecidableEq

namespace Spent

/-- The row is the task's hold. -/
def isHold (taskId : Nat) (r : Spent) : Bool := r.taskId == some taskId && r.pending

/-- The update of `reconcileUsage`. -/
def settled (cost : Nat) (onSharedKey : Bool) (r : Spent) : Spent :=
  { r with cost := cost, onSharedKey := onSharedKey, pending := false }

end Spent

/-- The table, with `uq_usage_one_pending_per_task`; every hold is on the shared key. -/
structure Usage where
  rows : List Spent
  onePending : ∀ taskId, rows.countP (Spent.isHold taskId) ≤ 1
  shared : ∀ r ∈ rows, r.pending = true → r.onSharedKey = true

/-- What an estimate comes to, as a ratio. -/
structure Estimate where
  num : Nat
  den : Nat
  pos : 0 < den

/-- The estimate the column keeps, rounded half up. -/
def Estimate.stored (e : Estimate) : Nat := (2 * e.num + e.den) / (2 * e.den)

/-- A turn on a model without a price. -/
def Estimate.zero : Estimate := ⟨0, 1, Nat.one_pos⟩

/-- The limits of a tier. -/
structure Tier where
  limit5h : Option Int
  limitWeek : Option Int
  limitMonth : Option Int

/-- `capFor`: unset, or a negative value, is no cap. -/
def capFor (tier : Tier) (w : WindowKey) : Option Nat :=
  let raw := match w with
    | .h5 => tier.limit5h
    | .d7 => tier.limitWeek
    | .m1 => tier.limitMonth
  raw.bind (fun n => if 0 ≤ n then some n.toNat else none)

section Windows

variable (monthStart : Nat → Nat)

/-- Where a window begins. -/
def windowStart (now : Nat) : WindowKey → Nat
  | .h5 => now - 5 * 60 * 60 * 1000
  | .d7 => now - 7 * 24 * 60 * 60 * 1000
  | .m1 => monthStart now

/-- The rows `spendWindows` reads for a window: the user's on the shared key, since the floor of the scan and the start of the window. -/
def counts (userId now : Nat) (w : WindowKey) (r : Spent) : Bool :=
  r.userId == userId && r.onSharedKey && decide (min (monthStart now) (windowStart monthStart now .d7) ≤ r.createdAt) &&
    decide (windowStart monthStart now w ≤ r.createdAt)

/-- One of the sums. -/
def sumOf (pending : Bool) (userId now : Nat) (w : WindowKey) (rows : List Spent) : Nat :=
  ((rows.filter (fun r => r.pending == pending && counts monthStart userId now w r)).map Spent.cost).sum

/-- `spend.committed[w] + spend.reserved[w]`. -/
def spend (userId now : Nat) (w : WindowKey) (rows : List Spent) : Nat :=
  sumOf monthStart false userId now w rows + sumOf monthStart true userId now w rows

/-- There is room for the estimate beside what is spent. -/
def roomFor (e : Estimate) (spent cap : Nat) : Bool := decide (spent * e.den + e.num < cap * e.den)

/-- The first window that has no room. -/
def blockedWindow (tier : Tier) (e : Estimate) (userId now : Nat) (rows : List Spent) : Option WindowKey :=
  order.find? (fun w => (capFor tier w).any (fun cap => !roomFor e (spend monthStart userId now w rows) cap))

end Windows

/-- Where a reservation stands; `summed` holds the lock. -/
inductive Phase
  | waiting
  | summed
  | allowed
  | refused (window : WindowKey)
  deriving Repr, DecidableEq

/-- A call of `reserveBudget`; `now` is the moment its transaction began. -/
structure Reserve where
  userId : Nat
  taskId : Nat
  estimate : Estimate
  tier : Tier
  now : Nat
  phase : Phase

/-- The table, the reservations in flight and the clock. -/
structure State where
  now : Nat
  usage : Usage
  reserves : List Reserve

namespace Usage

theorem countP_settled_le (rows : List Spent) (taskId cost : Nat) (onSharedKey : Bool) (t : Nat) :
    (rows.map (fun r => if r.isHold taskId then r.settled cost onSharedKey else r)).countP (Spent.isHold t) ≤
      rows.countP (Spent.isHold t) := by
  rw [List.countP_map]
  refine List.countP_mono_left ?_
  intro r _ h
  simp only [Function.comp_apply] at h
  split at h
  · simp [Spent.isHold, Spent.settled] at h
  · exact h

/-- The hold of a turn, unless its task has one: `ON CONFLICT DO NOTHING`. -/
def hold (u : Usage) (r : Reserve) : Usage :=
  if h : u.rows.any (Spent.isHold r.taskId) = true then u
  else
    { rows := u.rows ++ [⟨some r.taskId, r.userId, r.estimate.stored, true, true, r.now⟩]
      onePending := by
        intro t
        rw [List.countP_append]
        by_cases ht : r.taskId = t
        · subst ht
          have hz : u.rows.countP (Spent.isHold r.taskId) = 0 := by
            refine List.countP_eq_zero.mpr ?_
            intro x hx hp
            exact h (List.any_eq_true.mpr ⟨x, hx, hp⟩)
          simp [hz, Spent.isHold]
        · have := u.onePending t
          simpa [Spent.isHold, ht] using this
      shared := by
        intro x hx hp
        rcases List.mem_append.mp hx with hx | hx
        · exact u.shared x hx hp
        · obtain rfl := List.mem_singleton.mp hx
          rfl }

/-- The update of `reconcileUsage`. -/
def settle (u : Usage) (taskId cost : Nat) (onSharedKey : Bool) : Usage where
  rows := u.rows.map (fun r => if r.isHold taskId then r.settled cost onSharedKey else r)
  onePending t := Nat.le_trans (countP_settled_le u.rows taskId cost onSharedKey t) (u.onePending t)
  shared := by
    intro x hx hp
    obtain ⟨r, hr, rfl⟩ := List.mem_map.mp hx
    split at hp
    · simp [Spent.settled] at hp
    · rename_i hn
      rw [if_neg hn]
      exact u.shared r hr hp

/-- `recordUsage`. -/
def record (u : Usage) (taskId : Option Nat) (userId cost : Nat) (onSharedKey : Bool) (now : Nat) : Usage where
  rows := u.rows ++ [⟨taskId, userId, cost, onSharedKey, false, now⟩]
  onePending t := by
    have := u.onePending t
    simpa [List.countP_append, Spent.isHold] using this
  shared := by
    intro x hx hp
    rcases List.mem_append.mp hx with hx | hx
    · exact u.shared x hx hp
    · obtain rfl := List.mem_singleton.mp hx
      cases hp

/-- `releaseHold`, and the sweep of holds nothing owns. -/
def release (u : Usage) (taskId : Nat) : Usage where
  rows := u.rows.filter (fun r => !r.isHold taskId)
  onePending t := Nat.le_trans (List.filter_sublist.countP_le) (u.onePending t)
  shared := fun x hx hp => u.shared x (List.mem_filter.mp hx).1 hp

end Usage

/-- What happens around the table: a reservation begins, takes its lock and sums, and writes its hold; a turn's hold is settled, a spend
is recorded, a hold is released, time passes. -/
inductive Act
  | start (userId taskId : Nat) (onSharedKey : Bool) (priced : Option Estimate) (tier : Tier)
  | sum (i : Nat)
  | hold (i : Nat)
  | settle (taskId cost : Nat) (onSharedKey : Bool)
  | record (taskId : Option Nat) (userId cost : Nat) (onSharedKey : Bool)
  | release (taskId : Nat)
  | wait (ms : Nat)

/-- Nobody has the lock of the user. -/
def State.unlocked (s : State) (userId : Nat) : Bool := s.reserves.all (fun r => !(r.userId == userId && r.phase == .summed))

/-- A reservation goes on. -/
def State.put (s : State) (i : Nat) (r : Reserve) : State := { s with reserves := s.reserves.set i r }

/-- The transition function, over where a month begins. -/
def step (monthStart : Nat → Nat) (s : State) : Act → Option State
  | .start userId taskId onSharedKey priced tier =>
    -- a turn on the owner's own key is neither gated nor held
    some { s with
      reserves := s.reserves ++ [⟨userId, taskId, priced.getD .zero, tier, s.now, if onSharedKey then .waiting else .allowed⟩] }
  | .sum i =>
    s.reserves[i]?.bind (fun r =>
      if r.phase = .waiting ∧ s.unlocked r.userId = true then
        match blockedWindow monthStart r.tier r.estimate r.userId r.now s.usage.rows with
        | some w => some (s.put i { r with phase := .refused w })
        | none => some (s.put i { r with phase := .summed })
      else none)
  | .hold i =>
    s.reserves[i]?.bind (fun r =>
      if r.phase = .summed then some ({ s with usage := s.usage.hold r }.put i { r with phase := .allowed }) else none)
  | .settle taskId cost onSharedKey => some { s with usage := s.usage.settle taskId cost onSharedKey }
  | .record taskId userId cost onSharedKey => some { s with usage := s.usage.record taskId userId cost onSharedKey s.now }
  | .release taskId => some { s with usage := s.usage.release taskId }
  | .wait ms => some { s with now := s.now + ms }

/-- An empty table. -/
def initial (now : Nat) : State where
  now := now
  usage := ⟨[], fun _ => Nat.zero_le _, fun _ hr => absurd hr List.not_mem_nil⟩
  reserves := []

end Capka.Budget

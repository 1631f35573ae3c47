import Mathlib.Algebra.Order.Field.Rat
import Mathlib.Algebra.Order.Floor.Ring
import Mathlib.Data.Rat.Floor
import Mathlib.Tactic.Linarith
import Mathlib.Tactic.FieldSimp
import Mathlib.Tactic.NormNum
import Mathlib.Tactic.GCongr

/-!
# The rate limiter

A bucket of tokens for each key: a call refills it for the time that has passed, up to its capacity, and takes a token if there is one.
Buckets that were not touched for a while are swept away by whichever call comes next; by then they are full, which is what a bucket that
is not there is. Times are in milliseconds, and the arithmetic is exact.
-/

namespace Capka

namespace RateLimit

structure RateLimitPolicy where
  capacity : ℚ
  refillPerSec : ℚ
  deriving DecidableEq

def workspaceArchive : RateLimitPolicy where
  capacity := 2
  refillPerSec := 1 / 30

def askAnswer : RateLimitPolicy where
  capacity := 10
  refillPerSec := 1 / 6

def extensionMutation : RateLimitPolicy where
  capacity := 3
  refillPerSec := 1 / 20

def chatCopy : RateLimitPolicy where
  capacity := 5
  refillPerSec := 1 / 12

/-- `DEFAULT_CAPACITY` and `DEFAULT_REFILL_PER_SEC`. -/
def defaultPolicy : RateLimitPolicy where
  capacity := 10
  refillPerSec := 10 / 60

def RATE_LIMITS : List RateLimitPolicy := [workspaceArchive, askAnswer, extensionMutation, chatCopy]

/-- A call can be admitted at all, and an empty bucket is full within 600 seconds. -/
structure RateLimitPolicy.Refills (p : RateLimitPolicy) : Prop where
  capacity : 1 ≤ p.capacity
  refill : 0 < p.refillPerSec
  within : p.capacity / p.refillPerSec ≤ 600

theorem refills_policies : ∀ p ∈ defaultPolicy :: RATE_LIMITS, p.Refills := by
  intro p hp
  simp only [RATE_LIMITS, List.mem_cons, List.not_mem_nil, or_false] at hp
  rcases hp with rfl | rfl | rfl | rfl | rfl <;>
    constructor <;> norm_num [defaultPolicy, workspaceArchive, askAnswer, extensionMutation, chatCopy]

/-- A bucket, and when it was refilled last. -/
structure Bucket where
  tokens : ℚ
  updatedAt : ℚ
  deriving DecidableEq

def IDLE_EVICT_MS : ℚ := 10 * 60 * 1000

/-- The module: a map of buckets, and when it was swept last. -/
structure Limiter (κ : Type*) where
  buckets : κ → Option Bucket
  lastSweep : ℚ

/-- The module as it is loaded. -/
def Limiter.loaded (κ : Type*) : Limiter κ where
  buckets := fun _ => none
  lastSweep := 0

/-- What `take` answers. -/
structure Answer where
  ok : Bool
  retryAfterSec : ℤ
  deriving Repr, DecidableEq

variable {κ : Type*}

def sweep (now : ℚ) (l : Limiter κ) : Limiter κ :=
  if now - l.lastSweep < IDLE_EVICT_MS then l
  else
    { buckets := fun k => (l.buckets k).filter fun b => ¬now - b.updatedAt > IDLE_EVICT_MS
      lastSweep := now }

/-- A bucket refilled for the time since it was touched. -/
def refilled (p : RateLimitPolicy) (now : ℚ) (b : Bucket) : Bucket where
  tokens := min p.capacity (b.tokens + (now - b.updatedAt) / 1000 * p.refillPerSec)
  updatedAt := now

/-- The bucket of a key, a full one where there is none. -/
def bucketOf (p : RateLimitPolicy) (now : ℚ) (b : Option Bucket) : Bucket := b.getD { tokens := p.capacity, updatedAt := now }

variable [DecidableEq κ]

/-- `take` behind the sweep. -/
def takeSwept (key : κ) (p : RateLimitPolicy) (now : ℚ) (l : Limiter κ) : Limiter κ × Answer :=
  let b := refilled p now (bucketOf p now (l.buckets key))
  if 1 ≤ b.tokens then
    ({ l with buckets := Function.update l.buckets key (some { b with tokens := b.tokens - 1 }) }, { ok := true, retryAfterSec := 0 })
  else
    ({ l with buckets := Function.update l.buckets key (some b) },
      { ok := false, retryAfterSec := ⌈(1 - b.tokens) / p.refillPerSec⌉ })

def take (key : κ) (p : RateLimitPolicy) (now : ℚ) (l : Limiter κ) : Limiter κ × Answer := takeSwept key p now (sweep now l)

/-- A call under a key, at a time. -/
structure Call (κ : Type*) where
  key : κ
  now : ℚ

/-- The calls with their answers, each call under the policy of its key. -/
def log (policy : κ → RateLimitPolicy) (l : Limiter κ) : List (Call κ) → List (Call κ × Answer)
  | [] => []
  | c :: calls => (c, (take c.key (policy c.key) c.now l).2) :: log policy (take c.key (policy c.key) c.now l).1 calls

/-- The calls with the answers of a limiter that is never swept. -/
def unsweptLog (policy : κ → RateLimitPolicy) (l : Limiter κ) : List (Call κ) → List (Call κ × Answer)
  | [] => []
  | c :: calls => (c, (takeSwept c.key (policy c.key) c.now l).2) :: unsweptLog policy (takeSwept c.key (policy c.key) c.now l).1 calls

/-- The entries of a log that are calls of a key admitted from a time to another. -/
def admitted (k : κ) (start stop : ℚ) (entries : List (Call κ × Answer)) : List (Call κ × Answer) :=
  entries.filter fun e => e.1.key = k && e.2.ok && start ≤ e.1.now && e.1.now ≤ stop

namespace RateLimitAux

/-! ### The level of a bucket -/

variable {p : RateLimitPolicy} {b : Option Bucket} {s t : ℚ}

/-- The tokens a call finds. -/
def level (p : RateLimitPolicy) (b : Option Bucket) (now : ℚ) : ℚ := (refilled p now (bucketOf p now b)).tokens

/-- The tokens a call leaves of what it finds. -/
def spent (x : ℚ) : ℚ := if 1 ≤ x then x - 1 else x

/-- The answer of a call to what it finds. -/
def answer (p : RateLimitPolicy) (x : ℚ) : Answer :=
  if 1 ≤ x then { ok := true, retryAfterSec := 0 } else { ok := false, retryAfterSec := ⌈(1 - x) / p.refillPerSec⌉ }

theorem level_none : level p none t = p.capacity := by simp [level, refilled, bucketOf]

theorem level_some (b : Bucket) : level p (some b) t = min p.capacity (b.tokens + (t - b.updatedAt) / 1000 * p.refillPerSec) := rfl

theorem level_le : level p b t ≤ p.capacity := min_le_left _ _

theorem refill_nonneg (hp : p.Refills) (hst : s ≤ t) : 0 ≤ (t - s) / 1000 * p.refillPerSec :=
  mul_nonneg (div_nonneg (sub_nonneg.mpr hst) (by norm_num)) hp.refill.le

theorem level_later (hp : p.Refills) (hst : s ≤ t) : level p b t = min p.capacity (level p b s + (t - s) / 1000 * p.refillPerSec) := by
  have hrefill := refill_nonneg hp hst
  cases b with
  | none =>
    rw [level_none, level_none]
    exact (min_eq_left (by linarith)).symm
  | some b =>
    have hsum : b.tokens + (t - b.updatedAt) / 1000 * p.refillPerSec =
        b.tokens + (s - b.updatedAt) / 1000 * p.refillPerSec + (t - s) / 1000 * p.refillPerSec := by ring
    have hcap : min p.capacity (p.capacity + (t - s) / 1000 * p.refillPerSec) = p.capacity := min_eq_left (by linarith)
    rw [level_some, level_some, min_add, ← min_assoc, hcap, hsum]

theorem level_spent (x : ℚ) : level p (some { tokens := x, updatedAt := s }) t = min p.capacity (x + (t - s) / 1000 * p.refillPerSec) := rfl

/-! ### What a call does -/

variable {κ : Type*} [DecidableEq κ] {policy : κ → RateLimitPolicy} {l l' : Limiter κ} {k : κ} {now : ℚ}

theorem takeSwept_answer (k : κ) (p : RateLimitPolicy) (now : ℚ) (l : Limiter κ) :
    (takeSwept k p now l).2 = answer p (level p (l.buckets k) now) := by
  unfold takeSwept answer level
  dsimp only
  split_ifs <;> rfl

theorem takeSwept_buckets (k : κ) (p : RateLimitPolicy) (now : ℚ) (l : Limiter κ) :
    (takeSwept k p now l).1.buckets =
      Function.update l.buckets k (some { tokens := spent (level p (l.buckets k) now), updatedAt := now }) := by
  unfold takeSwept spent level
  dsimp only
  split_ifs <;> rfl

theorem level_take_self (k : κ) (now : ℚ) (l : Limiter κ) :
    level (policy k) ((takeSwept k (policy k) now l).1.buckets k) t =
      min (policy k).capacity (spent (level (policy k) (l.buckets k) now) + (t - now) / 1000 * (policy k).refillPerSec) := by
  rw [takeSwept_buckets, Function.update_self, level_spent]

theorem level_take_ne {k' : κ} (h : k' ≠ k) (p : RateLimitPolicy) (now : ℚ) (l : Limiter κ) :
    (takeSwept k p now l).1.buckets k' = l.buckets k' := by
  rw [takeSwept_buckets, Function.update_of_ne h]

theorem spent_le (x : ℚ) : spent x ≤ x := by
  unfold spent
  split_ifs
  · linarith
  · exact le_rfl

theorem level_take_le (hp : (policy k).Refills) (hst : now ≤ t) (l : Limiter κ) :
    level (policy k) ((takeSwept k (policy k) now l).1.buckets k) t ≤ level (policy k) (l.buckets k) t := by
  rw [level_take_self, level_later hp hst]
  have := spent_le (level (policy k) (l.buckets k) now)
  gcongr

theorem level_take_refused (hp : (policy k).Refills) (hst : now ≤ t) (h : ¬1 ≤ level (policy k) (l.buckets k) now) :
    level (policy k) ((takeSwept k (policy k) now l).1.buckets k) t = level (policy k) (l.buckets k) t := by
  rw [level_take_self, level_later hp hst, spent, if_neg h]

theorem ok_iff (p : RateLimitPolicy) (x : ℚ) : (answer p x).ok = true ↔ 1 ≤ x := by
  unfold answer
  split_ifs with h <;> simp [h]

/-! ### The window -/

variable {calls : List (Call κ)} {start stop : ℚ}

theorem admitted_cons_pos {c : Call κ} {a : Answer} {es : List (Call κ × Answer)} (hk : c.key = k) (hok : a.ok = true)
    (hstart : start ≤ c.now) (hstop : c.now ≤ stop) : admitted k start stop ((c, a) :: es) = (c, a) :: admitted k start stop es :=
  List.filter_cons_of_pos (by simp [hk, hok, hstart, hstop])

theorem admitted_cons_neg {c : Call κ} {a : Answer} {es : List (Call κ × Answer)}
    (h : ¬(c.key = k ∧ a.ok = true ∧ start ≤ c.now ∧ c.now ≤ stop)) :
    admitted k start stop ((c, a) :: es) = admitted k start stop es :=
  List.filter_cons_of_neg (by simpa [and_assoc] using h)

theorem unsweptLog_cons (policy : κ → RateLimitPolicy) (l : Limiter κ) (c : Call κ) (calls : List (Call κ)) :
    unsweptLog policy l (c :: calls) = (c, answer (policy c.key) (level (policy c.key) (l.buckets c.key) c.now)) ::
      unsweptLog policy (takeSwept c.key (policy c.key) c.now l).1 calls := by
  rw [unsweptLog, takeSwept_answer]

theorem admitted_le (hp : (policy k).Refills) (hsorted : calls.Pairwise (fun c d => c.now ≤ d.now)) (t₀ : ℚ)
    (hfrom : ∀ c ∈ calls, t₀ ≤ c.now) (n : ℚ)
    (hn : n ≤ (policy k).capacity + (stop - start) / 1000 * (policy k).refillPerSec)
    (hlevel : ∀ t, t₀ ≤ t → t ≤ stop →
      n + level (policy k) (l.buckets k) t ≤ (policy k).capacity + (max t start - start) / 1000 * (policy k).refillPerSec) :
    n + (admitted k start stop (unsweptLog policy l calls)).length ≤
      (policy k).capacity + (stop - start) / 1000 * (policy k).refillPerSec := by
  induction calls generalizing l t₀ n with
  | nil => simpa [unsweptLog, admitted] using hn
  | cons c calls ih =>
    obtain ⟨hhead, htail⟩ := List.pairwise_cons.mp hsorted
    have hc : t₀ ≤ c.now := hfrom c List.mem_cons_self
    by_cases hk : c.key = k
    · subst hk
      by_cases hadm : 1 ≤ level (policy c.key) (l.buckets c.key) c.now
      · by_cases hwin : start ≤ c.now ∧ c.now ≤ stop
        · have hat := hlevel c.now hc hwin.2
          rw [max_eq_left hwin.1] at hat
          have hstop := refill_nonneg hp hwin.2
          have hrest := ih (l := (takeSwept c.key (policy c.key) c.now l).1) htail c.now hhead (n + 1) (by nlinarith) (by
            intro t ht hts
            rw [level_take_self, spent, if_pos hadm, max_eq_left (hwin.1.trans ht)]
            have hmin := min_le_right (policy c.key).capacity
              (level (policy c.key) (l.buckets c.key) c.now - 1 + (t - c.now) / 1000 * (policy c.key).refillPerSec)
            nlinarith)
          rw [unsweptLog_cons, admitted_cons_pos rfl ((ok_iff _ _).mpr hadm) hwin.1 hwin.2, List.length_cons]
          push_cast
          linarith
        · rw [unsweptLog_cons, admitted_cons_neg (fun h => hwin h.2.2)]
          refine ih htail c.now hhead n hn (fun t ht hts => ?_)
          have hle := level_take_le hp ht l
          have hold := hlevel t (hc.trans ht) hts
          linarith
      · rw [unsweptLog_cons, admitted_cons_neg (fun h => hadm ((ok_iff _ _).mp h.2.1))]
        refine ih htail c.now hhead n hn (fun t ht hts => ?_)
        rw [level_take_refused hp ht hadm]
        exact hlevel t (hc.trans ht) hts
    · rw [unsweptLog_cons, admitted_cons_neg (fun h => hk h.1)]
      refine ih htail c.now hhead n hn (fun t ht hts => ?_)
      rw [level_take_ne (fun h => hk h.symm)]
      exact hlevel t (hc.trans ht) hts

/-! ### The sweep -/

/-- Every bucket was left by a call of before, and none is overdrawn. -/
def Sound (now : ℚ) (l : Limiter κ) : Prop := ∀ k b, l.buckets k = some b → 0 ≤ b.tokens ∧ b.updatedAt ≤ now

theorem spent_nonneg {x : ℚ} (hx : 0 ≤ x) : 0 ≤ spent x := by
  unfold spent
  split_ifs
  · linarith
  · exact hx

theorem level_nonneg (hp : p.Refills) (hb : ∀ b', b = some b' → 0 ≤ b'.tokens ∧ b'.updatedAt ≤ t) : 0 ≤ level p b t := by
  have hcap : 0 ≤ p.capacity := le_trans (by norm_num) hp.capacity
  cases b with
  | none => rwa [level_none]
  | some b =>
    obtain ⟨htokens, hat⟩ := hb b rfl
    exact le_min hcap (add_nonneg htokens (refill_nonneg hp hat))

theorem level_idle (hp : p.Refills) (b : Bucket) (hb : 0 ≤ b.tokens) (hidle : now - b.updatedAt > IDLE_EVICT_MS) (ht : now ≤ t) :
    level p (some b) t = p.capacity := by
  have hfull : p.capacity ≤ 600 * p.refillPerSec := (div_le_iff₀ hp.refill).mp hp.within
  have htime : 600 ≤ (t - b.updatedAt) / 1000 := by
    rw [IDLE_EVICT_MS] at hidle
    linarith
  have hrefill : 600 * p.refillPerSec ≤ (t - b.updatedAt) / 1000 * p.refillPerSec := mul_le_mul_of_nonneg_right htime hp.refill.le
  rw [level_some]
  exact min_eq_left (by linarith)

omit [DecidableEq κ] in
theorem level_sweep (hp : p.Refills) (hl : Sound s l) (k : κ) (ht : now ≤ t) :
    level p ((sweep now l).buckets k) t = level p (l.buckets k) t := by
  unfold sweep
  split_ifs with h
  · rfl
  · dsimp only
    cases hb : l.buckets k with
    | none => rfl
    | some b =>
      by_cases hidle : now - b.updatedAt > IDLE_EVICT_MS
      · have hgone : (some b).filter (fun b => decide ¬now - b.updatedAt > IDLE_EVICT_MS) = none :=
          Option.filter_some_neg (decide_eq_false (not_not_intro hidle))
        rw [hgone, level_none, level_idle hp b (hl k b hb).1 hidle ht]
      · have hkept : (some b).filter (fun b => decide ¬now - b.updatedAt > IDLE_EVICT_MS) = some b :=
          Option.filter_some_pos (decide_eq_true hidle)
        rw [hkept]

omit [DecidableEq κ] in
theorem sound_sweep (hl : Sound s l) (hst : s ≤ t) (now : ℚ) : Sound t (sweep now l) := by
  intro k b hb
  have hold : l.buckets k = some b := by
    unfold sweep at hb
    split_ifs at hb
    · exact hb
    · exact (Option.filter_eq_some_iff.mp hb).1
  obtain ⟨htokens, hat⟩ := hl k b hold
  exact ⟨htokens, hat.trans hst⟩

theorem sound_take (hp : (policy k).Refills) (hl : Sound now l) : Sound now (takeSwept k (policy k) now l).1 := by
  intro k' b hb
  rw [takeSwept_buckets] at hb
  by_cases hk : k' = k
  · subst hk
    rw [Function.update_self] at hb
    cases hb
    exact ⟨spent_nonneg (level_nonneg hp fun b' hb' => hl k' b' hb'), le_rfl⟩
  · rw [Function.update_of_ne hk] at hb
    exact hl k' b hb

theorem log_eq (hp : ∀ k, (policy k).Refills) (hsorted : calls.Pairwise (fun c d => c.now ≤ d.now)) (t₀ : ℚ)
    (hfrom : ∀ c ∈ calls, t₀ ≤ c.now) (hl : Sound t₀ l)
    (hagree : ∀ k t, t₀ ≤ t → level (policy k) (l.buckets k) t = level (policy k) (l'.buckets k) t) :
    log policy l calls = unsweptLog policy l' calls := by
  induction calls generalizing l l' t₀ with
  | nil => rfl
  | cons c calls ih =>
    obtain ⟨hhead, htail⟩ := List.pairwise_cons.mp hsorted
    have hc : t₀ ≤ c.now := hfrom c List.mem_cons_self
    have hswept : ∀ k t, c.now ≤ t → level (policy k) ((sweep c.now l).buckets k) t = level (policy k) (l'.buckets k) t := by
      intro k t ht
      rw [level_sweep (hp k) hl k ht]
      exact hagree k t (hc.trans ht)
    have hsound := sound_sweep hl hc c.now
    rw [unsweptLog_cons, log, take, takeSwept_answer, hswept c.key c.now le_rfl]
    refine congrArg _ (ih htail c.now hhead (sound_take (hp c.key) hsound) (fun k t ht => ?_))
    by_cases hk : k = c.key
    · subst hk
      rw [level_take_self, level_take_self, hswept c.key c.now le_rfl]
    · rw [level_take_ne hk, level_take_ne hk]
      exact hswept k t ht

/-! ### After a refusal -/

theorem ok_of_refilled (hp : (policy k).Refills) (hsorted : calls.Pairwise (fun c d => c.now ≤ d.now)) (t₀ : ℚ)
    (hfrom : ∀ c ∈ calls, t₀ ≤ c.now) {x s : ℚ}
    (hlevel : ∀ t, t₀ ≤ t → min (policy k).capacity (x + (t - s) / 1000 * (policy k).refillPerSec) ≤ level (policy k) (l.buckets k) t)
    {j : Nat} {d : Call κ} {a : Answer} (hd : (unsweptLog policy l calls)[j]? = some (d, a)) (hk : d.key = k)
    (hnone : ∀ m < j, ∀ e b, (unsweptLog policy l calls)[m]? = some (e, b) → e.key = k → b.ok = false)
    (hdue : 1 ≤ x + (d.now - s) / 1000 * (policy k).refillPerSec) : a.ok = true := by
  induction calls generalizing l t₀ j with
  | nil => simp [unsweptLog] at hd
  | cons c calls ih =>
    obtain ⟨hhead, htail⟩ := List.pairwise_cons.mp hsorted
    have hc : t₀ ≤ c.now := hfrom c List.mem_cons_self
    rw [unsweptLog_cons] at hd hnone
    cases j with
    | zero =>
      simp only [List.getElem?_cons_zero, Option.some.injEq, Prod.mk.injEq] at hd
      obtain ⟨rfl, rfl⟩ := hd
      subst hk
      rw [ok_iff]
      exact (le_min hp.capacity hdue).trans (hlevel c.now hc)
    | succ j =>
      rw [List.getElem?_cons_succ] at hd
      refine ih htail c.now hhead (fun t ht => ?_) hd (fun m hm e b he => ?_)
      · by_cases hck : c.key = k
        · subst hck
          have hrefused : ¬1 ≤ level (policy c.key) (l.buckets c.key) c.now := by
            have := hnone 0 (Nat.succ_pos j) c _ (by rw [List.getElem?_cons_zero]) rfl
            rw [← ok_iff (policy c.key), this]
            exact Bool.false_ne_true
          rw [level_take_refused hp ht hrefused]
          exact hlevel t (hc.trans ht)
        · rw [level_take_ne (fun h => hck h.symm)]
          exact hlevel t (hc.trans ht)
      · exact hnone (m + 1) (Nat.succ_lt_succ hm) e b (by rwa [List.getElem?_cons_succ])

omit [DecidableEq κ] in
theorem exists_from (hsorted : calls.Pairwise (fun c d => c.now ≤ d.now)) : ∃ t₀, ∀ c ∈ calls, t₀ ≤ c.now := by
  cases calls with
  | nil => exact ⟨0, fun c hc => (List.not_mem_nil hc).elim⟩
  | cons c calls =>
    refine ⟨c.now, fun d hd => ?_⟩
    rcases List.mem_cons.mp hd with rfl | hd
    · exact le_rfl
    · exact (List.pairwise_cons.mp hsorted).1 d hd

theorem ok_of_due (hp : ∀ k, (policy k).Refills) (hsorted : calls.Pairwise (fun c d => c.now ≤ d.now)) {i j : Nat} (hij : i < j)
    {c d : Call κ} {a b : Answer} (hc : (unsweptLog policy l calls)[i]? = some (c, a)) (hd : (unsweptLog policy l calls)[j]? = some (d, b))
    (hk : d.key = c.key) (hrefused : a.ok = false)
    (hnone : ∀ m, i < m → m < j → ∀ e f, (unsweptLog policy l calls)[m]? = some (e, f) → e.key = c.key → f.ok = false)
    (hdue : c.now + 1000 * a.retryAfterSec ≤ d.now) : b.ok = true := by
  induction calls generalizing l i j with
  | nil => simp [unsweptLog] at hc
  | cons c₀ calls ih =>
    obtain ⟨hhead, htail⟩ := List.pairwise_cons.mp hsorted
    rw [unsweptLog_cons] at hc hd hnone
    obtain ⟨j, rfl⟩ : ∃ j', j = j' + 1 := ⟨j - 1, by omega⟩
    rw [List.getElem?_cons_succ] at hd
    cases i with
    | succ i =>
      rw [List.getElem?_cons_succ] at hc
      refine ih htail (by omega) hc hd (fun m hm hmj e f he => ?_)
      exact hnone (m + 1) (by omega) (by omega) e f (by rwa [List.getElem?_cons_succ])
    | zero =>
      simp only [List.getElem?_cons_zero, Option.some.injEq, Prod.mk.injEq] at hc
      obtain ⟨rfl, rfl⟩ := hc
      have hlow : ¬1 ≤ level (policy c₀.key) (l.buckets c₀.key) c₀.now := by
        rw [← ok_iff (policy c₀.key), hrefused]
        exact Bool.false_ne_true
      refine ok_of_refilled (x := level (policy c₀.key) (l.buckets c₀.key) c₀.now) (s := c₀.now) (hp c₀.key) htail c₀.now hhead
        (fun t ht => ?_) hd hk (fun m hm e f he => ?_) ?_
      · rw [level_take_self, spent, if_neg hlow]
      · exact hnone (m + 1) (Nat.succ_pos m) (Nat.succ_lt_succ hm) e f (by rwa [List.getElem?_cons_succ])
      · have hr := (hp c₀.key).refill
        simp only [answer, if_neg hlow] at hdue
        have hceil := Int.le_ceil ((1 - level (policy c₀.key) (l.buckets c₀.key) c₀.now) / (policy c₀.key).refillPerSec)
        rw [div_le_iff₀ hr] at hceil
        have htime : (⌈(1 - level (policy c₀.key) (l.buckets c₀.key) c₀.now) / (policy c₀.key).refillPerSec⌉ : ℚ) ≤
            (d.now - c₀.now) / 1000 := by linarith
        have := mul_le_mul_of_nonneg_right htime hr.le
        linarith

/-! ### The calls of one key -/

theorem unsweptLog_filter (h : l.buckets k = l'.buckets k) :
    (unsweptLog policy l calls).filter (fun e => e.1.key = k) = unsweptLog policy l' (calls.filter fun c => c.key = k) := by
  induction calls generalizing l l' with
  | nil => rfl
  | cons c calls ih =>
    rw [unsweptLog_cons]
    by_cases hk : c.key = k
    · subst hk
      have hleft : (takeSwept c.key (policy c.key) c.now l).1.buckets c.key = (takeSwept c.key (policy c.key) c.now l').1.buckets c.key := by
        simp only [takeSwept_buckets, Function.update_self, h]
      rw [List.filter_cons_of_pos (by simp), List.filter_cons_of_pos (by simp), unsweptLog_cons, h, ih hleft]
    · rw [List.filter_cons_of_neg (by simpa using hk), List.filter_cons_of_neg (by simpa using hk)]
      exact ih ((level_take_ne (Ne.symm hk) (policy c.key) c.now l).trans h)

end RateLimitAux

open RateLimitAux in
/-- Under policies whose buckets refill within the time a bucket is kept: in no interval more calls of a key are admitted than its bucket
holds and refills, the sweep changes no answer, and a call is admitted that comes as late after a refused one as that was told, when none
was in between. -/
theorem take_is_bucket (policy : κ → RateLimitPolicy) (hp : ∀ k, (policy k).Refills) (calls : List (Call κ))
    (hsorted : calls.Pairwise (fun c d => c.now ≤ d.now)) :
    (∀ (k : κ) (start seconds : ℚ), 0 ≤ seconds →
      ((admitted k start (start + 1000 * seconds) (log policy (.loaded κ) calls)).length : ℚ) ≤
        (policy k).capacity + (policy k).refillPerSec * seconds) ∧
    log policy (.loaded κ) calls = unsweptLog policy (.loaded κ) calls ∧
    ∀ (i j : Nat) (c d : Call κ) (a b : Answer), i < j → (log policy (.loaded κ) calls)[i]? = some (c, a) →
      (log policy (.loaded κ) calls)[j]? = some (d, b) → d.key = c.key → a.ok = false →
      (∀ m, i < m → m < j → ∀ e f, (log policy (.loaded κ) calls)[m]? = some (e, f) → e.key = c.key → f.ok = false) →
      c.now + 1000 * a.retryAfterSec ≤ d.now → b.ok = true := by
  obtain ⟨t₀, hfrom⟩ := exists_from hsorted
  have hlog : log policy (.loaded κ) calls = unsweptLog policy (.loaded κ) calls :=
    log_eq hp hsorted t₀ hfrom (fun k b hb => nomatch hb) fun _ _ _ => rfl
  rw [hlog]
  refine ⟨fun k start seconds hseconds => ?_, rfl, fun i j c d a b hij hc hd hk hrefused hnone hdue =>
    ok_of_due hp hsorted hij hc hd hk hrefused hnone hdue⟩
  have hr := (hp k).refill
  have hcap : 0 ≤ (policy k).capacity := le_trans (by norm_num) (hp k).capacity
  have hwindow : 0 + ((admitted k start (start + 1000 * seconds) (unsweptLog policy (.loaded κ) calls)).length : ℚ) ≤
      (policy k).capacity + (start + 1000 * seconds - start) / 1000 * (policy k).refillPerSec := by
    refine admitted_le (hp k) hsorted t₀ hfrom 0 (add_nonneg hcap (refill_nonneg (hp k) (by linarith))) fun t _ _ => ?_
    have hle : level (policy k) ((Limiter.loaded κ).buckets k) t ≤ (policy k).capacity := level_le
    have hrefill := refill_nonneg (hp k) (le_max_right t start)
    linarith
  have hspan : (start + 1000 * seconds - start) / 1000 * (policy k).refillPerSec = (policy k).refillPerSec * seconds := by ring
  rwa [hspan, zero_add] at hwindow

/-- Ten calls at once, one more, and one when the bucket has a token again. -/
theorem take_is_bucket_eleven :
    (∀ start seconds : ℚ, 0 ≤ seconds →
      ((admitted () start (start + 1000 * seconds)
        (log (fun _ => defaultPolicy) (.loaded Unit) ((List.replicate 11 ⟨(), 5⟩) ++ [⟨(), 6005⟩]))).length : ℚ) ≤ 10 + 10 / 60 * seconds) ∧
      (log (fun _ => defaultPolicy) (.loaded Unit) ((List.replicate 11 ⟨(), 5⟩) ++ [⟨(), 6005⟩])).map (fun e => e.2.ok) =
        List.replicate 10 true ++ [false, true] := by
  refine ⟨(take_is_bucket (fun _ => defaultPolicy) (fun _ => refills_policies defaultPolicy List.mem_cons_self) _ (by decide +kernel)).1 (),
    by decide +kernel⟩

open RateLimitAux in
/-- The calls of a key are answered as if nobody else called, whoever else does and whenever the buckets are swept. -/
theorem log_of_key (policy : κ → RateLimitPolicy) (hp : ∀ k, (policy k).Refills) (calls : List (Call κ))
    (hsorted : calls.Pairwise (fun c d => c.now ≤ d.now)) (k : κ) :
    (log policy (.loaded κ) calls).filter (fun e => e.1.key = k) = log policy (.loaded κ) (calls.filter fun c => c.key = k) := by
  have hlog : ∀ cs : List (Call κ), cs.Pairwise (fun c d => c.now ≤ d.now) → log policy (.loaded κ) cs = unsweptLog policy (.loaded κ) cs := by
    intro cs hcs
    obtain ⟨t₀, hfrom⟩ := exists_from hcs
    exact log_eq hp hcs t₀ hfrom (fun k b hb => nomatch hb) fun _ _ _ => rfl
  rw [hlog calls hsorted, hlog _ (hsorted.filter _), unsweptLog_filter rfl]

theorem log_of_key_two :
    let calls : List (Call Bool) := [⟨true, 700000⟩, ⟨false, 700001⟩, ⟨true, 1400000⟩, ⟨false, 1400001⟩]
    (log (fun _ => defaultPolicy) (.loaded Bool) calls).filter (fun e => e.1.key = true) =
      log (fun _ => defaultPolicy) (.loaded Bool) (calls.filter fun c => c.key = true) :=
  log_of_key (fun _ => defaultPolicy) (fun _ => refills_policies defaultPolicy List.mem_cons_self) _ (by decide +kernel) true

end RateLimit

end Capka

import Mathlib
import Capka.Usage.Budget

/-!
# What the budget gate admits

A reservation that is admitted leaves the user's spend within every cap it looked at, as long as nothing raises the spend between its sum
and its hold. The sum counts a hold the task has of an earlier try beside the estimate of the new one, so a retry may be refused where
there is room for one turn.
-/

namespace Capka.Budget

section Admission

variable (monthStart : Nat → Nat)

/-- What a task's own hold adds to a sum. -/
def ownHold (userId taskId now : Nat) (w : WindowKey) (rows : List Spent) : Nat :=
  ((rows.filter (fun r => r.isHold taskId && counts monthStart userId now w r)).map Spent.cost).sum

/-- A reservation sums where its task has no hold in a capped window, or has room for a second one; and while a reservation has its lock,
no settlement of its user's holds exceeds the hold, and no spend of its user is recorded. -/
def Fair (s : State) (a : Act) : Bool :=
  match a with
  | .sum i =>
    s.reserves[i]?.all (fun r => order.all (fun w => (capFor r.tier w).all (fun cap =>
      ownHold monthStart r.userId r.taskId r.now w s.usage.rows == 0 ||
        roomFor r.estimate (spend monthStart r.userId r.now w s.usage.rows) cap)))
  | .settle taskId cost _ =>
    s.reserves.all (fun r => !(r.phase == .summed) ||
      s.usage.rows.all (fun x => !(x.isHold taskId && x.userId == r.userId) || decide (cost ≤ x.cost)))
  | .record _ userId cost onSharedKey =>
    s.reserves.all (fun r => !(r.phase == .summed && r.userId == userId) || !onSharedKey || cost == 0)
  | _ => true

/-- What holds of a step. A hold that is written leaves the spend within the caps; a reservation is admitted where every capped window
would admit it without its own hold. -/
structure Admits (s t : State) (a : Act) : Prop where
  within : ∀ i r, a = .hold i → s.reserves[i]? = some r → ∀ w cap, capFor r.tier w = some cap →
    spend monthStart r.userId r.now w t.usage.rows ≤ cap
  retried : ∀ i r, a = .sum i → s.reserves[i]? = some r →
    (∀ w cap, capFor r.tier w = some cap →
      roomFor r.estimate (spend monthStart r.userId r.now w s.usage.rows - ownHold monthStart r.userId r.taskId r.now w s.usage.rows) cap) →
    ∃ r', t.reserves[i]? = some r' ∧ r'.phase = .summed

namespace AdmissionAux

/-- What a row adds to a sum. -/
def weight (userId now : Nat) (w : WindowKey) (r : Spent) : Nat := if counts monthStart userId now w r then r.cost else 0

theorem spend_eq (userId now : Nat) (w : WindowKey) (rows : List Spent) :
    spend monthStart userId now w rows = (rows.map (weight monthStart userId now w)).sum := by
  induction rows with
  | nil => rfl
  | cons r rows ih =>
    rw [List.map_cons, List.sum_cons, ← ih]
    unfold spend sumOf weight
    cases hp : r.pending <;> cases hc : counts monthStart userId now w r <;> simp [hp, hc] <;> omega

theorem spend_append (userId now : Nat) (w : WindowKey) (rows : List Spent) (r : Spent) :
    spend monthStart userId now w (rows ++ [r]) = spend monthStart userId now w rows + weight monthStart userId now w r := by
  simp [spend_eq]

theorem spend_filter_le (userId now : Nat) (w : WindowKey) (p : Spent → Bool) (rows : List Spent) :
    spend monthStart userId now w (rows.filter p) ≤ spend monthStart userId now w rows := by
  rw [spend_eq, spend_eq]
  induction rows with
  | nil => exact Nat.le_refl _
  | cons r rows ih =>
    rw [List.filter_cons]
    split
    · simp only [List.map_cons, List.sum_cons]
      omega
    · simp only [List.map_cons, List.sum_cons]
      omega

variable {userId now : Nat} {w : WindowKey}

theorem spend_map_le {f : Spent → Spent} {rows : List Spent}
    (h : ∀ r ∈ rows, weight monthStart userId now w (f r) ≤ weight monthStart userId now w r) :
    spend monthStart userId now w (rows.map f) ≤ spend monthStart userId now w rows := by
  rw [spend_eq, spend_eq, List.map_map]
  exact List.sum_le_sum h

theorem weight_settled_le {r : Spent} {cost : Nat} {onSharedKey : Bool} (hshared : r.onSharedKey = true)
    (h : r.userId = userId → cost ≤ r.cost) :
    weight monthStart userId now w (r.settled cost onSharedKey) ≤ weight monthStart userId now w r := by
  unfold weight
  by_cases hu : r.userId = userId
  · have hle := h hu
    have hmono : counts monthStart userId now w (r.settled cost onSharedKey) = true → counts monthStart userId now w r = true := by
      simp only [counts, Spent.settled, Bool.and_eq_true]
      rintro ⟨⟨⟨h₁, _⟩, h₂⟩, h₃⟩
      exact ⟨⟨⟨h₁, hshared⟩, h₂⟩, h₃⟩
    split
    · rename_i hc
      rw [if_pos (hmono hc)]
      exact hle
    · exact Nat.zero_le _
  · simp [counts, Spent.settled, hu]

theorem weight_of_ne {r : Spent} (h : r.userId ≠ userId) : weight monthStart userId now w r = 0 := by
  simp [weight, counts, h]

variable {e : Estimate} {cap : Nat}

theorem le_of_roomFor {spent : Nat} (h : roomFor e spent cap = true) : spent + e.stored ≤ cap := by
  have h : spent * e.den + e.num < cap * e.den := of_decide_eq_true h
  have hpos := e.pos
  have hlt : spent < cap := by
    by_contra hge
    have := Nat.mul_le_mul_right e.den (Nat.le_of_not_lt hge)
    omega
  obtain ⟨k, rfl⟩ := Nat.exists_eq_add_of_lt hlt
  have hnum : e.num < (k + 1) * e.den := by
    have : (spent + k + 1) * e.den = spent * e.den + (k + 1) * e.den := by ring
    omega
  have hdiv : e.stored < k + 2 := by
    refine (Nat.div_lt_iff_lt_mul (by omega)).mpr ?_
    have : (k + 2) * (2 * e.den) = 2 * ((k + 1) * e.den) + 2 * e.den := by ring
    omega
  omega

theorem spend_hold_le (u : Usage) (r : Reserve) (userId now : Nat) (w : WindowKey) :
    spend monthStart userId now w (u.hold r).rows ≤
      spend monthStart userId now w u.rows + if r.userId = userId then r.estimate.stored else 0 := by
  unfold Usage.hold
  split
  · exact Nat.le_add_right _ _
  · simp only
    rw [spend_append]
    refine Nat.add_le_add_left ?_ _
    by_cases hu : r.userId = userId
    · rw [if_pos hu]
      unfold weight
      split
      · exact Nat.le_refl _
      · exact Nat.zero_le _
    · rw [weight_of_ne monthStart hu]
      exact Nat.zero_le _

theorem room_of_unblocked {tier : Tier} {rows : List Spent}
    (h : blockedWindow monthStart tier e userId now rows = none) (hcap : capFor tier w = some cap) :
    roomFor e (spend monthStart userId now w rows) cap = true := by
  have hw : w ∈ order := by cases w <;> simp [order]
  have := List.find?_eq_none.mp h w hw
  simpa [hcap] using this

/-- The invariant: a reservation that has summed has the lock of its user to itself, and still has the room it saw. -/
structure Roomy (s : State) : Prop where
  alone : ∀ (i j : Nat) (r r' : Reserve), s.reserves[i]? = some r → s.reserves[j]? = some r' → r.phase = .summed → r'.phase = .summed →
    r.userId = r'.userId → i = j
  room : ∀ (i : Nat) (r : Reserve), s.reserves[i]? = some r → r.phase = .summed → ∀ w cap, capFor r.tier w = some cap →
    roomFor r.estimate (spend monthStart r.userId r.now w s.usage.rows) cap = true

theorem roomFor_of_le {spent spent' : Nat} (hle : spent' ≤ spent) (h : roomFor e spent cap = true) :
    roomFor e spent' cap = true := by
  have h : spent * e.den + e.num < cap * e.den := of_decide_eq_true h
  have := Nat.mul_le_mul_right e.den hle
  exact decide_eq_true (by omega)

variable {s : State}

theorem roomy_usage (h : Roomy monthStart s) (u : Usage)
    (hle : ∀ (i : Nat) (r : Reserve), s.reserves[i]? = some r → r.phase = .summed → ∀ w,
      spend monthStart r.userId r.now w u.rows ≤ spend monthStart r.userId r.now w s.usage.rows) :
    Roomy monthStart { s with usage := u } :=
  ⟨h.alone, fun i r hr hp w cap hcap => roomFor_of_le (hle i r hr hp w) (h.room i r hr hp w cap hcap)⟩

variable {r : Reserve}

theorem roomy_put (h : Roomy monthStart s) (i : Nat) (hr : r.phase ≠ .summed) :
    Roomy monthStart (s.put i r) := by
  have hback : ∀ (j : Nat) (x : Reserve), (s.put i r).reserves[j]? = some x → x.phase = .summed → s.reserves[j]? = some x := by
    intro j x hx hp
    by_cases hij : i = j
    · subst hij
      simp only [State.put, List.getElem?_set, if_true] at hx
      split at hx
      · obtain rfl : r = x := Option.some.inj hx
        exact absurd hp hr
      · cases hx
    · rwa [State.put, List.getElem?_set_ne hij] at hx
  refine ⟨?_, fun j x hx hp => h.room j x (hback j x hx hp) hp⟩
  intro j k x y hx hy hp hq
  exact h.alone j k x y (hback j x hx hp) (hback k y hy hq) hp hq

variable {i : Nat}

theorem roomy_sum (h : Roomy monthStart s) (hlock : s.unlocked r.userId = true)
    (hroom : blockedWindow monthStart r.tier r.estimate r.userId r.now s.usage.rows = none) :
    Roomy monthStart (s.put i { r with phase := .summed }) := by
  have hback : ∀ (j : Nat) (x : Reserve), (s.put i { r with phase := .summed }).reserves[j]? = some x →
      (i = j ∧ x = { r with phase := .summed }) ∨ (i ≠ j ∧ s.reserves[j]? = some x) := by
    intro j x hx
    by_cases hij : i = j
    · subst hij
      simp only [State.put, List.getElem?_set, if_true] at hx
      split at hx
      · exact .inl ⟨rfl, (Option.some.inj hx).symm⟩
      · cases hx
    · rw [State.put, List.getElem?_set_ne hij] at hx
      exact .inr ⟨hij, hx⟩
  have hfree : ∀ (j : Nat) (x : Reserve), s.reserves[j]? = some x → x.phase = .summed → x.userId ≠ r.userId := by
    intro j x hx hp hu
    have := List.all_eq_true.mp hlock x (List.mem_of_getElem? hx)
    simp [hp, hu] at this
  constructor
  · intro j k x y hx hy hp hq hu
    rcases hback j x hx with ⟨rfl, rfl⟩ | ⟨_, hx⟩
    · rcases hback k y hy with ⟨rfl, _⟩ | ⟨_, hy⟩
      · rfl
      · exact absurd hu.symm (hfree k y hy hq)
    · rcases hback k y hy with ⟨rfl, rfl⟩ | ⟨_, hy⟩
      · exact absurd hu (hfree j x hx hp)
      · exact h.alone j k x y hx hy hp hq hu
  · intro j x hx hp w cap hcap
    rcases hback j x hx with ⟨rfl, rfl⟩ | ⟨_, hx⟩
    · exact room_of_unblocked monthStart hroom hcap
    · exact h.room j x hx hp w cap hcap

variable {t : State}

theorem roomy_of_step {a : Act} (h : Roomy monthStart s) (hok : Fair monthStart s a = true)
    (hstep : step monthStart s a = some t) : Roomy monthStart t := by
  cases a with
  | start userId taskId onSharedKey priced tier =>
    obtain rfl := Option.some.inj hstep
    have hback : ∀ (j : Nat) (x : Reserve), (s.reserves ++ [⟨userId, taskId, priced.getD .zero, tier, s.now,
        if onSharedKey then .waiting else .allowed⟩])[j]? = some x → x.phase = .summed → s.reserves[j]? = some x := by
      intro j x hx hp
      rcases Nat.lt_or_ge j s.reserves.length with hlt | hge
      · rwa [List.getElem?_append_left hlt] at hx
      · rw [List.getElem?_append_right hge] at hx
        obtain rfl := List.mem_singleton.mp (List.mem_of_getElem? hx)
        cases onSharedKey <;> simp at hp
    refine ⟨?_, fun j x hx hp => h.room j x (hback j x hx hp) hp⟩
    intro j k x y hx hy hp hq
    exact h.alone j k x y (hback j x hx hp) (hback k y hy hq) hp hq
  | sum i =>
    obtain ⟨r, hr, hstep⟩ := Option.bind_eq_some_iff.mp hstep
    split at hstep
    · rename_i hc
      split at hstep
      · obtain rfl := Option.some.inj hstep
        exact roomy_put monthStart h i (by simp)
      · rename_i hroom
        obtain rfl := Option.some.inj hstep
        exact roomy_sum monthStart h hc.2 hroom
    · cases hstep
  | hold i =>
    obtain ⟨r, hr, hstep⟩ := Option.bind_eq_some_iff.mp hstep
    split at hstep
    · rename_i hp
      obtain rfl := Option.some.inj hstep
      have hput : Roomy monthStart (s.put i { r with phase := .allowed }) := roomy_put monthStart h i (by simp)
      refine roomy_usage monthStart hput (s.usage.hold r) ?_
      intro j x hx hq w
      -- the lock was the reservation's: who has summed since is another user
      have hne : i ≠ j := by
        rintro rfl
        simp only [State.put, List.getElem?_set, if_true] at hx
        split at hx
        · obtain rfl := Option.some.inj hx
          cases hq
        · cases hx
      have hx' : s.reserves[j]? = some x := by rwa [State.put, List.getElem?_set_ne hne] at hx
      have hu : r.userId ≠ x.userId := fun hu => hne (h.alone i j r x hr hx' hp hq hu)
      have := spend_hold_le monthStart s.usage r x.userId x.now w
      rw [if_neg hu] at this
      exact this
    · cases hstep
  | settle taskId cost onSharedKey =>
    obtain rfl := Option.some.inj hstep
    refine roomy_usage monthStart h _ ?_
    intro i r hr hp w
    refine spend_map_le monthStart ?_
    intro x hx
    split
    · rename_i hhold
      have hpend : x.pending = true := by
        simp only [Spent.isHold, Bool.and_eq_true] at hhold
        exact hhold.2
      refine weight_settled_le monthStart (s.usage.shared x hx hpend) (fun hu => ?_)
      have hall := List.all_eq_true.mp hok r (List.mem_of_getElem? hr)
      simp only [hp, beq_self_eq_true, Bool.not_true, Bool.false_or] at hall
      have := List.all_eq_true.mp hall x hx
      simpa [hhold, hu] using this
    · exact Nat.le_refl _
  | record taskId userId cost onSharedKey =>
    obtain rfl := Option.some.inj hstep
    refine roomy_usage monthStart h _ ?_
    intro i r hr hp w
    simp only [Usage.record]
    rw [spend_append]
    have hall := List.all_eq_true.mp hok r (List.mem_of_getElem? hr)
    have hz : weight monthStart r.userId r.now w ⟨taskId, userId, cost, onSharedKey, false, s.now⟩ = 0 := by
      by_cases hu : r.userId = userId
      · simp only [hp, hu, beq_self_eq_true, Bool.and_true, Bool.not_true, Bool.false_or, Bool.or_eq_true, Bool.not_eq_true',
          beq_iff_eq] at hall
        rcases hall with hs | hc
        · simp [weight, counts, hs]
        · simp [weight, hc]
      · exact weight_of_ne monthStart (fun heq => hu heq.symm)
    omega
  | release taskId =>
    obtain rfl := Option.some.inj hstep
    refine roomy_usage monthStart h _ ?_
    intro i r hr hp w
    exact spend_filter_le monthStart r.userId r.now w _ s.usage.rows
  | wait ms =>
    obtain rfl := Option.some.inj hstep
    exact ⟨h.alone, h.room⟩

theorem within_of_hold (h : Roomy monthStart s) (hstep : step monthStart s (.hold i) = some t)
    (hr : s.reserves[i]? = some r) (hcap : capFor r.tier w = some cap) :
    spend monthStart r.userId r.now w t.usage.rows ≤ cap := by
  simp only [step, hr, Option.bind_some] at hstep
  split at hstep
  · rename_i hp
    obtain rfl := Option.some.inj hstep
    have hle := spend_hold_le monthStart s.usage r r.userId r.now w
    rw [if_pos rfl] at hle
    exact Nat.le_trans hle (le_of_roomFor (h.room i r hr hp w cap hcap))
  · cases hstep

theorem retried_of_sum (hok : Fair monthStart s (.sum i) = true) (hstep : step monthStart s (.sum i) = some t)
    (hr : s.reserves[i]? = some r)
    (hroom : ∀ w cap, capFor r.tier w = some cap →
      roomFor r.estimate
        (spend monthStart r.userId r.now w s.usage.rows - ownHold monthStart r.userId r.taskId r.now w s.usage.rows) cap) :
    ∃ r', t.reserves[i]? = some r' ∧ r'.phase = .summed := by
  have hlt : i < s.reserves.length := (List.getElem?_eq_some_iff.mp hr).1
  simp only [Fair, hr, Option.all_some] at hok
  have hnone : blockedWindow monthStart r.tier r.estimate r.userId r.now s.usage.rows = none := by
    refine List.find?_eq_none.mpr ?_
    intro w hw
    cases hcap : capFor r.tier w with
    | none => simp
    | some cap =>
      have hwok := List.all_eq_true.mp hok w hw
      simp only [hcap, Option.all_some, Bool.or_eq_true, beq_iff_eq] at hwok
      have hroom' : roomFor r.estimate (spend monthStart r.userId r.now w s.usage.rows) cap = true := by
        rcases hwok with hz | hroom'
        · have := hroom w cap hcap
          rwa [hz, Nat.sub_zero] at this
        · exact hroom'
      simp [hroom']
  simp only [step, hr, Option.bind_some, hnone] at hstep
  split at hstep
  · obtain rfl := Option.some.inj hstep
    exact ⟨{ r with phase := .summed }, by simp [State.put, hlt], rfl⟩
  · cases hstep

end AdmissionAux

end Admission

open AdmissionAux

/-- In a run in which no retry is counted against its own hold and no spend lands under the lock, every hold leaves the user within the
caps it was checked against, a task has one hold at most, and a retry is admitted where its windows have room without its hold. -/
theorem admits_of_fair (monthStart : Nat → Nat) {now : Nat} {s : State}
    (h : Steps.Reaches (step monthStart) (fun s a => Fair monthStart s a = true) (initial now) s) :
    (∀ taskId, s.usage.rows.countP (Spent.isHold taskId) ≤ 1) ∧
      ∀ a t, Fair monthStart s a = true → step monthStart s a = some t → Admits monthStart s t a := by
  have hroomy : Roomy monthStart s := by
    refine h.invariant (I := Roomy monthStart) (fun x a y hx hok hy => roomy_of_step monthStart hx hok hy) ⟨?_, ?_⟩
    · intro i j r r' hr
      simp [initial] at hr
    · intro i r hr
      simp [initial] at hr
  refine ⟨s.usage.onePending, fun a t hok hstep => ⟨?_, ?_⟩⟩
  · rintro i r rfl hr w cap hcap
    exact within_of_hold monthStart hroomy hstep hr hcap
  · rintro i r rfl hr hroom
    exact retried_of_sum monthStart hok hstep hr hroom

/-- A hold of 6 under a cap of 20, and a second try of its task: there is room for two. -/
theorem admits_of_fair_retry : ∃ s, Steps.Reaches (step id) (fun s a => Fair id s a = true) (initial 0) s ∧
    (s.usage.rows.length = 1 ∧ s.reserves.length = 2) ∧ ∀ taskId, s.usage.rows.countP (Spent.isHold taskId) ≤ 1 := by
  obtain ⟨s, hs, hr⟩ := Steps.exists_of_execOk (step id) (fun s a => Fair id s a = true) (initial 0)
    [.start 1 7 true (some ⟨6, 1, Nat.one_pos⟩) ⟨some 20, none, none⟩, .sum 0, .hold 0,
      .start 1 7 true (some ⟨6, 1, Nat.one_pos⟩) ⟨some 20, none, none⟩, .sum 1, .hold 1]
    (P := fun s : State => s.usage.rows.length = 1 ∧ s.reserves.length = 2) (by decide)
  exact ⟨s, hs, hr, (admits_of_fair id hs).1⟩

/-- A hold of 6 under a cap of 10; the retry of its task sums 12 and is refused. -/
theorem admits_false : ¬ ∀ s, Steps.Reaches (step id) Steps.Free (initial 0) s →
    ∀ a t, step id s a = some t → Admits id s t a := by
  intro hall'
  obtain ⟨s, hs, hr, hroom⟩ := Steps.exists_of_exec (step id) (initial 0)
    [.start 1 7 true (some ⟨6, 1, Nat.one_pos⟩) ⟨some 10, none, none⟩, .sum 0, .hold 0,
      .start 1 7 true (some ⟨6, 1, Nat.one_pos⟩) ⟨some 10, none, none⟩]
    (P := fun s : State => (step id s (.sum 1)).any (fun t => t.reserves[1]?.all (fun r => r.phase == .refused .h5)) = true ∧
      s.reserves[1]?.any (fun r => order.all (fun w => (capFor r.tier w).all (fun cap =>
        roomFor r.estimate (spend id r.userId r.now w s.usage.rows - ownHold id r.userId r.taskId r.now w s.usage.rows) cap))) = true)
    (by decide)
  cases ht : step id s (.sum 1) with
  | none => simp [ht] at hr
  | some t =>
    cases hres : s.reserves[1]? with
    | none => simp [hres] at hroom
    | some r =>
      rw [ht, Option.any_some] at hr
      rw [hres, Option.any_some] at hroom
      have hall : ∀ w cap, capFor r.tier w = some cap →
          roomFor r.estimate (spend id r.userId r.now w s.usage.rows - ownHold id r.userId r.taskId r.now w s.usage.rows) cap := by
        intro w cap hcap
        have := List.all_eq_true.mp hroom w (by cases w <;> simp [order])
        simpa [hcap] using this
      obtain ⟨r', hr', hp⟩ := (hall' s hs (.sum 1) t ht).retried 1 r rfl hres hall
      simp [hr', hp] at hr

end Capka.Budget

import Capka.Automations.Triggers
import Mathlib.Order.Bounds.Basic

/-!
# The minimum interval

A schedule is validated against the two occurrences that come next. What that says about all the occurrences of a cron expression depends
on where in its pattern the moment of the validation falls.
-/

namespace Capka

/-- The occurrence of a schedule after an instant, `M` being its matching instants. -/
def NextIn (M : Set Nat) (after next : Nat) : Prop := IsLeast {t ∈ M | after < t} next

/-- The cron library enumerates the matching instants of an expression in order. -/
def Calendar.Enumerates (K : Calendar) (cron timezone : String) (M : Set Nat) : Prop :=
  ∀ after next, K.cronNext cron timezone after = .ok next ↔ NextIn M after next

/-- Two consecutive occurrences after a moment. -/
def Gap (M : Set Nat) (now a b : Nat) : Prop := a ∈ M ∧ now < a ∧ NextIn M a b

/-- The two occurrences that come next. -/
def FirstGap (M : Set Nat) (now a b : Nat) : Prop := NextIn M now a ∧ NextIn M a b

/-- Every two consecutive occurrences after a moment are the minimum apart. -/
def Spaced (M : Set Nat) (now minMinutes : Nat) : Prop := ∀ a b, Gap M now a b → minMinutes * 60000 ≤ b - a

/-- The first gap is as long as the minimum, and a later one is not. -/
def Slips (M : Set Nat) (now minMinutes : Nat) : Prop :=
  ∃ a b c d, FirstGap M now a b ∧ Gap M now c d ∧ minMinutes * 60000 ≤ b - a ∧ d - c < minMinutes * 60000

/-- In whole minutes, no gap is shorter than the first. -/
def FirstShortest (M : Set Nat) (now : Nat) : Prop :=
  ∀ a b c d, FirstGap M now a b → Gap M now c d → (b - a) / 60000 ≤ (d - c) / 60000

namespace MinIntervalAux

variable {K : Calendar} {cron timezone : String} {M : Set Nat} {now minMinutes : Nat}

theorem nextOccurrences_two {a b : Nat} (ha : K.cronNext cron timezone now = .ok a) (hb : K.cronNext cron timezone a = .ok b) :
    nextOccurrences K (.schedule cron timezone) 2 now = .ok [a, b] := by
  simp only [nextOccurrences, nextOccurrenceAfter, ha, hb]

theorem assertMinInterval_ok (h : assertMinInterval K (.schedule cron timezone) minMinutes now = .ok ()) :
    ∃ a b, K.cronNext cron timezone now = .ok a ∧ K.cronNext cron timezone a = .ok b ∧ minMinutes * 60000 ≤ b - a := by
  cases ha : K.cronNext cron timezone now with
  | error e =>
    simp only [assertMinInterval, nextOccurrences, nextOccurrenceAfter, ha] at h
    cases h
  | ok a =>
    cases hb : K.cronNext cron timezone a with
    | error e =>
      simp only [assertMinInterval, nextOccurrences, nextOccurrenceAfter, ha, hb] at h
      cases h
    | ok b =>
      simp only [assertMinInterval, nextOccurrences_two ha hb] at h
      refine ⟨a, b, rfl, hb, ?_⟩
      by_contra hlt
      rw [if_pos (not_le.1 hlt)] at h
      cases h

theorem assertMinInterval_ok_iff (hK : K.Enumerates cron timezone M) :
    assertMinInterval K (.schedule cron timezone) minMinutes now = .ok () ↔
      ∃ a b, FirstGap M now a b ∧ minMinutes * 60000 ≤ b - a := by
  constructor
  · intro h
    obtain ⟨a, b, ha, hb, hle⟩ := assertMinInterval_ok h
    exact ⟨a, b, ⟨(hK now a).1 ha, (hK a b).1 hb⟩, hle⟩
  · rintro ⟨a, b, ⟨ha, hb⟩, hle⟩
    simp only [assertMinInterval, nextOccurrences_two ((hK now a).2 ha) ((hK a b).2 hb)]
    rw [if_neg (not_lt.2 hle)]

theorem spaced_iff_not_slips (hK : K.Enumerates cron timezone M) :
    (assertMinInterval K (.schedule cron timezone) minMinutes now = .ok () → Spaced M now minMinutes) ↔ ¬Slips M now minMinutes := by
  rw [assertMinInterval_ok_iff hK]
  constructor
  · rintro h ⟨a, b, c, d, hf, hg, hle, hlt⟩
    exact absurd (h ⟨a, b, hf, hle⟩ c d hg) (not_le.2 hlt)
  · rintro h ⟨a, b, hf, hle⟩ c d hg
    by_contra hlt
    exact h ⟨a, b, c, d, hf, hg, hle, not_le.1 hlt⟩

theorem firstShortest_iff : (∀ minMinutes, ¬Slips M now minMinutes) ↔ FirstShortest M now := by
  constructor
  · intro h a b c d hf hg
    by_contra hlt
    -- the first gap itself, in whole minutes, is a minimum that a later gap breaks
    exact h ((b - a) / 60000) ⟨a, b, c, d, hf, hg, Nat.div_mul_le_self _ _, by omega⟩
  · rintro h minMinutes ⟨a, b, c, d, hf, hg, hle, hlt⟩
    have hminutes := h a b c d hf hg
    omega

end MinIntervalAux

/-- A schedule that passes the validation keeps the minimum unless its first gap is as long and a later one is not, and it keeps whatever
minimum it passes when its first gap is, in whole minutes, its shortest. -/
theorem min_interval_iff {K : Calendar} {cron timezone : String} {M : Set Nat} (hK : K.Enumerates cron timezone M) (now : Nat) :
    (∀ minMinutes,
      (assertMinInterval K (.schedule cron timezone) minMinutes now = .ok () → Spaced M now minMinutes) ↔ ¬Slips M now minMinutes) ∧
      ((∀ minMinutes, assertMinInterval K (.schedule cron timezone) minMinutes now = .ok () → Spaced M now minMinutes) ↔
        FirstShortest M now) := by
  refine ⟨fun minMinutes => MinIntervalAux.spaced_iff_not_slips hK, ?_⟩
  rw [← MinIntervalAux.firstShortest_iff]
  exact forall_congr' fun minMinutes => MinIntervalAux.spaced_iff_not_slips hK

/-- On the hour, whatever the expression. -/
def onTheHour : Calendar where
  cronNext := fun _ _ after => .ok ((after / 3600000 + 1) * 3600000)
  fromISO := fun _ _ => .ok 100
  intlKnows := fun _ => true

theorem onTheHour_enumerates (cron timezone : String) : onTheHour.Enumerates cron timezone {t | t % 3600000 = 0} := by
  intro after next
  have hleast : NextIn {t | t % 3600000 = 0} after ((after / 3600000 + 1) * 3600000) := by
    refine ⟨⟨Nat.mul_mod_left _ _, by omega⟩, ?_⟩
    rintro t ⟨ht, hlt⟩
    have ht : t % 3600000 = 0 := ht
    omega
  constructor
  · intro h
    obtain rfl : (after / 3600000 + 1) * 3600000 = next := by simpa [onTheHour] using h
    exact hleast
  · intro h
    rw [h.unique hleast]
    rfl

/-- An hourly schedule is accepted at half past nine, and keeps every minimum it passes. -/
theorem min_interval_iff_hourly :
    assertMinInterval onTheHour (.schedule "0 * * * *" "UTC") 60 34200000 = .ok () ∧
      ((∀ minMinutes, assertMinInterval onTheHour (.schedule "0 * * * *" "UTC") minMinutes 34200000 = .ok () →
        Spaced {t | t % 3600000 = 0} 34200000 minMinutes) ↔ FirstShortest {t | t % 3600000 = 0} 34200000) :=
  ⟨by decide, (min_interval_iff (onTheHour_enumerates "0 * * * *" "UTC") 34200000).2⟩

/-- Every day at nine and a minute later, whatever the expression. -/
def nineTwice : Calendar where
  cronNext := fun _ _ after =>
    let day := after / 86400000 * 86400000
    .ok (day + if after % 86400000 < 32400000 then 32400000 else if after % 86400000 < 32460000 then 32460000 else 118800000)
  fromISO := fun _ _ => .ok 100
  intlKnows := fun _ => true

/-- The instants of nine and of a minute later. -/
def nineTwiceInstants : Set Nat := {t | t % 86400000 = 32400000 ∨ t % 86400000 = 32460000}

theorem nineTwice_enumerates (cron timezone : String) : nineTwice.Enumerates cron timezone nineTwiceInstants := by
  intro after next
  have hleast : NextIn nineTwiceInstants after (after / 86400000 * 86400000 +
      if after % 86400000 < 32400000 then 32400000 else if after % 86400000 < 32460000 then 32460000 else 118800000) := by
    constructor
    · simp only [nineTwiceInstants, Set.mem_ofPred_eq]
      split_ifs <;> omega
    · rintro t ⟨ht, hlt⟩
      simp only [nineTwiceInstants, Set.mem_ofPred_eq] at ht
      split_ifs <;> omega
  constructor
  · intro h
    have heq := Except.ok.inj h
    rw [← heq]
    exact hleast
  · intro h
    rw [h.unique hleast]
    rfl

/-- Validated between nine and a minute later, `0,1 9 * * *` passes a minimum of an hour, and runs twice within a minute the next day. -/
theorem min_interval_false :
    nineTwice.Enumerates "0,1 9 * * *" "UTC" nineTwiceInstants ∧
      assertMinInterval nineTwice (.schedule "0,1 9 * * *" "UTC") 60 32430000 = .ok () ∧
      ¬Spaced nineTwiceInstants 32430000 60 := by
  refine ⟨nineTwice_enumerates _ _, by decide, fun h => ?_⟩
  have hgap : Gap nineTwiceInstants 32430000 118800000 118860000 :=
    ⟨.inl rfl, by decide, (nineTwice_enumerates "" "" 118800000 118860000).1 rfl⟩
  exact absurd (h _ _ hgap) (by decide)

end Capka

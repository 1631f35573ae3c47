import Capka.Automations.Firings

/-!
# The days of an automation

Every statement that counts something stamps the day its call computed and settles the tallies when that day is not the row's. As long as
no statement stamps a day earlier than the row's, the runs counted on the row are the runs of its day and the ceiling holds on every
day. A call that computed its day before midnight and writes after another wrote puts the row back on the day before.
-/

namespace Capka.AutomationRuns

/-- Whether a tally is a run. -/
def Tally.isRun : Tally → Bool
  | .run _ _ => true
  | .skip => false
  | .quiet => false

/-- Whether a tally is a counted skip. -/
def Tally.isSkip : Tally → Bool
  | .run _ _ => false
  | .skip => true
  | .quiet => false

/-- Whether a tally is a quiet result. -/
def Tally.isQuiet : Tally → Bool
  | .run _ _ => false
  | .skip => false
  | .quiet => true

/-- Whether a tally is a run no person asked for. -/
def Tally.unattended : Tally → Bool
  | .run manual _ => !manual
  | .skip => false
  | .quiet => false

/-- How many stamps of a day are of a kind. -/
def countOn (p : Tally → Bool) (day : Nat) (stamps : List Stamp) : Nat :=
  stamps.countP (fun x => p x.tally && decide (x.day = day))

/-- The stamp a step is about to make, if the row is there. -/
def stampDue (s : State) : Act → Option Stamp
  | .advance i o =>
    s.calls[i]?.bind (fun c =>
      match c.phase with
      | .ceilingSkip today => some ⟨.skip, today⟩
      | .gateSkip today => some ⟨.skip, today⟩
      | .transaction today =>
        s.row.bind (fun locked =>
          if c.full locked today then some ⟨.skip, today⟩
          else if s.previousRunBlocks locked.lastTaskId c.snapshot.single || o.fails then none
          else some ⟨.run c.manual c.snapshot.cap, today⟩)
      | _ => none)
  | .settleQuiet i => s.quiets[i]?.map (⟨.quiet, ·⟩)
  | _ => none

/-- The stamps come in the order of their days: none is for a day earlier than the row's. -/
def InOrder (s : State) (a : Act) : Prop :=
  match stampDue s a, s.row with
  | some x, some r => r.runsDay.all (fun day => decide (day ≤ x.day)) = true
  | _, _ => True

instance (s : State) (a : Act) : Decidable (InOrder s a) := by
  unfold InOrder
  split <;> infer_instance

/-- The ceiling holds on every day, and the row's count is that of the latest day anything was stamped with. -/
structure CapKept (s : State) : Prop where
  capped : ∀ day most, (∀ x ∈ s.stamps, x.day = day → ∀ cap, x.tally = .run false cap → ∃ c, cap = some c ∧ 0 < c ∧ c ≤ most) →
    countOn Tally.unattended day s.stamps ≤ most
  counted : ∀ r, s.row = some r → ∀ day, r.runsDay = some day → r.runsToday = countOn Tally.isRun day s.stamps
  latest : ∀ r, s.row = some r → ∀ x ∈ s.stamps, ∃ day, r.runsDay = some day ∧ x.day ≤ day

/-- The three tallies of the row are the numbers of runs, counted skips and quiet results stamped with its day. -/
structure TalliesExact (s : State) : Prop where
  runs : ∀ r, s.row = some r → ∀ day, r.runsDay = some day → r.runsToday = countOn Tally.isRun day s.stamps
  skips : ∀ r, s.row = some r → ∀ day, r.runsDay = some day → r.skippedToday = countOn Tally.isSkip day s.stamps
  quiets : ∀ r, s.row = some r → ∀ day, r.runsDay = some day → r.quietToday = countOn Tally.isQuiet day s.stamps

/-- The stamps come in order, and a run or a skip that is the first of its day finds no quiet result left on the row. -/
def Settles (s : State) (a : Act) : Prop :=
  InOrder s a ∧
    match stampDue s a, s.row with
    | some x, some r => x.tally.isQuiet = true ∨ r.runsDay = some x.day ∨ r.quietToday = 0
    | _, _ => True

instance (s : State) (a : Act) : Decidable (Settles s a) := by
  unfold Settles
  refine @instDecidableAnd _ _ _ ?_
  split <;> infer_instance

namespace DaysAux

/-- The row has the same day and tallies as before. -/
structure SameDay (r r' : Row) : Prop where
  day : r'.runsDay = r.runsDay
  runs : r'.runsToday = r.runsToday
  skips : r'.skippedToday = r.skippedToday
  quiet : r'.quietToday = r.quietToday

/-- What a stamp makes of the day and the tallies. -/
structure Stamped (x : Stamp) (r r' : Row) : Prop where
  day : r'.runsDay = some x.day
  runs : r'.runsToday = r.onDay x.day r.runsToday 0 + (if x.tally.isRun then 1 else 0)
  skips : r'.skippedToday = r.onDay x.day r.skippedToday 0 + (if x.tally.isSkip then 1 else 0)
  quiet : r'.quietToday = if x.tally.isQuiet then r.onDay x.day r.quietToday 0 + 1 else r.quietToday

/-- Nothing is stamped. -/
structure Still (s t : State) : Prop where
  stamps : t.stamps = s.stamps
  row : ∀ r', t.row = some r' → ∃ r, s.row = some r ∧ SameDay r r'

/-- The stamp `x` is made, and a run below its ceiling. -/
structure Marked (s t : State) (x : Stamp) : Prop where
  stamps : t.stamps = s.stamps ++ [x]
  row : ∃ r r', s.row = some r ∧ t.row = some r' ∧ Stamped x r r' ∧
    ∀ c, x.tally = .run false (some c) → 0 < c → r.runsDay = some x.day → r.runsToday < c

variable {s t : State}

theorem still_of_eq (hstamps : t.stamps = s.stamps) (hrow : t.row = s.row) : Still s t where
  stamps := hstamps
  row := fun r' hr' => ⟨r', by rw [← hrow]; exact hr', ⟨rfl, rfl, rfl, rfl⟩⟩

theorem stamp_of_none (hr : s.row = none) (x : Option Stamp) (f : Row → Row) : s.stamp x f = s := by
  simp only [State.stamp, hr]

theorem onDay_succ (r : Row) (day n : Nat) : r.onDay day (n + 1) 1 = r.onDay day n 0 + 1 := by
  unfold Row.onDay
  split <;> rfl

theorem stamped_skip (reason : SkipReason) (day : Nat) (r : Row) : Stamped ⟨.skip, day⟩ r (r.stampSkip reason (some day)) where
  day := rfl
  runs := rfl
  skips := onDay_succ r day r.skippedToday
  quiet := rfl

theorem stamped_fired (manual : Bool) (cap : Option Nat) (turnId : Nat) (opened : Option Nat) (day : Nat) (r : Row) :
    Stamped ⟨.run manual cap, day⟩ r (r.stampFired turnId opened day) where
  day := rfl
  runs := onDay_succ r day r.runsToday
  skips := rfl
  quiet := rfl

theorem stamped_quiet (day : Nat) (r : Row) : Stamped ⟨.quiet, day⟩ r (r.stampQuiet day) where
  day := rfl
  runs := rfl
  skips := rfl
  quiet := onDay_succ r day r.quietToday

variable {r : Row}

theorem marked_stampSkip (hr : s.row = some r) (reason : SkipReason) (day : Nat)
    (hstamps : t.stamps = (s.stampSkip reason (some day)).stamps) (hrow : t.row = (s.stampSkip reason (some day)).row) :
    Marked s t ⟨.skip, day⟩ := by
  simp only [State.stampSkip, State.stamp, hr, Option.map_some, Option.toList_some] at hstamps hrow
  refine ⟨hstamps, r, _, hr, hrow, stamped_skip reason day r, ?_⟩
  intro c hc
  cases hc

theorem still_stampSkip (reason : SkipReason)
    (hstamps : t.stamps = (s.stampSkip reason none).stamps) (hrow : t.row = (s.stampSkip reason none).row) : Still s t := by
  cases hr : s.row with
  | none =>
    rw [State.stampSkip, stamp_of_none hr] at hstamps hrow
    exact still_of_eq hstamps hrow
  | some r =>
    simp only [State.stampSkip, State.stamp, hr, Option.map_none, Option.toList_none, List.append_nil] at hstamps hrow
    refine ⟨hstamps, fun r' hr' => ⟨r, hr, ?_⟩⟩
    rw [hrow] at hr'
    obtain rfl := Option.some.inj hr'
    exact ⟨rfl, rfl, rfl, rfl⟩

variable {n : Nat}

theorem below_of_not_full {c : Call} {today : Nat} (h : c.full r today = false) (hm : c.manual = false)
    (hcap : c.snapshot.cap = some n) (hn : 0 < n) (hday : r.runsDay = some today) : r.runsToday < n := by
  simp only [Call.full, hcap, hm, hday, Bool.not_false, Bool.and_true, decide_true, Bool.and_eq_false_iff, decide_eq_false_iff_not] at h
  omega

theorem fire_cases (s : State) (c : Call) (today : Nat) (fails : Bool) :
    match s.row with
    | none => (s.fire c today fails).1 = s
    | some locked =>
      if c.full locked today then Marked s (s.fire c today fails).1 ⟨.skip, today⟩
      else if s.previousRunBlocks locked.lastTaskId c.snapshot.single || fails then Still s (s.fire c today fails).1
      else Marked s (s.fire c today fails).1 ⟨.run c.manual c.snapshot.cap, today⟩ := by
  cases hr : s.row with
  | none => simp only [State.fire, hr]
  | some locked =>
    simp only
    split
    · rename_i hfull
      simp only [State.fire, hr, hfull, if_true]
      exact marked_stampSkip hr .dailyLimit today rfl rfl
    · rename_i hfull
      rw [Bool.not_eq_true] at hfull
      split
      · rename_i hblocked
        simp only [State.fire, hr, hfull, Bool.false_eq_true, if_false]
        split
        · exact still_stampSkip .busy rfl rfl
        · rename_i hfree
          have hfails : fails = true := by simpa [hfree] using hblocked
          rw [if_pos hfails]
          exact still_of_eq rfl rfl
      · rename_i hgo
        simp only [Bool.or_eq_true, not_or, Bool.not_eq_true] at hgo
        simp only [State.fire, hr, hfull, hgo.1, hgo.2, Bool.false_eq_true, if_false, State.stamp, State.enqueueTask_row,
          State.append_row, State.enqueueTask_stamps, State.append_stamps, Option.toList_some]
        refine ⟨rfl, locked, _, hr, rfl, stamped_fired _ _ _ _ _ _, ?_⟩
        intro n hn hpos hday
        simp only [Tally.run.injEq] at hn
        exact below_of_not_full hfull hn.1 hn.2 hpos hday

theorem stampSkip_cases (reason : SkipReason) (day : Nat)
    (hstamps : t.stamps = (s.stampSkip reason (some day)).stamps) (hrow : t.row = (s.stampSkip reason (some day)).row) :
    (s.row = none ∧ Still s t) ∨ Marked s t ⟨.skip, day⟩ := by
  cases hr : s.row with
  | none =>
    rw [State.stampSkip, stamp_of_none hr] at hstamps hrow
    exact .inl ⟨rfl, still_of_eq hstamps hrow⟩
  | some r => exact .inr (marked_stampSkip hr reason day hstamps hrow)

variable {a : Act}

theorem step_marks {localDayOf : Nat → Nat → Nat} (h : step localDayOf s a = some t) :
    match stampDue s a with
    | none => Still s t
    | some x => (s.row = none ∧ Still s t) ∨ Marked s t x := by
  cases a with
  | call manual | quiet =>
    obtain ⟨r, hr, rfl⟩ := Option.map_eq_some_iff.1 h
    exact still_of_eq rfl rfl
  | settleQuiet i =>
    obtain ⟨day, hday, rfl⟩ := Option.map_eq_some_iff.1 h
    simp only [stampDue, hday, Option.map_some]
    cases hr : s.row with
    | none =>
      rw [stamp_of_none hr]
      exact .inl ⟨rfl, still_of_eq rfl rfl⟩
    | some r =>
      refine .inr ⟨by simp [State.stamp, hr], r, _, hr, by simp [State.stamp, hr], stamped_quiet day r, ?_⟩
      intro c hc
      cases hc
  | patch trigger maxRunsPerDay runWhen single =>
    obtain ⟨r, hr, rfl⟩ := Option.map_eq_some_iff.1 h
    refine ⟨rfl, fun r' hr' => ⟨r, hr, ?_⟩⟩
    obtain rfl := Option.some.inj hr'
    exact ⟨rfl, rfl, rfl, rfl⟩
  | delete =>
    cases h
    exact ⟨rfl, fun r' hr' => by cases hr'⟩
  | move id status =>
    obtain ⟨u, hu, h⟩ := Option.bind_eq_some_iff.1 h
    split at h
    · cases h
      exact still_of_eq rfl rfl
    · cases h
  | suspend messageId chatId =>
    simp only [step] at h
    split at h
    · cases h
      exact still_of_eq rfl rfl
    · cases h
  | decide messageId =>
    obtain ⟨w, hw, rfl⟩ := Option.map_eq_some_iff.1 h
    exact still_of_eq (State.enqueueTask_stamps _ _ _ _) (State.enqueueTask_row _ _ _ _)
  | send chatId =>
    obtain ⟨c, hc, rfl⟩ := Option.map_eq_some_iff.1 h
    refine still_of_eq ?_ ?_
    · rw [State.enqueueTask_stamps]
      exact State.append_stamps _ _ _ _
    · rw [State.enqueueTask_row]
      exact State.append_row _ _ _ _
  | deleteChat id | dropHold id | wait ms =>
    cases h
    exact still_of_eq rfl rfl
  | advance i o =>
    obtain ⟨c, hc, h⟩ := Option.bind_eq_some_iff.1 h
    simp only [stampDue, hc, Option.bind_some]
    unfold State.advance at h
    cases hp : c.phase with
    | called | ceiling today | overlap today | gate today | gateRelease today | release answer =>
      simp only [hp, Option.some.injEq] at h
      subst h
      exact still_of_eq rfl rfl
    | ceilingSkip today =>
      simp only [hp, Option.some.injEq] at h
      subst h
      exact stampSkip_cases .dailyLimit today rfl rfl
    | overlapSkip =>
      simp only [hp, Option.some.injEq] at h
      subst h
      exact still_stampSkip .busy rfl rfl
    | reserve today =>
      simp only [hp] at h
      split at h
      · cases h
        exact still_of_eq rfl rfl
      · split at h
        · cases h
          exact still_of_eq rfl rfl
        · cases h
          exact still_of_eq rfl rfl
    | gateSkip today =>
      simp only [hp, Option.some.injEq] at h
      subst h
      exact stampSkip_cases .condition today rfl rfl
    | transaction today =>
      simp only [hp, Option.some.injEq] at h
      subst h
      have hfire := fire_cases s c today o.fails
      cases hr : s.row with
      | none =>
        simp only [hr] at hfire
        simp only [Option.bind_none]
        refine still_of_eq ?_ ?_
        · rw [State.setCall_stamps, hfire]
        · rw [State.setCall_row, hfire]
      | some locked =>
        simp only [hr] at hfire
        simp only [Option.bind_some]
        split at hfire
        · rename_i hfull
          rw [if_pos hfull]
          exact .inr ⟨hfire.stamps, hfire.row⟩
        · rename_i hfull
          rw [if_neg hfull]
          split at hfire
          · rename_i hstop
            rw [if_pos hstop]
            exact ⟨hfire.stamps, hfire.row⟩
          · rename_i hgo
            rw [if_neg hgo]
            exact .inr ⟨hfire.stamps, hfire.row⟩
    | done answer =>
      simp only [hp] at h
      cases h

/-! ### Counting -/

theorem countOn_append (p : Tally → Bool) (day : Nat) (stamps : List Stamp) (x : Stamp) :
    countOn p day (stamps ++ [x]) = countOn p day stamps + if p x.tally && decide (x.day = day) then 1 else 0 := by
  simp [countOn, List.countP_append, List.countP_cons]

variable {stamps : List Stamp}

theorem countOn_eq_zero {day : Nat} (h : ∀ x ∈ stamps, x.day ≠ day) (p : Tally → Bool) :
    countOn p day stamps = 0 := by
  rw [countOn, List.countP_eq_zero]
  intro x hx
  simp [h x hx]

theorem countOn_unattended_le (day : Nat) (stamps : List Stamp) :
    countOn Tally.unattended day stamps ≤ countOn Tally.isRun day stamps := by
  refine List.countP_mono_left ?_
  intro x _ hx
  cases hk : x.tally <;> simp_all [Tally.unattended, Tally.isRun]

/-- The tallies of a row are those of a kind on its day, and its day is the latest. -/
structure TallyOf (p : Tally → Bool) (stamps : List Stamp) (runsDay : Option Nat) (n : Nat) : Prop where
  count : ∀ day, runsDay = some day → n = countOn p day stamps
  latest : ∀ x ∈ stamps, ∃ day, runsDay = some day ∧ x.day ≤ day

theorem onDay_eq_countOn {p : Tally → Bool} {day : Nat} (h : TallyOf p stamps r.runsDay n)
    (hle : ∀ d, r.runsDay = some d → d ≤ day) : r.onDay day n 0 = countOn p day stamps := by
  unfold Row.onDay
  split
  · rename_i hday
    exact h.count day hday
  · rename_i hday
    refine (countOn_eq_zero ?_ p).symm
    rintro x hx rfl
    obtain ⟨d, hd, hxd⟩ := h.latest x hx
    exact hday (by rw [hd, Nat.le_antisymm (hle d hd) hxd])

variable {x : Stamp}

theorem latest_append {runsDay : Option Nat}
    (h : ∀ y ∈ stamps, ∃ day, runsDay = some day ∧ y.day ≤ day) (hle : ∀ d, runsDay = some d → d ≤ x.day) :
    ∀ y ∈ stamps ++ [x], ∃ day, some x.day = some day ∧ y.day ≤ day := by
  intro y hy
  refine ⟨x.day, rfl, ?_⟩
  rcases List.mem_append.1 hy with hy | hy
  · obtain ⟨d, hd, hyd⟩ := h y hy
    exact hyd.trans (hle d hd)
  · rw [List.mem_singleton.1 hy]

theorem le_of_inOrder (h : InOrder s a) (hx : stampDue s a = some x)
    (hr : s.row = some r) : ∀ d, r.runsDay = some d → d ≤ x.day := by
  intro d hd
  simpa [InOrder, hx, hr, hd] using h

/-! ### The invariant -/

theorem capKept_of_still (h : CapKept s) (hst : Still s t) : CapKept t where
  capped := by
    rw [hst.stamps]
    exact h.capped
  counted := by
    intro r' hr' day hday
    obtain ⟨r, hr, hsame⟩ := hst.row r' hr'
    rw [hst.stamps, hsame.runs]
    exact h.counted r hr day (by rw [← hsame.day]; exact hday)
  latest := by
    intro r' hr' x hx
    obtain ⟨r, hr, hsame⟩ := hst.row r' hr'
    rw [hst.stamps] at hx
    rw [hsame.day]
    exact h.latest r hr x hx

theorem capKept_of_marked (h : CapKept s) (hm : Marked s t x)
    (hle : ∀ r, s.row = some r → ∀ d, r.runsDay = some d → d ≤ x.day) : CapKept t := by
  obtain ⟨r, r', hr, hr', hst, hbelow⟩ := hm.row
  have htally : TallyOf Tally.isRun s.stamps r.runsDay r.runsToday := ⟨h.counted r hr, h.latest r hr⟩
  have hcarried := onDay_eq_countOn htally (hle r hr)
  refine ⟨?_, ?_, ?_⟩
  · intro day most hcaps
    rw [hm.stamps] at hcaps ⊢
    rw [countOn_append]
    have hold : countOn Tally.unattended day s.stamps ≤ most := h.capped day most (fun y hy => hcaps y (List.mem_append_left _ hy))
    split
    · rename_i hx
      simp only [Bool.and_eq_true, decide_eq_true_eq] at hx
      obtain ⟨htally, rfl⟩ := hx
      -- the new run has a ceiling of its own, which the runs of its day were below
      cases hk : x.tally with
      | skip => simp [hk, Tally.unattended] at htally
      | quiet => simp [hk, Tally.unattended] at htally
      | run manual cap =>
        have hmanual : manual = false := by simpa [hk, Tally.unattended] using htally
        subst hmanual
        obtain ⟨c, rfl, hpos, hmost⟩ := hcaps x (by simp) rfl cap hk
        have hless : countOn Tally.isRun x.day s.stamps < c := by
          rw [← hcarried]
          unfold Row.onDay
          split
          · rename_i hday
            exact hbelow c hk hpos hday
          · exact hpos
        have := countOn_unattended_le x.day s.stamps
        omega
    · exact hold
  · intro r'' hr'' day hday
    rw [hr'] at hr''
    obtain rfl := Option.some.inj hr''
    rw [hst.day] at hday
    obtain rfl := Option.some.inj hday
    rw [hm.stamps, countOn_append, hst.runs, hcarried]
    simp
  · intro r'' hr''
    rw [hr'] at hr''
    obtain rfl := Option.some.inj hr''
    rw [hst.day, hm.stamps]
    exact latest_append (h.latest r hr) (hle r hr)

theorem capKept_initial (now nextId : Nat) (row : Row) : CapKept (initial now nextId row) where
  capped := fun _ _ _ => Nat.zero_le _
  counted := by
    intro r hr day hday
    obtain rfl := Option.some.inj hr
    cases hday
  latest := fun r _ x hx => by cases hx

/-! ### The tallies -/

/-- What the three tallies need: each is its count, and the row's day is the latest. -/
structure Exact (s : State) : Prop where
  runs : ∀ r, s.row = some r → TallyOf Tally.isRun s.stamps r.runsDay r.runsToday
  skips : ∀ r, s.row = some r → TallyOf Tally.isSkip s.stamps r.runsDay r.skippedToday
  quiets : ∀ r, s.row = some r → TallyOf Tally.isQuiet s.stamps r.runsDay r.quietToday

theorem tallyOf_append {p : Tally → Bool} {n' : Nat}
    (h : TallyOf p stamps r.runsDay n) (hle : ∀ d, r.runsDay = some d → d ≤ x.day)
    (hn : n' = r.onDay x.day n 0 + if p x.tally then 1 else 0) : TallyOf p (stamps ++ [x]) (some x.day) n' where
  count := by
    intro day hday
    obtain rfl := Option.some.inj hday
    rw [countOn_append, hn, onDay_eq_countOn h hle]
    simp
  latest := latest_append h.latest hle

theorem exact_of_still (h : Exact s) (hst : Still s t) : Exact t := by
  refine ⟨?_, ?_, ?_⟩ <;> intro r' hr' <;> obtain ⟨r, hr, hsame⟩ := hst.row r' hr' <;> rw [hst.stamps, hsame.day]
  · rw [hsame.runs]
    exact h.runs r hr
  · rw [hsame.skips]
    exact h.skips r hr
  · rw [hsame.quiet]
    exact h.quiets r hr

theorem exact_of_marked (h : Exact s) (hm : Marked s t x)
    (hle : ∀ r, s.row = some r → ∀ d, r.runsDay = some d → d ≤ x.day)
    (hquiet : ∀ r, s.row = some r → x.tally.isQuiet = true ∨ r.runsDay = some x.day ∨ r.quietToday = 0) : Exact t := by
  obtain ⟨r, r', hr, hr', hst, -⟩ := hm.row
  refine ⟨?_, ?_, ?_⟩ <;> intro r'' hr'' <;> rw [hr'] at hr'' <;> obtain rfl := Option.some.inj hr'' <;> rw [hm.stamps, hst.day]
  · exact tallyOf_append (h.runs r hr) (hle r hr) hst.runs
  · exact tallyOf_append (h.skips r hr) (hle r hr) hst.skips
  · refine tallyOf_append (h.quiets r hr) (hle r hr) ?_
    rw [hst.quiet]
    split
    · rfl
    · -- nothing settles the quiet tally here: it is right only because the day is the same or it is already zero
      rename_i hk
      rcases hquiet r hr with hq | hday | hzero
      · exact absurd hq hk
      · simp [Row.onDay, hday]
      · simp [Row.onDay, hzero]

theorem tallyOf_nil (p : Tally → Bool) : TallyOf p [] none 0 where
  count := fun day hday => by cases hday
  latest := fun x hx => by cases hx

theorem exact_initial (now nextId : Nat) (row : Row) : Exact (initial now nextId row) := by
  refine ⟨?_, ?_, ?_⟩ <;> intro r hr <;> obtain rfl := Option.some.inj hr <;> exact tallyOf_nil _

theorem quiet_of_settles (h : Settles s a) (hx : stampDue s a = some x) :
    ∀ r, s.row = some r → x.tally.isQuiet = true ∨ r.runsDay = some x.day ∨ r.quietToday = 0 := by
  intro r hr
  simpa [hx, hr] using h.2

theorem exact_step {localDayOf : Nat → Nat → Nat} (hs : Exact s) (hok : Settles s a)
    (h : step localDayOf s a = some t) : Exact t := by
  have hmarks := step_marks h
  cases hx : stampDue s a with
  | none =>
    rw [hx] at hmarks
    exact exact_of_still hs hmarks
  | some x =>
    rw [hx] at hmarks
    rcases hmarks with ⟨_, hstill⟩ | hmarked
    · exact exact_of_still hs hstill
    · exact exact_of_marked hs hmarked (fun r hr => le_of_inOrder hok.1 hx hr) (quiet_of_settles hok hx)

end DaysAux

open DaysAux

theorem capKept_step {localDayOf : Nat → Nat → Nat} {s t : State} {a : Act} (hs : CapKept s) (hok : InOrder s a)
    (h : step localDayOf s a = some t) : CapKept t := by
  have hmarks := step_marks h
  cases hx : stampDue s a with
  | none =>
    rw [hx] at hmarks
    exact capKept_of_still hs hmarks
  | some x =>
    rw [hx] at hmarks
    rcases hmarks with ⟨_, hstill⟩ | hmarked
    · exact capKept_of_still hs hstill
    · exact capKept_of_marked hs hmarked (fun r hr => le_of_inOrder hok hx hr)

/-- As long as no statement stamps a day earlier than the row's, the runs no person asked for stay below the ceiling on every day, and
the row counts the runs of the latest day. -/
theorem daily_cap_of_inOrder {localDayOf : Nat → Nat → Nat} {now nextId : Nat} {row : Row} {s : State}
    (h : Steps.Reaches (step localDayOf) InOrder (initial now nextId row) s) : CapKept s :=
  h.invariant (I := CapKept) (fun _ _ _ hx hok hy => capKept_step hx hok hy) (capKept_initial now nextId row)

/-- Hours as moments, the same day in every time zone. -/
def dayOfHour (_timezone now : Nat) : Nat := now / 24

/-- An automation on a schedule with a ceiling of one run a day. -/
def onceADay : Row := ⟨0, false, some 1, false, false, none, none, none, none, 0, 0, 0⟩

/-- Everything is admitted, on the owner's own key. -/
def admitted : Outside := ⟨false, true, true, false⟩

/-- The first `n` statements of the firing numbered `i`. -/
def statements (i n : Nat) : List Act := List.replicate n (.advance i admitted)

/-- A firing that runs on each of two days. -/
theorem daily_cap_of_inOrder_two_days :
    ∃ s, Steps.Reaches (step dayOfHour) InOrder (initial 23 0 onceADay) s ∧
      (countOn Tally.unattended 0 s.stamps = 1 ∧ countOn Tally.unattended 1 s.stamps = 1) ∧ CapKept s := by
  obtain ⟨s, hs, hcount⟩ := Steps.exists_of_execOk (step dayOfHour) InOrder (initial 23 0 onceADay)
    (.call false :: statements 0 6 ++ [.move 0 .running, .move 0 .completed, .wait 2, .call false] ++ statements 1 6)
    (P := fun s => countOn Tally.unattended 0 s.stamps = 1 ∧ countOn Tally.unattended 1 s.stamps = 1) (by decide)
  exact ⟨s, hs, hcount, daily_cap_of_inOrder hs⟩

/-- A firing that computed its day before midnight stamps it after the first run of the new day, whose count is gone: the new day gets
a second run under a ceiling of one. -/
theorem daily_cap_false :
    ∃ s, Steps.Reaches (step dayOfHour) Steps.Free (initial 23 0 onceADay) s ∧
      (∀ x ∈ s.stamps, x.tally = .run false (some 1)) ∧ countOn Tally.unattended 1 s.stamps = 2 ∧ ¬ CapKept s := by
  obtain ⟨s, hs, hcaps, hcount⟩ := Steps.exists_of_exec (step dayOfHour) (initial 23 0 onceADay)
    (.call false :: statements 0 5 ++ [.wait 2, .call false] ++ statements 1 6 ++ [.move 1 .running, .move 1 .completed] ++
      statements 0 1 ++ [.move 0 .running, .move 0 .completed, .call false] ++ statements 2 6)
    (P := fun s => (∀ x ∈ s.stamps, x.tally = .run false (some 1)) ∧ countOn Tally.unattended 1 s.stamps = 2) (by decide)
  refine ⟨s, hs, hcaps, hcount, ?_⟩
  intro h
  have hle := h.capped 1 1 (fun x hx _ cap hcap => by
    rw [hcaps x hx] at hcap
    cases hcap
    exact ⟨1, rfl, Nat.one_pos, Nat.le_refl 1⟩)
  omega

/-- As long as every stamp is in order and none leaves an earlier day's quiet tally on the row, the three tallies are exact. -/
theorem tallies_exact_of_settles {localDayOf : Nat → Nat → Nat} {now nextId : Nat} {row : Row} {s : State}
    (h : Steps.Reaches (step localDayOf) Settles (initial now nextId row) s) : TalliesExact s := by
  have hexact : Exact s := h.invariant (I := Exact) (fun _ _ _ hx hok hy => exact_step hx hok hy) (exact_initial now nextId row)
  exact ⟨fun r hr => (hexact.runs r hr).count, fun r hr => (hexact.skips r hr).count, fun r hr => (hexact.quiets r hr).count⟩

/-- A run and two quiet results of one day. -/
theorem tallies_exact_of_settles_quiet :
    ∃ s, Steps.Reaches (step dayOfHour) Settles (initial 5 0 onceADay) s ∧
      s.row.map Row.quietToday = some 2 ∧ TalliesExact s := by
  obtain ⟨s, hs, hquiet⟩ := Steps.exists_of_execOk (step dayOfHour) Settles (initial 5 0 onceADay)
    (.call false :: statements 0 6 ++ [.quiet, .settleQuiet 0, .quiet, .settleQuiet 0])
    (P := fun s => s.row.map Row.quietToday = some 2) (by decide)
  exact ⟨s, hs, hquiet, tallies_exact_of_settles hs⟩

/-- The first run of a new day leaves the quiet result of the day before on the row. -/
theorem tallies_exact_false :
    ∃ s, Steps.Reaches (step dayOfHour) Steps.Free (initial 5 0 onceADay) s ∧ ¬ TalliesExact s := by
  obtain ⟨s, hs, hrow, hcount⟩ := Steps.exists_of_exec (step dayOfHour) (initial 5 0 onceADay)
    (.call false :: statements 0 6 ++ [.quiet, .settleQuiet 0, .move 0 .running, .move 0 .completed, .wait 24, .call false] ++
      statements 1 6)
    (P := fun s => s.row.map (fun r => (r.runsDay, r.quietToday)) = some (some 1, 1) ∧ countOn Tally.isQuiet 1 s.stamps = 0) (by decide)
  refine ⟨s, hs, fun h => ?_⟩
  obtain ⟨r, hr, hcols⟩ := Option.map_eq_some_iff.1 hrow
  simp only [Prod.mk.injEq] at hcols
  have hq := h.quiets r hr 1 hcols.1
  omega

end Capka.AutomationRuns

import Capka.Automations.Rows

/-!
# Automations stay well formed

The token and the horizon follow the trigger as long as every write finds the row as its request read it, and the cap holds as long
as every write that enables a row finds room. `Regular` is that condition (`automations_well_formed_of_regular`). Neither the toggle
nor the edit nor the scheduler's retry looks at the cap, and enabling a row again is enough to exceed it
(`automations_well_formed_false`).
-/

namespace Capka

namespace AutomationState

/-- What the table promises: no user has more enabled rows than the cap was when the last of them was created or enabled; an enabled
row with a clock has a horizon or is being fired; and the rows with a token are those with a webhook, which have no horizon. -/
structure Upheld (s : AutomationState) : Prop where
  cap : ∀ r ∈ s.rows, r.enabled = true →
    (∀ r' ∈ s.rows, r'.userId = r.userId → r'.enabled = true → r'.armedAt ≤ r.armedAt) → s.enabledOf r.userId ≤ r.armedCap
  horizon : ∀ r ∈ s.rows, r.enabled = true → r.trigger.isWebhook = false →
    r.nextRunAt ≠ none ∨ ∃ f ∈ s.firing, f.id = r.id
  token : ∀ r ∈ s.rows, r.webhookToken.isSome = r.trigger.isWebhook ∧ (r.trigger.isWebhook = true → r.nextRunAt = none)

/-- Enabling the row keeps the cap in force. -/
def Room (s : AutomationState) (r : Automation) : Prop := r.enabled = false → s.enabledOf r.userId < s.cap

/-- A toggle or an edit fits the row it finds: there is room when it enables; a new trigger of the kind that was read finds that
kind; and a new horizon is missing just where the row has no clock or stays off. -/
structure Fits (K : Calendar) (s : AutomationState) (enabled : Option Bool) (trigger : Option AutomationTrigger)
    (read : AutomationTrigger) (now : Nat) (r : Automation) : Prop where
  room : enabled = some true → s.Room r
  kind : ∀ tr ∈ trigger, tr.isWebhook = read.isWebhook → r.trigger.isWebhook = read.isWebhook
  clockless : (trigger.isSome || enabled = some true) = true → (trigger.getD r.trigger).isWebhook = true →
    (nextOccurrenceAfter K (trigger.getD read) now).toOption.join = none
  ahead : (trigger.isSome || enabled = some true) = true → (trigger.getD r.trigger).isWebhook = false →
    enabled.getD r.enabled = true → (nextOccurrenceAfter K (trigger.getD read) now).toOption ≠ some none

/-- A creation finds room, and its moment still ahead. -/
def Opens (K : Calendar) (s : AutomationState) (userId : Nat) (args : TriggerArgs) (now later : Nat) : Prop :=
  s.enabledOf userId < s.cap ∧ ∀ trigger ∈ (parseTriggerArgs K args now).toOption, trigger.isWebhook = false →
    (nextOccurrenceAfter K trigger later).toOption ≠ some none

/-- The second half of a request finds what its first half relied on. -/
def Runs (K : Calendar) (s : AutomationState) (now later : Nat) : AutomationRequest → Prop
  | .add userId _ args => s.Opens K userId args now later
  | .setEnabled id enabled read => ∀ r ∈ s.rows.get id, s.Fits K (some enabled) none read now r
  | .patch id enabled trigger read => ∀ r ∈ s.rows.get id, s.Fits K enabled trigger read now r
  | .rotate id => ∀ r ∈ s.rows.get id, r.trigger.isWebhook = true

/-- The retry of a firing that threw finds a row with a clock, and room if the tick turned it off. -/
def Retries (s : AutomationState) (f : Firing) : Prop :=
  ∀ r ∈ s.rows.get f.id, r.updatedAt = f.tickTs → r.trigger.isWebhook = false ∧ s.Room r

/-- Every write finds what it relies on. -/
def Regular (K : Calendar) (s : AutomationState) : AutomationAct → Prop
  | .run i _ _ now later => ∀ q ∈ s.requests[i]?, s.Runs K now later q
  | .fireThrows i _ => ∀ f ∈ s.firing[i]?, s.Retries f
  | _ => True

/-- A row in order. -/
structure RowOk (r : Automation) : Prop where
  horizon : r.enabled = true → r.trigger.isWebhook = false → r.nextRunAt ≠ none
  token : r.webhookToken.isSome = r.trigger.isWebhook
  clockless : r.trigger.isWebhook = true → r.nextRunAt = none

/-- How many rows of a user are enabled and were armed no later than a write. -/
def armedBy (s : AutomationState) (userId n : Nat) : Nat :=
  s.rows.count (fun r => r.userId = userId && r.enabled && decide (r.armedAt ≤ n))

/-- What holds along a run: the rows are in order, and those armed up to any enabled row fit the cap of its time. -/
structure Inv (s : AutomationState) : Prop where
  rows : ∀ r ∈ s.rows, RowOk r
  armed : ∀ r ∈ s.rows, r.armedAt < s.seq
  cap : ∀ r ∈ s.rows, r.enabled = true → s.armedBy r.userId r.armedAt ≤ r.armedCap

namespace WellFormedAux

/-! ### One write -/

theorem noted_ok {seq cap : Nat} {old new : Automation} (h : RowOk new) : RowOk (Automation.noted seq cap old new) := by
  unfold Automation.noted
  split
  · exact ⟨h.horizon, h.token, h.clockless⟩
  · exact ⟨h.horizon, h.token, h.clockless⟩

@[simp] theorem noted_userId (seq cap : Nat) (old new : Automation) : (Automation.noted seq cap old new).userId = new.userId := by
  unfold Automation.noted
  split <;> rfl

@[simp] theorem noted_enabled (seq cap : Nat) (old new : Automation) :
    (Automation.noted seq cap old new).enabled = new.enabled := by
  unfold Automation.noted
  split <;> rfl

theorem noted_armed (seq cap : Nat) (old new : Automation) :
    (new.enabled = true ∧ old.enabled = false ∧ (Automation.noted seq cap old new).armedAt = seq ∧
        (Automation.noted seq cap old new).armedCap = cap) ∨
      ((new.enabled = true → old.enabled = true) ∧ (Automation.noted seq cap old new).armedAt = old.armedAt ∧
        (Automation.noted seq cap old new).armedCap = old.armedCap) := by
  unfold Automation.noted
  cases hn : new.enabled <;> cases ho : old.enabled <;> simp

variable {s : AutomationState} {id : Nat}

theorem armedBy_write {f : Automation → Automation} (huser : ∀ r, (f r).userId = r.userId)
    (userId : Nat) {n : Nat} (hn : n < s.seq) : (s.write id f).armedBy userId n ≤ s.armedBy userId n := by
  refine Table.count_modify_mono (fun r => Automation.noted_id _ _ r _) (fun r _ _ hp => ?_) (fun _ _ _ hp => hp)
  simp only [noted_userId, noted_enabled, huser, Bool.and_eq_true, decide_eq_true_eq] at hp ⊢
  obtain ⟨⟨hu, he⟩, ha⟩ := hp
  rcases noted_armed s.seq s.cap r (f r) with ⟨_, _, hat, _⟩ | ⟨henabled, hat, _⟩
  · rw [hat] at ha
    exact absurd ha (Nat.not_le.mpr hn)
  · rw [hat] at ha
    exact ⟨⟨hu, henabled he⟩, ha⟩

theorem inv_write {f : Automation → Automation} (hI : Inv s)
    (huser : ∀ r, (f r).userId = r.userId) (hok : ∀ r ∈ s.rows, r.id = id → RowOk (f r))
    (hroom : ∀ r ∈ s.rows, r.id = id → (f r).enabled = true → s.Room r) : Inv (s.write id f) := by
  constructor
  · intro r hr
    rcases mem_write.mp hr with ⟨r₀, hr₀, hid, rfl⟩ | ⟨hr, _⟩
    · exact noted_ok (hok r₀ hr₀ hid)
    · exact hI.rows r hr
  · intro r hr
    change r.armedAt < s.seq + 1
    rcases mem_write.mp hr with ⟨r₀, hr₀, hid, rfl⟩ | ⟨hr, _⟩
    · have hlt := hI.armed r₀ hr₀
      rcases noted_armed s.seq s.cap r₀ (f r₀) with ⟨_, _, hat, _⟩ | ⟨_, hat, _⟩ <;> omega
    · exact Nat.lt_succ_of_lt (hI.armed r hr)
  · intro r hr henabled
    rcases mem_write.mp hr with ⟨r₀, hr₀, hid, rfl⟩ | ⟨hr, _⟩
    · rw [noted_enabled] at henabled
      rw [noted_userId, huser]
      rcases noted_armed s.seq s.cap r₀ (f r₀) with ⟨_, hoff, hat, hcap⟩ | ⟨hon, hat, hcap⟩
      · rw [hat, hcap]
        have hlt : s.enabledOf r₀.userId < s.cap := hroom r₀ hr₀ hid henabled hoff
        have hle := Table.count_modify_le (k := id) (f := fun r => r.noted s.seq s.cap (f r)) (fun r => Automation.noted_id _ _ r _)
          (p := fun r => r.userId = r₀.userId && r.enabled && decide (r.armedAt ≤ s.seq))
          (q := fun r => r.userId = r₀.userId && r.enabled) (T := s.rows) fun r _ _ hp => by
            simp only [Bool.and_eq_true] at hp ⊢
            exact hp.1
        exact Nat.le_trans hle hlt
      · rw [hat, hcap]
        exact Nat.le_trans (armedBy_write huser _ (hI.armed r₀ hr₀)) (hI.cap r₀ hr₀ (hon henabled))
    · exact Nat.le_trans (armedBy_write huser _ (hI.armed r hr)) (hI.cap r hr henabled)

variable {t : AutomationState}

theorem inv_congr (hI : Inv s) (hrows : t.rows = s.rows) (hseq : t.seq = s.seq) : Inv t := by
  obtain ⟨h₁, h₂, h₃⟩ := hI
  refine ⟨?_, ?_, ?_⟩
  · rwa [hrows]
  · rwa [hrows, hseq]
  · unfold armedBy at h₃ ⊢
    rwa [hrows]

variable {r : Automation}

theorem turnedOff_ok (h : RowOk r) (now : Nat) : RowOk (r.turnedOff now) :=
  ⟨nofun, h.token, h.clockless⟩

theorem inv_turnOff (hI : Inv s) (id now : Nat) : Inv (s.write id (Automation.turnedOff now)) :=
  inv_write hI (fun _ => rfl) (fun r hr _ => turnedOff_ok (hI.rows r hr) now) (fun _ _ _ => nofun)

theorem inv_stamp (hI : Inv s) (id failures now : Nat) :
    Inv (s.write id (Automation.stamped failures now)) := by
  refine inv_write hI (fun _ => rfl) (fun r hr _ => ?_) (fun r _ _ hon hoff => ?_)
  · obtain ⟨h₁, h₂, h₃⟩ := hI.rows r hr
    exact ⟨h₁, h₂, h₃⟩
  · have hon' : r.enabled = true := hon
    rw [hoff] at hon'
    cases hon'

/-! ### The second halves of requests -/

theorem get_of_mem (hr : r ∈ s.rows) (hid : r.id = id) :
    s.rows.get id = some r :=
  Table.get_eq_some_iff.mpr ⟨hr, hid⟩

variable {K : Calendar} {enabled : Option Bool} {trigger : Option AutomationTrigger} {read : AutomationTrigger} {token now : Nat}
  {next : Option Nat}

theorem patched_ok
    (h : RowOk r)
    (hfits : s.Fits K enabled trigger read now r)
    (hnext : (trigger.isSome || enabled = some true) = true → nextOccurrenceAfter K (trigger.getD read) now = .ok next) :
    RowOk (r.patched enabled trigger read token next now) := by
  constructor
  · intro hon hclock
    simp only [Automation.patched] at hon hclock ⊢
    split
    · rename_i hrec
      rintro rfl
      exact hfits.ahead hrec hclock hon (by rw [hnext hrec]; rfl)
    · rename_i hrec
      simp only [Bool.not_eq_true, Bool.or_eq_false_iff, Option.isSome_eq_false_iff, Option.isNone_iff_eq_none,
        decide_eq_false_iff_not] at hrec
      obtain ⟨rfl, hne⟩ := hrec
      refine h.horizon ?_ hclock
      cases enabled with
      | none => exact hon
      | some b =>
        cases b with
        | true => exact absurd rfl hne
        | false => cases hon
  · simp only [Automation.patched, Automation.patchedToken]
    cases trigger with
    | none => exact h.token
    | some tr =>
      dsimp only [Option.getD_some]
      split
      · rename_i hsame
        rw [h.token, hfits.kind tr rfl hsame, hsame]
      · split
        · rename_i hw
          rw [hw]
          rfl
        · rename_i hw
          rw [Bool.not_eq_true] at hw
          rw [hw]
          rfl
  · intro hw
    simp only [Automation.patched] at hw ⊢
    split
    · rename_i hrec
      have hnone := hfits.clockless hrec hw
      rw [hnext hrec] at hnone
      exact hnone
    · rename_i hrec
      simp only [Bool.not_eq_true, Bool.or_eq_false_iff, Option.isSome_eq_false_iff, Option.isNone_iff_eq_none,
        decide_eq_false_iff_not] at hrec
      obtain ⟨rfl, _⟩ := hrec
      exact h.clockless hw

theorem patched_room
   
    (hfits : s.Fits K enabled trigger read now r) (hon : (r.patched enabled trigger read token next now).enabled = true) :
    s.Room r := by
  intro hoff
  simp only [Automation.patched] at hon
  cases enabled with
  | none =>
    rw [Option.getD_none, hoff] at hon
    cases hon
  | some b =>
    cases b with
    | true => exact hfits.room rfl hoff
    | false => cases hon

theorem toggled_eq_patched (enabled : Bool) (read : AutomationTrigger) (token : Nat) (next : Option Nat) (now : Nat)
    (r : Automation) : r.toggled enabled next now = r.patched (some enabled) none read token next now := by
  cases enabled <;> rfl

theorem inv_patched
    (hI : Inv s)
    (hfits : ∀ r ∈ s.rows.get id, s.Fits K enabled trigger read now r)
    (hnext : (trigger.isSome || enabled = some true) = true → nextOccurrenceAfter K (trigger.getD read) now = .ok next) :
    Inv (s.write id (Automation.patched enabled trigger read token next now)) :=
  inv_write hI (fun _ => rfl) (fun r hr hid => patched_ok (hI.rows r hr) (hfits r (get_of_mem hr hid)) hnext)
    (fun r hr hid hon => patched_room (hfits r (get_of_mem hr hid)) hon)

theorem inv_patch
    (token : Nat) (hI : Inv s)
    (hfits : ∀ r ∈ s.rows.get id, s.Fits K enabled trigger read now r)
    (h : s.patch K id enabled trigger read token now = some t) : Inv t := by
  unfold patch at h
  split at h
  · split at h
    · cases h
    · rename_i next hnext
      cases h
      exact inv_patched hI hfits fun _ => hnext
  · rename_i hrec
    cases h
    exact inv_patched hI hfits fun hrec' => absurd hrec' hrec

theorem inv_setEnabled {enabled : Bool}
    (hI : Inv s) (hfits : ∀ r ∈ s.rows.get id, s.Fits K (some enabled) none read now r)
    (h : s.setEnabled K id enabled read now = some t) : Inv t := by
  refine inv_patch 0 hI hfits ?_
  rw [← h]
  unfold setEnabled patch
  cases enabled with
  | false => simp [funext (toggled_eq_patched false read 0 none now)]
  | true =>
    simp only [Option.isSome_none, Bool.false_or, decide_true, if_true, Option.getD_none]
    cases hn : nextOccurrenceAfter K read now with
    | error e => rfl
    | ok next => simp [funext (toggled_eq_patched true read 0 next now)]

theorem inv_add {userId : Nat} {projectId : Option Nat} {args : TriggerArgs}
    {later : Nat} (hI : Inv s) (hok : s.Opens K userId args now later)
    (h : s.add K userId projectId args id token now later = some t) : Inv t := by
  obtain ⟨hroom, hahead⟩ := hok
  unfold add at h
  split at h
  · cases h
  · rename_i trigger hparse
    split at h
    · cases h
    · rename_i next hnext
      obtain ⟨T, hT, rfl⟩ := Option.map_eq_some_iff.mp h
      generalize hnew : Automation.fresh id userId projectId trigger token next later s.seq s.cap = new at hT
      have hmem := fun r => Table.mem_of_insert (x := r) hT
      have hnewok : RowOk new := by
        rw [← hnew]
        refine ⟨fun _ hclock => ?_, ?_, fun hw => nextOccurrenceAfter_of_webhook hw hnext⟩
        · rintro (rfl : next = none)
          exact hahead trigger (by rw [hparse]; rfl) hclock (by rw [hnext]; rfl)
        · simp only [Automation.fresh]
          cases trigger.isWebhook <;> rfl
      have hnewat : new.armedAt = s.seq := by
        rw [← hnew]
        rfl
      constructor
      · intro r hr
        rcases (hmem r).mp hr with hr | rfl
        · exact hI.rows r hr
        · exact hnewok
      · intro r hr
        rcases (hmem r).mp hr with hr | rfl
        · exact Nat.lt_succ_of_lt (hI.armed r hr)
        · rw [hnewat]
          exact Nat.lt_succ_self _
      · intro r hr henabled
        unfold armedBy
        rw [Table.count_of_insert hT]
        rcases (hmem r).mp hr with hr | rfl
        · have hlt := hI.armed r hr
          have hnot : decide (new.armedAt ≤ r.armedAt) = false := by
            rw [hnewat]
            exact decide_eq_false (Nat.not_le.mpr hlt)
          simp only [hnot, Bool.and_false, Bool.false_eq_true, if_false, Nat.add_zero]
          exact hI.cap r hr henabled
        · have hu : r.userId = userId := by rw [← hnew]; rfl
          have hc : r.armedCap = s.cap := by rw [← hnew]; rfl
          have hle : s.rows.count (fun r' => r'.userId = r.userId && r'.enabled && decide (r'.armedAt ≤ r.armedAt)) ≤
              s.enabledOf userId := by
            refine Table.count_mono fun r' _ hp => ?_
            rw [hu] at hp
            simp only [Bool.and_eq_true] at hp ⊢
            exact hp.1
          rw [hc]
          split
          · omega
          · omega

theorem inv_run {q : AutomationRequest} {fresh later : Nat} (hI : Inv s)
    (hok : s.Runs K now later q) (h : s.run K q fresh token now later = some t) : Inv t := by
  cases q with
  | add userId projectId args => exact inv_add hI hok h
  | setEnabled id enabled read => exact inv_setEnabled hI hok h
  | patch id enabled trigger read => exact inv_patch _ hI hok h
  | rotate id =>
    cases h
    refine inv_write hI (fun _ => rfl) (fun r hr hid => ?_) (fun r _ _ hon hoff => ?_)
    · obtain ⟨h₁, _, h₃⟩ := hI.rows r hr
      exact ⟨h₁, (hok r (get_of_mem hr hid)).symm, h₃⟩
    · have hon' : r.enabled = true := hon
      rw [hoff] at hon'
      cases hon'

/-! ### The scheduler -/

theorem clock_of_due (h : RowOk r) (hdue : r.due now = true) :
    r.enabled = true ∧ r.trigger.isWebhook = false := by
  simp only [Automation.due, Bool.and_eq_true] at hdue
  refine ⟨hdue.1, ?_⟩
  cases hw : r.trigger.isWebhook with
  | false => rfl
  | true =>
    rw [h.clockless hw] at hdue
    cases hdue.2

theorem inv_tickClaim {tickTs : Nat} (hI : Inv s)
    (h : s.tickClaim K id now tickTs = some t) : Inv t := by
  simp only [tickClaim, Option.bind_eq_some_iff] at h
  obtain ⟨r, hget, h⟩ := h
  split at h
  · cases h
  · simp only [Option.ite_none_right_eq_some, Option.some.injEq] at h
    obtain ⟨⟨_, hdue, _⟩, rfl⟩ := h
    obtain ⟨hmem, rfl⟩ := Table.get_eq_some_iff.mp hget
    refine inv_congr (inv_write (f := Automation.claimed _ tickTs) hI (fun _ => rfl) (fun r' hr' hid => ?_) fun r' hr' hid _ => ?_)
      rfl rfl
    · obtain rfl := Table.eq_of_key hr' hmem hid
      obtain ⟨_, hclock⟩ := clock_of_due (hI.rows _ hr') hdue
      refine ⟨fun hon _ => ?_, (hI.rows _ hr').token, fun hw => ?_⟩
      · have hon' : (_ || r'.trigger.isWebhook) = true := hon
        rw [hclock, Bool.or_false] at hon'
        exact Option.isSome_iff_ne_none.mp hon'
      · have hw' : r'.trigger.isWebhook = true := hw
        rw [hclock] at hw'
        cases hw'
    · obtain rfl := Table.eq_of_key hr' hmem hid
      intro hoff
      rw [(clock_of_due (hI.rows _ hr') hdue).1] at hoff
      cases hoff

theorem inv_fireThrows {f : Firing} (hI : Inv s) (hok : s.Retries f) :
    Inv (s.fireThrows f now) := by
  unfold fireThrows
  cases hget : s.rows.get f.id with
  | none => exact hI
  | some r =>
    dsimp only
    split
    · rename_i hmark
      obtain ⟨hclock, hroom⟩ := hok r hget hmark
      obtain ⟨hmem, hid⟩ := Table.get_eq_some_iff.mp hget
      refine inv_congr (inv_write (f := Automation.rearmed f.dueAt now) hI (fun _ => rfl) (fun r' hr' hid' => ?_)
        fun r' hr' hid' _ => ?_) rfl rfl
      · obtain rfl := Table.eq_of_key hr' hmem (hid'.trans hid.symm)
        refine ⟨fun _ _ => nofun, (hI.rows _ hr').token, fun hw => ?_⟩
        have hw' : r'.trigger.isWebhook = true := hw
        rw [hclock] at hw'
        cases hw'
      · obtain rfl := Table.eq_of_key hr' hmem (hid'.trans hid.symm)
        exact hroom
    · exact hI

theorem orphaned_cases (projectId now : Nat) (r : Automation) :
    (r.orphaned projectId now).userId = r.userId ∧ (r.orphaned projectId now).armedAt = r.armedAt ∧
      (r.orphaned projectId now).armedCap = r.armedCap ∧
      ((r.orphaned projectId now).enabled = true → r.enabled = true) ∧
      (RowOk r → RowOk (r.orphaned projectId now)) := by
  unfold Automation.orphaned
  split
  · exact ⟨rfl, rfl, rfl, nofun, fun h => ⟨nofun, h.token, fun _ => rfl⟩⟩
  · exact ⟨rfl, rfl, rfl, id, id⟩

theorem inv_dropProject {projectId : Nat} (hI : Inv s)
    (h : s.step K (.dropProject projectId now) = some t) : Inv t := by
  cases h
  have hmem : ∀ r ∈ s.rows.map (Automation.orphaned projectId now) (Automation.orphaned_id projectId now),
      ∃ r₀ ∈ s.rows, r₀.orphaned projectId now = r := by
    intro r hr
    rwa [Table.mem_map] at hr
  constructor
  · intro r hr
    obtain ⟨r₀, hr₀, rfl⟩ := hmem r hr
    exact (orphaned_cases projectId now r₀).2.2.2.2 (hI.rows r₀ hr₀)
  · intro r hr
    obtain ⟨r₀, hr₀, rfl⟩ := hmem r hr
    rw [(orphaned_cases projectId now r₀).2.1]
    exact hI.armed r₀ hr₀
  · intro r hr hon
    obtain ⟨r₀, hr₀, rfl⟩ := hmem r hr
    obtain ⟨hu, ha, hc, he, _⟩ := orphaned_cases projectId now r₀
    rw [hu, ha, hc]
    refine Nat.le_trans (Table.count_map_le (Automation.orphaned_id projectId now) fun r' _ hp => ?_) (hI.cap r₀ hr₀ (he hon))
    obtain ⟨hu', ha', _, he', _⟩ := orphaned_cases projectId now r'
    simp only [hu', ha', Bool.and_eq_true, decide_eq_true_eq] at hp ⊢
    exact ⟨⟨hp.1.1, he' hp.1.2⟩, hp.2⟩

theorem inv_remove (hI : Inv s) (id : Nat) : Inv { s with rows := s.rows.erase id } := by
  have hmem := fun r (hr : r ∈ s.rows.erase id) => (Table.mem_erase.mp hr).1
  exact ⟨fun r hr => hI.rows r (hmem r hr), fun r hr => hI.armed r (hmem r hr),
    fun r hr hon => Nat.le_trans (Table.count_erase_le _ _ _) (hI.cap r (hmem r hr) hon)⟩

theorem inv_step {a : AutomationAct} (hI : Inv s) (hok : s.Regular K a)
    (h : s.step K a = some t) : Inv t := by
  cases a with
  | dropProject projectId now => exact inv_dropProject hI h
  | beginAdd userId projectId args now | beginSetEnabled userId id enabled =>
    simp only [step] at h
    split at h
    · cases h
      exact inv_congr hI rfl rfl
    · cases h
  | beginPatch userId id enabled args now =>
    simp only [step] at h
    split at h
    · split at h
      · cases h
        exact inv_congr hI rfl rfl
      · cases h
    · cases h
  | beginRotate userId id =>
    simp only [step] at h
    split at h
    · simp only [Option.ite_none_right_eq_some, Option.some.injEq] at h
      obtain ⟨_, rfl⟩ := h
      exact inv_congr hI rfl rfl
    · cases h
  | run i fresh token now later =>
    simp only [step, Option.bind_eq_some_iff] at h
    obtain ⟨q, hq, h⟩ := h
    have hruns : s.Runs K now later q := hok q hq
    refine inv_run (s := { s with requests := s.requests.eraseIdx i }) (inv_congr hI rfl rfl) ?_ h
    cases q with
    | add userId projectId args | rotate id => exact hruns
    | setEnabled id enabled read
    | patch id enabled trigger read => exact fun r hr => ⟨(hruns r hr).room, (hruns r hr).kind, (hruns r hr).clockless, (hruns r hr).ahead⟩
  | remove userId id =>
    simp only [step] at h
    split at h
    · cases h
      exact inv_remove hI id
    · cases h
  | tickDisable id now tickTs =>
    simp only [step, Option.bind_eq_some_iff, Option.ite_none_right_eq_some, Option.some.injEq] at h
    obtain ⟨r, _, _, rfl⟩ := h
    exact inv_turnOff hI id tickTs
  | tickClaim id now tickTs => exact inv_tickClaim hI h
  | fireThrows i now =>
    simp only [step, Option.map_eq_some_iff] at h
    obtain ⟨f, hf, rfl⟩ := h
    exact inv_fireThrows (s := { s with firing := s.firing.eraseIdx i }) (inv_congr hI rfl rfl) (hok f hf)
  | stamp id now =>
    simp only [step, Option.map_eq_some_iff] at h
    obtain ⟨r, _, rfl⟩ := h
    exact inv_stamp hI id _ now
  | recordFailure id now =>
    simp only [step, Option.map_eq_some_iff] at h
    obtain ⟨r, _, rfl⟩ := h
    exact inv_congr (inv_stamp hI id (r.consecutiveFailures + 1) now) rfl rfl
  | recordSuccess id now =>
    cases h
    exact inv_stamp hI id 0 now
  | refuseHook id =>
    simp only [step, Option.bind_eq_some_iff, Option.ite_none_right_eq_some, Option.some.injEq] at h
    obtain ⟨r, _, _, rfl⟩ := h
    exact inv_congr hI rfl rfl
  | giveUp i now =>
    simp only [step, Option.map_eq_some_iff] at h
    obtain ⟨id, _, rfl⟩ := h
    exact inv_turnOff (s := { s with giveUps := s.giveUps.eraseIdx i }) (inv_congr hI rfl rfl) id now
  | _ =>
    cases h
    exact inv_congr hI rfl rfl

theorem inv_init (on : Bool) (cap minMinutes : Nat) : Inv (init on cap minMinutes) :=
  ⟨fun r hr => absurd hr (Table.not_mem_empty r), fun r hr => absurd hr (Table.not_mem_empty r),
    fun r hr => absurd hr (Table.not_mem_empty r)⟩

theorem upheld_of_inv (hI : Inv s) : s.Upheld := by
  refine ⟨fun r hr hon hlast => ?_, fun r hr hon hclock => .inl ((hI.rows r hr).horizon hon hclock), fun r hr =>
    ⟨(hI.rows r hr).token, (hI.rows r hr).clockless⟩⟩
  refine Nat.le_trans (Table.count_mono fun r' hr' hp => ?_) (hI.cap r hr hon)
  simp only [Bool.and_eq_true, decide_eq_true_eq] at hp ⊢
  exact ⟨hp, hlast r' hr' hp.1 hp.2⟩

end WellFormedAux

open WellFormedAux

/-- In every run whose steps are all regular, every state reached has its cap, its horizons and its tokens in order. -/
theorem automations_well_formed_of_regular {K : Calendar} {on : Bool} {cap minMinutes : Nat} {s : AutomationState}
    (h : Steps.Reaches (step K) (Regular K) (init on cap minMinutes) s) : s.Upheld :=
  upheld_of_inv (h.invariant (I := Inv) (fun _ _ _ hx hok hstep => inv_step hx hok hstep) (inv_init on cap minMinutes))

instance (s : AutomationState) (r : Automation) : Decidable (s.Room r) :=
  inferInstanceAs (Decidable (r.enabled = false → s.enabledOf r.userId < s.cap))

theorem fits_iff {K : Calendar} {s : AutomationState} {enabled : Option Bool} {trigger : Option AutomationTrigger}
    {read : AutomationTrigger} {now : Nat} {r : Automation} :
    s.Fits K enabled trigger read now r ↔ (enabled = some true → s.Room r) ∧
      (∀ tr ∈ trigger, tr.isWebhook = read.isWebhook → r.trigger.isWebhook = read.isWebhook) ∧
      ((trigger.isSome || enabled = some true) = true → (trigger.getD r.trigger).isWebhook = true →
        (nextOccurrenceAfter K (trigger.getD read) now).toOption.join = none) ∧
      ((trigger.isSome || enabled = some true) = true → (trigger.getD r.trigger).isWebhook = false →
        enabled.getD r.enabled = true → (nextOccurrenceAfter K (trigger.getD read) now).toOption ≠ some none) :=
  ⟨fun h => ⟨h.room, h.kind, h.clockless, h.ahead⟩, fun h => ⟨h.1, h.2.1, h.2.2.1, h.2.2.2⟩⟩

instance (K : Calendar) (s : AutomationState) (enabled : Option Bool) (trigger : Option AutomationTrigger)
    (read : AutomationTrigger) (now : Nat) (r : Automation) : Decidable (s.Fits K enabled trigger read now r) :=
  decidable_of_iff _ fits_iff.symm

instance (K : Calendar) (s : AutomationState) (userId : Nat) (args : TriggerArgs) (now later : Nat) :
    Decidable (s.Opens K userId args now later) :=
  inferInstanceAs (Decidable (s.enabledOf userId < s.cap ∧ ∀ trigger ∈ (parseTriggerArgs K args now).toOption,
    trigger.isWebhook = false → (nextOccurrenceAfter K trigger later).toOption ≠ some none))

instance (K : Calendar) (s : AutomationState) (now later : Nat) : (q : AutomationRequest) → Decidable (s.Runs K now later q)
  | .add userId _ args => inferInstanceAs (Decidable (s.Opens K userId args now later))
  | .setEnabled id enabled read => inferInstanceAs (Decidable (∀ r ∈ s.rows.get id, s.Fits K (some enabled) none read now r))
  | .patch id enabled trigger read => inferInstanceAs (Decidable (∀ r ∈ s.rows.get id, s.Fits K enabled trigger read now r))
  | .rotate id => inferInstanceAs (Decidable (∀ r ∈ s.rows.get id, r.trigger.isWebhook = true))

instance (s : AutomationState) (f : Firing) : Decidable (s.Retries f) :=
  inferInstanceAs (Decidable (∀ r ∈ s.rows.get f.id, r.updatedAt = f.tickTs → r.trigger.isWebhook = false ∧ s.Room r))

instance (K : Calendar) (s : AutomationState) : (a : AutomationAct) → Decidable (s.Regular K a)
  | .run i _ _ now later => inferInstanceAs (Decidable (∀ q ∈ s.requests[i]?, s.Runs K now later q))
  | .fireThrows i _ => inferInstanceAs (Decidable (∀ f ∈ s.firing[i]?, s.Retries f))
  | .setOn _ | .setCap _ | .setMinInterval _ | .suspend _ | .reactivate _ | .createProject _ | .dropProject _ _ | .beginAdd _ _ _ _
  | .beginSetEnabled _ _ _ | .beginPatch _ _ _ _ _ | .beginRotate _ _ | .abort _ | .remove _ _ | .tickDisable _ _ _
  | .tickClaim _ _ _ | .fireEnds _ | .stamp _ _ | .recordFailure _ _ | .recordSuccess _ _ | .refuseHook _ | .giveUp _ _ =>
    .isTrue trivial

/-- Every cron expression is hourly, and every date and time is the hundredth millisecond. -/
def hourly : Calendar where
  cronNext := fun _ _ after => .ok (after + 3600000)
  fromISO := fun _ _ => .ok 100
  intlKnows := fun _ => true

/-- An hourly schedule, a one-off, and a webhook. -/
def cronArgs : TriggerArgs := { cron := some "0 * * * *", onceAt := none, webhook := none, timezone := some "Europe/Kyiv" }

def onceArgs : TriggerArgs := { cron := none, onceAt := some "2026-07-02T22:15:00", webhook := none, timezone := some "Europe/Kyiv" }

def webhookArgs : TriggerArgs := { cron := none, onceAt := none, webhook := some true, timezone := some "Europe/Kyiv" }

/-- User 7 creates a schedule and a one-off; the one-off is fired and throws, and is put back; the schedule becomes a webhook. -/
def ordinaryUse : List AutomationAct :=
  [.beginAdd 7 none cronArgs 0, .run 0 1 90 0 0, .beginAdd 7 none onceArgs 0, .run 0 2 91 0 0, .tickClaim 2 100 100,
    .fireThrows 0 101, .beginPatch 7 1 none (some webhookArgs) 102, .run 0 0 92 102 102]

/-- With room for one: user 7 creates an automation, turns it off, creates another and turns the first on again. -/
def enabledAgain : List AutomationAct :=
  [.beginAdd 7 none cronArgs 0, .run 0 1 90 0 0, .beginPatch 7 1 (some false) none 1, .run 0 0 0 1 1,
    .beginAdd 7 none cronArgs 2, .run 0 2 91 2 2, .beginPatch 7 1 (some true) none 3, .run 0 0 0 3 3]

theorem automations_well_formed_ordinary :
    ∃ s, Steps.Reaches (step hourly) (Regular hourly) (init true 2 60) s ∧ s.enabledOf 7 = 2 ∧ s.Upheld := by
  obtain ⟨s, hs, htwo⟩ := Steps.exists_of_execOk (step hourly) (Regular hourly) (init true 2 60) ordinaryUse
    (P := fun s => s.enabledOf 7 = 2) (by decide)
  exact ⟨s, hs, htwo, automations_well_formed_of_regular hs⟩

/-- Enabling a row again exceeds the cap. -/
theorem automations_well_formed_false :
    ¬∀ (K : Calendar) (on : Bool) (cap minMinutes : Nat) (s : AutomationState),
      Steps.Reaches (step K) Steps.Free (init on cap minMinutes) s → s.Upheld := by
  intro h
  obtain ⟨s, hs, r, hr, hon, hlast, hover⟩ := Steps.exists_of_exec (step hourly) (init true 1 60) enabledAgain
    (P := fun s => ∃ r ∈ s.rows, r.enabled = true ∧
      (∀ r' ∈ s.rows, r'.userId = r.userId → r'.enabled = true → r'.armedAt ≤ r.armedAt) ∧ r.armedCap < s.enabledOf r.userId)
    (by decide)
  exact absurd ((h hourly true 1 60 s hs).cap r hr hon hlast) (Nat.not_le.mpr hover)

end AutomationState

end Capka

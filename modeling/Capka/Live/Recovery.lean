import Mathlib
import Capka.Lib.Steps
import Capka.Stream.Parts

/-!
# The recovery of a reply that fell behind

Events past a gap are held, and a reload of the chat is started, or a retry is armed when the last reload was too recent. When a reload is
over, what it does not cover is replayed up to the first event that is still past a gap. A reload is owed to a reply that asked for one
with nothing held; the end of its turn takes both what is held and what is owed away. The recovery stands alone here: what its caller does
to the cursors, and whether it can apply an event, is anything.
-/

namespace Capka

namespace StreamRecovery

open Capka.Stream (ReconcileAction)

/-- A sequenced event of a reply; a publisher of before gives no number. -/
structure HeldEvent (α : Type*) where
  messageId : Nat
  seq : Option Int
  body : α
  deriving Repr, DecidableEq

def MAX_GAP_BUFFER : Nat := 300

def RECONCILE_MAX_MS : Nat := 2000

def classifyStreamEvent (appliedSeq : Int) : Option Int → ReconcileAction
  | none => .apply
  | some eventSeq =>
    if eventSeq ≤ appliedSeq then .ignore
    else if eventSeq = appliedSeq + 1 then .apply
    else .reconcile

/-- The cursors: the highest number applied, by reply. -/
abbrev Cursors := Nat → Option Int

variable {α : Type*}

/-- `cursors.get(messageId) ?? -1`. -/
def appliedSeq (cursors : Cursors) (e : HeldEvent α) : Int := (cursors e.messageId).getD (-1)

/-- An event counts as applied. -/
def count (e : HeldEvent α) (cursors : Cursors) : Cursors :=
  match e.seq with
  | none => cursors
  | some seq => Function.update cursors e.messageId (some seq)

/-- What to replay, and what stays held. -/
def planGapDrain : Cursors → List (HeldEvent α) → List (HeldEvent α) × List (HeldEvent α)
  | _, [] => ([], [])
  | cursors, e :: rest =>
    match classifyStreamEvent (appliedSeq cursors e) e.seq with
    | .ignore => planGapDrain cursors rest
    | .reconcile => ([], e :: rest)
    | .apply => (e :: (planGapDrain (count e cursors) rest).1, (planGapDrain (count e cursors) rest).2)

/-- What the callers did since the last reload was started, the latest first: a reload was asked for, for a reply or for what is held; or a
reply was dropped. -/
inductive Since
  | asked (messageId : Option Nat)
  | dropped (messageId : Nat)
  deriving Repr, DecidableEq

/-- A reload was asked for since for a reply, which was not dropped since. -/
def Outstanding (m : Nat) : List Since → Prop
  | [] => False
  | .asked messageId :: since => messageId = some m ∨ Outstanding m since
  | .dropped messageId :: since => messageId ≠ m ∧ Outstanding m since

/-- A recovery, with the cursors of its caller. For the record: the reloads that are in flight, what the callers did since the last one was
started, every event that was held, in the order they came, and every one replayed, with the cursor of its reply before. -/
structure Recovery (α : Type*) where
  buffer : List (HeldEvent α)
  reloading : Bool
  lastReloadAt : Option Int
  misses : Nat
  retryTimer : Bool
  disposed : Bool
  owed : List Nat
  cursors : Cursors
  inFlight : Nat
  since : List Since
  held : List (HeldEvent α)
  replayed : List (HeldEvent α × Int)

/-- A new recovery. -/
def createStreamRecovery (cursors : Cursors) : Recovery α where
  buffer := []
  reloading := false
  lastReloadAt := none
  misses := 0
  retryTimer := false
  disposed := false
  owed := []
  cursors := cursors
  inFlight := 0
  since := []
  held := []
  replayed := []

namespace Recovery

def reconcile (minIntervalMs : Nat) (now : Int) (s : Recovery α) : Recovery α :=
  if s.disposed || s.reloading || s.retryTimer then s
  else
    let spacing : Nat := min RECONCILE_MAX_MS (minIntervalMs * 2 ^ (s.misses - 1))
    if s.lastReloadAt.any (fun last => 0 < spacing - (now - last)) then { s with retryTimer := true }
    else { s with reloading := true, owed := [], inFlight := s.inFlight + 1, since := [] }

/-- `reconcile(messageId)`. -/
def reconcileFor (minIntervalMs : Nat) (now : Int) (messageId : Option Nat) (s : Recovery α) : Recovery α :=
  reconcile minIntervalMs now
    { s with
      owed := messageId.toList ++ s.owed
      since := .asked messageId :: s.since }

def hold (minIntervalMs : Nat) (now : Int) (e : HeldEvent α) (s : Recovery α) : Recovery α :=
  reconcile minIntervalMs now
    { s with
      buffer := (if MAX_GAP_BUFFER ≤ s.buffer.length then [] else s.buffer) ++ [e]
      held := s.held ++ [e] }

/-- The loop of `drain`, by whether each event could be applied: the first that could not goes back with all that follows it. -/
def replay : List Bool → List (HeldEvent α) → Recovery α → Recovery α
  | _, [], s => s
  | applied, e :: rest, s =>
    if applied.headD false then
      replay applied.tail rest { s with cursors := count e s.cursors, replayed := s.replayed ++ [(e, appliedSeq s.cursors e)] }
    else { s with buffer := e :: rest ++ s.buffer }

def drain (minIntervalMs : Nat) (now : Int) (applied : List Bool) (s : Recovery α) : Recovery α :=
  let plan := planGapDrain s.cursors s.buffer
  let s := replay applied plan.1 { s with buffer := plan.2 }
  if s.buffer.isEmpty then
    let s := { s with misses := 0 }
    if s.owed.isEmpty then s else reconcile minIntervalMs now s
  else reconcile minIntervalMs now { s with misses := s.misses + 1 }

/-- The `finally` of a reload. -/
def reloaded (minIntervalMs : Nat) (now : Int) (applied : List Bool) (s : Recovery α) : Recovery α :=
  let s := { s with reloading := false, lastReloadAt := some now, inFlight := s.inFlight - 1 }
  if s.disposed then s else drain minIntervalMs now applied s

def drop (m : Nat) (s : Recovery α) : Recovery α :=
  let s :=
    { s with
      buffer := s.buffer.filter fun e => e.messageId ≠ m
      owed := s.owed.filter fun o => o ≠ m
      since := .dropped m :: s.since }
  if s.buffer.isEmpty && s.owed.isEmpty then { s with misses := 0, retryTimer := false } else s

def dispose (s : Recovery α) : Recovery α := { s with disposed := true, retryTimer := false, buffer := [], owed := [] }

end Recovery

/-- What happens to a recovery, in any order and at any time: its calls, its timer, a reload that is over, in whatever way. -/
inductive RecoveryAct (α : Type*)
  | reconcile (now : Int) (messageId : Option Nat)
  | hold (now : Int) (e : HeldEvent α)
  | retry (now : Int)
  | reloaded (now : Int) (applied : List Bool)
  | drop (messageId : Nat)
  | dispose
  /-- The caller sets its cursors: a reload seeds them, an event that is not held advances one. -/
  | cursors (cursors : Cursors)

/-- One step. `none`: it cannot happen now. -/
def step (minIntervalMs : Nat) (s : Recovery α) : RecoveryAct α → Option (Recovery α)
  | .reconcile now messageId => some (s.reconcileFor minIntervalMs now messageId)
  | .hold now e => some (s.hold minIntervalMs now e)
  | .retry now => if s.retryTimer then some (Recovery.reconcile minIntervalMs now { s with retryTimer := false }) else none
  | .reloaded now applied => if 0 < s.inFlight then some (s.reloaded minIntervalMs now applied) else none
  | .drop m => some (s.drop m)
  | .dispose => some s.dispose
  | .cursors cursors => some { s with cursors := cursors }

/-- A reload is on its way, or will be. -/
def Moving (s : Recovery α) : Prop := 0 < s.inFlight ∨ s.retryTimer = true

/-- An event that was replayed was the one after what was applied, if it had a number. -/
def Follows (p : HeldEvent α × Int) : Prop := ∀ seq, p.1.seq = some seq → seq = p.2 + 1

/-- What holds of a recovery at any time. -/
structure Recovers (s : Recovery α) : Prop where
  /-- What is held, and what was asked for, for a reply that was not dropped since, is seen to. -/
  moving : s.disposed = false → (s.buffer ≠ [] ∨ ∃ m, Outstanding m s.since) → Moving s
  bounded : s.buffer.length ≤ MAX_GAP_BUFFER
  /-- What was replayed and what is still held came in this order, each once. -/
  ordered : (s.replayed.map Prod.fst ++ s.buffer).Sublist s.held
  contiguous : ∀ p ∈ s.replayed, Follows p

namespace RecoveryAux

variable {minIntervalMs : Nat} {now : Int} {s t : Recovery α}

/-! ### Replaying -/

/-- Each event is the one after what those before it leave applied. -/
def InTurn : Cursors → List (HeldEvent α) → Prop
  | _, [] => True
  | cursors, e :: rest => Follows (e, appliedSeq cursors e) ∧ InTurn (count e cursors) rest

theorem follows_of_apply {cursors : Cursors} {e : HeldEvent α} (h : classifyStreamEvent (appliedSeq cursors e) e.seq = .apply) :
    Follows (e, appliedSeq cursors e) := by
  intro seq hseq
  dsimp only at hseq ⊢
  rw [hseq, classifyStreamEvent] at h
  split_ifs at h with hle heq
  exact heq

theorem planGapDrain_spec (cursors : Cursors) (buffer : List (HeldEvent α)) :
    ((planGapDrain cursors buffer).1 ++ (planGapDrain cursors buffer).2).Sublist buffer ∧ InTurn cursors (planGapDrain cursors buffer).1 := by
  induction buffer generalizing cursors with
  | nil => exact ⟨.slnil, trivial⟩
  | cons e rest ih =>
    cases h : classifyStreamEvent (appliedSeq cursors e) e.seq with
    | ignore =>
      simp only [planGapDrain, h]
      exact ⟨(ih cursors).1.cons e, (ih cursors).2⟩
    | reconcile =>
      simp only [planGapDrain, h]
      exact ⟨List.Sublist.refl _, trivial⟩
    | apply =>
      simp only [planGapDrain, h, List.cons_append]
      exact ⟨(ih _).1.cons_cons e, follows_of_apply h, (ih _).2⟩

/-- What the loop leaves: the events up to one that could not be applied are replayed, the others are held again. -/
structure Replays (events : List (HeldEvent α)) (s t : Recovery α) : Prop where
  split : ∃ done rest, events = done ++ rest ∧ t.buffer = rest ++ s.buffer ∧
    t.replayed.map Prod.fst = s.replayed.map Prod.fst ++ done
  contiguous : InTurn s.cursors events → (∀ p ∈ s.replayed, Follows p) → ∀ p ∈ t.replayed, Follows p
  held : t.held = s.held
  owed : t.owed = s.owed
  since : t.since = s.since
  disposed : t.disposed = s.disposed
  reloading : t.reloading = s.reloading
  inFlight : t.inFlight = s.inFlight

theorem replay_spec (applied : List Bool) (events : List (HeldEvent α)) (s : Recovery α) : Replays events s (s.replay applied events) := by
  induction events generalizing applied s with
  | nil => exact ⟨⟨[], [], rfl, rfl, by simp [Recovery.replay]⟩, fun _ h => h, rfl, rfl, rfl, rfl, rfl, rfl⟩
  | cons e rest ih =>
    rw [Recovery.replay]
    split_ifs
    · obtain ⟨⟨done, left, hevents, hbuffer, hreplayed⟩, hcontiguous, hheld, howed, hsince, hdisposed, hreloading, hflight⟩ :=
        ih applied.tail { s with cursors := count e s.cursors, replayed := s.replayed ++ [(e, appliedSeq s.cursors e)] }
      refine ⟨⟨e :: done, left, by rw [hevents, List.cons_append], hbuffer, by simp [hreplayed]⟩, ?_, hheld, howed, hsince, hdisposed,
        hreloading, hflight⟩
      rintro ⟨hfirst, hrest⟩ hbefore
      refine hcontiguous hrest fun p hp => ?_
      rcases List.mem_append.mp hp with hp | hp
      · exact hbefore p hp
      · rw [List.mem_singleton.mp hp]
        exact hfirst
    · exact ⟨⟨[], e :: rest, rfl, rfl, by simp⟩, fun _ h => h, rfl, rfl, rfl, rfl, rfl, rfl⟩

/-! ### Starting a reload -/

/-- A reload is in flight just when the flag says so. -/
def Flights (s : Recovery α) : Prop := s.inFlight = if s.reloading then 1 else 0

/-- What is owed is what was asked for. -/
def Owes (s : Recovery α) : Prop := s.disposed = false → ∀ m, m ∈ s.owed ↔ Outstanding m s.since

/-- What is held or owed is seen to. -/
def Seen (s : Recovery α) : Prop := s.disposed = false → s.buffer ≠ [] ∨ s.owed ≠ [] → Moving s

/-- What was held, what of it was replayed and what is left. -/
structure Kept (s : Recovery α) : Prop where
  bounded : s.buffer.length ≤ MAX_GAP_BUFFER
  ordered : (s.replayed.map Prod.fst ++ s.buffer).Sublist s.held
  contiguous : ∀ p ∈ s.replayed, Follows p

theorem Kept.same (h : Kept s) (hbuffer : t.buffer = s.buffer) (hreplayed : t.replayed = s.replayed) (hheld : t.held = s.held) : Kept t :=
  ⟨by rw [hbuffer]; exact h.bounded, by rw [hreplayed, hbuffer, hheld]; exact h.ordered, by rw [hreplayed]; exact h.contiguous⟩

/-- All of it. -/
structure Sound (s : Recovery α) : Prop where
  flights : Flights s
  owes : Owes s
  seen : Seen s
  kept : Kept s

theorem sound_reconcile (hf : Flights s) (ho : Owes s) (hk : Kept s) : Sound (s.reconcile minIntervalMs now) := by
  simp only [Recovery.reconcile]
  split_ifs with hstop
  · refine ⟨hf, ho, fun hopen _ => ?_, hk⟩
    cases hreloading : s.reloading with
    | true =>
      rw [Flights, hreloading, if_pos rfl] at hf
      exact .inl (by omega)
    | false =>
      simp only [hopen, hreloading, Bool.false_or] at hstop
      exact .inr hstop
  · exact ⟨hf, ho, fun _ _ => .inr rfl, hk.same rfl rfl rfl⟩
  · simp only [Bool.or_eq_true, not_or, Bool.not_eq_true] at hstop
    have hzero : s.inFlight = 0 := by rw [hf, hstop.1.2, if_neg Bool.false_ne_true]
    refine ⟨by simp [Flights, hzero], fun _ m => ?_, fun _ _ => .inl (Nat.succ_pos _), hk.same rfl rfl rfl⟩
    simp [Outstanding]

/-! ### The steps -/

theorem sound_hold {e : HeldEvent α} (h : Sound s) : Sound (s.hold minIntervalMs now e) := by
  refine sound_reconcile h.flights h.owes ⟨?_, ?_, h.kept.contiguous⟩
  · dsimp only
    split_ifs with hfull
    · simp [MAX_GAP_BUFFER]
    · rw [List.length_append, List.length_singleton]
      omega
  · dsimp only
    split_ifs
    · exact ((List.sublist_append_left _ _).trans h.kept.ordered).append (List.Sublist.refl _)
    · rw [← List.append_assoc]
      exact h.kept.ordered.append (List.Sublist.refl _)

theorem sound_reconcileFor {messageId : Option Nat} (h : Sound s) : Sound (s.reconcileFor minIntervalMs now messageId) := by
  refine sound_reconcile h.flights (fun hopen m => ?_) (h.kept.same rfl rfl rfl)
  rw [List.mem_append, Outstanding, h.owes hopen m, Option.mem_toList]

theorem sound_drain {applied : List Bool} (hf : Flights s) (ho : Owes s) (hk : Kept s) : Sound (s.drain minIntervalMs now applied) := by
  obtain ⟨hplan, hturn⟩ := planGapDrain_spec s.cursors s.buffer
  obtain ⟨⟨done, rest, hevents, hbuffer, hreplayed⟩, hcontiguous, hheld, howed, hsince, hdisposed, hreloading, hflight⟩ :=
    replay_spec applied (planGapDrain s.cursors s.buffer).1 { s with buffer := (planGapDrain s.cursors s.buffer).2 }
  unfold Recovery.drain
  dsimp only
  generalize ({ s with buffer := (planGapDrain s.cursors s.buffer).2 } : Recovery α).replay applied
    (planGapDrain s.cursors s.buffer).1 = t at *
  have hf' : Flights t := by
    rw [Flights, hflight, hreloading]
    exact hf
  have ho' : Owes t := by
    rw [Owes, hdisposed, howed, hsince]
    exact ho
  have hleft : (done ++ t.buffer).Sublist s.buffer := by
    rw [hbuffer, ← List.append_assoc, ← hevents]
    exact hplan
  have hk' : Kept t := by
    refine ⟨?_, ?_, hcontiguous hturn hk.contiguous⟩
    · have hlen := hleft.length_le
      have hbounded := hk.bounded
      rw [List.length_append] at hlen
      omega
    · rw [hreplayed, hheld, List.append_assoc]
      exact (hleft.append_left _).trans hk.ordered
  split_ifs with hempty howes
  · refine ⟨hf', ho', fun _ hsome => ?_, hk'.same rfl rfl rfl⟩
    rcases hsome with hsome | hsome
    · exact absurd (List.isEmpty_iff.mp hempty) hsome
    · exact absurd (List.isEmpty_iff.mp howes) hsome
  · exact sound_reconcile hf' ho' (hk'.same rfl rfl rfl)
  · exact sound_reconcile hf' ho' (hk'.same rfl rfl rfl)

theorem sound_reloaded {applied : List Bool} (h : Sound s) : Sound (s.reloaded minIntervalMs now applied) := by
  have hf : Flights { s with reloading := false, lastReloadAt := some now, inFlight := s.inFlight - 1 } := by
    have hflights := h.flights
    unfold Flights at hflights ⊢
    dsimp only
    split_ifs at hflights <;> simp [hflights]
  unfold Recovery.reloaded
  dsimp only
  split_ifs with hdisposed
  · refine ⟨hf, h.owes, fun hopen _ => ?_, h.kept.same rfl rfl rfl⟩
    exact absurd hopen (by simp [hdisposed])
  · exact sound_drain hf h.owes (h.kept.same rfl rfl rfl)

theorem sound_drop {m : Nat} (h : Sound s) : Sound (s.drop m) := by
  have howes : Owes { s with
      buffer := s.buffer.filter fun e => e.messageId ≠ m
      owed := s.owed.filter fun o => o ≠ m
      since := .dropped m :: s.since } := by
    intro hopen m'
    have := h.owes hopen m'
    simp only [Outstanding, List.mem_filter, this, decide_eq_true_eq]
    rw [and_comm, ne_comm]
  have hkept : Kept { s with buffer := s.buffer.filter fun e => e.messageId ≠ m } := by
    refine ⟨List.length_filter_le _ _ |>.trans h.kept.bounded, ?_, h.kept.contiguous⟩
    exact (List.filter_sublist.append_left _).trans h.kept.ordered
  unfold Recovery.drop
  dsimp only
  split_ifs with hempty
  · rw [Bool.and_eq_true, List.isEmpty_iff, List.isEmpty_iff] at hempty
    refine ⟨h.flights, howes, fun _ hsome => ?_, hkept.same rfl rfl rfl⟩
    rcases hsome with hsome | hsome
    · exact absurd hempty.1 hsome
    · exact absurd hempty.2 hsome
  · refine ⟨h.flights, howes, fun hopen hsome => h.seen hopen ?_, hkept.same rfl rfl rfl⟩
    refine hsome.imp (fun hne hnil => hne ?_) fun hne hnil => hne ?_
    · simp [hnil]
    · simp [hnil]

theorem sound_dispose (h : Sound s) : Sound s.dispose := by
  refine ⟨h.flights, fun hopen => absurd hopen (by simp [Recovery.dispose]), fun hopen => absurd hopen (by simp [Recovery.dispose]),
    ⟨by simp [Recovery.dispose], ?_, h.kept.contiguous⟩⟩
  simp only [Recovery.dispose, List.append_nil]
  exact (List.sublist_append_left _ _).trans h.kept.ordered

theorem sound_step {a : RecoveryAct α} (h : Sound s) (hstep : step minIntervalMs s a = some t) : Sound t := by
  cases a with
  | reconcile now messageId =>
    cases hstep
    exact sound_reconcileFor h
  | hold now e =>
    cases hstep
    exact sound_hold h
  | retry now =>
    simp only [step] at hstep
    split_ifs at hstep
    cases hstep
    exact sound_reconcile h.flights h.owes (h.kept.same rfl rfl rfl)
  | reloaded now applied =>
    simp only [step] at hstep
    split_ifs at hstep
    cases hstep
    exact sound_reloaded h
  | drop m =>
    cases hstep
    exact sound_drop h
  | dispose =>
    cases hstep
    exact sound_dispose h
  | cursors cursors =>
    cases hstep
    exact ⟨h.flights, h.owes, h.seen, h.kept.same rfl rfl rfl⟩

theorem sound_init (cursors : Cursors) : Sound (createStreamRecovery cursors : Recovery α) where
  flights := rfl
  owes := fun _ m => by simp [createStreamRecovery, Outstanding]
  seen := fun _ h => by simp [createStreamRecovery] at h
  kept := ⟨Nat.zero_le _, List.Sublist.refl _, fun _ h => by simp [createStreamRecovery] at h⟩

theorem recovers_of_sound (h : Sound s) : Recovers s where
  moving := by
    intro hopen hsome
    refine h.seen hopen (hsome.imp_right ?_)
    rintro ⟨m, hm⟩ hnil
    have hmem := (h.owes hopen m).mpr hm
    rw [hnil] at hmem
    cases hmem
  bounded := h.kept.bounded
  ordered := h.kept.ordered
  contiguous := h.kept.contiguous

end RecoveryAux

open RecoveryAux in
/-- In whatever order things happen, what is held or asked for is seen to, until the reply it is for is dropped; no more is held than the
bound; and what is replayed is replayed in order, once, with nothing left out between. -/
theorem recovery_recovers (minIntervalMs : Nat) (cursors : Cursors) (s : Recovery α)
    (h : Steps.Reaches (step minIntervalMs) Steps.Free (createStreamRecovery cursors) s) : Recovers s :=
  recovers_of_sound (h.invariant (fun _ _ _ hx _ hstep => sound_step hx hstep) (sound_init cursors))

/-- A reload is asked for and is over; another is asked for within the spacing, and the end of the turn takes it away. -/
def withdrawn : List (RecoveryAct Unit) := [.reconcile 0 (some 1), .reloaded 10 [], .reconcile 20 (some 1), .drop 1]

/-- Events of a reply are held past a gap, the reload brings what was missing, and they are replayed. -/
theorem recovery_recovers_replayed : ∃ s : Recovery Unit,
    Recovers s ∧ s.replayed.map (fun p => p.1.seq) = [some 2, some 3] ∧ s.buffer = [] := by
  obtain ⟨s, hrun, hs⟩ := Steps.exists_of_exec (step (α := Unit) 250) (createStreamRecovery fun _ => none)
    [.hold 0 ⟨1, some 2, ()⟩, .hold 5 ⟨1, some 3, ()⟩, .cursors fun _ => some 1, .reloaded 200 [true, true]]
    (P := fun s => s.replayed.map (fun p => p.1.seq) = [some 2, some 3] ∧ s.buffer = []) (by decide +kernel)
  exact ⟨s, recovery_recovers 250 _ s hrun, hs⟩

/-- A reload was asked for since the last one was started, and none will be. -/
theorem asked_and_dropped : ¬∀ s : Recovery Unit,
    Steps.Reaches (step 250) Steps.Free (createStreamRecovery fun _ => none) s →
      s.disposed = false → (s.buffer ≠ [] ∨ ∃ m, .asked m ∈ s.since) → Moving s := by
  intro h
  obtain ⟨s, hrun, hopen, hasked, hflight, htimer⟩ := Steps.exists_of_exec (step 250) (createStreamRecovery fun _ => none) withdrawn
    (P := fun s => s.disposed = false ∧ .asked (some 1) ∈ s.since ∧ s.inFlight = 0 ∧ s.retryTimer = false) (by decide +kernel)
  rcases h s hrun hopen (.inr ⟨_, hasked⟩) with hmoving | hmoving
  · omega
  · simp [htimer] at hmoving

end StreamRecovery

end Capka

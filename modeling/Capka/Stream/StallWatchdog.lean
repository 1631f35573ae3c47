import Mathlib.Tactic.SplitIfs
import Capka.Lib.Steps

/-!
# The stall watchdog

An attempt that streams nothing for its window is stalled, unless a local tool is running. `StallWatchdog` counts the tools in flight and
has its timer armed only while it counts none. A tool that ends says so without saying which attempt it was of: one that an earlier attempt
began takes a tool of the current attempt off the count.
-/

namespace Capka

/-- The longest delay `setTimeout` keeps. -/
def TIMEOUT_MAX : Nat := 2147483647

/-- The delay of a timer: one outside the range is one millisecond. -/
def timeoutDelay (ms : Nat) : Nat := if 1 ≤ ms ∧ ms ≤ TIMEOUT_MAX then ms else 1

/-- `StallWatchdog`, with the time its timer is due at. -/
structure StallWatchdog where
  idleMs : Nat
  timer : Option Nat := none
  inFlight : Nat := 0
  stopped : Bool := true
  attemptMs : Nat
  deriving DecidableEq

namespace StallWatchdog

def clear (w : StallWatchdog) : StallWatchdog := { w with timer := none }

def rearm (w : StallWatchdog) (now : Nat) : StallWatchdog := { w.clear with timer := some (now + timeoutDelay w.attemptMs) }

def start (w : StallWatchdog) (now : Nat) (idleMs : Option Nat) : StallWatchdog :=
  { w with attemptMs := idleMs.getD w.idleMs, stopped := false, inFlight := 0 }.rearm now

def activity (w : StallWatchdog) (now : Nat) : StallWatchdog := if w.stopped || decide (0 < w.inFlight) then w else w.rearm now

def enterTool (w : StallWatchdog) : StallWatchdog := if w.stopped then w else { w with inFlight := w.inFlight + 1 }.clear

def exitTool (w : StallWatchdog) (now : Nat) : StallWatchdog :=
  if w.stopped then w
  else
    let w := if 0 < w.inFlight then { w with inFlight := w.inFlight - 1 } else w
    if w.inFlight = 0 then w.rearm now else w

def stop (w : StallWatchdog) : StallWatchdog := { w with stopped := true }.clear

@[simp] theorem rearm_stopped (w : StallWatchdog) (now : Nat) : (w.rearm now).stopped = w.stopped := rfl

@[simp] theorem rearm_inFlight (w : StallWatchdog) (now : Nat) : (w.rearm now).inFlight = w.inFlight := rfl

@[simp] theorem rearm_timer (w : StallWatchdog) (now : Nat) : (w.rearm now).timer.isSome = true := rfl

/-- What the timer runs, and whether it calls `onStall`. -/
def expire (w : StallWatchdog) : StallWatchdog × Bool :=
  let w := { w with timer := none }
  if w.stopped || decide (0 < w.inFlight) then (w, false) else ({ w with stopped := true }, true)

end StallWatchdog

/-- What happens to a watchdog: `enter` and `exit` are of the call they name, and `fire` is `onStall`. -/
inductive WatchEvent
  | start
  | enter (call : Nat)
  | exit (call : Nat)
  | stop
  | fire
  deriving Repr, DecidableEq

namespace WatchEvent

/-- The calls that run, of those entered since the latest start, after one more event. -/
def runningAfter (calls : List Nat) : WatchEvent → List Nat
  | .start => []
  | .enter call => calls ++ [call]
  | .exit call => calls.filter (· ≠ call)
  | .stop | .fire => calls

/-- The calls entered since the latest start that have not exited. -/
def running (log : List WatchEvent) : List Nat := log.foldl runningAfter []

/-- Whether there is a start with no stop and no stall since, after one more event. -/
def watchedAfter (watched : Bool) : WatchEvent → Bool
  | .start => true
  | .stop | .fire => false
  | .enter _ | .exit _ => watched

/-- There is a start, and since the latest one neither a stop nor a stall. -/
def watched (log : List WatchEvent) : Bool := log.foldl watchedAfter false

/-- Every stall has a start before it, since which nothing was stopped and nothing has stalled. -/
def StallsOnce (log : List WatchEvent) : Prop := ∀ before after, log = before ++ .fire :: after → watched before = true

/-- Every stall is at a time when no call entered since the latest start is running. -/
def StallsOutsideTools (log : List WatchEvent) : Prop := ∀ before after, log = before ++ .fire :: after → running before = []

end WatchEvent

open WatchEvent

/-- A watchdog, the clock, the number of calls that were entered, and what has happened. -/
structure Watch where
  dog : StallWatchdog
  now : Nat := 0
  entered : Nat := 0
  log : List WatchEvent := []
  deriving DecidableEq

/-- What can happen. A call may exit at any time, of whatever attempt it is; the timer may run late. -/
inductive WatchAct
  | start (idleMs : Option Nat)
  | activity
  | enterTool
  | exitTool (call : Nat)
  | stop
  | elapse (ms : Nat)
  | timeout
  deriving Repr, DecidableEq

namespace Watch

/-- `new StallWatchdog(idleMs, onStall)`. -/
def init (idleMs : Nat) : Watch := { dog := { idleMs := idleMs, attemptMs := idleMs } }

def step (s : Watch) : WatchAct → Option Watch
  | .start idleMs => some { s with dog := s.dog.start s.now idleMs, log := s.log ++ [.start] }
  | .activity => some { s with dog := s.dog.activity s.now }
  | .enterTool => some { s with dog := s.dog.enterTool, entered := s.entered + 1, log := s.log ++ [.enter s.entered] }
  | .exitTool call => some { s with dog := s.dog.exitTool s.now, log := s.log ++ [.exit call] }
  | .stop => some { s with dog := s.dog.stop, log := s.log ++ [.stop] }
  | .elapse ms => some { s with now := s.now + ms }
  | .timeout =>
    if s.dog.timer.any (· ≤ s.now) then
      some { s with dog := s.dog.expire.1, log := if s.dog.expire.2 then s.log ++ [.fire] else s.log }
    else none

/-- A call that exits while the watchdog is on was entered in the current attempt, or no call of the current attempt is running. -/
def NotLate (s : Watch) : WatchAct → Prop
  | .exitTool call => s.dog.stopped = false → running s.log = [] ∨ call ∈ running s.log
  | _ => True

instance (s : Watch) (a : WatchAct) : Decidable (s.NotLate a) := by
  cases a <;> unfold NotLate <;> infer_instance

end Watch

namespace WatchAux

variable {s t : Watch} {log : List WatchEvent} {e : WatchEvent} {call : Nat}

/-! ### One more event -/

@[simp] theorem running_snoc (log : List WatchEvent) (e : WatchEvent) : running (log ++ [e]) = runningAfter (running log) e := by
  simp [running]

@[simp] theorem watched_snoc (log : List WatchEvent) (e : WatchEvent) : watched (log ++ [e]) = watchedAfter (watched log) e := by
  simp [watched]

theorem fires_snoc {P : List WatchEvent → Prop} (h : ∀ before after, log = before ++ .fire :: after → P before) (he : e = .fire → P log) :
    ∀ before after, log ++ [e] = before ++ .fire :: after → P before := by
  intro before after heq
  rcases List.eq_nil_or_concat after with rfl | ⟨after, x, rfl⟩
  · obtain ⟨rfl, hfire⟩ := List.append_inj' heq rfl
    exact he (by simpa using hfire)
  · rw [List.concat_eq_append, ← List.cons_append, ← List.append_assoc] at heq
    exact h before after (List.append_inj' heq rfl).1

theorem length_exit {calls : List Nat} (hnodup : calls.Nodup) (hcall : call ∈ calls) :
    (calls.filter (· ≠ call)).length = calls.length - 1 := by
  have hfilter : calls.filter (· ≠ call) = calls.erase call := by
    rw [hnodup.erase_eq_filter]
    exact List.filter_congr fun other _ => by by_cases heq : other = call <;> simp [heq]
  rw [hfilter, List.length_erase_of_mem hcall]

/-! ### Every run -/

/-- What holds of a watchdog whatever exits: it is on as the log says, and its timer is armed only while it is on and counts no tool. -/
structure Sound (s : Watch) : Prop where
  on : watched s.log = !s.dog.stopped
  armed : s.dog.timer.isSome = true → s.dog.stopped = false ∧ s.dog.inFlight = 0
  once : StallsOnce s.log

theorem sound_init (idleMs : Nat) : Sound (.init idleMs) where
  on := rfl
  armed := by simp [Watch.init]
  once := by simp [StallsOnce, Watch.init]

theorem Sound.due (h : Sound s) (hdue : s.dog.timer.any (· ≤ s.now) = true) : s.dog.stopped = false ∧ s.dog.inFlight = 0 :=
  h.armed (by cases htimer : s.dog.timer <;> simp [htimer] at hdue ⊢)

theorem expire_due (hstopped : s.dog.stopped = false) (hcount : s.dog.inFlight = 0) :
    s.dog.expire = ({ s.dog with timer := none, stopped := true }, true) := by
  simp [StallWatchdog.expire, hstopped, hcount]

theorem sound_step {a : WatchAct} (h : Sound s) (hs : s.step a = some t) : Sound t := by
  cases a with
  | start idleMs =>
    obtain rfl := Option.some.inj hs
    exact ⟨by simp [watchedAfter, StallWatchdog.start, StallWatchdog.rearm, StallWatchdog.clear], fun _ => ⟨rfl, rfl⟩,
      fires_snoc h.once (by simp)⟩
  | activity =>
    obtain rfl := Option.some.inj hs
    unfold StallWatchdog.activity
    split_ifs with hoff
    · exact h
    · have hon : s.dog.stopped = false ∧ s.dog.inFlight = 0 := by simpa using hoff
      exact ⟨h.on, fun _ => hon, h.once⟩
  | enterTool =>
    obtain rfl := Option.some.inj hs
    refine ⟨?_, ?_, fires_snoc h.once (by simp)⟩
    · simp only [watched_snoc, watchedAfter, h.on, StallWatchdog.enterTool]
      split_ifs <;> rfl
    · simp only [StallWatchdog.enterTool]
      split_ifs with hoff
      · exact h.armed
      · simp [StallWatchdog.clear]
  | exitTool call =>
    obtain rfl := Option.some.inj hs
    refine ⟨?_, ?_, fires_snoc h.once (by simp)⟩
    · simp only [watched_snoc, watchedAfter, h.on, StallWatchdog.exitTool]
      split_ifs <;> rfl
    · simp only [StallWatchdog.exitTool]
      split_ifs with hoff hpos hzero hzero
      · exact h.armed
      · exact fun _ => ⟨by simpa using hoff, by simpa using hzero⟩
      · exact fun harmed => absurd (h.armed harmed).2 (by omega)
      · exact fun _ => ⟨by simpa using hoff, by simpa using hzero⟩
      · exact h.armed
  | stop =>
    obtain rfl := Option.some.inj hs
    exact ⟨by simp [watchedAfter, StallWatchdog.stop, StallWatchdog.clear], by simp [StallWatchdog.stop, StallWatchdog.clear],
      fires_snoc h.once (by simp)⟩
  | elapse ms =>
    obtain rfl := Option.some.inj hs
    exact ⟨h.on, h.armed, h.once⟩
  | timeout =>
    simp only [Watch.step, Option.ite_none_right_eq_some, Option.some.injEq] at hs
    obtain ⟨hdue, rfl⟩ := hs
    obtain ⟨hon, hcount⟩ := h.due hdue
    rw [expire_due hon hcount]
    exact ⟨by simp [watchedAfter], by simp, fires_snoc h.once fun _ => by rw [h.on, hon]; rfl⟩

/-! ### Runs without a late exit -/

/-- While the watchdog is on it counts the calls entered since the latest start that run. -/
structure Counted (s : Watch) : Prop where
  count : s.dog.stopped = false → s.dog.inFlight = (running s.log).length
  nodup : (running s.log).Nodup
  below : ∀ call ∈ running s.log, call < s.entered
  outside : StallsOutsideTools s.log

theorem counted_init (idleMs : Nat) : Counted (.init idleMs) where
  count := fun _ => rfl
  nodup := List.nodup_nil
  below := fun _ hcall => absurd hcall (List.not_mem_nil)
  outside := by simp [StallsOutsideTools, Watch.init]

theorem counted_enter (h : Counted s) (hs : s.step .enterTool = some t) : Counted t := by
  obtain rfl := Option.some.inj hs
  have hrunning : running (s.log ++ [.enter s.entered]) = running s.log ++ [s.entered] := running_snoc _ _
  refine ⟨?_, ?_, ?_, fires_snoc h.outside (by simp)⟩
  · intro hon
    simp only [StallWatchdog.enterTool] at hon ⊢
    split_ifs at hon ⊢ with hoff
    · rw [hoff] at hon
      cases hon
    · rw [hrunning, List.length_append, ← h.count (by simpa using hoff)]
      rfl
  · rw [hrunning, List.nodup_append]
    refine ⟨h.nodup, by simp, fun call hcall other hother => ?_⟩
    have hlt := h.below call hcall
    rw [List.mem_singleton.mp hother]
    omega
  · intro call hcall
    rw [hrunning, List.mem_append, List.mem_singleton] at hcall
    rcases hcall with hcall | rfl
    · exact Nat.lt_succ_of_lt (h.below call hcall)
    · exact Nat.lt_succ_self _

theorem exitTool_on (now : Nat) {w : StallWatchdog} (hon : w.stopped = false) :
    (w.exitTool now).stopped = false ∧ (w.exitTool now).inFlight = w.inFlight - 1 ∧
      (w.inFlight ≤ 1 → (w.exitTool now).timer.isSome = true) := by
  simp only [StallWatchdog.exitTool, hon, Bool.false_eq_true, if_false]
  split_ifs with hpos hzero hzero
  · simp
  · refine ⟨rfl, rfl, fun hle => ?_⟩
    simp only at hzero
    omega
  · simp [hon, hzero]
  · omega

theorem exitTool_stopped {now : Nat} {w : StallWatchdog} : (w.exitTool now).stopped = w.stopped := by
  cases hoff : w.stopped with
  | true => simp [StallWatchdog.exitTool, hoff]
  | false => exact (exitTool_on now hoff).1

theorem counted_exit (h : Counted s) (hcall : s.NotLate (.exitTool call)) (hs : s.step (.exitTool call) = some t) : Counted t := by
  obtain rfl := Option.some.inj hs
  have hrunning : running (s.log ++ [.exit call]) = (running s.log).filter (· ≠ call) := running_snoc _ _
  refine ⟨?_, ?_, ?_, fires_snoc h.outside (by simp)⟩
  · intro hon
    rw [exitTool_stopped] at hon
    rw [(exitTool_on s.now hon).2.1, hrunning, h.count hon]
    rcases hcall hon with hnil | hmem
    · simp [hnil]
    · rw [length_exit h.nodup hmem]
  · rw [hrunning]
    exact h.nodup.filter _
  · intro other hother
    rw [hrunning] at hother
    exact h.below other (List.mem_filter.mp hother).1

theorem counted_step {a : WatchAct} (hsound : Sound s) (h : Counted s) (ha : s.NotLate a) (hs : s.step a = some t) : Counted t := by
  cases a with
  | start idleMs =>
    obtain rfl := Option.some.inj hs
    have hrunning : running (s.log ++ [.start]) = [] := running_snoc _ _
    refine ⟨fun _ => ?_, ?_, ?_, fires_snoc h.outside (by simp)⟩
    · rw [hrunning]
      rfl
    · simp [hrunning]
    · simp [hrunning]
  | activity =>
    obtain rfl := Option.some.inj hs
    refine ⟨fun hon => ?_, h.nodup, h.below, h.outside⟩
    simp only [StallWatchdog.activity] at hon ⊢
    split_ifs at hon ⊢ with hoff
    · exact h.count hon
    · exact h.count hon
  | enterTool => exact counted_enter h hs
  | exitTool call => exact counted_exit h ha hs
  | stop =>
    obtain rfl := Option.some.inj hs
    have hrunning : running (s.log ++ [.stop]) = running s.log := running_snoc _ _
    refine ⟨fun hon => ?_, ?_, ?_, fires_snoc h.outside (by simp)⟩
    · cases hon
    · rw [hrunning]
      exact h.nodup
    · rw [hrunning]
      exact h.below
  | elapse ms =>
    obtain rfl := Option.some.inj hs
    exact ⟨h.count, h.nodup, h.below, h.outside⟩
  | timeout =>
    simp only [Watch.step, Option.ite_none_right_eq_some, Option.some.injEq] at hs
    obtain ⟨hdue, rfl⟩ := hs
    obtain ⟨hon, hcount⟩ := hsound.due hdue
    have hnone : running s.log = [] := List.eq_nil_of_length_eq_zero ((h.count hon).symm.trans hcount)
    have hrunning : running (s.log ++ [.fire]) = [] := (running_snoc _ _).trans hnone
    rw [expire_due hon hcount]
    refine ⟨fun hoff => ?_, ?_, ?_, fires_snoc h.outside fun _ => hnone⟩
    · cases hoff
    · simp [hrunning]
    · simp [hrunning]

/-! ### After a late exit -/

theorem fires_within {n : Nat} (hon : s.dog.stopped = false) (hcount : s.dog.inFlight = n) (hrunning : (running s.log).length = n + 1)
    (hnodup : (running s.log).Nodup) (harmed : n = 0 → s.dog.timer.isSome = true) :
    ∃ t, Steps.Reaches Watch.step Steps.Free s t ∧ ¬StallsOutsideTools t.log := by
  induction n generalizing s with
  | zero =>
    obtain ⟨due, hdue⟩ := Option.isSome_iff_exists.mp (harmed rfl)
    have hlater : (Watch.mk s.dog (s.now + due) s.entered s.log).step .timeout =
        some ⟨{ s.dog with timer := none, stopped := true }, s.now + due, s.entered, s.log ++ [.fire]⟩ := by
      simp [Watch.step, hdue, StallWatchdog.expire, hon, hcount]
    refine ⟨_, ((Steps.Reaches.refl s).snoc (a := .elapse due) trivial rfl).snoc trivial hlater, fun houtside => ?_⟩
    have hnone := houtside s.log [] rfl
    rw [hnone] at hrunning
    cases hrunning
  | succ n ih =>
    obtain ⟨call, rest, hcalls⟩ := List.exists_cons_of_length_eq_add_one hrunning
    have hmem : call ∈ running s.log := by simp [hcalls]
    obtain ⟨hon', hcount', htimer⟩ := exitTool_on s.now hon
    have hexit : running (s.log ++ [.exit call]) = (running s.log).filter (· ≠ call) := running_snoc _ _
    obtain ⟨t, hreach, ht⟩ := ih (s := { s with dog := s.dog.exitTool s.now, log := s.log ++ [.exit call] }) hon'
      (by rw [hcount', hcount, Nat.add_sub_cancel]) (by rw [hexit, length_exit hnodup hmem, hrunning, Nat.add_sub_cancel])
      (by rw [hexit]; exact hnodup.filter _) (fun hzero => htimer (by omega))
    exact ⟨t, ((Steps.Reaches.refl s).snoc (a := .exitTool call) trivial rfl).trans hreach, ht⟩

theorem fires_after_late (h : Counted s) (hlate : ¬s.NotLate (.exitTool call)) (hs : s.step (.exitTool call) = some t) :
    ∃ u, Steps.Reaches Watch.step Steps.Free t u ∧ ¬StallsOutsideTools u.log := by
  simp only [Watch.NotLate, Classical.not_imp, not_or] at hlate
  obtain ⟨hon, hsome, hcall⟩ := hlate
  obtain rfl := Option.some.inj hs
  have hpos := List.length_pos_iff.mpr hsome
  obtain ⟨hon', hcount, htimer⟩ := exitTool_on s.now hon
  rw [h.count hon] at hcount htimer
  have hrunning : running (s.log ++ [.exit call]) = running s.log := by
    rw [running_snoc]
    exact List.filter_eq_self.mpr fun other hother => decide_eq_true fun heq => hcall (heq ▸ hother)
  exact fires_within hon' hcount (by rw [hrunning]; omega) (by rw [hrunning]; exact h.nodup) (fun hzero => htimer (by omega))

/-! ### Runs -/

theorem sound_reaches {ok : Watch → WatchAct → Prop} {idleMs : Nat} (h : Steps.Reaches Watch.step ok (.init idleMs) s) : Sound s :=
  h.invariant (fun _ _ _ hx _ hs => sound_step hx hs) (sound_init idleMs)

theorem counted_reaches {idleMs : Nat} (h : Steps.Reaches Watch.step Watch.NotLate (.init idleMs) s) : Counted s := by
  have hboth : Sound s ∧ Counted s := by
    refine h.invariant (I := fun x => Sound x ∧ Counted x) ?_ ⟨sound_init idleMs, counted_init idleMs⟩
    intro x a y hx ha hs
    exact ⟨sound_step hx.1 hs, counted_step hx.1 hx.2 ha hs⟩
  exact hboth.2

end WatchAux

open WatchAux

/-- Whatever happens, a watchdog stalls at most once for each start and never once it is stopped. Where no call of an earlier attempt exits
while one of the current attempt is running, it stalls only while none is; and after the first that does so, it can stall while one is. -/
theorem watchdog_fires (idleMs : Nat) :
    (∀ s, Steps.Reaches Watch.step Steps.Free (.init idleMs) s → StallsOnce s.log) ∧
      (∀ s, Steps.Reaches Watch.step Watch.NotLate (.init idleMs) s → StallsOutsideTools s.log) ∧
        ∀ s t call, Steps.Reaches Watch.step Watch.NotLate (.init idleMs) s → ¬s.NotLate (.exitTool call) →
          s.step (.exitTool call) = some t → ∃ u, Steps.Reaches Watch.step Steps.Free t u ∧ ¬StallsOutsideTools u.log :=
  ⟨fun _ h => (sound_reaches h).once, fun _ h => (counted_reaches h).outside,
    fun _ _ _ h hlate hs => fires_after_late (counted_reaches h) hlate hs⟩

theorem watchdog_fires_false : ¬∀ idleMs s, Steps.Reaches Watch.step Steps.Free (.init idleMs) s →
    StallsOnce s.log ∧ StallsOutsideTools s.log := by
  intro h
  obtain ⟨s, hreach, hlog⟩ := Steps.exists_of_exec Watch.step (.init 1000)
    [.start none, .enterTool, .start none, .enterTool, .exitTool 0, .elapse 1000, .timeout]
    (P := fun s => s.log = [.start, .enter 0, .start, .enter 1, .exit 0] ++ [.fire]) (by decide)
  exact absurd ((h 1000 s hreach).2 _ [] hlog) (by decide)

end Capka

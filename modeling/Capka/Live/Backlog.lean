import Mathlib
import Capka.Lib.Steps
import Capka.Live.Lossless

/-!
# The pacer's count of what waits

The pacer counts the characters it holds: a delta adds its length, a piece shown takes its own away. A flush sets the count to zero and
then takes away each piece it hands on, so it leaves the count below what waits by what it handed on (`backlog_eq`); the count is exact
as long as no flush finds text. The timer is armed whenever something waits that is not held back.
-/

namespace Capka

namespace Live

variable {α : Type*}

/-- The characters of a queue. -/
def queuedLength (q : List (Paced α)) : Nat := (q.map fun d => d.delta.length).sum

/-- The pacer with its counter; for the record, what the last flush that found text handed on. -/
structure Metered (α : Type*) where
  run : PacerRun α
  backlog : Int
  flushed : Nat

/-- What happens to a pacer: what its caller and its timer do, or it is disposed of. -/
inductive MeteredAct (α : Type*)
  | pacer (a : PacerAct α)
  | dispose

namespace Metered

/-- `note` for each piece in turn, as far as the counter goes. -/
def noteAll (pieces : List (Paced α)) (backlog : Int) : Int := pieces.foldl (fun b d => b - d.delta.length) backlog

/-- A flush takes the counter to zero, then notes what it hands on. -/
def drain (s : Metered α) (r : PacerRun α) : Metered α :=
  if s.run.pacer.queue.isEmpty then { s with run := r }
  else { run := r, backlog := noteAll s.run.pacer.queue 0, flushed := queuedLength s.run.pacer.queue }

def dispose (s : Metered α) : Metered α where
  run := { s.run with pacer := { s.run.pacer with queue := [], held := false, timer := false } }
  backlog := 0
  flushed := 0

/-- A pacer nothing was given to. -/
def idle : Metered α := { run := .idle, backlog := 0, flushed := 0 }

/-- One event. -/
def step (L : Letters α) (s : Metered α) : MeteredAct α → Option (Metered α)
  | .pacer a =>
    (s.run.step L a).map fun r =>
      match a with
      | .enqueue d => { s with run := r, backlog := s.backlog + d.delta.length }
      | .tick chars =>
        { s with run := r, backlog := noteAll (release L s.run.pacer.queue chars s.run.pacer.runSinceWs).shown s.backlog }
      | .flush => s.drain r
      | .other _ => s.drain r
  | .dispose => some s.dispose

end Metered

namespace MeteredAux

@[simp] theorem queuedLength_nil : queuedLength ([] : List (Paced α)) = 0 := rfl

theorem length_queued (q : List (Paced α)) : (queued q).length = queuedLength q := by
  rw [queued, queuedLength, List.length_flatMap]
  simp only [Paced.atoms, List.length_map]

theorem queuedLength_enqueueTo (event : Paced α) (q : List (Paced α)) :
    queuedLength (enqueueTo event q) = queuedLength q + event.delta.length := by
  rw [← length_queued, queued_enqueueTo, List.length_append, length_queued, Paced.atoms, List.length_map]

theorem queuedLength_release (L : Letters α) (q : List (Paced α)) (budget runSinceWs : Nat) :
    queuedLength (release L q budget runSinceWs).shown + queuedLength (release L q budget runSinceWs).queue = queuedLength q := by
  rw [← length_queued, ← length_queued, ← List.length_append, release_queued, length_queued]

theorem noteAll_eq (pieces : List (Paced α)) (backlog : Int) : Metered.noteAll pieces backlog = backlog - queuedLength pieces := by
  induction pieces generalizing backlog with
  | nil => simp [Metered.noteAll]
  | cons d pieces ih =>
    change Metered.noteAll pieces (backlog - d.delta.length) = _
    rw [ih, queuedLength, queuedLength, List.map_cons, List.sum_cons]
    push_cast
    omega

/-- The counter is what waits less what the last flush handed on; the timer runs while something waits that is not held back. -/
structure Counted (s : Metered α) : Prop where
  count : s.backlog = queuedLength s.run.pacer.queue - s.flushed
  armed : s.run.pacer.queue ≠ [] → s.run.pacer.held = false → s.run.pacer.timer = true

theorem counted_drain {s : Metered α} {r : PacerRun α} (hs : Counted s) (hr : r.pacer.queue = []) : Counted (s.drain r) := by
  unfold Metered.drain
  split
  · rename_i hempty
    have hnil : s.run.pacer.queue = [] := List.isEmpty_iff.mp hempty
    have hcount := hs.count
    rw [hnil] at hcount
    exact ⟨by rw [hcount, hr], fun h => absurd hr h⟩
  · refine ⟨?_, fun h => absurd hr h⟩
    dsimp only
    rw [noteAll_eq, hr, queuedLength_nil]
    omega

theorem counted_step {L : Letters α} {s t : Metered α} {a : MeteredAct α} (hs : Counted s) (h : s.step L a = some t) : Counted t := by
  cases a with
  | dispose =>
    cases h
    exact ⟨rfl, fun h => absurd rfl h⟩
  | pacer a =>
    cases a with
    | enqueue d =>
      cases h
      refine ⟨?_, fun _ _ => rfl⟩
      have hcount := hs.count
      dsimp only [Pacer.enqueue]
      rw [queuedLength_enqueueTo]
      push_cast
      omega
    | tick chars =>
      simp only [Metered.step, PacerRun.step] at h
      split at h
      · cases h
        have hcount := hs.count
        have hrelease := queuedLength_release L s.run.pacer.queue chars s.run.pacer.runSinceWs
        refine ⟨?_, fun hne hheld => ?_⟩
        · dsimp only [PacerRun.tick]
          rw [noteAll_eq]
          omega
        · dsimp only [PacerRun.tick] at hne hheld ⊢
          rw [hheld, Bool.not_false, Bool.and_true, Bool.not_eq_true', List.isEmpty_eq_false_iff]
          exact hne
      · cases h
    | flush =>
      cases h
      exact counted_drain hs rfl
    | other event =>
      cases h
      exact counted_drain hs rfl

theorem counted_of_reaches {L : Letters α} {ok : Metered α → MeteredAct α → Prop} {s : Metered α}
    (h : Steps.Reaches (Metered.step L) ok Metered.idle s) : Counted s :=
  h.invariant (fun _ _ _ hx _ hy => counted_step hx hy) ⟨rfl, fun h => absurd rfl h⟩

end MeteredAux

open MeteredAux

/-- No flush, and no event that flushes first, finds text. -/
def Metered.Unflushed (s : Metered α) : MeteredAct α → Prop
  | .pacer .flush => queuedLength s.run.pacer.queue = 0
  | .pacer (.other _) => queuedLength s.run.pacer.queue = 0
  | _ => True

instance (s : Metered α) (a : MeteredAct α) : Decidable (s.Unflushed a) :=
  match a with
  | .pacer .flush => inferInstanceAs (Decidable (queuedLength s.run.pacer.queue = 0))
  | .pacer (.other _) => inferInstanceAs (Decidable (queuedLength s.run.pacer.queue = 0))
  | .pacer (.enqueue _) => inferInstanceAs (Decidable True)
  | .pacer (.tick _) => inferInstanceAs (Decidable True)
  | .dispose => inferInstanceAs (Decidable True)

theorem MeteredAux.flushed_step {L : Letters α} {s t : Metered α} {a : MeteredAct α} (hs : s.flushed = 0) (hok : s.Unflushed a)
    (h : s.step L a = some t) : t.flushed = 0 := by
  have hdrain {r : PacerRun α} (hzero : queuedLength s.run.pacer.queue = 0) : (s.drain r).flushed = 0 := by
    unfold Metered.drain
    split
    · exact hs
    · exact hzero
  cases a with
  | dispose =>
    cases h
    rfl
  | pacer a =>
    cases a with
    | enqueue d =>
      cases h
      exact hs
    | tick chars =>
      simp only [Metered.step, PacerRun.step] at h
      split at h
      · cases h
        exact hs
      · cases h
    | flush =>
      cases h
      exact hdrain hok
    | other event =>
      cases h
      exact hdrain hok

/-- The counter says what waits, and the timer runs while something waits that is not held back. -/
structure Metered.Exact (s : Metered α) : Prop where
  count : s.backlog = queuedLength s.run.pacer.queue
  armed : s.run.pacer.queue ≠ [] → s.run.pacer.held = false → s.run.pacer.timer = true

/-- In every run in which no flush finds text, the counter is exact and the timer is armed. -/
theorem exact_of_unflushed (L : Letters α) (s : Metered α) :
    Steps.Reaches (Metered.step L) Metered.Unflushed Metered.idle s → s.Exact := by
  intro h
  have hflushed : s.flushed = 0 := h.invariant (fun _ _ _ hx hok hy => flushed_step hx hok hy) rfl
  obtain ⟨hcount, harmed⟩ := counted_of_reaches h
  refine ⟨?_, harmed⟩
  rw [hcount, hflushed]
  simp

namespace BacklogRun

/-- A delta of the one part of the runs. -/
def delta (seq : Nat) (text : List UInt16) : Paced UInt16 := ⟨0, 0, seq, .text, text⟩

/-- Two deltas, a tick that shows the first word, a further delta. -/
def paced : List (MeteredAct UInt16) :=
  [.pacer (.enqueue (delta 0 [0x61, 0x20, 0x62])), .pacer (.enqueue (delta 1 [0x63, 0x20])), .pacer (.tick 2),
    .pacer (.enqueue (delta 2 [0x64]))]

end BacklogRun

/-- The counter after a word was shown and a delta came. -/
theorem exact_of_unflushed_paced : ∃ s : Metered UInt16, s.Exact ∧ s.backlog = 4 := by
  obtain ⟨s, hs, hcount⟩ := Steps.exists_of_execOk (Metered.step codeUnits) Metered.Unflushed Metered.idle BacklogRun.paced
    (P := fun s : Metered UInt16 => s.backlog = 4) (by decide)
  exact ⟨s, exact_of_unflushed codeUnits s hs, hcount⟩

/-- After a flush that hands on a word the counter is below zero, with nothing waiting. -/
theorem exact_false :
    ¬∀ s : Metered UInt16, Steps.Reaches (Metered.step codeUnits) Steps.Free Metered.idle s → s.Exact := by
  intro h
  obtain ⟨s, hs, hcount, hqueue⟩ := Steps.exists_of_exec (Metered.step codeUnits) Metered.idle
    [.pacer (.enqueue (BacklogRun.delta 0 [0x61, 0x62])), .pacer .flush]
    (P := fun s : Metered UInt16 => s.backlog = -2 ∧ queuedLength s.run.pacer.queue = 0) (by decide)
  have hexact := (h s hs).count
  rw [hcount, hqueue] at hexact
  cases hexact

end Live

end Capka

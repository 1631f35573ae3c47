import Capka.Lib.Steps
import Capka.Stream.Flush

/-!
# Which snapshots a client can resume from

A snapshot stores all the text so far and counts, in its number, the runs that are buffered but not yet published. That is
right while nothing more joins those runs: a token that arrives after the snapshot and before the flush is published under a
number the snapshot already covers, and a client that adopted the snapshot never applies it (`resume_covers_false`). When
every token joins a run no snapshot covers, every snapshot is a sound place to resume from (`resume_covers`).
-/

namespace Capka

namespace Stream

open StreamState

namespace CoverageAux

/-- What the published events still owe a client of the snapshot: the buffered run, when its number is above the snapshot. -/
def pending (s : StreamState) (snap : Snapshot) (type : RunType) : List Char :=
  if snap.streamSeq < publishNo s type then s.buf type else []

variable {s : StreamState}

theorem pending_of_buf_nil {type : RunType} (h : s.buf type = []) (snap : Snapshot) :
    pending s snap type = [] := by
  simp [pending, h]

theorem pending_congr {t : StreamState} (hp : t.phase = s.phase) (hq : t.seq = s.seq) (hr : t.reasonBuf = s.reasonBuf)
    (ht : t.textBuf = s.textBuf) (snap : Snapshot) (type : RunType) : pending t snap type = pending s snap type := by
  have hno : publishNo t type = publishNo s type := by
    cases type <;> simp only [publishNo, hp, hq, hr, ht]
  have hbuf : t.buf type = s.buf type := by
    cases type <;> simp only [buf, hr, ht]
  unfold pending
  rw [hno, hbuf]

/-- The invariant of a stream numbered from `start`: each snapshot's client, with what is still pending for it, holds every
character of the reply. -/
structure Covering (start : Nat) (s : StreamState) : Prop where
  numbered : Numbered start s.published
  seq_eq : s.seq = start + s.published.length
  floor : ∀ snap ∈ s.rows, start ≤ snap.streamSeq
  ceiling : ∀ snap ∈ s.rows, snap.streamSeq ≤ s.snapSeq
  balanced : ∀ snap ∈ s.rows, ∀ type,
    runText type (resumeFrom snap s.published) ++ pending s snap type = runText type s.parts

theorem covering_start (parts : List ReplyPart) (seq : Nat) : Covering seq (StreamState.start parts seq) := by
  refine ⟨rfl, rfl, ?_, ?_, ?_⟩
  · intro snap hsnap
    cases List.mem_singleton.mp hsnap
    exact Nat.le_refl _
  · intro snap hsnap
    cases List.mem_singleton.mp hsnap
    exact Nat.le_refl _
  · intro snap hsnap type
    cases List.mem_singleton.mp hsnap
    have hbuf : (StreamState.start parts seq).buf type = [] := by cases type <;> rfl
    rw [pending_of_buf_nil hbuf, List.append_nil]
    rfl

theorem runText_resumeFrom_publish (s : StreamState) (e : StreamEvent) (snap : Snapshot) (type : RunType) :
    runText type (resumeFrom snap (publish e s).published) =
      runText type (resumeFrom snap s.published) ++ if snap.streamSeq < s.seq + 1 then eventText type e else [] := by
  simp only [publish, resumeFrom_snoc]
  split
  · exact runText_applyEvent type _ e
  · simp

variable {start : Nat}

theorem numbered_publish (hn : Numbered start s.published)
    (hs : s.seq = start + s.published.length) (e : StreamEvent) :
    Numbered start (publish e s).published ∧ (publish e s).seq = start + (publish e s).published.length := by
  refine ⟨?_, ?_⟩
  · simp only [publish, hs]
    exact hn.snoc e
  · simp only [publish, List.length_append, List.length_singleton, hs]
    omega

theorem runs_le_append (b d : List Char) : runs b ≤ runs (b ++ d) := by
  unfold runs
  cases b <;> simp

theorem covering_reasoningDelta (h : Covering start s) (text : List Char)
    (hok : text = [] ∨ Uncovered s .reasoning) : Covering start (onReasoningDelta text s) := by
  refine ⟨h.numbered, h.seq_eq, h.floor, ?_, ?_⟩
  · intro snap hsnap
    have hle := h.ceiling snap hsnap
    have hmono := runs_le_append s.reasonBuf text
    simp only [snapSeq, onReasoningDelta] at hle ⊢
    omega
  · intro snap hsnap type
    have hbal := h.balanced snap hsnap type
    rcases hok with rfl | hok
    · have hsame := pending_congr (t := onReasoningDelta [] s) (s := s) rfl rfl (List.append_nil _) rfl snap type
      rw [hsame]
      simpa [onReasoningDelta, appendReasoning, runText_appendRun] using hbal
    · have hlt := hok snap hsnap
      cases type with
      | reasoning =>
        simp only [pending, hlt, if_true] at hbal
        have hlt' : snap.streamSeq < publishNo (onReasoningDelta text s) .reasoning := hlt
        simp only [pending, hlt', if_true]
        simp only [onReasoningDelta, appendReasoning, runText_appendRun, buf, if_true, ← hbal, List.append_assoc]
      | text =>
        -- Opening a reasoning run moves the text run's number up by one; the snapshot is below it before and after.
        have hsame : pending (onReasoningDelta text s) snap .text = pending s snap .text := by
          have hmono := runs_le_append s.reasonBuf text
          simp only [publishNo] at hlt
          by_cases hp : s.phase = .afterReasoning
          · simp only [pending, publishNo, onReasoningDelta, hp, if_true, buf]
          · simp only [hp, if_false] at hlt
            simp only [pending, publishNo, onReasoningDelta, hp, if_false, buf]
            rw [if_pos (by omega), if_pos (by omega)]
        rw [hsame]
        simpa [onReasoningDelta, appendReasoning, runText_appendRun] using hbal

theorem covering_textDelta (h : Covering start s) (text : List Char)
    (hok : text = [] ∨ Uncovered s .text) : Covering start (onTextDelta text s) := by
  unfold onTextDelta
  split
  · exact h
  · rename_i hne
    have hfresh : Uncovered s .text := hok.resolve_left hne
    refine ⟨h.numbered, h.seq_eq, h.floor, ?_, ?_⟩
    · intro snap hsnap
      have hle := h.ceiling snap hsnap
      have hmono := runs_le_append s.textBuf text
      simp only [snapSeq] at hle ⊢
      omega
    · intro snap hsnap type
      have hbal := h.balanced snap hsnap type
      have hlt := hfresh snap hsnap
      cases type with
      | text =>
        simp only [pending, hlt, if_true] at hbal
        have hlt' : snap.streamSeq <
            publishNo { s with parts := appendText text s.parts, textBuf := s.textBuf ++ text } .text := hlt
        simp only [pending, hlt', if_true]
        simp only [appendText, runText_appendRun, buf, if_true, ← hbal, List.append_assoc]
      | reasoning =>
        have hsame : pending { s with parts := appendText text s.parts, textBuf := s.textBuf ++ text } snap .reasoning =
            pending s snap .reasoning := by
          have hmono := runs_le_append s.textBuf text
          simp only [publishNo] at hlt
          by_cases hp : s.phase = .afterReasoning
          · simp only [hp, if_true] at hlt
            simp only [pending, publishNo, hp, if_true, buf]
            rw [if_pos (by omega), if_pos (by omega)]
          · simp only [pending, publishNo, hp, if_false, buf]
        rw [hsame]
        simpa [appendText, runText_appendRun] using hbal

theorem covering_flushReasoning (h : Covering start s) (hp : s.phase = .idle) :
    Covering start ((flushReasoning s).toPhase .afterReasoning) := by
  unfold flushReasoning
  split
  · rename_i hnil
    refine ⟨h.numbered, h.seq_eq, h.floor, h.ceiling, ?_⟩
    intro snap hsnap type
    have hbal := h.balanced snap hsnap type
    cases type <;> simpa [pending, publishNo, buf, hp, hnil] using hbal
  · rename_i hne
    obtain ⟨hnum, hseq⟩ := numbered_publish (s := { s with reasonBuf := [] }) h.numbered h.seq_eq
      (.delta .reasoning s.reasonBuf)
    refine ⟨hnum, hseq, h.floor, ?_, ?_⟩
    · intro snap hsnap
      have hle := h.ceiling snap hsnap
      simp only [snapSeq, runs_of_ne_nil hne] at hle
      simp only [snapSeq, toPhase, publish, runs_nil]
      omega
    · intro snap hsnap type
      have hbal := h.balanced snap hsnap type
      have hres := runText_resumeFrom_publish { s with reasonBuf := [] } (.delta .reasoning s.reasonBuf) snap type
      simp only [toPhase_published, toPhase_parts] at hres ⊢
      rw [hres]
      cases type with
      | reasoning => simpa [pending, publishNo, buf, publish, eventText, hp] using hbal
      | text => simpa [pending, publishNo, buf, publish, eventText, hp, runs_of_ne_nil hne] using hbal

theorem covering_flushText (h : Covering start s) (hp : s.phase = .afterReasoning) :
    Covering start ((flushText s).toPhase .afterText) := by
  unfold flushText
  split
  · rename_i hnil
    refine ⟨h.numbered, h.seq_eq, h.floor, h.ceiling, ?_⟩
    intro snap hsnap type
    have hbal := h.balanced snap hsnap type
    cases type <;> simpa [pending, publishNo, buf, hp, hnil] using hbal
  · rename_i hne
    obtain ⟨hnum, hseq⟩ := numbered_publish (s := { s with textBuf := [] }) h.numbered h.seq_eq (.delta .text s.textBuf)
    refine ⟨hnum, hseq, h.floor, ?_, ?_⟩
    · intro snap hsnap
      have hle := h.ceiling snap hsnap
      simp only [snapSeq, runs_of_ne_nil hne] at hle
      simp only [snapSeq, toPhase, publish, runs_nil]
      omega
    · intro snap hsnap type
      have hbal := h.balanced snap hsnap type
      have hres := runText_resumeFrom_publish { s with textBuf := [] } (.delta .text s.textBuf) snap type
      simp only [toPhase_published, toPhase_parts] at hres ⊢
      rw [hres]
      cases type with
      | text => simpa [pending, publishNo, buf, publish, eventText, hp] using hbal
      | reasoning => simpa [pending, publishNo, buf, publish, eventText, hp, runs_of_ne_nil hne] using hbal

theorem pending_idle (hp : s.phase = .afterText) (snap : Snapshot) (type : RunType) :
    pending (s.toPhase .idle) snap type = pending s snap type := by
  cases type <;> simp [pending, publishNo, buf, hp]

theorem covering_skipSnapshot (h : Covering start s) (hp : s.phase = .afterText) :
    Covering start (s.toPhase .idle) := by
  refine ⟨h.numbered, h.seq_eq, h.floor, h.ceiling, ?_⟩
  intro snap hsnap type
  rw [pending_idle hp]
  exact h.balanced snap hsnap type

theorem pending_own_snapshot (hp : s.phase = .afterText) (parts : List ReplyPart) (type : RunType) :
    pending s { parts := parts, streamSeq := s.snapSeq } type = [] := by
  unfold pending
  split
  · rename_i hlt
    by_cases hb : s.buf type = []
    · exact hb
    · have hone := runs_of_ne_nil hb
      cases type <;> simp only [buf] at hone <;> simp [publishNo, snapSeq, hp] at hlt <;> omega
  · rfl

theorem covering_saveSnapshot (h : Covering start s) (hp : s.phase = .afterText) :
    Covering start ((saveSnapshot s).toPhase .idle) := by
  have hrows : ∀ snap ∈ (saveSnapshot s).rows, snap ∈ s.rows ∨ snap = { parts := s.parts, streamSeq := s.snapSeq } := by
    intro snap hsnap
    simpa [toPhase, saveSnapshot] using hsnap
  have hseq := h.seq_eq
  refine ⟨h.numbered, h.seq_eq, ?_, ?_, ?_⟩
  · intro snap hsnap
    rcases hrows snap hsnap with hold | rfl
    · exact h.floor snap hold
    · simp only [snapSeq]
      omega
  · intro snap hsnap
    rcases hrows snap hsnap with hold | rfl
    · exact h.ceiling snap hold
    · exact Nat.le_refl _
  · intro snap hsnap type
    have hpend : pending ((saveSnapshot s).toPhase .idle) snap type = pending s snap type := pending_idle hp snap type
    rw [hpend]
    rcases hrows snap hsnap with hold | rfl
    · exact h.balanced snap hold type
    · have hall : ∀ e ∈ s.published, e.1 ≤ s.snapSeq := by
        intro e he
        have := h.numbered.le he
        simp only [snapSeq]
        omega
      simp only [toPhase, saveSnapshot, pending_own_snapshot hp, List.append_nil]
      rw [resumeFrom_covered _ _ hall]

theorem covering_toolEvent (h : Covering start s) (hd : s.Drained) (e : ToolEvent) :
    Covering start (onToolEvent e s) := by
  obtain ⟨hr, ht⟩ := hd
  obtain ⟨hnum, hseq⟩ := numbered_publish (s := { s with parts := s.parts ++ toolParts e }) h.numbered h.seq_eq (.tool e)
  refine ⟨hnum, hseq, h.floor, ?_, ?_⟩
  · intro snap hsnap
    have hle := h.ceiling snap hsnap
    simp only [snapSeq, onToolEvent, publish, hr, ht, runs_nil] at hle ⊢
    omega
  · intro snap hsnap type
    have hbal := h.balanced snap hsnap type
    have hres := runText_resumeFrom_publish { s with parts := s.parts ++ toolParts e } (.tool e) snap type
    have hempty : ∀ s' : StreamState, s'.reasonBuf = [] → s'.textBuf = [] → pending s' snap type = [] := by
      intro s' hr' ht'
      cases type <;> simp [pending, buf, hr', ht']
    have hparts : runText type (s.parts ++ toolParts e) = runText type s.parts := by
      cases e <;> simp [toolParts]
    rw [hempty s hr ht, List.append_nil] at hbal
    rw [hempty (onToolEvent e s) hr ht, List.append_nil]
    simp only [onToolEvent] at hres ⊢
    rw [hres]
    simp only [eventText, ite_self, List.append_nil, publish]
    rw [hparts, hbal]

theorem covering_step {t : StreamState} {a : StreamAction} (h : Covering start s)
    (hok : TokensUncovered s a) (hstep : step s a = some t) : Covering start t := by
  cases a with
  | reasoningDelta text =>
    cases hstep
    exact covering_reasoningDelta h text hok
  | textDelta text =>
    cases hstep
    exact covering_textDelta h text hok
  | flushReasoning =>
    simp only [step, Option.ite_none_right_eq_some, Option.some.injEq] at hstep
    obtain ⟨hp, rfl⟩ := hstep
    exact covering_flushReasoning h hp
  | flushText =>
    simp only [step, Option.ite_none_right_eq_some, Option.some.injEq] at hstep
    obtain ⟨hp, rfl⟩ := hstep
    exact covering_flushText h hp
  | saveSnapshot =>
    simp only [step, Option.ite_none_right_eq_some, Option.some.injEq] at hstep
    obtain ⟨hp, rfl⟩ := hstep
    exact covering_saveSnapshot h hp
  | skipSnapshot =>
    simp only [step, Option.ite_none_right_eq_some, Option.some.injEq] at hstep
    obtain ⟨hp, rfl⟩ := hstep
    exact covering_skipSnapshot h hp
  | toolEvent e =>
    simp only [step, Option.ite_none_right_eq_some, Option.some.injEq] at hstep
    obtain ⟨hd, rfl⟩ := hstep
    exact covering_toolEvent h hd e

/-! ### One flush publishes everything that has arrived -/

@[simp] theorem flushReasoning_parts (s : StreamState) : (flushReasoning s).parts = s.parts := by
  unfold flushReasoning
  split <;> rfl

@[simp] theorem flushReasoning_rows (s : StreamState) : (flushReasoning s).rows = s.rows := by
  unfold flushReasoning
  split <;> rfl

@[simp] theorem flushReasoning_reasonBuf (s : StreamState) : (flushReasoning s).reasonBuf = [] := by
  unfold flushReasoning
  split
  · assumption
  · rfl

@[simp] theorem flushText_parts (s : StreamState) : (flushText s).parts = s.parts := by
  unfold flushText
  split <;> rfl

@[simp] theorem flushText_rows (s : StreamState) : (flushText s).rows = s.rows := by
  unfold flushText
  split <;> rfl

@[simp] theorem flushText_reasonBuf (s : StreamState) : (flushText s).reasonBuf = s.reasonBuf := by
  unfold flushText
  split <;> rfl

@[simp] theorem flushText_textBuf (s : StreamState) : (flushText s).textBuf = [] := by
  unfold flushText
  split
  · assumption
  · rfl

/-- A run in which no token arrives and no snapshot lands, to a state where everything that had arrived is published. -/
def Drains (s : StreamState) : Prop :=
  ∃ t, Steps.Reaches step TokensUncovered s t ∧ t.Drained ∧ t.parts = s.parts ∧ t.rows = s.rows

theorem drains_idle (hp : s.phase = .idle) : Drains s := by
  have h₁ : step s .flushReasoning = some ((flushReasoning s).toPhase .afterReasoning) := if_pos hp
  have h₂ : step ((flushReasoning s).toPhase .afterReasoning) .flushText =
      some ((flushText ((flushReasoning s).toPhase .afterReasoning)).toPhase .afterText) := by
    simp [step]
  have hrun : Steps.Reaches step TokensUncovered s
      ((flushText ((flushReasoning s).toPhase .afterReasoning)).toPhase .afterText) :=
    ((Steps.Reaches.refl s).snoc (a := .flushReasoning) trivial h₁).snoc (a := .flushText) trivial h₂
  refine ⟨_, hrun, ⟨?_, ?_⟩, ?_, ?_⟩ <;> simp [toPhase]

theorem drains_afterText (hp : s.phase = .afterText) : Drains s := by
  have h₁ : step s .skipSnapshot = some (s.toPhase .idle) := if_pos hp
  obtain ⟨t, ht, hd, hparts, hrows⟩ := drains_idle (s := (s.toPhase .idle)) rfl
  exact ⟨t, ((Steps.Reaches.refl s).snoc (a := .skipSnapshot) trivial h₁).trans ht, hd, hparts, hrows⟩

end CoverageAux

open CoverageAux

theorem covering_of_reaches {parts : List ReplyPart} {seq : Nat} {s : StreamState}
    (h : Steps.Reaches step TokensUncovered (StreamState.start parts seq) s) : Covering seq s :=
  h.invariant (fun _ _ _ hx hok hy => covering_step hx hok hy) (covering_start parts seq)

/-- Whatever the state, the runner can publish everything that has arrived, without another token or snapshot. -/
theorem drains (s : StreamState) :
    ∃ t, Steps.Reaches step TokensUncovered s t ∧ t.Drained ∧ t.parts = s.parts ∧ t.rows = s.rows := by
  cases hp : s.phase with
  | idle => exact drains_idle hp
  | afterText => exact drains_afterText hp
  | afterReasoning =>
    have h₁ : step s .flushText = some ((flushText s).toPhase .afterText) := if_pos hp
    obtain ⟨t, ht, hd, hparts, hrows⟩ := drains_afterText (s := ((flushText s).toPhase .afterText)) rfl
    exact ⟨t, ((Steps.Reaches.refl s).snoc (a := .flushText) trivial h₁).trans ht, hd, by simpa [toPhase] using hparts,
      by simpa [toPhase] using hrows⟩

/-- Snapshot coverage. In every run whose tokens each join a run that no snapshot covers yet, once what arrived has been
published, a client that adopts any snapshot the row has held and applies exactly the events numbered above it holds every
character of the text and of the reasoning, once and in order; and the client that classifies the events by its cursor meets
no gap and holds the same copy. -/
theorem resume_covers (parts : List ReplyPart) (seq : Nat) (s : StreamState)
    (h : Steps.Reaches step TokensUncovered (StreamState.start parts seq) s) (hd : s.Drained)
    (snap : Snapshot) (hsnap : snap ∈ s.rows) (type : RunType) :
    runText type (resumeFrom snap s.published) = runText type s.parts ∧
      (follow snap s.published).map (·.parts) = some (resumeFrom snap s.published) := by
  have hc := covering_of_reaches h
  refine ⟨?_, ?_⟩
  · have hbal := hc.balanced snap hsnap type
    have hbuf : s.buf type = [] := by
      cases type with
      | reasoning => exact hd.1
      | text => exact hd.2
    rwa [pending_of_buf_nil hbuf, List.append_nil] at hbal
  · rw [follow_eq_resumeFrom snap hc.numbered (hc.floor snap hsnap)]
    rfl

/-- A turn in which a snapshot is taken over two buffered runs, nothing joins them before they are published, and the answer
goes on after a tool call. -/
def coveredRun : List StreamAction :=
  [.reasoningDelta ['h'], .flushReasoning, .textDelta ['a'], .flushText, .reasoningDelta ['m'], .textDelta ['b'],
    .saveSnapshot, .flushReasoning, .flushText, .skipSnapshot, .toolEvent (.toolCall 7), .textDelta ['c'],
    .flushReasoning, .flushText, .saveSnapshot]

/-- The snapshot that counted both buffered runs. -/
def countedSnapshot : Snapshot where
  parts := [.run .reasoning ['h'], .run .text ['a'], .run .reasoning ['m'], .run .text ['b']]
  streamSeq := 4

/-- The state it ends in: two snapshots beside the row it began on. -/
def coveredState : StreamState where
  parts := [.run .reasoning ['h'], .run .text ['a'], .run .reasoning ['m'], .run .text ['b'], .toolCall 7, .run .text ['c']]
  textBuf := []
  reasonBuf := []
  seq := 6
  phase := .idle
  published := [(1, .delta .reasoning ['h']), (2, .delta .text ['a']), (3, .delta .reasoning ['m']),
    (4, .delta .text ['b']), (5, .tool (.toolCall 7)), (6, .delta .text ['c'])]
  rows := [{ parts := [], streamSeq := 0 }, countedSnapshot,
    { parts := [.run .reasoning ['h'], .run .text ['a'], .run .reasoning ['m'], .run .text ['b'], .toolCall 7,
        .run .text ['c']], streamSeq := 6 }]

/-- The snapshot that counted both buffered runs is a sound place to resume that turn from. -/
theorem resume_covers_coveredRun :
    runText .text (resumeFrom countedSnapshot coveredState.published) = ['a', 'b', 'c'] :=
  have hrun : Steps.execOk step TokensUncovered (StreamState.start [] 0) coveredRun = some coveredState := by decide
  (resume_covers [] 0 coveredState (Steps.reaches_of_execOk hrun) (by decide) countedSnapshot (by decide) .text).1

/-! ## Why the condition is needed -/

/-- A token arrives while the NOTIFY of the first delta is awaited, the snapshot counts its run, and another token joins the
run before it is published. -/
def lateToken : List StreamAction :=
  [.textDelta ['a'], .flushReasoning, .flushText, .textDelta ['b'], .saveSnapshot, .textDelta ['c'], .flushReasoning,
    .flushText, .skipSnapshot]

/-- The state it ends in. -/
def lateState : StreamState where
  parts := [.run .text ['a', 'b', 'c']]
  textBuf := []
  reasonBuf := []
  seq := 2
  phase := .idle
  published := [(1, .delta .text ['a']), (2, .delta .text ['b', 'c'])]
  rows := [{ parts := [], streamSeq := 0 }, { parts := [.run .text ['a', 'b']], streamSeq := 2 }]

/-- Without the condition, coverage fails: the snapshot holds `ab` under number 2, the last delta `bc` is published under
number 2, and a client that adopts the snapshot never gets the `c`. -/
theorem resume_covers_false :
    ¬∀ (parts : List ReplyPart) (seq : Nat) (s : StreamState),
      Steps.Reaches step Steps.Free (StreamState.start parts seq) s → s.Drained →
        ∀ snap ∈ s.rows, ∀ type, runText type (resumeFrom snap s.published) = runText type s.parts := by
  intro hall
  have hrun : Steps.exec step (StreamState.start [] 0) lateToken = some lateState := by decide
  have hlost := hall [] 0 lateState (Steps.reaches_of_exec hrun) (by decide)
    { parts := [.run .text ['a', 'b']], streamSeq := 2 } (by decide) .text
  revert hlost
  decide

end Stream

end Capka

import Capka.Decisions.System

/-!
# Decisions stay on the row

A decision writes the whole metadata it read, under a guard that some call of its kind still waits. That loses nothing as long as
the row is still as it was read and no run is writing it (`Undisturbed`). Then the verdicts on the row only grow: a run
writes at least what it loaded, and no decision goes on record between a run's load and its terminal write.
-/

namespace Capka

namespace DecisionState

/-- The update of a decision would be made: the reply is the chat's leaf, the guard matches, and its continuation is created (or
none is needed). -/
def Applies (R : Reply) (s : DecisionState) (d : DecisionStmt) : Prop :=
  s.leaf = R.messageId ∧ Decision.guard d.verdict s.metadata = true ∧
    (d.failure = none → (insertQueued (continuation R d.taskId) s.tasks).isSome)

/-- No run is at work on the reply. -/
def Idle (R : Reply) (s : DecisionState) : Prop := ∀ r ∈ s.tasks, r.writesReply R → r.status ≠ .running

/-- The branches that go wrong are not taken: a decision is applied to the row as it was read and while no run writes it, the
notification after its commit goes through, and no turn absorbs a continuation. -/
def Undisturbed (R : Reply) (s : DecisionState) : DecisionAct → Prop
  | .commit sid => ∀ d ∈ s.decisions, d.sid = sid → d.phase = .admitted → s.Applies R d → s.metadata = d.read ∧ s.Idle R
  | .finish sid notified => ∀ d ∈ s.decisions, d.sid = sid → d.phase = .committed → d.failure = none → notified = true
  | .absorbQueuedTasks exceptId => ∀ r ∈ s.tasks, r.absorbed R.chatId exceptId → r.writesReply R = false
  | _ => True

/-- The first run that loaded the reply with a decision on it: the one that acts on it. -/
def actor (runs : List ReplyRun) (d : Recorded) : Option Nat :=
  (runs.find? (fun run => decide (DecidedAt run.loaded d.index d.verdict))).map ReplyRun.taskId

/-- The continuation of a decision is still to start. -/
def ToStart (R : Reply) (s : DecisionState) (taskId : Nat) : Prop :=
  ∃ r ∈ s.tasks, r.id = taskId ∧ r.writesReply R ∧ ¬r.status.terminal ∧ ∀ run ∈ s.runs, run.taskId ≠ taskId

/-- What the claim promises of a state. -/
structure Upheld (R : Reply) (s : DecisionState) : Prop where
  once : (s.log.map Recorded.index).Nodup
  kept : ∀ d ∈ s.log, DecidedAt s.metadata.partList d.index d.verdict
  acted : ∀ d ∈ s.log, ∀ taskId, d.taskId = some taskId →
    actor s.runs d = some taskId ∨ (actor s.runs d = none ∧ s.ToStart R taskId)
  answered : ∀ a ∈ s.answers, a.answer = .applied → ∃ d ∈ s.log, d.sid = a.sid ∧ d.taskId = some a.taskId
  refused : ∀ a ∈ s.answers, a.answer.refused → (∀ d ∈ s.log, d.sid ≠ a.sid) ∧ a.taskId ∉ s.holds ∧ ∀ r ∈ s.tasks, r.id ≠ a.taskId

/-- The decision a step belongs to. -/
def request : DecisionAct → Option Nat
  | .read sid _ _ _ => some sid
  | .admitted sid _ => some sid
  | .commit sid => some sid
  | .throwInTx sid => some sid
  | .finish sid _ => some sid
  | _ => none

/-- A step of a decision that does not put it on record writes neither the row nor the queue, and no hold but its own. -/
def WritesOnRecord (s : DecisionState) (a : DecisionAct) (t : DecisionState) : Prop :=
  ∀ sid, request a = some sid →
    (∃ d, d.sid = sid ∧ t.log = s.log ++ [d]) ∨
      (t.metadata = s.metadata ∧ t.tasks = s.tasks ∧ t.log = s.log ∧
        ∀ id, (∀ d ∈ s.decisions, d.sid = sid → id ≠ d.taskId) → (id ∈ t.holds ↔ id ∈ s.holds))

/-- What holds of the row, the runs and the tasks. -/
structure RowInv (R : Reply) (s : DecisionState) : Prop where
  waiting : ∀ d ∈ s.decisions, ∃ p, d.read.partList[d.index]? = some p ∧ d.verdict.pending p = true
  once : (s.log.map Recorded.index).Nodup
  kept : ∀ d ∈ s.log, DecidedAt s.metadata.partList d.index d.verdict
  loadedKept : ∀ run ∈ s.runs, ∀ i v, DecidedAt run.loaded i v → DecidedAt s.metadata.partList i v
  liveLog : ∀ run ∈ s.runs, run.live → ∀ d ∈ s.log, DecidedAt run.loaded d.index d.verdict
  liveRuns : ∀ run ∈ s.runs, run.live → ∀ run' ∈ s.runs, ∀ i v, DecidedAt run'.loaded i v → DecidedAt run.loaded i v
  writerChat : ∀ r ∈ s.tasks, r.writesReply R → r.chatId = R.chatId
  oneWriter : ∀ r ∈ s.tasks, ∀ r' ∈ s.tasks, r.writesReply R → r'.writesReply R → ¬r.status.terminal → ¬r'.status.terminal → r = r'
  runTask : ∀ run ∈ s.runs, ∃ r ∈ s.tasks, r.id = run.taskId ∧ r.writesReply R ∧ (run.live → r.status = .running) ∧
    (run.live = false → r.status.terminal)
  acted : ∀ d ∈ s.log, ∀ taskId, d.taskId = some taskId →
    actor s.runs d = some taskId ∨ (actor s.runs d = none ∧ s.ToStart R taskId)

namespace SingleAux

/-! ### Steps that leave the log and the runs alone -/

/-- A write of the task table that keeps the reply's writers: none is gone, none is new, and none changes but from queued to
running. -/
structure KeepsWriters (R : Reply) (T T' : Tasks) : Prop where
  forth : ∀ r ∈ T, r.writesReply R → ∃ r' ∈ T', r'.id = r.id ∧ r'.writesReply R ∧ (r.status ≠ .queued → r'.status = r.status) ∧
    (¬r.status.terminal → ¬r'.status.terminal)
  back : ∀ r' ∈ T', r'.writesReply R → ∃ r ∈ T, r.id = r'.id ∧ r.writesReply R ∧ r.chatId = r'.chatId ∧
    (¬r'.status.terminal → ¬r.status.terminal)

theorem KeepsWriters.refl (R : Reply) (T : Tasks) : KeepsWriters R T T :=
  ⟨fun r hr hw => ⟨r, hr, rfl, hw, fun _ => rfl, id⟩, fun r hr hw => ⟨r, hr, rfl, hw, rfl, id⟩⟩

variable {R : Reply} {s t : DecisionState}

theorem rowInv_of_kept (hI : RowInv R s) (hlog : t.log = s.log) (hruns : t.runs = s.runs)
    (hstmts : ∀ d ∈ t.decisions, ∃ p, d.read.partList[d.index]? = some p ∧ d.verdict.pending p = true)
    (hT : KeepsWriters R s.tasks t.tasks)
    (hM : ∀ i v, DecidedAt s.metadata.partList i v → DecidedAt t.metadata.partList i v) : RowInv R t := by
  constructor
  · exact hstmts
  · rw [hlog]
    exact hI.once
  · rw [hlog]
    exact fun d hd => hM _ _ (hI.kept d hd)
  · rw [hruns]
    exact fun run hrun i v h => hM _ _ (hI.loadedKept run hrun i v h)
  · rw [hlog, hruns]
    exact hI.liveLog
  · rw [hruns]
    exact hI.liveRuns
  · intro r hr hw
    obtain ⟨r₀, hr₀, _, hw₀, hch, _⟩ := hT.back r hr hw
    rw [← hch]
    exact hI.writerChat r₀ hr₀ hw₀
  · intro r hr r' hr' hw hw' hn hn'
    obtain ⟨r₀, hr₀, hid, hw₀, _, hn₀⟩ := hT.back r hr hw
    obtain ⟨r₁, hr₁, hid', hw₁, _, hn₁⟩ := hT.back r' hr' hw'
    have heq := hI.oneWriter r₀ hr₀ r₁ hr₁ hw₀ hw₁ (hn₀ hn) (hn₁ hn')
    exact Table.eq_of_key hr hr' (by rw [← hid, ← hid', heq])
  · rw [hruns]
    intro run hrun
    obtain ⟨r, hr, hid, hw, hlive, hdead⟩ := hI.runTask run hrun
    obtain ⟨r', hr', hid', hw', hst, _⟩ := hT.forth r hr hw
    refine ⟨r', hr', hid'.trans hid, hw', ?_, ?_⟩
    · intro hl
      rw [hst (by rw [hlive hl]; simp), hlive hl]
    · intro hd
      have hterm := hdead hd
      rw [hst (by intro hq; rw [hq] at hterm; nomatch hterm)]
      exact hterm
  · rw [hlog, hruns]
    intro d hd taskId hT'
    rcases hI.acted d hd taskId hT' with hact | ⟨hnone, r, hr, hid, hw, hn, hfresh⟩
    · exact .inl hact
    · obtain ⟨r', hr', hid', hw', _, hn'⟩ := hT.forth r hr hw
      refine .inr ⟨hnone, r', hr', hid'.trans hid, hw', hn' hn, ?_⟩
      rw [hruns]
      exact hfresh

variable {T : Tasks}

theorem keepsWriters_map {f : TaskRow → TaskRow} (hf : ∀ r, (f r).id = r.id)
    (hresume : ∀ r, (f r).resumeMessageId = r.resumeMessageId) (hchat : ∀ r, (f r).chatId = r.chatId)
    (h : ∀ r ∈ T, r.writesReply R → f r = r ∨ (r.status = .queued ∧ (f r).status = .running)) :
    KeepsWriters R T (T.map f hf) := by
  have hwrites : ∀ r, (f r).writesReply R = r.writesReply R := by
    intro r
    simp only [TaskRow.writesReply, hf, hresume]
  constructor
  · intro r hr hw
    refine ⟨f r, Table.mem_map.mpr ⟨r, hr, rfl⟩, hf r, (hwrites r).trans hw, ?_, ?_⟩
    · intro hq
      rcases h r hr hw with heq | ⟨hq', _⟩
      · rw [heq]
      · exact absurd hq' hq
    · intro hn
      rcases h r hr hw with heq | ⟨_, hrun⟩
      · rwa [heq]
      · rw [hrun]
        intro h
        cases h
  · intro r' hr' hw
    obtain ⟨r, hr, rfl⟩ := Table.mem_map.mp hr'
    rw [hwrites] at hw
    refine ⟨r, hr, (hf r).symm, hw, (hchat r).symm, ?_⟩
    intro hn
    rcases h r hr hw with heq | ⟨hq, _⟩
    · rwa [← heq]
    · rw [hq]
      intro h
      cases h

theorem keepsWriters_modify {k : Nat} {f : TaskRow → TaskRow} (hf : ∀ r, (f r).id = r.id)
    (hresume : ∀ r, (f r).resumeMessageId = r.resumeMessageId) (hchat : ∀ r, (f r).chatId = r.chatId)
    (h : ∀ r ∈ T, r.writesReply R → f r = r ∨ (r.status = .queued ∧ (f r).status = .running)) :
    KeepsWriters R T (T.modify k f hf) := by
  refine keepsWriters_map _ ?_ ?_ ?_
  · intro r
    split
    · exact hresume r
    · rfl
  · intro r
    split
    · exact hchat r
    · rfl
  · intro r hr hw
    split
    · exact h r hr hw
    · exact .inl rfl

theorem keepsWriters_filter {p : TaskRow → Bool}
    (h : ∀ r ∈ T, r.writesReply R → p r = true) : KeepsWriters R T (T.filter p) := by
  constructor
  · intro r hr hw
    exact ⟨r, Table.mem_filter.mpr ⟨hr, h r hr hw⟩, rfl, hw, fun _ => rfl, id⟩
  · intro r hr hw
    exact ⟨r, (Table.mem_filter.mp hr).1, rfl, hw, rfl, id⟩

theorem keepsWriters_insertQueued {T' : Tasks} {r : TaskRow} (hw : r.writesReply R = false)
    (h : insertQueued r T = some T') : KeepsWriters R T T' := by
  constructor
  · intro r' hr' hw'
    exact ⟨r', (mem_of_insertQueued h).1.mpr (.inl hr'), rfl, hw', fun _ => rfl, id⟩
  · intro r' hr' hw'
    rcases (mem_of_insertQueued h).1.mp hr' with hr' | rfl
    · exact ⟨r', hr', rfl, hw', rfl, id⟩
    · rw [hw] at hw'
      cases hw'

/-! ### The decisions in flight -/

/-- Every decision in flight found a waiting call in what it read. -/
def Waiting (D : Table DecisionStmt DecisionStmt.sid) : Prop :=
  ∀ d ∈ D, ∃ p, d.read.partList[d.index]? = some p ∧ d.verdict.pending p = true

variable {sid : Nat}

theorem mem_advance {phase : DecisionPhase} {failure : Option TurnFailure} {d : DecisionStmt}
    (hd : d ∈ (s.advance sid phase failure).decisions) :
    (∃ d₀ ∈ s.decisions, d₀.sid = sid ∧ d = inPhase phase failure d₀) ∨ (d ∈ s.decisions ∧ d.sid ≠ sid) := by
  have hd' : d ∈ s.decisions.modify sid (inPhase phase failure) (inPhase_sid phase failure) := hd
  rwa [Table.mem_modify] at hd'

theorem waiting_advance (h : Waiting s.decisions) (sid : Nat) (phase : DecisionPhase)
    (failure : Option TurnFailure) : Waiting (s.advance sid phase failure).decisions := by
  intro d hd
  rcases mem_advance hd with ⟨d₀, hd₀, _, rfl⟩ | ⟨hd, _⟩
  · exact h d₀ hd₀
  · exact h d hd

theorem waiting_reply (h : Waiting s.decisions) (d : DecisionStmt) (answer : DecisionAnswer) :
    Waiting (s.reply d answer).decisions := fun d' hd' => h d' (Table.mem_erase.mp hd').1

theorem rowInv_of_books (hI : RowInv R s) (hlog : t.log = s.log) (hruns : t.runs = s.runs)
    (hW : Waiting t.decisions) (hT : t.tasks = s.tasks) (hM : t.metadata = s.metadata) : RowInv R t := by
  refine rowInv_of_kept hI hlog hruns hW ?_ ?_
  · rw [hT]
    exact .refl R s.tasks
  · rw [hM]
    exact fun _ _ h => h

variable {taskId : Nat}

theorem rowInv_read {userId : Nat} {d : Decision} (hI : RowInv R s)
    (h : s.read R sid userId d taskId = some t) : RowInv R t := by
  simp only [DecisionState.read, Option.ite_none_left_eq_some] at h
  obtain ⟨_, h⟩ := h
  split at h
  · cases h
    exact rowInv_of_books hI rfl rfl hI.waiting rfl rfl
  · split at h
    · cases h
      exact rowInv_of_books hI rfl rfl hI.waiting rfl rfl
    · rename_i index hfind
      obtain ⟨D, hD, rfl⟩ := Option.map_eq_some_iff.mp h
      refine rowInv_of_books hI rfl rfl ?_ rfl rfl
      intro d' hd'
      rcases (Table.mem_of_insert hD).mp hd' with hd' | rfl
      · exact hI.waiting d' hd'
      · exact DecidedAux.pending_of_find hfind

theorem rowInv_admitted {a : Admission} (hI : RowInv R s)
    (h : s.admitted sid a = some t) : RowInv R t := by
  simp only [admitted, Option.bind_eq_some_iff, Option.ite_none_right_eq_some] at h
  obtain ⟨d, _, _, h⟩ := h
  cases a with
  | limited | threw | overBudget =>
    cases h
    exact rowInv_of_books hI rfl rfl (waiting_reply hI.waiting d _) rfl rfl
  | unresolved failure | reserved =>
    cases h
    exact rowInv_of_books hI rfl rfl (waiting_advance hI.waiting sid _ _) rfl rfl

theorem rowInv_throwInTx (hI : RowInv R s) (h : s.throwInTx sid = some t) :
    RowInv R t := by
  simp only [throwInTx, Option.bind_eq_some_iff, Option.ite_none_right_eq_some, Option.some.injEq] at h
  obtain ⟨d, _, _, rfl⟩ := h
  exact rowInv_of_books hI rfl rfl (waiting_advance hI.waiting sid _ _) rfl rfl

theorem rowInv_finish {notified : Bool} (hI : RowInv R s)
    (h : s.finish sid notified = some t) : RowInv R t := by
  simp only [finish, Option.bind_eq_some_iff] at h
  obtain ⟨d, _, h⟩ := h
  split at h
  · cases h
  · cases h
  · rename_i answer _
    cases h
    exact rowInv_of_books hI rfl rfl (waiting_reply hI.waiting d answer) rfl rfl
  · split at h
    · cases h
      exact rowInv_of_books hI rfl rfl (waiting_reply hI.waiting d _) rfl rfl
    · cases h
      exact rowInv_of_books hI rfl rfl (waiting_reply hI.waiting d _) rfl rfl

theorem commit_cases (h : s.commit R sid = some t) :
    ∃ d ∈ s.decisions, d.sid = sid ∧ d.phase = .admitted ∧
      ((∃ answer, answer.refused = true ∧ t = s.advance sid (.rolledBack answer) d.failure) ∨
        (s.Applies R d ∧ (d.failure.isSome ∧ t = s.record d none ∨
          d.failure = none ∧ ∃ T, insertQueued (continuation R d.taskId) s.tasks = some T ∧
            t = { s.record d (some d.taskId) with tasks := T }))) := by
  simp only [commit, Option.bind_eq_some_iff, Option.ite_none_right_eq_some] at h
  obtain ⟨d, hd, hphase, h⟩ := h
  obtain ⟨hmem, hsid⟩ := Table.get_eq_some_iff.mp hd
  refine ⟨d, hmem, hsid, hphase, ?_⟩
  split at h
  · cases h
    exact .inl ⟨.gone, rfl, rfl⟩
  · rename_i hguard
    simp only [not_or, ne_eq, Decidable.not_not, Bool.not_eq_false] at hguard
    split at h
    · rename_i f hf
      cases h
      refine .inr ⟨⟨hguard.1, hguard.2, ?_⟩, .inl ⟨by rw [hf]; rfl, rfl⟩⟩
      rw [hf]
      intro h
      cases h
    · rename_i hf
      split at h
      · cases h
        exact .inl ⟨.busy, rfl, rfl⟩
      · rename_i T hT
        cases h
        exact .inr ⟨⟨hguard.1, hguard.2, fun _ => by rw [hT]; rfl⟩, .inr ⟨hf, T, hT, rfl⟩⟩

variable {run : ReplyRun}

theorem not_live_of_idle (hI : RowInv R s) (hidle : s.Idle R)
    (hrun : run ∈ s.runs) : run.live = false := by
  obtain ⟨r, hr, _, hw, hlive, _⟩ := hI.runTask run hrun
  cases hl : run.live with
  | false => rfl
  | true => exact absurd (hlive hl) (hidle r hr hw)

/-- A decision that goes on record: on the row as it was read, with no run at work on it. `hnew` is about its continuation. -/
theorem rowInv_record {d : DecisionStmt} {e : Recorded} (hI : RowInv R s)
    (hd : d ∈ s.decisions) (hread : s.metadata = d.read) (hidle : s.Idle R) (he : e.index = d.index ∧ e.verdict = d.verdict)
    (hlog : t.log = s.log ++ [e]) (hruns : t.runs = s.runs)
    (hmeta : t.metadata = Decision.write d.verdict d.index d.failure d.read) (hW : Waiting t.decisions)
    (hold : ∀ r ∈ s.tasks, r ∈ t.tasks)
    (hback : ∀ r ∈ t.tasks, r ∈ s.tasks ∨ (r.chatId = R.chatId ∧ r.status = .queued ∧ e.taskId = some r.id ∧
      ∀ r' ∈ s.tasks, r'.id ≠ r.id ∧ ¬(r'.status = .queued ∧ r'.chatId = R.chatId)))
    (hnew : ∀ taskId, e.taskId = some taskId → ∃ r ∈ t.tasks, r.id = taskId ∧ r.writesReply R ∧ r.status = .queued ∧
      ∀ r' ∈ s.tasks, r'.id ≠ taskId) : RowInv R t := by
  obtain ⟨p, hp, hpend⟩ := hI.waiting d hd
  obtain ⟨hself, hothers⟩ := DecidedAux.decidedAt_write d.failure hp hpend
  rw [← hmeta] at hself hothers
  rw [← hread] at hothers hp
  have hundecided : ∀ v, ¬DecidedAt s.metadata.partList d.index v := fun v => DecidedAux.not_decidedAt_of_pending hp hpend
  constructor
  · exact hW
  · rw [hlog, List.map_append, List.nodup_append]
    refine ⟨hI.once, List.nodup_singleton _, ?_⟩
    intro i hi j hj hij
    obtain ⟨d', hd', rfl⟩ := List.mem_map.mp hi
    rw [List.map_singleton, List.mem_singleton] at hj
    subst hj
    have hk := hI.kept d' hd'
    rw [hij, he.1] at hk
    exact hundecided _ hk
  · intro d' hd'
    rw [hlog, List.mem_append, List.mem_singleton] at hd'
    rcases hd' with hd' | rfl
    · exact hothers _ _ (hI.kept d' hd')
    · rw [he.1, he.2]
      exact hself
  · rw [hruns]
    exact fun run hrun i v h => hothers i v (hI.loadedKept run hrun i v h)
  · rw [hruns]
    intro run hrun hl
    rw [not_live_of_idle hI hidle hrun] at hl
    cases hl
  · rw [hruns]
    exact hI.liveRuns
  · intro r hr hw
    rcases hback r hr with hr | ⟨hch, _⟩
    · exact hI.writerChat r hr hw
    · exact hch
  · intro r hr r' hr' hw hw' hn hn'
    -- A writer of before that is not finished is queued, and then the insert found the slot taken.
    have hqueued : ∀ q ∈ s.tasks, q.writesReply R → ¬q.status.terminal → q.status = .queued ∧ q.chatId = R.chatId := by
      intro q hq hqw hqn
      refine ⟨?_, hI.writerChat q hq hqw⟩
      have hrun := hidle q hq hqw
      cases hst : q.status with
      | queued => rfl
      | running => exact absurd hst hrun
      | completed | failed | cancelled => exact absurd (by rw [hst]; rfl) hqn
    rcases hback r hr with hr | ⟨_, _, hid, hfree⟩ <;> rcases hback r' hr' with hr' | ⟨_, _, hid', hfree'⟩
    · exact hI.oneWriter r hr r' hr' hw hw' hn hn'
    · exact absurd (hqueued r hr hw hn) (hfree' r hr).2
    · exact absurd (hqueued r' hr' hw' hn') (hfree r' hr').2
    · rw [hid] at hid'
      exact Table.eq_of_key hr hr' (Option.some.inj hid')
  · rw [hruns]
    intro run hrun
    obtain ⟨r, hr, hrest⟩ := hI.runTask run hrun
    exact ⟨r, hold r hr, hrest⟩
  · rw [hlog, hruns]
    intro d' hd' taskId hT
    rw [List.mem_append, List.mem_singleton] at hd'
    rcases hd' with hd' | rfl
    · rcases hI.acted d' hd' taskId hT with hact | ⟨hnone, r, hr, hrest⟩
      · exact .inl hact
      · refine .inr ⟨hnone, r, hold r hr, ?_⟩
        rw [hruns]
        exact hrest
    · obtain ⟨r, hr, hid, hw, hq, hfresh⟩ := hnew taskId hT
      refine .inr ⟨?_, r, hr, hid, hw, by rw [hq]; nofun, ?_⟩
      · unfold actor
        rw [Option.map_eq_none_iff, List.find?_eq_none]
        intro run hrun hdec
        rw [he.1] at hdec
        exact hundecided _ (hI.loadedKept run hrun _ _ (of_decide_eq_true hdec))
      · rw [hruns]
        intro run hrun heq
        obtain ⟨r', hr', hid', _⟩ := hI.runTask run hrun
        exact hfresh r' hr' (hid'.trans heq)

theorem rowInv_commit (hI : RowInv R s) (hok : Undisturbed R s (.commit sid))
    (h : s.commit R sid = some t) : RowInv R t := by
  obtain ⟨d, hd, hsid, hphase, ⟨answer, _, rfl⟩ | ⟨happ, hcase⟩⟩ := commit_cases h
  · exact rowInv_of_books hI rfl rfl (waiting_advance hI.waiting sid _ _) rfl rfl
  obtain ⟨hread, hidle⟩ := hok d hd hsid hphase happ
  rcases hcase with ⟨_, rfl⟩ | ⟨_, T, hT, rfl⟩
  · exact rowInv_record hI hd hread hidle (e := ⟨d.sid, d.index, d.verdict, none⟩) ⟨rfl, rfl⟩ rfl rfl rfl
      (waiting_advance hI.waiting _ _ _) (fun r hr => hr) (fun r hr => .inl hr) nofun
  · have hmem := fun r => (mem_of_insertQueued (x := r) hT).1
    have hslot := (mem_of_insertQueued (x := continuation R d.taskId) hT).2
    have hfree : ∀ r' ∈ s.tasks, r'.id ≠ d.taskId := by
      unfold insertQueued at hT
      rw [Option.ite_none_right_eq_some] at hT
      exact Table.key_ne_of_insert hT.2
    refine rowInv_record hI hd hread hidle (e := ⟨d.sid, d.index, d.verdict, some d.taskId⟩) ⟨rfl, rfl⟩ rfl rfl rfl
      (waiting_advance hI.waiting _ _ _) (fun r hr => (hmem r).mpr (.inl hr)) ?_ ?_
    · intro r hr
      rcases (hmem r).mp hr with hr | rfl
      · exact .inl hr
      · refine .inr ⟨rfl, rfl, rfl, fun r' hr' => ⟨hfree r' hr', ?_⟩⟩
        rintro ⟨hq, hch⟩
        exact hslot r' hr' hq hch
    · intro taskId heq
      cases heq
      refine ⟨continuation R d.taskId, (hmem _).mpr (.inr rfl), rfl, ?_, rfl, hfree⟩
      simp [TaskRow.writesReply, continuation, TaskRow.fresh]

/-! ### The runs -/

theorem claimRow_cases (workerId startedAt : Nat) (r : TaskRow) :
    claimRow workerId startedAt r = r ∨ (r.status = .queued ∧ (claimRow workerId startedAt r).status = .running) := by
  unfold claimRow
  split
  · rename_i hq
    exact .inr ⟨hq, rfl⟩
  · exact .inl rfl

theorem keepsWriters_claim (R : Reply) (T : Tasks) (taskId workerId startedAt : Nat) :
    KeepsWriters R T (T.modify taskId (claimRow workerId startedAt) (claimRow_id workerId startedAt)) := by
  refine keepsWriters_modify _ ?_ ?_ fun r _ _ => claimRow_cases workerId startedAt r
  · intro r
    unfold claimRow
    split <;> rfl
  · intro r
    unfold claimRow
    split <;> rfl

theorem keepsWriters_finish (R : Reply) (T : Tasks) (id : Nat) (status : TaskStatus) :
    KeepsWriters R T (T.modify id (finishRow R status) (finishRow_id R status)) := by
  refine keepsWriters_modify _ ?_ ?_ fun r _ hw => .inl (if_pos hw)
  · intro r
    unfold finishRow
    split <;> rfl
  · intro r
    unfold finishRow
    split <;> rfl

/-- A run that starts: the first to see every decision whose continuation it is, and the only one at work. -/
theorem rowInv_start (hI : RowInv R s) (h : s.start R taskId = some t) :
    RowInv R t := by
  simp only [start, Option.ite_none_right_eq_some, Option.some.injEq] at h
  obtain ⟨⟨⟨r, hr, hid, hst, hw⟩, hfresh⟩, rfl⟩ := h
  have hrn : ¬r.status.terminal := by
    rw [hst]
    intro h
    cases h
  have hdead : ∀ run ∈ s.runs, run.live = false := by
    intro run hrun
    obtain ⟨r', hr', hid', hw', hlive, _⟩ := hI.runTask run hrun
    cases hl : run.live with
    | false => rfl
    | true =>
      have heq := hI.oneWriter r hr r' hr' hw hw' hrn (by rw [hlive hl]; intro h; cases h)
      exact absurd (by rw [← hid', ← heq, hid]) (hfresh run hrun)
  have hmem : ∀ run, run ∈ s.runs ++ [(⟨taskId, s.metadata.partList, true⟩ : ReplyRun)] →
      run ∈ s.runs ∨ run = ⟨taskId, s.metadata.partList, true⟩ := by
    intro run hrun
    rwa [List.mem_append, List.mem_singleton] at hrun
  constructor
  · exact hI.waiting
  · exact hI.once
  · exact hI.kept
  · intro run hrun i v hdec
    rcases hmem run hrun with hrun | rfl
    · exact hI.loadedKept run hrun i v hdec
    · exact hdec
  · intro run hrun hl d hd
    rcases hmem run hrun with hrun | rfl
    · rw [hdead run hrun] at hl
      cases hl
    · exact hI.kept d hd
  · intro run hrun hl run' hrun' i v hdec
    rcases hmem run hrun with hrun | rfl
    · rw [hdead run hrun] at hl
      cases hl
    · rcases hmem run' hrun' with hrun' | rfl
      · exact hI.loadedKept run' hrun' i v hdec
      · exact hdec
  · exact hI.writerChat
  · exact hI.oneWriter
  · intro run hrun
    rcases hmem run hrun with hrun | rfl
    · exact hI.runTask run hrun
    · exact ⟨r, hr, hid, hw, fun _ => hst, nofun⟩
  · intro d hd T hT
    unfold actor
    rw [List.find?_append]
    rcases hI.acted d hd T hT with hact | ⟨hnone, r', hr', hid', hw', hn', _⟩
    · left
      unfold actor at hact
      obtain ⟨run, hfind, hrunT⟩ := Option.map_eq_some_iff.mp hact
      rw [hfind, Option.some_or, Option.map_some, hrunT]
    · -- The continuation that is still to start is the one that starts now.
      left
      have heq := hI.oneWriter r hr r' hr' hw hw' hrn hn'
      have hT' : taskId = T := by rw [← hid, ← hid', heq]
      unfold actor at hnone
      rw [Option.map_eq_none_iff] at hnone
      have hdec : DecidedAt s.metadata.partList d.index d.verdict := hI.kept d hd
      simp [hnone, hdec, hT']

theorem mem_of_runOf (h : s.runOf taskId = some run) :
    run ∈ s.runs ∧ run.live = true ∧ run.taskId = taskId := by
  have hp := List.find?_some h
  simp only [Bool.and_eq_true, decide_eq_true_eq] at hp
  exact ⟨List.mem_of_find?_eq_some h, hp.1, hp.2⟩

theorem write_keeps (hI : RowInv R s) (hrun : run ∈ s.runs)
    (hl : run.live = true) (status : MessageStatus) (added : List StoredPart) (steers : List Steer) :
    (∀ d ∈ s.log, DecidedAt (run.write status added steers).partList d.index d.verdict) ∧
      ∀ run' ∈ s.runs, ∀ i v, DecidedAt run'.loaded i v → DecidedAt (run.write status added steers).partList i v :=
  ⟨fun d hd => DecidedAux.decidedAt_append (hI.liveLog run hrun hl d hd) added,
    fun run' hrun' i v h => DecidedAux.decidedAt_append (hI.liveRuns run hrun hl run' hrun' i v h) added⟩

theorem rowInv_snapshot {added : List StoredPart} {steers : List Steer}
    (hI : RowInv R s) (h : s.snapshot taskId added steers = some t) : RowInv R t := by
  obtain ⟨run, hrun, rfl⟩ := Option.map_eq_some_iff.mp h
  obtain ⟨hmem, hl, _⟩ := mem_of_runOf hrun
  obtain ⟨hlog, hloaded⟩ := write_keeps hI hmem hl .running added steers
  exact ⟨hI.waiting, hI.once, hlog, hloaded, hI.liveLog, hI.liveRuns, hI.writerChat, hI.oneWriter, hI.runTask, hI.acted⟩

theorem ended_eq (taskId : Nat) (run : ReplyRun) :
    (ended taskId run).taskId = run.taskId ∧ (ended taskId run).loaded = run.loaded ∧
      ((ended taskId run).live = true → run.live = true ∧ run.taskId ≠ taskId) ∧
      ((ended taskId run).live = false → run.live = false ∨ run.taskId = taskId) := by
  unfold ended
  split
  · rename_i hid
    exact ⟨rfl, rfl, nofun, fun _ => .inr hid⟩
  · rename_i hid
    exact ⟨rfl, rfl, fun hl => ⟨hl, hid⟩, .inl⟩

theorem actor_ended (taskId : Nat) (runs : List ReplyRun) (d : Recorded) : actor (runs.map (ended taskId)) d = actor runs d := by
  unfold actor
  rw [List.find?_map, Option.map_map]
  have hpred : ((fun run : ReplyRun => decide (DecidedAt run.loaded d.index d.verdict)) ∘ ended taskId) =
      fun run => decide (DecidedAt run.loaded d.index d.verdict) := by
    funext run
    simp only [Function.comp_apply, (ended_eq taskId run).2.1]
  have htask : ReplyRun.taskId ∘ ended taskId = ReplyRun.taskId := by
    funext run
    exact (ended_eq taskId run).1
  rw [hpred, htask]

theorem rowInv_terminal {status : TaskStatus} {shown : MessageStatus}
    {added : List StoredPart} {steers : List Steer} (hI : RowInv R s)
    (h : s.terminal taskId status shown added steers = some t) : RowInv R t := by
  simp only [terminal, Option.bind_eq_some_iff, Option.ite_none_right_eq_some, Option.some.injEq] at h
  obtain ⟨run₀, hrun₀, hterm, rfl⟩ := h
  obtain ⟨hmem₀, hl₀, hid₀⟩ := mem_of_runOf hrun₀
  obtain ⟨hlog, hloaded⟩ := write_keeps hI hmem₀ hl₀ shown added steers
  -- The rows after the write: the run's task, finished, and the others.
  have hrows : ∀ r, r ∈ s.tasks.modify taskId (TaskRow.finalized status none) (TaskRow.finalized_id _ _) →
      (r.id = taskId ∧ r.status = status) ∨ (r ∈ s.tasks ∧ r.id ≠ taskId) := by
    intro r hr
    rw [Table.mem_modify] at hr
    rcases hr with ⟨r₀, _, hk, rfl⟩ | hother
    · exact .inl ⟨hk, rfl⟩
    · exact .inr hother
  constructor
  · exact hI.waiting
  · exact hI.once
  · exact hlog
  · intro run hrun i v hdec
    obtain ⟨run', hrun', rfl⟩ := List.mem_map.mp hrun
    rw [(ended_eq taskId run').2.1] at hdec
    exact hloaded run' hrun' i v hdec
  · intro run hrun hl d hd
    obtain ⟨run', hrun', rfl⟩ := List.mem_map.mp hrun
    obtain ⟨_, hload, hlive, _⟩ := ended_eq taskId run'
    rw [hload]
    exact hI.liveLog run' hrun' (hlive hl).1 d hd
  · intro run hrun hl run₁ hrun₁ i v hdec
    obtain ⟨run', hrun', rfl⟩ := List.mem_map.mp hrun
    obtain ⟨run₁', hrun₁', rfl⟩ := List.mem_map.mp hrun₁
    obtain ⟨_, hload, hlive, _⟩ := ended_eq taskId run'
    rw [(ended_eq taskId run₁').2.1] at hdec
    rw [hload]
    exact hI.liveRuns run' hrun' (hlive hl).1 run₁' hrun₁' i v hdec
  · intro r hr hw
    have hr' : r ∈ s.tasks.modify taskId (TaskRow.finalized status none) (TaskRow.finalized_id _ _) := hr
    rw [Table.mem_modify] at hr'
    rcases hr' with ⟨r₀, hr₀, _, rfl⟩ | ⟨hr', _⟩
    · exact hI.writerChat r₀ hr₀ hw
    · exact hI.writerChat r hr' hw
  · intro r hr r' hr' hw hw' hn hn'
    rcases hrows r hr with ⟨_, hst⟩ | ⟨hr, _⟩
    · rw [hst, hterm] at hn
      exact absurd rfl hn
    · rcases hrows r' hr' with ⟨_, hst'⟩ | ⟨hr', _⟩
      · rw [hst', hterm] at hn'
        exact absurd rfl hn'
      · exact hI.oneWriter r hr r' hr' hw hw' hn hn'
  · intro run hrun
    obtain ⟨run', hrun', rfl⟩ := List.mem_map.mp hrun
    obtain ⟨htask, _, hlive, hdead⟩ := ended_eq taskId run'
    obtain ⟨r, hr, hid, hw, hrl, hrd⟩ := hI.runTask run' hrun'
    rw [htask]
    by_cases heq : r.id = taskId
    · refine ⟨r.finalized status none, Table.mem_modify_of_key (TaskRow.finalized_id _ _) hr heq, hid, hw, ?_, fun _ => hterm⟩
      intro hl
      exact absurd (hid.symm.trans heq) (hlive hl).2
    · refine ⟨r, (Table.mem_modify_of_ne (TaskRow.finalized_id _ _) heq).mpr hr, hid, hw, fun hl => hrl (hlive hl).1, ?_⟩
      intro hd
      rcases hdead hd with hd | hd
      · exact hrd hd
      · exact absurd (hid.trans hd) heq
  · intro d hd T hT
    rw [actor_ended]
    rcases hI.acted d hd T hT with hact | ⟨hnone, r, hr, hid, hw, hn, hfresh⟩
    · exact .inl hact
    · have hne : T ≠ taskId := fun heq => hfresh run₀ hmem₀ (hid₀.trans heq.symm)
      refine .inr ⟨hnone, r, (Table.mem_modify_of_ne (TaskRow.finalized_id _ _) ?_).mpr hr, hid, hw, hn, ?_⟩
      · rw [hid]
        exact hne
      · intro run hrun
        obtain ⟨run', hrun', rfl⟩ := List.mem_map.mp hrun
        rw [(ended_eq taskId run').1]
        exact hfresh run' hrun'

theorem rowInv_step {a : DecisionAct} (hI : RowInv R s) (hok : Undisturbed R s a)
    (h : s.step R a = some t) : RowInv R t := by
  cases a with
  | read sid userId d taskId => exact rowInv_read hI h
  | admitted sid a => exact rowInv_admitted hI h
  | commit sid => exact rowInv_commit hI hok h
  | throwInTx sid => exact rowInv_throwInTx hI h
  | finish sid notified => exact rowInv_finish hI h
  | claim taskId workerId startedAt =>
    cases h
    exact rowInv_of_kept hI rfl rfl hI.waiting (keepsWriters_claim R _ _ _ _) fun _ _ hd => hd
  | start taskId => exact rowInv_start hI h
  | snapshot taskId added steers => exact rowInv_snapshot hI h
  | terminal taskId status shown added steers => exact rowInv_terminal hI h
  | send leaf =>
    cases h
    refine rowInv_of_kept hI rfl rfl hI.waiting (.refl R _) fun i v hd => ?_
    dsimp only
    split
    · exact DecidedAux.decidedAt_movedPast hd
    · exact hd
  | settleMovedPast =>
    cases h
    exact rowInv_of_kept hI rfl rfl hI.waiting (.refl R _) fun _ _ => DecidedAux.decidedAt_movedPast
  | moveLeaf leaf =>
    cases h
    exact rowInv_of_kept hI rfl rfl hI.waiting (.refl R _) fun _ _ hd => hd
  | enqueueOther id userId createdAt =>
    simp only [step, Option.ite_none_right_eq_some, Option.map_eq_some_iff] at h
    obtain ⟨hfresh, T, hT, rfl⟩ := h
    refine rowInv_of_kept hI rfl rfl hI.waiting (keepsWriters_insertQueued ?_ hT) fun _ _ hd => hd
    simp [TaskRow.writesReply, TaskRow.fresh, hfresh.1]
  | finishOther id status =>
    simp only [step, Option.ite_none_right_eq_some, Option.some.injEq] at h
    obtain ⟨_, rfl⟩ := h
    exact rowInv_of_kept hI rfl rfl hI.waiting (keepsWriters_finish R _ _ _) fun _ _ hd => hd
  | absorbQueuedTasks exceptId =>
    cases h
    refine rowInv_of_kept hI rfl rfl hI.waiting (keepsWriters_filter fun r hr hw => ?_) fun _ _ hd => hd
    cases ha : r.absorbed R.chatId exceptId with
    | false => rfl
    | true =>
      rw [hok r hr ha] at hw
      cases hw

end SingleAux

end DecisionState

end Capka

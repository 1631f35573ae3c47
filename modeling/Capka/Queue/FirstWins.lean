import Capka.Queue.Outcome

/-!
# The first terminal status wins

The lock a commit takes with its compare-and-set keeps the row as the compare-and-set found it until the commit ends, so a
commit lands only on a turn that nothing has finished, and nothing finishes it again (`first_terminal_status_wins`).
-/

namespace Capka

namespace OutcomeState

/-- Every finished turn of `s` is finished in `t` the same way. -/
def SettledKept (s t : OutcomeState) : Prop :=
  ∀ r ∈ s.tasks, r.status.terminal → ∃ r' ∈ t.tasks, r'.id = r.id ∧ r'.status = r.status ∧ r'.error = r.error

/-- Neither a task, nor a message, nor a leaf changes. -/
def Untouched (s t : OutcomeState) : Prop := t.tasks = s.tasks ∧ t.messages = s.messages ∧ t.activeLeaf = s.activeLeaf

/-- A commit that lands: its compare-and-set matches, the task takes its status, the message its content and metadata, an inserted
reply is the leaf, and no other row changes. -/
structure Won (s t : OutcomeState) (c : CommitCall) : Prop where
  matched : s.Finalizable c.taskId (some c.workerId)
  task : ∃ r ∈ t.tasks, r.id = c.taskId ∧ r.status = c.status ∧ r.error = c.error
  otherTasks : ∀ r, r.id ≠ c.taskId → (r ∈ t.tasks ↔ r ∈ s.tasks)
  message : ∃ m ∈ t.messages, m.id = c.messageId ∧ m.content = c.content ∧ m.metadata = c.metadata
  otherMessages : ∀ m, m.id ≠ c.messageId → (m ∈ t.messages ↔ m ∈ s.messages)
  leaf : ∀ place, c.insert = some place → t.activeLeaf place.chatId = some c.messageId

/-- Of the steps of a `commitTurnOutcome`, its commit wins and writes, and the others write nothing. -/
def WritesIffWins (s : OutcomeState) (a : OutcomeAct) (t : OutcomeState) : Prop :=
  match a with
  | .commitBegin _ _ => Untouched s t
  | .commitMessage _ => Untouched s t
  | .commitFail _ => Untouched s t
  | .commitEnd sid => ∃ c ∈ s.commits, c.sid = sid ∧ Won s t c.call
  | _ => True

/-- The action would settle the outcome of the task. -/
def Settles (s : OutcomeState) (id : Nat) : OutcomeAct → Prop
  | .finalizeTask id' _ _ _ _ => id' = id
  | .commitBegin _ call => call.taskId = id
  | .commitMessage sid => ∃ c ∈ s.commits, c.sid = sid ∧ c.call.taskId = id
  | .commitEnd sid => ∃ c ∈ s.commits, c.sid = sid ∧ c.call.taskId = id
  | .commitFail sid => ∃ c ∈ s.commits, c.sid = sid ∧ c.call.taskId = id
  | _ => False

/-- What the commits in flight rely on: each owns a task nobody has finished, no two share a task or a message, and a message
statement that succeeded can still land. -/
structure Inv (s : OutcomeState) : Prop where
  owns : ∀ c ∈ s.commits, s.Finalizable c.call.taskId (some c.call.workerId)
  oneTask : ∀ c ∈ s.commits, ∀ c' ∈ s.commits, c.call.taskId = c'.call.taskId → c = c'
  oneMessage : ∀ c ∈ s.commits, ∀ c' ∈ s.commits, c.wrote → c'.wrote → c.call.messageId = c'.call.messageId → c = c'
  lands : ∀ c ∈ s.commits, c.wrote → (s.HasMessage c.call.messageId ↔ c.call.insert = none)

namespace FirstAux

/-- A write of the task table that leaves finished turns finished as they are, and locked rows alone. -/
structure TaskFrame (s : OutcomeState) (T : Tasks) : Prop where
  settled : ∀ r ∈ s.tasks, r.status.terminal → ∃ r' ∈ T, r'.id = r.id ∧ r'.status = r.status ∧ r'.error = r.error
  locked : ∀ r ∈ s.tasks, s.TaskLocked r.id → r ∈ T

/-- A write of the message table that neither deletes a held row nor inserts a held id. -/
def MessageFrame (s : OutcomeState) (M : Messages) : Prop :=
  ∀ id, s.MessageHeld id → ((∃ m ∈ M, m.id = id) ↔ s.HasMessage id)

theorem TaskFrame.refl (s : OutcomeState) : TaskFrame s s.tasks :=
  ⟨fun r hr _ => ⟨r, hr, rfl, rfl, rfl⟩, fun _ hr _ => hr⟩

theorem MessageFrame.refl (s : OutcomeState) : MessageFrame s s.messages := fun _ _ => Iff.rfl

variable {s : OutcomeState} {f : TaskRow → TaskRow}

theorem taskFrame_map (hf : ∀ r, (f r).id = r.id)
    (hterm : ∀ r ∈ s.tasks, r.status.terminal → (f r).status = r.status ∧ (f r).error = r.error)
    (hlock : ∀ r ∈ s.tasks, s.TaskLocked r.id → f r = r) : TaskFrame s (s.tasks.map f hf) := by
  constructor
  · intro r hr ht
    obtain ⟨hst, herr⟩ := hterm r hr ht
    exact ⟨f r, Table.mem_map.mpr ⟨r, hr, rfl⟩, hf r, hst, herr⟩
  · intro r hr hl
    exact Table.mem_map.mpr ⟨r, hr, hlock r hr hl⟩

variable {id : Nat}

theorem taskFrame_modify (hf : ∀ r, (f r).id = r.id)
    (hterm : ∀ r ∈ s.tasks, r.status.terminal → (f r).status = r.status ∧ (f r).error = r.error)
    (hfree : ¬s.TaskLocked id) : TaskFrame s (s.tasks.modify id f hf) := by
  refine taskFrame_map _ ?_ ?_
  · intro r hr ht
    split
    · exact hterm r hr ht
    · exact ⟨rfl, rfl⟩
  · intro r _ hl
    rw [if_neg]
    rintro rfl
    exact hfree hl

theorem taskFrame_filter {p : TaskRow → Bool}
    (h : ∀ r ∈ s.tasks, p r = false → r.status = .queued ∧ ¬s.TaskLocked r.id) : TaskFrame s (s.tasks.filter p) := by
  constructor
  · intro r hr ht
    refine ⟨r, Table.mem_filter.mpr ⟨hr, ?_⟩, rfl, rfl, rfl⟩
    cases hp : p r with
    | true => rfl
    | false =>
      rw [(h r hr hp).1] at ht
      cases ht
  · intro r hr hl
    refine Table.mem_filter.mpr ⟨hr, ?_⟩
    cases hp : p r with
    | true => rfl
    | false => exact absurd hl (h r hr hp).2

theorem messageFrame_map {f : MessageRow → MessageRow} (hf : ∀ m, (f m).id = m.id) :
    MessageFrame s (s.messages.map f hf) := by
  intro id _
  constructor
  · rintro ⟨m, hm, rfl⟩
    obtain ⟨m₀, hm₀, rfl⟩ := Table.mem_map.mp hm
    exact ⟨m₀, hm₀, (hf m₀).symm⟩
  · rintro ⟨m, hm, rfl⟩
    exact ⟨f m, Table.mem_map.mpr ⟨m, hm, rfl⟩, hf m⟩

theorem messageFrame_modify {k : Nat} {f : MessageRow → MessageRow} (hf : ∀ m, (f m).id = m.id) :
    MessageFrame s (s.messages.modify k f hf) := by
  refine messageFrame_map fun m => ?_
  split
  · exact hf m
  · rfl

theorem messageFrame_settleResume (s : OutcomeState) (resume : Option Nat) :
    MessageFrame s (settleResume resume s.messages) := by
  cases resume with
  | none => exact .refl s
  | some id => exact messageFrame_modify MessageRow.settleCancelledContinuation_id

variable {t : OutcomeState}

theorem inv_of_frames (hI : Inv s) (hc : t.commits = s.commits) (hT : TaskFrame s t.tasks)
    (hM : MessageFrame s t.messages) : Inv t := by
  constructor
  · rw [hc]
    intro c hcm
    obtain ⟨r, hr, hid, hfin⟩ := hI.owns c hcm
    exact ⟨r, hT.locked r hr ⟨c, hcm, hid.symm⟩, hid, hfin⟩
  · rw [hc]
    exact hI.oneTask
  · rw [hc]
    exact hI.oneMessage
  · rw [hc]
    intro c hcm hw
    exact (hM _ ⟨c, hcm, hw, rfl⟩).trans (hI.lands c hcm hw)

/-! ### The rows the other writers touch -/

variable {r : TaskRow}

theorem settle_terminal {status : TaskStatus} {error : Option String} {workerId : Option Nat}
    (h : r.status.terminal = true) : r.settle status error workerId = r := by
  unfold TaskRow.settle
  rw [if_neg]
  simp [TaskRow.finalizable, h]

theorem sweep_terminal {asOf : Nat} (h : r.status.terminal = true) : r.sweep asOf = r := by
  unfold TaskRow.sweep
  rw [if_neg]
  intro hd
  simp only [TaskRow.dead, Bool.and_eq_true, decide_eq_true_eq] at hd
  rw [hd.1] at h
  cases h

theorem claim_terminal {workerId startedAt : Nat} (h : r.status.terminal = true) :
    claim workerId startedAt r = r := by
  unfold claim
  rw [if_neg]
  intro hq
  rw [hq] at h
  cases h

theorem beat_error {workerId startedAt : Nat} :
    (beat workerId startedAt r).status = r.status ∧ (beat workerId startedAt r).error = r.error := by
  unfold beat
  split <;> exact ⟨rfl, rfl⟩

theorem updateTask_frames {hf : ∀ r, (f r).id = r.id}
    (hterm : ∀ r ∈ s.tasks, r.status.terminal → (f r).status = r.status ∧ (f r).error = r.error)
    (h : s.updateTask id f hf = some t) :
    t.commits = s.commits ∧ TaskFrame s t.tasks ∧ MessageFrame s t.messages := by
  simp only [updateTask, Option.ite_none_left_eq_some, Option.some.injEq] at h
  obtain ⟨hfree, rfl⟩ := h
  exact ⟨rfl, taskFrame_modify hf hterm hfree, .refl s⟩

theorem finalizeTask_frames {status : TaskStatus} {error : Option String}
    {workerId resume : Option Nat} (h : s.finalizeTask id status error workerId resume = some t) :
    t.commits = s.commits ∧ TaskFrame s t.tasks ∧ MessageFrame s t.messages := by
  simp only [finalizeTask, Option.ite_none_left_eq_some, Option.some.injEq, not_or] at h
  obtain ⟨⟨hfree, _, _⟩, rfl⟩ := h
  refine ⟨rfl, taskFrame_modify (TaskRow.settle_id _ _ _) ?_ hfree, ?_⟩
  · intro r _ ht
    rw [settle_terminal ht]
    exact ⟨rfl, rfl⟩
  · dsimp only
    split
    · exact messageFrame_settleResume s resume
    · exact .refl s

theorem cancelQueuedTurn_frames (h : s.cancelQueuedTurn id = some t) :
    t.commits = s.commits ∧ TaskFrame s t.tasks ∧ MessageFrame s t.messages := by
  simp only [cancelQueuedTurn, Option.bind_eq_some_iff, Option.ite_none_right_eq_some, Option.some.injEq] at h
  obtain ⟨r, hr, ⟨hq, hfree, _⟩, rfl⟩ := h
  obtain ⟨hmem, hid⟩ := Table.get_eq_some_iff.mp hr
  refine ⟨rfl, taskFrame_filter ?_, messageFrame_settleResume s _⟩
  intro r' hr' hp
  have hid' : r'.id = id := by simpa using hp
  rw [Table.eq_of_key hr' hmem (hid'.trans hid.symm)]
  exact ⟨hq, hid ▸ hfree⟩

theorem reconcileZombies_frames {asOf : Nat} {taskIds messageIds : List Nat}
    (h : s.reconcileZombies asOf taskIds messageIds = some t) :
    t.commits = s.commits ∧ TaskFrame s t.tasks ∧ MessageFrame s t.messages := by
  simp only [reconcileZombies, Option.ite_none_right_eq_some, Option.some.injEq] at h
  obtain ⟨⟨_, hfree, _⟩, rfl⟩ := h
  refine ⟨rfl, taskFrame_map (onReached_key (TaskRow.sweep_id asOf)) ?_ ?_,
    messageFrame_map (onReached_key (sweepMessage_id _ _ _))⟩
  · intro r _ ht
    unfold onReached
    split
    · rw [sweep_terminal ht]
      exact ⟨rfl, rfl⟩
    · exact ⟨rfl, rfl⟩
  · intro r _ hl
    unfold onReached
    rw [if_neg]
    exact fun hin => hfree r.id hin hl

theorem messageFrame_insert {m : MessageRow} {M : Messages} (hfree : ¬s.MessageHeld m.id)
    (h : s.messages.insert m = some M) : MessageFrame s M := by
  intro id hheld
  constructor
  · rintro ⟨m', hm', rfl⟩
    rcases (Table.mem_of_insert h).mp hm' with hm' | rfl
    · exact ⟨m', hm', rfl⟩
    · exact absurd hheld hfree
  · rintro ⟨m', hm', rfl⟩
    exact ⟨m', (Table.mem_of_insert h).mpr (.inl hm'), rfl⟩

theorem messageFrame_erase (hfree : ¬s.MessageHeld id) :
    MessageFrame s (s.messages.erase id) := by
  intro id' hheld
  constructor
  · rintro ⟨m, hm, rfl⟩
    exact ⟨m, (Table.mem_erase.mp hm).1, rfl⟩
  · rintro ⟨m, hm, rfl⟩
    refine ⟨m, Table.mem_erase.mpr ⟨hm, ?_⟩, rfl⟩
    rintro rfl
    exact hfree hheld

/-- The steps of a `commitTurnOutcome`. -/
def isCommit : OutcomeAct → Bool
  | .commitBegin _ _ => true
  | .commitMessage _ => true
  | .commitEnd _ => true
  | .commitFail _ => true
  | _ => false

variable {a : OutcomeAct}

theorem frames_of_step (ha : isCommit a = false) (h : s.step a = some t) :
    t.commits = s.commits ∧ TaskFrame s t.tasks ∧ MessageFrame s t.messages := by
  cases a with
  | tick ms | moveLeaf chatId leaf =>
    cases h
    exact ⟨rfl, .refl s, .refl s⟩
  | enqueueTask id chatId userId resumeMessageId createdAt =>
    simp only [step, Option.map_eq_some_iff] at h
    obtain ⟨T, hT, rfl⟩ := h
    have hold : ∀ r ∈ s.tasks, r ∈ T := fun r hr => (mem_of_insertQueued hT).1.mpr (.inl hr)
    exact ⟨rfl, ⟨fun r hr _ => ⟨r, hold r hr, rfl, rfl, rfl⟩, fun r hr _ => hold r hr⟩, .refl s⟩
  | claimNextTask id workerId startedAt =>
    refine updateTask_frames (fun r _ ht => ?_) h
    rw [claim_terminal ht]
    exact ⟨rfl, rfl⟩
  | heartbeat id workerId startedAt => exact updateTask_frames (fun _ _ _ => beat_error) h
  | absorbQueuedTasks chatId exceptId =>
    simp only [step, Option.ite_none_left_eq_some, Option.some.injEq] at h
    obtain ⟨hfree, rfl⟩ := h
    refine ⟨rfl, taskFrame_filter fun r hr hp => ?_, .refl s⟩
    rw [Bool.not_eq_false'] at hp
    refine ⟨?_, fun hl => hfree ⟨r, hr, hp, hl⟩⟩
    simp only [TaskRow.absorbed, Bool.and_eq_true, decide_eq_true_eq] at hp
    exact hp.1.2
  | requestCancel id => exact updateTask_frames (f := TaskRow.cancelAsked) (fun _ _ _ => ⟨rfl, rfl⟩) h
  | cancelQueuedTurn id => exact cancelQueuedTurn_frames h
  | finalizeTask id status error workerId resume => exact finalizeTask_frames h
  | reconcileZombies asOf taskIds messageIds => exact reconcileZombies_frames h
  | insertMessage m =>
    simp only [step, Option.ite_none_left_eq_some, Option.map_eq_some_iff] at h
    obtain ⟨hfree, M, hM, rfl⟩ := h
    exact ⟨rfl, .refl s, messageFrame_insert hfree hM⟩
  | writeMessage id content metadata =>
    simp only [step, Option.ite_none_left_eq_some, Option.some.injEq] at h
    obtain ⟨_, rfl⟩ := h
    refine ⟨rfl, .refl s, ?_⟩
    exact messageFrame_modify (f := fun m => { m with content := content, metadata := metadata }) fun _ => rfl
  | deleteMessage id =>
    simp only [step, Option.ite_none_left_eq_some, Option.some.injEq] at h
    obtain ⟨hfree, rfl⟩ := h
    exact ⟨rfl, .refl s, messageFrame_erase hfree⟩
  | commitBegin sid call | commitMessage sid | commitEnd sid | commitFail sid => cases ha

/-! ### The steps of a commit -/

theorem untouched_refl (s : OutcomeState) : Untouched s s := ⟨rfl, rfl, rfl⟩

variable {sid : Nat}

theorem commitBegin_cases {call : CommitCall} (h : s.commitBegin sid call = some t) :
    ¬s.TaskLocked call.taskId ∧ Untouched s t ∧
      (t = s ∨ s.Finalizable call.taskId (some call.workerId) ∧
        s.commits.insert { sid := sid, call := call, wrote := false } = some t.commits) := by
  simp only [commitBegin, Option.ite_none_left_eq_some] at h
  obtain ⟨hfree, h⟩ := h
  split at h
  · rename_i hfin
    obtain ⟨C, hC, rfl⟩ := Option.map_eq_some_iff.mp h
    exact ⟨hfree, ⟨rfl, rfl, rfl⟩, .inr ⟨hfin, hC⟩⟩
  · cases h
    exact ⟨hfree, untouched_refl s, .inl rfl⟩

theorem commitMessage_cases (h : s.commitMessage sid = some t) :
    Untouched s t ∧ (t = s.rollback sid ∨ ∃ c ∈ s.commits, c.sid = sid ∧ ¬s.MessageHeld c.call.messageId ∧
      (s.HasMessage c.call.messageId ↔ c.call.insert = none) ∧
      t = { s with commits := s.commits.modify sid CommitTx.written CommitTx.written_sid }) := by
  simp only [commitMessage, Option.bind_eq_some_iff, Option.ite_none_left_eq_some, not_or] at h
  obtain ⟨c, hc, ⟨_, hfree⟩, h⟩ := h
  obtain ⟨hmem, hsid⟩ := Table.get_eq_some_iff.mp hc
  split at h
  · rename_i hlands
    cases h
    exact ⟨⟨rfl, rfl, rfl⟩, .inr ⟨c, hmem, hsid, hfree, hlands, rfl⟩⟩
  · cases h
    exact ⟨⟨rfl, rfl, rfl⟩, .inl rfl⟩

theorem commitEnd_won (hI : Inv s) (h : s.commitEnd sid = some t) :
    ∃ c ∈ s.commits, c.sid = sid ∧ c.wrote ∧ t.commits = s.commits.erase sid ∧ Won s t c.call := by
  simp only [commitEnd, Option.bind_eq_some_iff, Option.ite_none_right_eq_some] at h
  obtain ⟨c, hc, hw, h⟩ := h
  obtain ⟨hmem, hsid⟩ := Table.get_eq_some_iff.mp hc
  obtain ⟨r, hr, hid, hfin⟩ := hI.owns c hmem
  have hlands := hI.lands c hmem hw
  have htask := Table.mem_modify_of_key (TaskRow.finalized_id c.call.status c.call.error) hr hid
  have hothers : ∀ r', r'.id ≠ c.call.taskId →
      (r' ∈ s.tasks.modify c.call.taskId (TaskRow.finalized c.call.status c.call.error) (TaskRow.finalized_id _ _) ↔
        r' ∈ s.tasks) :=
    fun _ hne => Table.mem_modify_of_ne (TaskRow.finalized_id c.call.status c.call.error) hne
  split at h
  · rename_i hins
    cases h
    obtain ⟨m, hm, hmid⟩ := hlands.mpr hins
    refine ⟨c, hmem, hsid, hw, rfl, ⟨⟨r, hr, hid, hfin⟩, ⟨_, htask, hid, rfl, rfl⟩, hothers, ?_, ?_, ?_⟩⟩
    · exact ⟨c.call.write m, Table.mem_modify_of_key c.call.write_id hm hmid, hmid, rfl, rfl⟩
    · exact fun m' hne => Table.mem_modify_of_ne c.call.write_id hne
    · intro place hp
      rw [hins] at hp
      cases hp
  · rename_i place hins
    obtain ⟨M, hM, rfl⟩ := Option.map_eq_some_iff.mp h
    refine ⟨c, hmem, hsid, hw, rfl, ⟨⟨r, hr, hid, hfin⟩, ⟨_, htask, hid, rfl, rfl⟩, hothers, ?_, ?_, ?_⟩⟩
    · exact ⟨c.call.reply place, (Table.mem_of_insert hM).mpr (.inr rfl), rfl, rfl, rfl⟩
    · intro m' hne
      dsimp only
      rw [Table.mem_of_insert hM]
      constructor
      · rintro (hm' | rfl)
        · exact hm'
        · exact absurd rfl hne
      · exact .inl
    · intro place' hp
      rw [hins] at hp
      cases hp
      exact if_pos rfl

theorem inv_rollback (hI : Inv s) (sid : Nat) : Inv (s.rollback sid) := by
  have hsub : ∀ c ∈ (s.rollback sid).commits, c ∈ s.commits := fun c hc => (Table.mem_erase.mp hc).1
  constructor
  · exact fun c hc => hI.owns c (hsub c hc)
  · exact fun c hc c' hc' => hI.oneTask c (hsub c hc) c' (hsub c' hc')
  · exact fun c hc c' hc' => hI.oneMessage c (hsub c hc) c' (hsub c' hc')
  · exact fun c hc => hI.lands c (hsub c hc)

theorem inv_commitBegin {call : CommitCall} (hI : Inv s)
    (h : s.commitBegin sid call = some t) : Inv t := by
  obtain ⟨hfree, ⟨hT, hM, _⟩, rfl | ⟨hfin, hins⟩⟩ := commitBegin_cases h
  · exact hI
  have hmem := fun c => Table.mem_of_insert (x := c) hins
  constructor
  · intro c hc
    unfold Finalizable
    rw [hT]
    rcases (hmem c).mp hc with hc | rfl
    · exact hI.owns c hc
    · exact hfin
  · intro c hc c' hc' heq
    rcases (hmem c).mp hc with hc | rfl <;> rcases (hmem c').mp hc' with hc' | rfl
    · exact hI.oneTask c hc c' hc' heq
    · exact absurd ⟨c, hc, heq⟩ hfree
    · exact absurd ⟨c', hc', heq.symm⟩ hfree
    · rfl
  · intro c hc c' hc' hw hw' heq
    rcases (hmem c).mp hc with hc | rfl
    · rcases (hmem c').mp hc' with hc' | rfl
      · exact hI.oneMessage c hc c' hc' hw hw' heq
      · cases hw'
    · cases hw
  · intro c hc hw
    unfold HasMessage
    rw [hM]
    rcases (hmem c).mp hc with hc | rfl
    · exact hI.lands c hc hw
    · cases hw

theorem inv_commitMessage (hI : Inv s) (h : s.commitMessage sid = some t) : Inv t := by
  obtain ⟨_, rfl | ⟨c₀, hc₀, hsid, hfree, hlands, rfl⟩⟩ := commitMessage_cases h
  · exact inv_rollback hI sid
  -- The claimed call is the only one that changed.
  have hmem : ∀ c ∈ s.commits.modify sid CommitTx.written CommitTx.written_sid, ∃ c₁ ∈ s.commits, c.call = c₁.call ∧
      (c = c₀.written ∧ c₁ = c₀ ∨ c = c₁ ∧ c.sid ≠ sid) := by
    intro c hc
    rw [Table.mem_modify] at hc
    rcases hc with ⟨c₁, hc₁, hsid₁, rfl⟩ | ⟨hc, hne⟩
    · rw [Table.eq_of_key hc₁ hc₀ (hsid₁.trans hsid.symm)]
      exact ⟨c₀, hc₀, rfl, .inl ⟨rfl, rfl⟩⟩
    · exact ⟨c, hc, rfl, .inr ⟨rfl, hne⟩⟩
  constructor
  · intro c hc
    obtain ⟨c₁, hc₁, hcall, _⟩ := hmem c hc
    rw [hcall]
    exact hI.owns c₁ hc₁
  · intro c hc c' hc' heq
    obtain ⟨c₁, hc₁, hcall, hcase⟩ := hmem c hc
    obtain ⟨c₁', hc₁', hcall', hcase'⟩ := hmem c' hc'
    have h₁ := hI.oneTask c₁ hc₁ c₁' hc₁' (by rw [← hcall, ← hcall', heq])
    rcases hcase with ⟨rfl, rfl⟩ | ⟨rfl, hne⟩ <;> rcases hcase' with ⟨rfl, rfl⟩ | ⟨rfl, hne'⟩
    · rfl
    · exact absurd (h₁ ▸ hsid) hne'
    · exact absurd (h₁ ▸ hsid) hne
    · exact h₁
  · intro c hc c' hc' hw hw' heq
    obtain ⟨c₁, hc₁, hcall, hcase⟩ := hmem c hc
    obtain ⟨c₁', hc₁', hcall', hcase'⟩ := hmem c' hc'
    rcases hcase with ⟨rfl, rfl⟩ | ⟨rfl, hne⟩ <;> rcases hcase' with ⟨rfl, rfl⟩ | ⟨rfl, hne'⟩
    · rfl
    · exact absurd ⟨c', hc₁', hw', heq.symm⟩ hfree
    · exact absurd ⟨c, hc₁, hw, heq⟩ hfree
    · exact hI.oneMessage c hc₁ c' hc₁' hw hw' heq
  · intro c hc hw
    obtain ⟨c₁, hc₁, hcall, ⟨rfl, rfl⟩ | ⟨rfl, hne⟩⟩ := hmem c hc
    · exact hlands
    · exact hI.lands c hc₁ hw

theorem inv_commitEnd (hI : Inv s) (h : s.commitEnd sid = some t) : Inv t := by
  obtain ⟨c₀, hc₀, hsid, hw₀, hcommits, hwon⟩ := commitEnd_won hI h
  have hsub : ∀ c ∈ t.commits, c ∈ s.commits ∧ c ≠ c₀ := by
    intro c hc
    rw [hcommits] at hc
    obtain ⟨hc, hne⟩ := Table.mem_erase.mp hc
    refine ⟨hc, ?_⟩
    rintro rfl
    exact hne hsid
  constructor
  · intro c hc
    obtain ⟨hc, hne⟩ := hsub c hc
    obtain ⟨r, hr, hid, hfin⟩ := hI.owns c hc
    refine ⟨r, (hwon.otherTasks r ?_).mpr hr, hid, hfin⟩
    intro heq
    exact hne (hI.oneTask c hc c₀ hc₀ (hid.symm.trans heq))
  · exact fun c hc c' hc' => hI.oneTask c (hsub c hc).1 c' (hsub c' hc').1
  · exact fun c hc c' hc' => hI.oneMessage c (hsub c hc).1 c' (hsub c' hc').1
  · intro c hc hw
    obtain ⟨hc, hne⟩ := hsub c hc
    have hother : ∀ m : MessageRow, m.id = c.call.messageId → m.id ≠ c₀.call.messageId := by
      intro m hm heq
      exact hne (hI.oneMessage c hc c₀ hc₀ hw hw₀ (hm.symm.trans heq))
    refine Iff.trans ?_ (hI.lands c hc hw)
    constructor
    · rintro ⟨m, hm, hid⟩
      exact ⟨m, (hwon.otherMessages m (hother m hid)).mp hm, hid⟩
    · rintro ⟨m, hm, hid⟩
      exact ⟨m, (hwon.otherMessages m (hother m hid)).mpr hm, hid⟩

theorem inv_step (hI : Inv s) (h : s.step a = some t) : Inv t := by
  cases ha : isCommit a with
  | false =>
    obtain ⟨hc, hT, hM⟩ := frames_of_step ha h
    exact inv_of_frames hI hc hT hM
  | true =>
    cases a with
    | commitBegin sid call => exact inv_commitBegin hI h
    | commitMessage sid => exact inv_commitMessage hI h
    | commitEnd sid => exact inv_commitEnd hI h
    | commitFail sid =>
      cases h
      exact inv_rollback hI sid
    | _ => cases ha

theorem settledKept_step (hI : Inv s) (h : s.step a = some t) : SettledKept s t := by
  have hsame : t.tasks = s.tasks → SettledKept s t := by
    intro hT r hr _
    exact ⟨r, hT ▸ hr, rfl, rfl, rfl⟩
  cases ha : isCommit a with
  | false => exact (frames_of_step ha h).2.1.settled
  | true =>
    cases a with
    | commitBegin sid call => exact hsame (commitBegin_cases h).2.1.1
    | commitMessage sid => exact hsame (commitMessage_cases h).1.1
    | commitEnd sid =>
      obtain ⟨c, hc, _, _, _, hwon⟩ := commitEnd_won hI h
      intro r hr ht
      refine ⟨r, (hwon.otherTasks r ?_).mpr hr, rfl, rfl, rfl⟩
      intro hid
      obtain ⟨r₀, hr₀, hid₀, hfin⟩ := hwon.matched
      rw [Table.eq_of_key hr₀ hr (hid₀.trans hid.symm)] at hfin
      simp [TaskRow.finalizable, ht] at hfin
    | commitFail sid =>
      cases h
      exact hsame rfl
    | _ => cases ha

theorem untouched_of_settles (hI : Inv s) (hr : r ∈ s.tasks)
    (ht : r.status.terminal = true) (ha : Settles s r.id a) (h : s.step a = some t) : Untouched s t := by
  have hnone : ∀ workerId, ¬s.Finalizable r.id workerId := by
    rintro workerId ⟨r₀, hr₀, hid, hfin⟩
    rw [Table.eq_of_key hr₀ hr hid] at hfin
    simp [TaskRow.finalizable, ht] at hfin
  have hheld : ¬∃ c ∈ s.commits, c.call.taskId = r.id := by
    rintro ⟨c, hc, hid⟩
    exact hnone _ (hid ▸ hI.owns c hc)
  cases a with
  | finalizeTask id status error workerId resume =>
    cases ha
    simp only [step, finalizeTask, Option.ite_none_left_eq_some, Option.some.injEq] at h
    obtain ⟨_, rfl⟩ := h
    refine ⟨Table.modify_eq_self (TaskRow.settle_id status error workerId) ?_, if_neg (hnone workerId), rfl⟩
    intro r' hr' hid
    exact settle_terminal (by rw [Table.eq_of_key hr' hr hid, ht])
  | commitBegin sid call => exact (commitBegin_cases h).2.1
  | commitMessage sid => exact (commitMessage_cases h).1
  | commitEnd sid =>
    obtain ⟨c, hc, _, hid⟩ := ha
    exact absurd ⟨c, hc, hid⟩ hheld
  | commitFail sid =>
    cases h
    exact ⟨rfl, rfl, rfl⟩
  | _ => cases ha

theorem inv_init : Inv init := by
  constructor <;> intro c hc <;> exact absurd hc (Table.not_mem_empty c)

theorem settledKept_refl (s : OutcomeState) : SettledKept s s := fun r hr _ => ⟨r, hr, rfl, rfl, rfl⟩

theorem settledKept_trans {u : OutcomeState} (h₁ : SettledKept s t) (h₂ : SettledKept t u) : SettledKept s u := by
  intro r hr ht
  obtain ⟨r', hr', hid, hst, herr⟩ := h₁ r hr ht
  obtain ⟨r'', hr'', hid', hst', herr'⟩ := h₂ r' hr' (hst ▸ ht)
  exact ⟨r'', hr'', hid'.trans hid, hst'.trans hst, herr'.trans herr⟩

theorem settledKept_of_reaches (h : Steps.Reaches step Steps.Free s t) (hI : Inv s) :
    Inv t ∧ SettledKept s t := by
  refine h.invariant (I := fun x => Inv x ∧ SettledKept s x) ?_ ⟨hI, settledKept_refl s⟩
  rintro x a y ⟨hx, hsx⟩ _ hy
  exact ⟨inv_step hx hy, settledKept_trans hsx (settledKept_step hx hy)⟩

theorem writesIffWins_step (hI : Inv s) (h : s.step a = some t) :
    WritesIffWins s a t := by
  cases a with
  | commitBegin sid call => exact (commitBegin_cases h).2.1
  | commitMessage sid => exact (commitMessage_cases h).1
  | commitEnd sid =>
    obtain ⟨c, hc, hsid, _, _, hwon⟩ := commitEnd_won hI h
    exact ⟨c, hc, hsid, hwon⟩
  | commitFail sid =>
    cases h
    exact ⟨rfl, rfl, rfl⟩
  | _ => trivial

end FirstAux

open FirstAux

/-- In every run: a turn that is finished stays finished the same way; a `commitTurnOutcome` writes the message, with the task's
status, exactly in the step in which its compare-and-set wins; and no step towards an outcome of a turn that was finished
earlier, by a worker that wakes up late or by anyone, writes a task, a message or a leaf. -/
theorem first_terminal_status_wins {s t u : OutcomeState} {a : OutcomeAct} (hs : Steps.Reaches step Steps.Free init s)
    (ht : Steps.Reaches step Steps.Free s t) (hu : t.step a = some u) :
    SettledKept s u ∧ WritesIffWins t a u ∧
      ∀ r ∈ s.tasks, r.status.terminal → Settles t r.id a → Untouched t u := by
  have hIs := (settledKept_of_reaches hs inv_init).1
  obtain ⟨hIt, hst⟩ := settledKept_of_reaches ht hIs
  refine ⟨settledKept_trans hst (settledKept_step hIt hu), writesIffWins_step hIt hu, ?_⟩
  intro r hr hterm ha
  obtain ⟨r', hr', hid, hstat, _⟩ := hst r hr hterm
  exact untouched_of_settles hIt hr' (by rw [hstat, hterm]) (hid ▸ ha) hu

/-- A reply that streams for task 1. -/
def streamingReply : MessageRow where
  id := 10
  chatId := 1
  parentId := none
  content := []
  metadata :=
    { taskId := some 1, status := some .running, parts := some [.text ['H', 'i']], steers := [], error := none,
      errorDetail := none, errorCategory := none }

/-- The outcome worker 5 reports for it. -/
def lateOutcome : CommitCall where
  taskId := 1
  workerId := 5
  status := .completed
  error := none
  messageId := 10
  content := ['H', 'i']
  metadata := { streamingReply.metadata with status := some .completed }
  insert := none
  terminal := rfl

/-- Worker 5 claims task 1 and streams; its lease runs out, and the sweep fails the task and the reply. -/
def reapedRun : List OutcomeAct :=
  [.enqueueTask 1 1 7 none 0, .claimNextTask 1 5 0, .insertMessage streamingReply, .tick 80000, .reconcileZombies 80000 [1] [10]]

/-- The worker wakes up with an outcome, and its commit writes nothing. -/
theorem first_terminal_status_wins_reaped :
    ∃ s u, Steps.Reaches step Steps.Free init s ∧ (∃ r ∈ s.tasks, r.id = 1 ∧ r.status = .failed) ∧
      s.step (.commitBegin 0 lateOutcome) = some u ∧ Untouched s u := by
  obtain ⟨s, hs, ⟨r, hr, hid, hst⟩, hsome⟩ := Steps.exists_of_exec step init reapedRun
    (P := fun s => (∃ r ∈ s.tasks, r.id = 1 ∧ r.status = .failed) ∧ (s.step (.commitBegin 0 lateOutcome)).isSome) (by decide)
  obtain ⟨u, hu⟩ := Option.isSome_iff_exists.mp hsome
  exact ⟨s, u, hs, ⟨r, hr, hid, hst⟩, hu,
    (first_terminal_status_wins hs (.refl s) hu).2.2 r hr (by rw [hst]; rfl) hid.symm⟩

end OutcomeState

end Capka

import Capka.Steers.Turn
import Mathlib.Data.List.Count

/-!
# No steer is lost or doubled

Until the turn is over, every steer that was accepted is in exactly one place: recorded or about to be, unread in a task's column or
in a run's memory, or in a user message. A turn can end, or go on, without its run's own epilogue; `Careful` is the condition that
this happens only where nothing is unread, and that a continuation's slice starts where the reading stopped. Under it nothing is
lost (`steers_conserved_of_careful`); a second suspension is enough to lose a steer (`steers_conserved_false`).
-/

namespace Capka

namespace TurnState

/-- Every steer accepted is recorded, having been put before the model, or in a message, exactly once. -/
def Conserved (s : TurnState) : Prop :=
  s.accepted.Perm (s.recorded ++ s.messages.flatten) ∧ s.recorded ⊆ s.prompted

/-- No task of the turn is live, the reply does not wait on the user, and no run is left with its epilogue to do. -/
def Quiet (s : TurnState) : Prop :=
  (∀ r ∈ s.tasks, r.status.terminal) ∧ ¬s.Awaiting ∧
    match s.phase with
    | .owing _ => False
    | _ => True

/-- No accepted steer is outside the reply's record and the messages. -/
def NothingLeft (s : TurnState) : Prop :=
  match s.phase with
  | .toStart taskId => s.takenOver = [] ∧ readSteers s.tasks taskId = []
  | .streaming run => s.recorded = run.consumed ∧ run.unread (readSteers s.tasks run.taskId) = []
  | .owing run => s.recorded = run.consumed ∧ run.unread (readSteers s.tasks run.taskId) = []
  | .abandoned run => s.recorded = run.consumed ∧ run.unread (readSteers s.tasks run.taskId) = []
  | .suspended => s.takenOver = []
  | .over => True

/-- The outcome of a run that owes a message has landed. -/
def Landed (s : TurnState) : Prop :=
  match s.phase with
  | .owing run => s.Finished run.taskId
  | _ => False

/-- A suspension leaves its continuation exactly what the run has not read. -/
def CarriesOn (s : TurnState) : Prop :=
  match s.phase with
  | .streaming run =>
    (readSteers s.tasks run.taskId).drop run.consumed.length = run.unread (readSteers s.tasks run.taskId)
  | _ => True

/-- The branches that go wrong are not taken. -/
def Careful (s : TurnState) : TurnAct → Prop
  | .start readsCarried => readsCarried = true ∨ s.takenOver = []
  | .commit _ display => display.awaiting = true → s.CarriesOn
  | .persistFails => s.Landed → s.NothingLeft
  | .workerDies => s.Landed → s.NothingLeft
  | .decide _ => s.phase = .over → s.takenOver = []
  | .decideFailed => s.NothingLeft
  | .movedPast => s.phase = .suspended → s.NothingLeft
  | .cancelBeforeStart => s.NothingLeft
  | .cancelQueued => s.NothingLeft
  | .reap => s.NothingLeft
  | .staleSnapshot run => s.phase = .over ∧ s.recorded = run.consumed
  | .stalePersist run => run.unread (readSteers s.tasks run.taskId) = []
  | _ => True

/-- The task the turn is at. -/
def current : TurnPhase → Option Nat
  | .toStart taskId => some taskId
  | .streaming run => some run.taskId
  | .owing run => some run.taskId
  | .abandoned run => some run.taskId
  | .suspended => none
  | .over => none

/-- Where the accepted steers are, by phase. -/
def Ledger (U : Turn) (s : TurnState) : Prop :=
  match s.phase with
  | .toStart taskId =>
    (∃ r ∈ s.tasks, r.id = taskId ∧ r.status.terminal = false ∧ (r.resumeMessageId = some U.messageId ∨ s.row = none)) ∧
      (∀ m, s.row = some m → m.taskId ≠ some taskId) ∧
      s.accepted.Perm (s.recorded ++ s.takenOver ++ readSteers s.tasks taskId ++ s.messages.flatten)
  | .streaming run =>
    run.consumed ⊆ s.prompted ∧ ¬s.Finished run.taskId ∧ run.read ≤ (readSteers s.tasks run.taskId).length ∧
      s.accepted.Perm (run.consumed ++ run.unread (readSteers s.tasks run.taskId) ++ s.messages.flatten)
  | .owing run =>
    (s.Finished run.taskId → s.recorded = run.consumed) ∧ run.read ≤ (readSteers s.tasks run.taskId).length ∧
      s.accepted.Perm (run.consumed ++ run.unread (readSteers s.tasks run.taskId) ++ s.messages.flatten)
  | .abandoned run =>
    ¬s.Finished run.taskId ∧ run.read ≤ (readSteers s.tasks run.taskId).length ∧
      s.accepted.Perm (run.consumed ++ run.unread (readSteers s.tasks run.taskId) ++ s.messages.flatten)
  | .suspended => s.Awaiting ∧ s.accepted.Perm (s.recorded ++ s.takenOver ++ s.messages.flatten)
  | .over => s.accepted.Perm (s.recorded ++ s.messages.flatten)

/-- What holds along a run. -/
structure Inv (U : Turn) (s : TurnState) : Prop where
  live : ∀ r ∈ s.tasks, ¬r.status.terminal → current s.phase = some r.id
  prompted : s.recorded ⊆ s.prompted
  ledger : Ledger U s

namespace SteersAux

/-! ### Reading the column -/

variable {T : Tasks} {k : Nat}

theorem readSteers_modify {f : TaskRow → TaskRow} (hf : ∀ r, (f r).id = r.id)
    (hs : ∀ r, (f r).steers = r.steers) (taskId : Nat) : readSteers (T.modify k f hf) taskId = readSteers T taskId := by
  unfold readSteers
  rw [Table.get_modify]
  cases T.get taskId with
  | none => rfl
  | some r =>
    simp only [Option.map_some, Option.getD_some]
    split
    · exact hs r
    · rfl

variable {r : TaskRow}

theorem readSteers_steered (hr : T.get k = some r) (steer : Steer) (taskId : Nat) :
    readSteers (T.modify k (TaskRow.steered steer) (TaskRow.steered_id steer)) taskId =
      readSteers T taskId ++ if taskId = k then [steer] else [] := by
  unfold readSteers
  rw [Table.get_modify]
  by_cases hk : taskId = k
  · subst hk
    simp [hr, TaskRow.steered]
  · simp [hk]

theorem readSteers_of_mem (hr : r ∈ T) : readSteers T r.id = r.steers := by
  unfold readSteers
  rw [Table.get_eq_some_iff.mpr ⟨hr, rfl⟩]
  rfl

theorem readSteers_finish (s : TurnState) (taskId : Nat) (status : TaskStatus) (id : Nat) :
    readSteers (s.finish taskId status) id = readSteers s.tasks id :=
  readSteers_modify (f := TaskRow.finalized status none) (TaskRow.finalized_id _ _) (fun _ => rfl) id

variable {s t : TurnState}

theorem recorded_shown (status : MessageStatus) (h : t.row = shown status s.row ∨ t.row = s.row) :
    t.recorded = s.recorded := by
  unfold recorded
  rcases h with h | h
  · rw [h]
    unfold shown
    cases s.row <;> rfl
  · rw [h]

variable {U : Turn} {taskId : Nat}

theorem live_finish {status : TaskStatus} (hI : Inv U s)
    (hcur : current s.phase = some taskId) (hterm : status.terminal = true) :
    ∀ r ∈ s.finish taskId status, r.status.terminal := by
  intro r hr
  unfold finish at hr
  rw [Table.mem_modify] at hr
  rcases hr with ⟨r₀, _, _, rfl⟩ | ⟨hr, hne⟩
  · exact hterm
  · cases ht : r.status.terminal with
    | true => rfl
    | false =>
      have hid := hI.live r hr (by rw [ht]; intro h; cases h)
      rw [hcur] at hid
      exact absurd (Option.some.inj hid).symm hne

/-! ### The end of a turn -/

theorem perm_of_nothingLeft (hL : Ledger U s) (h : s.NothingLeft) :
    s.accepted.Perm (s.recorded ++ s.messages.flatten) := by
  unfold Ledger at hL
  unfold NothingLeft at h
  split at hL <;> simp only [*] at h
  · rw [h.1, h.2, List.append_nil, List.append_nil] at hL
    exact hL.2.2
  · rw [h.2, List.append_nil, ← h.1] at hL
    exact hL.2.2.2
  · rw [h.2, List.append_nil, ← h.1] at hL
    exact hL.2.2
  · rw [h.2, List.append_nil, ← h.1] at hL
    exact hL.2.2
  · rw [h, List.append_nil] at hL
    exact hL.2
  · exact hL

theorem inv_over (hI : Inv U s) (h : s.NothingLeft) (hphase : t.phase = .over)
    (hT : ∀ r ∈ t.tasks, r.status.terminal) (hrec : t.recorded = s.recorded) (hmsg : t.messages = s.messages)
    (hacc : t.accepted = s.accepted) (hprompt : t.prompted = s.prompted) : Inv U t := by
  refine ⟨fun r hr hn => absurd (hT r hr) hn, ?_, ?_⟩
  · rw [hrec, hprompt]
    exact hI.prompted
  · unfold Ledger
    rw [hphase]
    dsimp only
    rw [hacc, hrec, hmsg]
    exact perm_of_nothingLeft hI.ledger h

theorem takenOver_congr (hrow : t.row = s.row)
    (hread : ∀ m id, s.row = some m → m.taskId = some id → readSteers t.tasks id = readSteers s.tasks id) :
    t.takenOver = s.takenOver := by
  unfold takenOver
  rw [hrow]
  cases hm : s.row with
  | none => rfl
  | some m =>
    cases hid : m.taskId with
    | none => simp [hid]
    | some id => simp [hid, hread m id hm hid]

theorem takenOver_shown {status : MessageStatus} (hrow : t.row = shown status s.row)
    (hT : t.tasks = s.tasks) : t.takenOver = s.takenOver := by
  unfold takenOver shown at *
  rw [hrow, hT]
  cases s.row <;> rfl

/-- A task of the turn that a step leaves live, and what it goes on with. -/
def Pending (U : Turn) (s : TurnState) (taskId : Nat) : Prop :=
  (∃ r ∈ s.tasks, r.id = taskId ∧ r.status.terminal = false ∧ (r.resumeMessageId = some U.messageId ∨ s.row = none)) ∧
    ∀ m, s.row = some m → m.taskId ≠ some taskId

/-- A step that moves no steer and no phase. -/
structure Frame (U : Turn) (s t : TurnState) : Prop where
  phase : t.phase = s.phase
  recorded : t.recorded = s.recorded
  takenOver : t.takenOver = s.takenOver
  read : ∀ id, readSteers t.tasks id = readSteers s.tasks id
  finished : ∀ id, t.Finished id ↔ s.Finished id
  messages : t.messages = s.messages
  accepted : t.accepted = s.accepted
  prompted : t.prompted = s.prompted
  pending : ∀ id, s.phase = .toStart id → Pending U s id → Pending U t id
  awaiting : s.phase = .suspended → s.Awaiting → t.Awaiting
  live : ∀ r ∈ t.tasks, ¬r.status.terminal → ∃ r₀ ∈ s.tasks, r₀.id = r.id ∧ ¬r₀.status.terminal

theorem inv_of_frame (hI : Inv U s) (hF : Frame U s t) : Inv U t := by
  refine ⟨?_, ?_, ?_⟩
  · intro r hr hn
    obtain ⟨r₀, hr₀, hid, hn₀⟩ := hF.live r hr hn
    rw [hF.phase, ← hid]
    exact hI.live r₀ hr₀ hn₀
  · rw [hF.recorded, hF.prompted]
    exact hI.prompted
  · have hL := hI.ledger
    unfold Ledger at hL ⊢
    rw [hF.phase, hF.accepted, hF.messages, hF.recorded, hF.takenOver, hF.prompted]
    cases hp : s.phase with
    | toStart taskId =>
      simp only [hp] at hL ⊢
      obtain ⟨hrow, hne⟩ := hF.pending taskId hp ⟨hL.1, hL.2.1⟩
      rw [hF.read]
      exact ⟨hrow, hne, hL.2.2⟩
    | streaming run | owing run | abandoned run =>
      simp only [hp] at hL ⊢
      rwa [hF.read, hF.finished]
    | suspended =>
      simp only [hp] at hL ⊢
      exact ⟨hF.awaiting hp hL.1, hL.2⟩
    | «over» =>
      simp only [hp] at hL ⊢
      exact hL

/-! ### Steps on the tasks -/

theorem claimRow_keeps (workerId startedAt : Nat) (r : TaskRow) :
    (claimRow workerId startedAt r).steers = r.steers ∧
      (claimRow workerId startedAt r).status.terminal = r.status.terminal ∧
      (claimRow workerId startedAt r).resumeMessageId = r.resumeMessageId := by
  unfold claimRow
  split
  · rename_i hq
    rw [hq]
    exact ⟨rfl, rfl, rfl⟩
  · exact ⟨rfl, rfl, rfl⟩

/-- A row-wise update that keeps who is finished, and what each row continues. -/
structure SameRows (T T' : Tasks) : Prop where
  back : ∀ r ∈ T', ∃ r₀ ∈ T, r₀.id = r.id ∧ r₀.status.terminal = r.status.terminal
  forth : ∀ r₀ ∈ T, ∃ r ∈ T',
    r.id = r₀.id ∧ r.status.terminal = r₀.status.terminal ∧ r.resumeMessageId = r₀.resumeMessageId

theorem sameRows_modify {f : TaskRow → TaskRow} (hf : ∀ r, (f r).id = r.id)
    (ht : ∀ r, (f r).status.terminal = r.status.terminal) (hresume : ∀ r, (f r).resumeMessageId = r.resumeMessageId) :
    SameRows T (T.modify k f hf) := by
  constructor
  · intro r hr
    rw [Table.mem_modify] at hr
    rcases hr with ⟨r₀, hr₀, _, rfl⟩ | ⟨hr, _⟩
    · exact ⟨r₀, hr₀, (hf r₀).symm, (ht r₀).symm⟩
    · exact ⟨r, hr, rfl, rfl⟩
  · intro r₀ hr₀
    by_cases hk : r₀.id = k
    · exact ⟨f r₀, Table.mem_modify_of_key hf hr₀ hk, hf r₀, ht r₀, hresume r₀⟩
    · exact ⟨r₀, (Table.mem_modify_of_ne hf hk).mpr hr₀, rfl, rfl, rfl⟩

theorem finished_of_sameRows (h : SameRows s.tasks t.tasks) (id : Nat) : t.Finished id ↔ s.Finished id := by
  constructor
  · intro hfin r₀ hr₀ hid
    obtain ⟨r, hr, hrid, hrt, _⟩ := h.forth r₀ hr₀
    rw [← hrt]
    exact hfin r hr (hrid.trans hid)
  · intro hfin r hr hid
    obtain ⟨r₀, hr₀, hrid, hrt⟩ := h.back r hr
    rw [← hrt]
    exact hfin r₀ hr₀ (hrid.trans hid)

theorem pending_of_sameRows (h : SameRows s.tasks t.tasks) (hrow : t.row = s.row) {id : Nat}
    (hP : Pending U s id) : Pending U t id := by
  obtain ⟨⟨r₀, hr₀, hid, hterm, hres⟩, hne⟩ := hP
  obtain ⟨r, hr, hrid, hrt, hrr⟩ := h.forth r₀ hr₀
  refine ⟨⟨r, hr, hrid.trans hid, hrt.trans hterm, ?_⟩, ?_⟩
  · rwa [hrr, hrow]
  · rwa [hrow]

theorem live_of_sameRows (h : SameRows s.tasks t.tasks) :
    ∀ r ∈ t.tasks, ¬r.status.terminal → ∃ r₀ ∈ s.tasks, r₀.id = r.id ∧ ¬r₀.status.terminal := by
  intro r hr hn
  obtain ⟨r₀, hr₀, hid, hterm⟩ := h.back r hr
  exact ⟨r₀, hr₀, hid, by rwa [hterm]⟩

theorem inv_claim (taskId workerId startedAt : Nat) (hI : Inv U s) :
    Inv U { s with tasks := s.tasks.modify taskId (claimRow workerId startedAt) (claimRow_id workerId startedAt) } := by
  have hrows : SameRows s.tasks (s.tasks.modify taskId (claimRow workerId startedAt) (claimRow_id workerId startedAt)) :=
    sameRows_modify _ (fun r => (claimRow_keeps _ _ r).2.1) (fun r => (claimRow_keeps _ _ r).2.2)
  have hread := readSteers_modify (T := s.tasks) (k := taskId) (claimRow_id workerId startedAt)
    (fun r => (claimRow_keeps _ _ r).1)
  exact inv_of_frame hI ⟨rfl, rfl, takenOver_congr rfl fun _ id _ _ => hread id, hread, finished_of_sameRows hrows, rfl, rfl,
    rfl, fun _ _ hP => pending_of_sameRows (t := { s with tasks := _ }) hrows rfl hP, fun _ h => h, live_of_sameRows hrows⟩

theorem perm_insert {accepted kept more rest : List Steer} (h : accepted.Perm (kept ++ rest)) :
    (accepted ++ more).Perm (kept ++ more ++ rest) := by
  refine (h.append_right more).trans ?_
  rw [List.append_assoc, List.append_assoc]
  exact List.perm_append_comm.append_left kept

variable {run : SteerRun}

theorem unread_append {sent : List Steer} (hread : run.read ≤ sent.length) (steer : Steer) :
    run.unread (sent ++ [steer]) = run.unread sent ++ [steer] := by
  unfold SteerRun.unread
  rw [List.drop_append_of_le_length hread, List.append_assoc]

theorem perm_accept {sent accepted rest : List Steer} (steer : Steer) (hread : run.read ≤ sent.length)
    (h : accepted.Perm (run.consumed ++ run.unread sent ++ rest)) :
    run.read ≤ (sent ++ [steer]).length ∧
      (accepted ++ [steer]).Perm (run.consumed ++ run.unread (sent ++ [steer]) ++ rest) := by
  refine ⟨?_, ?_⟩
  · rw [List.length_append]
    exact Nat.le_add_right_of_le hread
  · rw [unread_append hread, ← List.append_assoc run.consumed]
    exact perm_insert h

theorem inv_accept {steer : Steer} (hI : Inv U s) (hr : s.tasks.get r.id = some r)
    (hrun : r.status = .running)
    (hT : t.tasks = s.tasks.modify r.id (TaskRow.steered steer) (TaskRow.steered_id steer)) (hrow : t.row = s.row)
    (hphase : t.phase = s.phase) (hmsg : t.messages = s.messages) (hacc : t.accepted = s.accepted ++ [steer])
    (hprompt : t.prompted = s.prompted) : Inv U t := by
  have hcur := hI.live r (Table.get_eq_some_iff.mp hr).1 (by rw [hrun]; intro h; cases h)
  have hrows : SameRows s.tasks t.tasks := by
    rw [hT]
    exact sameRows_modify _ (fun _ => rfl) (fun _ => rfl)
  have hrec : t.recorded = s.recorded := by
    unfold recorded
    rw [hrow]
  have hread : ∀ id, readSteers t.tasks id = readSteers s.tasks id ++ if id = r.id then [steer] else [] := by
    rw [hT]
    exact readSteers_steered hr steer
  have hL := hI.ledger
  refine ⟨?_, ?_, ?_⟩
  · intro r' hr' hn
    obtain ⟨r₀, hr₀, hid, hn₀⟩ := live_of_sameRows hrows r' hr' hn
    rw [hphase, ← hid]
    exact hI.live r₀ hr₀ hn₀
  · rw [hrec, hprompt]
    exact hI.prompted
  · unfold Ledger at hL ⊢
    rw [hphase, hacc, hmsg, hrec, hprompt]
    cases hp : s.phase with
    | toStart taskId =>
      simp only [hp, current, Option.some.injEq] at hcur hL ⊢
      obtain ⟨hpending, hne⟩ := pending_of_sameRows (U := U) hrows hrow ⟨hL.1, hL.2.1⟩
      have htaken : t.takenOver = s.takenOver := by
        refine takenOver_congr hrow fun m id hm hid => ?_
        have hne' : id ≠ r.id := by
          rintro rfl
          exact hL.2.1 m hm (hid.trans (congrArg some hcur.symm))
        rw [hread, if_neg hne', List.append_nil]
      refine ⟨hpending, hne, ?_⟩
      rw [htaken, hread, if_pos hcur, ← List.append_assoc (s.recorded ++ s.takenOver)]
      exact perm_insert hL.2.2
    | streaming run =>
      simp only [hp, current, Option.some.injEq] at hcur hL ⊢
      rw [hread, if_pos hcur, finished_of_sameRows hrows]
      exact ⟨hL.1, hL.2.1, perm_accept steer hL.2.2.1 hL.2.2.2⟩
    | owing run | abandoned run =>
      simp only [hp, current, Option.some.injEq] at hcur hL ⊢
      rw [hread, if_pos hcur, finished_of_sameRows hrows]
      exact ⟨hL.1, perm_accept steer hL.2.1 hL.2.2⟩
    | suspended | «over» =>
      rw [hp] at hcur
      cases hcur

theorem inv_appendSteer {userId : Nat} {steer : Steer} (hI : Inv U s)
    (h : s.step U (.appendSteer taskId userId steer) = some t) : Inv U t := by
  simp only [step, Option.some.injEq] at h
  subst h
  unfold Capka.appendSteer
  split
  · exact hI
  · rename_i r hr
    split
    · rename_i htakes
      obtain ⟨_, rfl⟩ := Table.get_eq_some_iff.mp hr
      simp only [TaskRow.takesSteer, Bool.and_eq_true, decide_eq_true_eq] at htakes
      exact inv_accept hI hr htakes.1.2 rfl rfl rfl rfl rfl rfl
    · split
      · exact hI
      · exact hI

/-! ### Steps of a run -/

/-- A run that starts accounts for every steer: those on record, those it takes over, those its task was sent. -/
theorem inv_start {readsCarried : Bool} (hI : Inv U s)
    (hok : readsCarried = true ∨ s.takenOver = []) (h : s.start U readsCarried = some t) : Inv U t := by
  have hL := hI.ledger
  unfold start at h
  split at h
  · rename_i taskId hp
    simp only [Option.bind_eq_some_iff, Option.ite_none_right_eq_some] at h
    obtain ⟨r, hr, hrun, h⟩ := h
    obtain ⟨hmem, rfl⟩ := Table.get_eq_some_iff.mp hr
    have hlive : ¬s.Finished r.id := by
      intro hfin
      have := hfin r hmem rfl
      rw [hrun] at this
      cases this
    have hcur := hI.live
    simp only [Ledger, hp, current] at hL hcur
    obtain ⟨⟨r', hr', hid, _, hresume⟩, _, hperm⟩ := hL
    obtain rfl := Table.eq_of_key hr' hmem hid
    split at h
    · cases h
      refine ⟨hcur, hI.prompted, hI.prompted, hlive, Nat.zero_le _, ?_⟩
      have hcarried : (if readsCarried = true then s.takenOver else []) = s.takenOver := by
        rcases hok with rfl | hnil
        · rfl
        · rw [hnil, ite_self]
      simp only [SteerRun.unread, hcarried, List.drop_zero]
      rwa [← List.append_assoc]
    · rename_i hne
      have hrow : s.row = none := hresume.resolve_left hne
      cases h
      refine ⟨hcur, List.nil_subset _, List.nil_subset _, hlive, Nat.zero_le _, ?_⟩
      simpa [recorded, takenOver, hrow, SteerRun.unread] using hperm
  · cases h

theorem inv_prepareStep (hI : Inv U s) (h : s.step U .prepareStep = some t) : Inv U t := by
  have hL := hI.ledger
  simp only [step] at h
  split at h
  · rename_i run hp
    have hcur := hI.live
    simp only [Ledger, hp, current] at hL hcur
    obtain ⟨hsub, hlive, _, hperm⟩ := hL
    cases h
    refine ⟨hcur, fun x hx => List.mem_append_left _ (hI.prompted hx), ?_, hlive, Nat.le_refl _, ?_⟩
    · intro x hx
      rcases List.mem_append.mp hx with hx | hx
      · exact List.mem_append_left _ (hsub hx)
      · exact List.mem_append_right _ hx
    · simpa [SteerRun.prepareStep, SteerRun.unread] using hperm
  · cases h

theorem inv_snapshot (hI : Inv U s) (h : s.step U .snapshot = some t) : Inv U t := by
  have hL := hI.ledger
  simp only [step] at h
  split at h
  · rename_i run hp
    have hcur := hI.live
    cases h
    simp only [Ledger, hp, current] at hL hcur
    refine ⟨?_, hL.1, ?_⟩
    · simpa only [hp, current] using hcur
    · unfold Ledger
      simp only [hp]
      exact hL
  · cases h

/-- An outcome that lands. A suspension hands on what is unread, any other status owes it a message. -/
theorem inv_commit {status : TaskStatus} {display : MessageStatus} (hI : Inv U s)
    (hok : display.awaiting = true → s.CarriesOn) (h : s.commit status display = some t) : Inv U t := by
  have hL := hI.ledger
  unfold commit at h
  split at h
  · rename_i run hp
    simp only [Option.ite_none_right_eq_some, Option.some.injEq] at h
    obtain ⟨hterm, rfl⟩ := h
    have hall := live_finish hI (by rw [hp]; rfl) hterm
    have hread := readSteers_finish s run.taskId status run.taskId
    simp only [Ledger, CarriesOn, hp] at hL hok
    obtain ⟨hsub, _, hle, hperm⟩ := hL
    refine ⟨fun r hr hn => absurd (hall r hr) hn, hsub, ?_⟩
    cases hd : display.awaiting with
    | true =>
      refine ⟨⟨_, rfl, ?_⟩, ?_⟩
      · exact hd
      · have htaken : (readSteers (s.finish run.taskId status) run.taskId).drop run.consumed.length =
            run.unread (readSteers s.tasks run.taskId) := by
          rw [hread]
          exact hok hd
        simpa only [recorded, takenOver, metaOf, Option.map_some, Option.getD_some, htaken] using hperm
    | false =>
      refine ⟨fun _ => rfl, ?_, ?_⟩
      · rwa [hread]
      · rwa [hread]
  · cases h

theorem inv_commitThrows (hI : Inv U s) (h : s.step U .commitThrows = some t) : Inv U t := by
  have hL := hI.ledger
  simp only [step] at h
  split at h
  · rename_i run hp
    have hcur := hI.live
    simp only [Ledger, hp, current] at hL hcur
    cases h
    exact ⟨hcur, hI.prompted, fun hfin => absurd hfin hL.2.1, hL.2.2⟩
  · cases h

theorem flatten_persistUnreadSteers (s : TurnState) (run : SteerRun) :
    (s.persistUnreadSteers run).flatten = s.messages.flatten ++ run.unread (readSteers s.tasks run.taskId) := by
  unfold persistUnreadSteers
  dsimp only
  split
  · rename_i hnil
    rw [hnil, List.append_nil]
  · rw [List.flatten_append, List.flatten_singleton]

theorem inv_persist (hI : Inv U s) (h : s.persist = some t) : Inv U t := by
  have hL := hI.ledger
  unfold persist at h
  split at h
  · rename_i run hp
    have hcur := hI.live
    simp only [Ledger, hp, current] at hL hcur
    obtain ⟨hrec, hle, hperm⟩ := hL
    have hmsg := flatten_persistUnreadSteers s run
    have hsum : s.accepted.Perm (run.consumed ++ (s.messages.flatten ++ run.unread (readSteers s.tasks run.taskId))) := by
      refine hperm.trans ?_
      rw [List.append_assoc]
      exact List.perm_append_comm.append_left _
    cases h
    by_cases hfin : s.Finished run.taskId
    · refine ⟨?_, hI.prompted, ?_⟩
      · intro r hr hn
        have hid := Option.some.inj (hcur r hr hn)
        exact absurd (hfin r hr hid.symm) hn
      · simp only [Ledger, if_pos hfin, hmsg]
        have hrec' := hrec hfin
        unfold recorded at hrec' ⊢
        rw [hrec']
        exact hsum
    · refine ⟨?_, hI.prompted, ?_⟩
      · simpa only [if_neg hfin, current, SteerRun.persisted] using hcur
      · simp only [Ledger, if_neg hfin, hmsg]
        refine ⟨hfin, Nat.le_refl _, ?_⟩
        simpa [SteerRun.persisted, SteerRun.unread] using hsum
  · cases h

theorem inv_gone (hI : Inv U s) (hcur : current s.phase = some run.taskId)
    (hok : s.Finished run.taskId → s.NothingLeft)
    (hL : run.read ≤ (readSteers s.tasks run.taskId).length ∧
      s.accepted.Perm (run.consumed ++ run.unread (readSteers s.tasks run.taskId) ++ s.messages.flatten)) :
    Inv U (s.gone run) := by
  have hlive := hI.live
  rw [hcur] at hlive
  by_cases hfin : s.Finished run.taskId
  · refine inv_over hI (hok hfin) (if_pos hfin) ?_ rfl rfl rfl rfl
    intro r hr
    by_contra hn
    exact hn (hfin r hr (Option.some.inj (hlive r hr hn)).symm)
  · refine ⟨?_, hI.prompted, ?_⟩
    · simpa only [gone, if_neg hfin, current] using hlive
    · simp only [Ledger, gone, if_neg hfin]
      exact ⟨hfin, hL⟩

theorem inv_workerDies (hI : Inv U s) (hok : s.Landed → s.NothingLeft)
    (h : s.step U .workerDies = some t) : Inv U t := by
  have hL := hI.ledger
  simp only [step] at h
  split at h
  · rename_i run hp
    simp only [Ledger, hp] at hL
    cases h
    exact inv_gone hI (by rw [hp]; rfl) (fun hfin => absurd hfin hL.2.1) hL.2.2
  · rename_i run hp
    simp only [Ledger, hp] at hL
    simp only [Landed, hp] at hok
    cases h
    exact inv_gone hI (by rw [hp]; rfl) hok hL.2
  · cases h

theorem inv_persistFails (hI : Inv U s) (hok : s.Landed → s.NothingLeft)
    (h : s.step U .persistFails = some t) : Inv U t := by
  have hL := hI.ledger
  simp only [step] at h
  split at h
  · rename_i run hp
    simp only [Ledger, hp] at hL
    simp only [Landed, hp] at hok
    cases h
    exact inv_gone hI (by rw [hp]; rfl) hok hL.2
  · cases h

/-! ### Steps between runs -/

theorem settled_of_between (hI : Inv U s) (h : current s.phase = none) :
    ∀ r ∈ s.tasks, r.status.terminal := by
  intro r hr
  by_contra hn
  have hid := hI.live r hr hn
  rw [h] at hid
  cases hid

theorem inv_decide (hI : Inv U s) (hok : s.phase = .over → s.takenOver = [])
    (h : s.enqueueContinuation U taskId = some t) : Inv U t := by
  have hL := hI.ledger
  simp only [enqueueContinuation, Option.ite_none_right_eq_some, Option.map_eq_some_iff] at h
  obtain ⟨hphase, ⟨_, hne⟩, T, hT, rfl⟩ := h
  have hmem := fun r => (mem_of_insertQueued (x := r) hT).1
  have hcur : current s.phase = none := by
    rcases hphase with hp | hp <;> rw [hp] <;> rfl
  have hperm : s.accepted.Perm (s.recorded ++ s.takenOver ++ s.messages.flatten) := by
    unfold Ledger at hL
    rcases hphase with hp | hp <;> simp only [hp] at hL
    · exact hL.2
    · rwa [hok hp, List.append_nil]
  have hget : ∀ id, T.get id = if taskId = id then some (.fresh taskId U.chatId U.userId (some U.messageId) 0)
      else s.tasks.get id := by
    unfold insertQueued at hT
    split at hT
    · exact Table.get_of_insert hT
    · cases hT
  have htaken : ({ s with tasks := T, phase := .toStart taskId } : TurnState).takenOver = s.takenOver := by
    refine takenOver_congr rfl fun m id hm hid => ?_
    have hne' : taskId ≠ id := by
      rintro rfl
      exact hne m hm hid
    unfold readSteers
    rw [hget, if_neg hne']
  refine ⟨?_, hI.prompted, ?_, hne, ?_⟩
  · intro r hr hn
    rcases (hmem r).mp hr with hr | rfl
    · exact absurd (settled_of_between hI hcur r hr) hn
    · rfl
  · exact ⟨_, (hmem _).mpr (.inr rfl), rfl, rfl, .inl rfl⟩
  · have hnil : readSteers T taskId = [] := by
      unfold readSteers
      rw [hget, if_pos rfl]
      rfl
    rw [htaken, hnil, List.append_nil]
    exact hperm

theorem inv_decideFailed (hI : Inv U s) (hok : s.NothingLeft)
    (h : s.step U .decideFailed = some t) : Inv U t := by
  simp only [step, Option.ite_none_right_eq_some, Option.some.injEq] at h
  obtain ⟨hp, rfl⟩ := h
  have hall := settled_of_between hI (by rw [hp]; rfl)
  exact inv_over hI hok rfl hall (recorded_shown _ (.inl rfl)) rfl rfl rfl

theorem inv_movedPast (hI : Inv U s) (hok : s.phase = .suspended → s.NothingLeft)
    (h : s.step U .movedPast = some t) : Inv U t := by
  simp only [step, Option.ite_none_right_eq_some, Option.some.injEq] at h
  obtain ⟨_, rfl⟩ := h
  by_cases hp : s.phase = .suspended
  · have hall := settled_of_between hI (by rw [hp]; rfl)
    exact inv_over hI (hok hp) (if_pos hp) hall (recorded_shown _ (.inl rfl)) rfl rfl rfl
  · rw [if_neg hp]
    refine inv_of_frame hI ⟨rfl, recorded_shown _ (.inl rfl), takenOver_shown rfl rfl, fun _ => rfl, fun _ => Iff.rfl, rfl, rfl,
      rfl, ?_, fun hp' => absurd hp' hp, fun r hr hn => ⟨r, hr, rfl, hn⟩⟩
    rintro id _ ⟨⟨r, hr, hid, hterm, hres⟩, hne⟩
    refine ⟨⟨r, hr, hid, hterm, hres.imp_right fun hrow => ?_⟩, fun m hm => ?_⟩
    · simp only [shown, hrow, Option.map_none]
    · obtain ⟨m₀, hm₀, rfl⟩ := Option.map_eq_some_iff.mp hm
      exact hne m₀ hm₀

theorem recorded_cancelled (h : t.row = s.cancelled) : t.recorded = s.recorded := by
  unfold cancelled at h
  split at h
  · exact recorded_shown _ (.inl h)
  · exact recorded_shown .cancelled (.inr h)

theorem inv_cancelBeforeStart (hI : Inv U s) (hok : s.NothingLeft)
    (h : s.step U .cancelBeforeStart = some t) : Inv U t := by
  simp only [step] at h
  split at h
  · rename_i taskId hp
    simp only [Option.ite_none_right_eq_some, Option.some.injEq] at h
    obtain ⟨_, rfl⟩ := h
    exact inv_over hI hok rfl (live_finish hI (by rw [hp]; rfl) rfl) (recorded_cancelled rfl) rfl rfl rfl
  · cases h

theorem inv_cancelQueued (hI : Inv U s) (hok : s.NothingLeft)
    (h : s.step U .cancelQueued = some t) : Inv U t := by
  simp only [step] at h
  split at h
  · rename_i taskId hp
    simp only [Option.ite_none_right_eq_some, Option.some.injEq] at h
    obtain ⟨_, rfl⟩ := h
    refine inv_over hI hok rfl ?_ (recorded_cancelled rfl) rfl rfl rfl
    intro r hr
    obtain ⟨hr, hne⟩ := Table.mem_erase.mp hr
    by_contra hn
    have hid := hI.live r hr hn
    rw [hp] at hid
    exact hne (Option.some.inj hid).symm
  · cases h

theorem reap_cases (h : s.reap = some t) :
    ∃ taskId, current s.phase = some taskId ∧ t.tasks = s.finish taskId .failed ∧ t.phase = .over ∧
      (t.row = shown .failed s.row ∨ t.row = s.row) ∧ t.messages = s.messages ∧ t.accepted = s.accepted ∧
      t.prompted = s.prompted := by
  unfold reap at h
  cases hp : s.phase <;> simp only [hp, Option.ite_none_right_eq_some, Option.some.injEq, reduceCtorEq] at h
  all_goals
    obtain ⟨_, rfl⟩ := h
    exact ⟨_, rfl, rfl, rfl, by dsimp only; split <;> simp, rfl, rfl, rfl⟩

theorem inv_reap (hI : Inv U s) (hok : s.NothingLeft) (h : s.reap = some t) : Inv U t := by
  obtain ⟨taskId, hcur, hT, hphase, hrow, hmsg, hacc, hprompt⟩ := reap_cases h
  refine inv_over hI hok hphase ?_ (recorded_shown _ hrow) hmsg hacc hprompt
  rw [hT]
  exact live_finish hI hcur rfl

/-! ### Steps of stale runs -/

theorem inv_staleStep (hI : Inv U s) (h : s.staleStep run = some t) : Inv U t := by
  have hL := hI.ledger
  simp only [staleStep, Option.ite_none_right_eq_some, Option.some.injEq] at h
  obtain ⟨_, rfl⟩ := h
  have hsub : s.prompted ⊆ s.prompted ++ run.unread (readSteers s.tasks run.taskId) := List.subset_append_left _ _
  refine ⟨hI.live, fun x hx => hsub (hI.prompted hx), ?_⟩
  unfold Ledger at hL ⊢
  cases hp : s.phase <;> simp only [hp] at hL ⊢
  case streaming run' => exact ⟨List.Subset.trans hL.1 hsub, hL.2⟩
  all_goals exact hL

theorem inv_staleSnapshot (hI : Inv U s)
    (hok : s.phase = .over ∧ s.recorded = run.consumed) (h : s.step U (.staleSnapshot run) = some t) : Inv U t := by
  simp only [step, Option.ite_none_right_eq_some, Option.some.injEq] at h
  obtain ⟨_, rfl⟩ := h
  obtain ⟨hp, hrec⟩ := hok
  have hall := settled_of_between hI (by rw [hp]; rfl)
  refine inv_over hI ?_ hp hall hrec.symm rfl rfl rfl
  unfold NothingLeft
  rw [hp]
  trivial

theorem inv_stalePersist (hI : Inv U s)
    (hok : run.unread (readSteers s.tasks run.taskId) = []) (h : s.step U (.stalePersist run) = some t) : Inv U t := by
  simp only [step, Option.ite_none_right_eq_some, Option.some.injEq] at h
  obtain ⟨_, rfl⟩ := h
  have hmsg : s.persistUnreadSteers run = s.messages := if_pos hok
  rw [hmsg]
  exact inv_of_frame hI ⟨rfl, rfl, rfl, fun _ => rfl, fun _ => Iff.rfl, rfl, rfl, rfl, fun _ _ hP => hP, fun _ hP => hP,
    fun r hr hn => ⟨r, hr, rfl, hn⟩⟩

theorem inv_step {a : TurnAct} (hI : Inv U s) (hok : s.Careful a) (h : s.step U a = some t) :
    Inv U t := by
  cases a with
  | claim taskId workerId startedAt =>
    cases h
    exact inv_claim taskId workerId startedAt hI
  | start readsCarried => exact inv_start hI hok h
  | appendSteer taskId userId steer => exact inv_appendSteer hI h
  | prepareStep => exact inv_prepareStep hI h
  | snapshot => exact inv_snapshot hI h
  | commit status display => exact inv_commit hI hok h
  | commitThrows => exact inv_commitThrows hI h
  | persist => exact inv_persist hI h
  | persistFails => exact inv_persistFails hI hok h
  | workerDies => exact inv_workerDies hI hok h
  | «decide» taskId => exact inv_decide hI hok h
  | decideFailed => exact inv_decideFailed hI hok h
  | movedPast => exact inv_movedPast hI hok h
  | cancelBeforeStart => exact inv_cancelBeforeStart hI hok h
  | cancelQueued => exact inv_cancelQueued hI hok h
  | reap => exact inv_reap hI hok h
  | staleStep run => exact inv_staleStep hI h
  | staleSnapshot run => exact inv_staleSnapshot hI hok h
  | stalePersist run => exact inv_stalePersist hI hok h

theorem inv_init (U : Turn) : Inv U (init U) := by
  refine ⟨?_, List.nil_subset _, ?_, nofun, ?_⟩
  · intro r hr _
    rw [List.mem_singleton.mp hr]
    rfl
  · exact ⟨_, List.mem_singleton.mpr rfl, rfl, rfl, .inr rfl⟩
  · have hrow : TaskRow.fresh U.turnId U.chatId U.userId none 0 ∈ (init U).tasks := List.mem_singleton.mpr rfl
    have hread : readSteers (init U).tasks U.turnId = [] := readSteers_of_mem hrow
    rw [hread]
    exact List.Perm.refl _

theorem conserved_of_quiet (hI : Inv U s) (hq : s.Quiet) : s.Conserved := by
  obtain ⟨hterm, hawait, howing⟩ := hq
  refine ⟨?_, hI.prompted⟩
  have hL := hI.ledger
  unfold Ledger at hL
  cases hp : s.phase with
  | toStart taskId =>
    simp only [hp] at hL
    obtain ⟨⟨r, hr, _, hlive, _⟩, _⟩ := hL
    rw [hterm r hr] at hlive
    cases hlive
  | streaming run =>
    simp only [hp] at hL
    exact absurd (fun r hr _ => hterm r hr) hL.2.1
  | owing run =>
    rw [hp] at howing
    exact howing.elim
  | abandoned run =>
    simp only [hp] at hL
    exact absurd (fun r hr _ => hterm r hr) hL.1
  | suspended =>
    simp only [hp] at hL
    exact absurd hL.1 hawait
  | «over» =>
    simp only [hp] at hL
    exact hL

end SteersAux

open SteersAux

/-- In every run of a turn whose steps are all careful, once nothing is live, owed or awaited, every accepted steer is recorded or
in a message, and no steer is there twice. -/
theorem steers_conserved_of_careful {U : Turn} {s : TurnState} (h : Steps.Reaches (step U) Careful (init U) s) (hq : s.Quiet) :
    s.Conserved :=
  conserved_of_quiet (h.invariant (I := Inv U) (fun _ _ _ hx hok hstep => inv_step hx hok hstep) (inv_init U)) hq

instance (s : TurnState) : Decidable s.Conserved :=
  inferInstanceAs (Decidable (s.accepted.Perm (s.recorded ++ s.messages.flatten) ∧ s.recorded ⊆ s.prompted))

instance (s : TurnState) : Decidable s.Quiet :=
  have : Decidable (match s.phase with | .owing _ => False | _ => True) :=
    match s.phase with
    | .owing _ => .isFalse id
    | .toStart _ | .streaming _ | .abandoned _ | .suspended | .over => .isTrue trivial
  inferInstanceAs (Decidable ((∀ r ∈ s.tasks, r.status.terminal) ∧ ¬s.Awaiting ∧ _))

instance : (s : TurnState) → Decidable s.NothingLeft
  | ⟨_, _, .toStart _, _, _, _, _⟩ => inferInstanceAs (Decidable (_ = _ ∧ _ = _))
  | ⟨_, _, .streaming _, _, _, _, _⟩ => inferInstanceAs (Decidable (_ = _ ∧ _ = _))
  | ⟨_, _, .owing _, _, _, _, _⟩ => inferInstanceAs (Decidable (_ = _ ∧ _ = _))
  | ⟨_, _, .abandoned _, _, _, _, _⟩ => inferInstanceAs (Decidable (_ = _ ∧ _ = _))
  | ⟨_, _, .suspended, _, _, _, _⟩ => inferInstanceAs (Decidable (_ = _))
  | ⟨_, _, .over, _, _, _, _⟩ => .isTrue trivial

instance : (s : TurnState) → Decidable s.Landed
  | ⟨T, row, .owing run, stale, messages, accepted, prompted⟩ =>
    inferInstanceAs (Decidable (Finished ⟨T, row, .owing run, stale, messages, accepted, prompted⟩ run.taskId))
  | ⟨_, _, .toStart _, _, _, _, _⟩ | ⟨_, _, .streaming _, _, _, _, _⟩ | ⟨_, _, .abandoned _, _, _, _, _⟩
  | ⟨_, _, .suspended, _, _, _, _⟩ | ⟨_, _, .over, _, _, _, _⟩ => .isFalse id

instance : (s : TurnState) → Decidable s.CarriesOn
  | ⟨_, _, .streaming _, _, _, _, _⟩ => inferInstanceAs (Decidable (_ = _))
  | ⟨_, _, .toStart _, _, _, _, _⟩ | ⟨_, _, .owing _, _, _, _, _⟩ | ⟨_, _, .abandoned _, _, _, _, _⟩
  | ⟨_, _, .suspended, _, _, _, _⟩ | ⟨_, _, .over, _, _, _, _⟩ => .isTrue trivial

instance (s : TurnState) : (a : TurnAct) → Decidable (s.Careful a)
  | .start readsCarried => inferInstanceAs (Decidable (readsCarried = true ∨ s.takenOver = []))
  | .commit _ display => inferInstanceAs (Decidable (display.awaiting = true → s.CarriesOn))
  | .persistFails | .workerDies => inferInstanceAs (Decidable (s.Landed → s.NothingLeft))
  | .decide _ => inferInstanceAs (Decidable (s.phase = .over → s.takenOver = []))
  | .movedPast => inferInstanceAs (Decidable (s.phase = .suspended → s.NothingLeft))
  | .decideFailed | .cancelBeforeStart | .cancelQueued | .reap => inferInstanceAs (Decidable s.NothingLeft)
  | .staleSnapshot run => inferInstanceAs (Decidable (s.phase = .over ∧ s.recorded = run.consumed))
  | .stalePersist run => inferInstanceAs (Decidable (run.unread (readSteers s.tasks run.taskId) = []))
  | .claim _ _ _ | .appendSteer _ _ _ | .prepareStep | .snapshot | .commitThrows | .persist | .staleStep _ => .isTrue trivial

/-- A turn of user 7 whose reply is message 10. -/
def steeredTurn : Turn where
  messageId := 10
  chatId := 1
  userId := 7
  turnId := 100

/-- The first task runs, reads one steer and suspends. -/
def readsOneAndSuspends : List TurnAct :=
  [.claim 100 5 0, .start true, .appendSteer 100 7 ⟨1, "one"⟩, .prepareStep, .commit .completed .awaitingApproval]

/-- A continuation starts. -/
def goesOn (taskId : Nat) : List TurnAct := [.decide taskId, .claim taskId 5 0, .start true]

/-- A run finishes, and turns what it did not read into a message. -/
def finishes : List TurnAct := [.commit .completed .completed, .persist]

/-- One suspension: its continuation carries the unread steer over and reads it, and a later one becomes a message. -/
def suspendedOnce : List TurnAct :=
  [.claim 100 5 0, .start true, .appendSteer 100 7 ⟨1, "one"⟩, .prepareStep, .appendSteer 100 7 ⟨2, "two"⟩,
      .commit .completed .awaitingApproval] ++
    goesOn 101 ++ [.prepareStep, .appendSteer 101 7 ⟨3, "three"⟩] ++ finishes

/-- Two suspensions: the steer that reaches the second task after its last step is skipped by the count of the first. -/
def suspendedTwice : List TurnAct :=
  readsOneAndSuspends ++ goesOn 101 ++
    [.prepareStep, .appendSteer 101 7 ⟨2, "two"⟩, .commit .completed .awaitingApproval] ++ goesOn 102 ++ [.prepareStep] ++ finishes

theorem steers_conserved_suspended_once :
    ∃ s, Steps.Reaches (step steeredTurn) Careful (init steeredTurn) s ∧ s.Quiet ∧ s.accepted.length = 3 ∧ s.Conserved := by
  obtain ⟨s, hs, hq, hlen⟩ := Steps.exists_of_execOk (step steeredTurn) Careful (init steeredTurn)
    suspendedOnce (P := fun s => s.Quiet ∧ s.accepted.length = 3) (by decide)
  exact ⟨s, hs, hq, hlen, steers_conserved_of_careful hs hq⟩

/-- A second suspension loses a steer: it is neither recorded nor in a message. -/
theorem steers_conserved_false :
    ¬∀ (U : Turn) (s : TurnState), Steps.Reaches (step U) Steps.Free (init U) s → s.Quiet → s.Conserved := by
  intro h
  obtain ⟨s, hs, hq, hlost⟩ := Steps.exists_of_exec (step steeredTurn) (init steeredTurn) suspendedTwice
    (P := fun s => s.Quiet ∧ ¬s.Conserved) (by decide)
  exact hlost (h steeredTurn s hs hq)

end TurnState

end Capka

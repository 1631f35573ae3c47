import Capka.Decisions.Kept

/-!
# Decisions are single-use and never lost

The answers and the holds of the decisions, and the claim about runs: where no step is disturbed, each call receives at most one
decision, every decision stays on the row and its continuation is the run that acts on it, and a refusal leaves nothing behind
(`decisions_upheld_of_undisturbed`). Two decisions read together, the second applied once the first one's continuation was
claimed, undo the first (`decisions_upheld_false`).
-/

namespace Capka

namespace DecisionState

/-- What holds of the decisions in flight and of the answers given. -/
structure Books (s : DecisionState) : Prop where
  unwritten : ∀ d ∈ s.decisions, d.phase ≠ .committed → (∀ r ∈ s.tasks, r.id ≠ d.taskId) ∧ ∀ e ∈ s.log, e.sid ≠ d.sid
  unheld : ∀ d ∈ s.decisions, d.phase = .read → d.taskId ∉ s.holds
  ownTask : ∀ d ∈ s.decisions, ∀ d' ∈ s.decisions, d.taskId = d'.taskId → d = d'
  recorded : ∀ d ∈ s.decisions, d.phase = .committed →
    ∃ e ∈ s.log, e.sid = d.sid ∧ (d.failure = none → e.taskId = some d.taskId)
  rolledBack : ∀ d ∈ s.decisions, ∀ answer, d.phase = .rolledBack answer → answer.refused
  logged : ∀ e ∈ s.log, (∃ d ∈ s.decisions, d.sid = e.sid) ∨ ∃ a ∈ s.answers, a.sid = e.sid
  apart : ∀ a ∈ s.answers, ∀ d ∈ s.decisions, a.sid ≠ d.sid ∧ a.taskId ≠ d.taskId
  answered : ∀ a ∈ s.answers, a.answer = .applied → ∃ d ∈ s.log, d.sid = a.sid ∧ d.taskId = some a.taskId
  refused : ∀ a ∈ s.answers, a.answer.refused → (∀ d ∈ s.log, d.sid ≠ a.sid) ∧ a.taskId ∉ s.holds ∧ ∀ r ∈ s.tasks, r.id ≠ a.taskId

namespace BooksAux

variable {R : Reply} {s t : DecisionState}

theorem books_of_kept (hB : Books s) (hd : t.decisions = s.decisions) (hl : t.log = s.log)
    (ha : t.answers = s.answers) (hh : ∀ id ∈ t.holds, id ∈ s.holds)
    (hT : ∀ r ∈ t.tasks, (∃ r₀ ∈ s.tasks, r₀.id = r.id) ∨ s.Fresh R r.id) : Books t := by
  constructor
  · rw [hd, hl]
    intro d hdm hp
    refine ⟨fun r hr heq => ?_, (hB.unwritten d hdm hp).2⟩
    rcases hT r hr with ⟨r₀, hr₀, hid⟩ | hfresh
    · exact (hB.unwritten d hdm hp).1 r₀ hr₀ (hid.trans heq)
    · exact hfresh.2.2.2.1 d hdm heq.symm
  · rw [hd]
    exact fun d hdm hp hin => hB.unheld d hdm hp (hh _ hin)
  · rw [hd]
    exact hB.ownTask
  · rw [hd, hl]
    exact hB.recorded
  · rw [hd]
    exact hB.rolledBack
  · rw [hd, hl, ha]
    exact hB.logged
  · rw [hd, ha]
    exact hB.apart
  · rw [hl, ha]
    exact hB.answered
  · rw [hl, ha]
    intro a ham href
    obtain ⟨h₁, h₂, h₃⟩ := hB.refused a ham href
    refine ⟨h₁, fun hin => h₂ (hh _ hin), fun r hr heq => ?_⟩
    rcases hT r hr with ⟨r₀, hr₀, hid⟩ | hfresh
    · exact h₃ r₀ hr₀ (hid.trans heq)
    · exact hfresh.2.2.2.2 a ham heq.symm

variable {d : DecisionStmt}

theorem books_advance (phase : DecisionPhase) (failure : Option TurnFailure)
    (hB : Books s) (hd : d ∈ s.decisions) (hfrom : d.phase ≠ .committed) (hto : phase ≠ .read)
    (hdec : t.decisions = (s.advance d.sid phase failure).decisions) (ha : t.answers = s.answers)
    (hh : ∀ id ∈ t.holds, id ∈ s.holds ∨ id = d.taskId) (hl : ∀ e ∈ s.log, e ∈ t.log)
    (hl' : ∀ e ∈ t.log, e ∈ s.log ∨ (e.sid = d.sid ∧ phase = .committed))
    (hT : ∀ r ∈ t.tasks, r ∈ s.tasks ∨ (r.id = d.taskId ∧ phase = .committed))
    (hrec : phase = .committed → ∃ e ∈ t.log, e.sid = d.sid ∧ (failure = none → e.taskId = some d.taskId))
    (hback : ∀ answer, phase = .rolledBack answer → answer.refused) : Books t := by
  have hmem : ∀ d' ∈ t.decisions, d' = inPhase phase failure d ∨ (d' ∈ s.decisions ∧ d'.sid ≠ d.sid) := by
    intro d' hd'
    rw [hdec] at hd'
    rcases SingleAux.mem_advance hd' with ⟨d₀, hd₀, hsid, rfl⟩ | hother
    · rw [Table.eq_of_key hd₀ hd hsid]
      exact .inl rfl
    · exact .inr hother
  have hforth : ∀ d' ∈ s.decisions, ∃ d'' ∈ t.decisions, d''.sid = d'.sid := by
    intro d' hd'
    rw [hdec]
    by_cases hsid : d'.sid = d.sid
    · exact ⟨_, Table.mem_modify_of_key (inPhase_sid phase failure) hd' hsid, rfl⟩
    · exact ⟨d', (Table.mem_modify_of_ne (inPhase_sid phase failure) hsid).mpr hd', rfl⟩
  have hother : ∀ d' ∈ s.decisions, d'.sid ≠ d.sid → d'.taskId ≠ d.taskId := by
    intro d' hd' hne heq
    exact hne (congrArg DecisionStmt.sid (hB.ownTask d' hd' d hd heq))
  obtain ⟨hnoTask, hnoLog⟩ := hB.unwritten d hd hfrom
  constructor
  · intro d' hd' hp
    rcases hmem d' hd' with rfl | ⟨hd', hne⟩
    · refine ⟨fun r hr => ?_, fun e he => ?_⟩
      · rcases hT r hr with hr | ⟨_, hc⟩
        · exact hnoTask r hr
        · exact absurd hc hp
      · rcases hl' e he with he | ⟨_, hc⟩
        · exact hnoLog e he
        · exact absurd hc hp
    · obtain ⟨h₁, h₂⟩ := hB.unwritten d' hd' hp
      refine ⟨fun r hr => ?_, fun e he => ?_⟩
      · rcases hT r hr with hr | ⟨hid, _⟩
        · exact h₁ r hr
        · rw [hid]
          exact (hother d' hd' hne).symm
      · rcases hl' e he with he | ⟨hsid, _⟩
        · exact h₂ e he
        · rw [hsid]
          exact hne.symm
  · intro d' hd' hp
    rcases hmem d' hd' with rfl | ⟨hd', hne⟩
    · exact absurd hp hto
    · intro hin
      rcases hh _ hin with hin | heq
      · exact hB.unheld d' hd' hp hin
      · exact hother d' hd' hne heq
  · intro d₁ hd₁ d₂ hd₂ heq
    rcases hmem d₁ hd₁ with rfl | ⟨hd₁, hne₁⟩ <;> rcases hmem d₂ hd₂ with rfl | ⟨hd₂, hne₂⟩
    · rfl
    · exact absurd heq.symm (hother d₂ hd₂ hne₂)
    · exact absurd heq (hother d₁ hd₁ hne₁)
    · exact hB.ownTask d₁ hd₁ d₂ hd₂ heq
  · intro d' hd' hp
    rcases hmem d' hd' with rfl | ⟨hd', _⟩
    · exact hrec hp
    · obtain ⟨e, he, hrest⟩ := hB.recorded d' hd' hp
      exact ⟨e, hl e he, hrest⟩
  · intro d' hd' answer hp
    rcases hmem d' hd' with rfl | ⟨hd', _⟩
    · exact hback answer hp
    · exact hB.rolledBack d' hd' answer hp
  · intro e he
    rw [ha]
    rcases hl' e he with he | ⟨hsid, _⟩
    · rcases hB.logged e he with ⟨d', hd', hsid⟩ | hans
      · obtain ⟨d'', hd'', hsid'⟩ := hforth d' hd'
        exact .inl ⟨d'', hd'', hsid'.trans hsid⟩
      · exact .inr hans
    · obtain ⟨d'', hd'', hsid'⟩ := hforth d hd
      exact .inl ⟨d'', hd'', hsid'.trans hsid.symm⟩
  · rw [ha]
    intro a ham d' hd'
    rcases hmem d' hd' with rfl | ⟨hd', _⟩
    · exact hB.apart a ham d hd
    · exact hB.apart a ham d' hd'
  · rw [ha]
    intro a ham happ
    obtain ⟨e, he, hrest⟩ := hB.answered a ham happ
    exact ⟨e, hl e he, hrest⟩
  · rw [ha]
    intro a ham href
    obtain ⟨h₁, h₂, h₃⟩ := hB.refused a ham href
    obtain ⟨hsid, htask⟩ := hB.apart a ham d hd
    refine ⟨fun e he => ?_, fun hin => ?_, fun r hr => ?_⟩
    · rcases hl' e he with he | ⟨hes, _⟩
      · exact h₁ e he
      · rw [hes]
        exact hsid.symm
    · rcases hh _ hin with hin | heq
      · exact h₂ hin
      · exact htask heq
    · rcases hT r hr with hr | ⟨hid, _⟩
      · exact h₃ r hr
      · rw [hid]
        exact htask.symm

theorem books_reply {answer : DecisionAnswer} (hB : Books s) (hd : d ∈ s.decisions)
    (hdec : t.decisions = (s.reply d answer).decisions) (ha : t.answers = (s.reply d answer).answers) (hl : t.log = s.log)
    (hT : t.tasks = s.tasks) (hh : ∀ id ∈ t.holds, id ∈ s.holds)
    (href : answer.refused → d.phase ≠ .committed ∧ d.taskId ∉ t.holds)
    (happ : answer = .applied → ∃ e ∈ s.log, e.sid = d.sid ∧ e.taskId = some d.taskId) : Books t := by
  have hmem : ∀ d' ∈ t.decisions, d' ∈ s.decisions ∧ d'.sid ≠ d.sid := by
    intro d' hd'
    rw [hdec] at hd'
    exact Table.mem_erase.mp hd'
  have hans : ∀ a ∈ t.answers, a ∈ s.answers ∨ a = ⟨d.sid, d.taskId, answer⟩ := by
    intro a ham
    rw [ha] at ham
    rwa [reply, List.mem_append, List.mem_singleton] at ham
  constructor
  · rw [hl, hT]
    exact fun d' hd' => hB.unwritten d' (hmem d' hd').1
  · exact fun d' hd' hp hin => hB.unheld d' (hmem d' hd').1 hp (hh _ hin)
  · exact fun d₁ hd₁ d₂ hd₂ => hB.ownTask d₁ (hmem d₁ hd₁).1 d₂ (hmem d₂ hd₂).1
  · rw [hl]
    exact fun d' hd' => hB.recorded d' (hmem d' hd').1
  · exact fun d' hd' => hB.rolledBack d' (hmem d' hd').1
  · rw [hl, hdec, ha]
    intro e he
    by_cases hsid : e.sid = d.sid
    · exact .inr ⟨⟨d.sid, d.taskId, answer⟩, List.mem_append_right _ List.mem_cons_self, hsid.symm⟩
    · rcases hB.logged e he with ⟨d', hd', hsid'⟩ | ⟨a, ham, hsid'⟩
      · refine .inl ⟨d', Table.mem_erase.mpr ⟨hd', ?_⟩, hsid'⟩
        rw [hsid']
        exact hsid
      · exact .inr ⟨a, List.mem_append_left _ ham, hsid'⟩
  · intro a ham d' hd'
    obtain ⟨hd', hne⟩ := hmem d' hd'
    rcases hans a ham with ham | rfl
    · exact hB.apart a ham d' hd'
    · refine ⟨hne.symm, fun heq => hne ?_⟩
      exact congrArg DecisionStmt.sid (hB.ownTask d' hd' d hd heq.symm)
  · rw [hl]
    intro a ham hap
    rcases hans a ham with ham | rfl
    · exact hB.answered a ham hap
    · exact happ hap
  · rw [hl, hT]
    intro a ham hr
    rcases hans a ham with ham | rfl
    · obtain ⟨h₁, h₂, h₃⟩ := hB.refused a ham hr
      exact ⟨h₁, fun hin => h₂ (hh _ hin), h₃⟩
    · obtain ⟨hp, hheld⟩ := href hr
      obtain ⟨h₁, h₂⟩ := hB.unwritten d hd hp
      exact ⟨h₂, hheld, h₁⟩

variable {sid : Nat}

theorem books_gone {taskId : Nat} (hB : Books s) (hnew : s.NewRequest sid)
    (hfresh : s.Fresh R taskId) :
    Books { s with answers := s.answers ++ [{ sid := sid, taskId := taskId, answer := .gone }] } := by
  have hans : ∀ a ∈ s.answers ++ [(⟨sid, taskId, .gone⟩ : Answered)], a ∈ s.answers ∨ a = ⟨sid, taskId, .gone⟩ := by
    intro a ham
    rwa [List.mem_append, List.mem_singleton] at ham
  refine ⟨hB.unwritten, hB.unheld, hB.ownTask, hB.recorded, hB.rolledBack, ?_, ?_, ?_, ?_⟩
  · intro e he
    rcases hB.logged e he with hd | ⟨a, ham, hsid⟩
    · exact .inl hd
    · exact .inr ⟨a, List.mem_append_left _ ham, hsid⟩
  · intro a ham d hd
    rcases hans a ham with ham | rfl
    · exact hB.apart a ham d hd
    · exact ⟨(hnew.1 d hd).symm, (hfresh.2.2.2.1 d hd).symm⟩
  · intro a ham happ
    rcases hans a ham with ham | rfl
    · exact hB.answered a ham happ
    · cases happ
  · intro a ham href
    rcases hans a ham with ham | rfl
    · exact hB.refused a ham href
    · refine ⟨fun e he heq => ?_, hfresh.2.1, hfresh.2.2.1⟩
      rcases hB.logged e he with ⟨d, hd, hsid⟩ | ⟨a, ham, hsid⟩
      · exact hnew.1 d hd (hsid.trans heq)
      · exact hnew.2 a ham (hsid.trans heq)

theorem books_read {userId taskId : Nat} {d : Decision} (hB : Books s)
    (h : s.read R sid userId d taskId = some t) : Books t := by
  simp only [DecisionState.read, Option.ite_none_left_eq_some, Decidable.not_not] at h
  obtain ⟨⟨hnew, hfresh⟩, h⟩ := h
  split at h
  · cases h
    exact books_gone hB hnew hfresh
  · split at h
    · cases h
      exact books_gone hB hnew hfresh
    · rename_i index _
      obtain ⟨D, hD, rfl⟩ := Option.map_eq_some_iff.mp h
      have hmem := fun d' => Table.mem_of_insert (x := d') hD
      constructor
      · intro d' hd' hp
        rcases (hmem d').mp hd' with hd' | rfl
        · exact hB.unwritten d' hd' hp
        · refine ⟨hfresh.2.2.1, fun e he heq => ?_⟩
          rcases hB.logged e he with ⟨d, hd, hsid⟩ | ⟨a, ham, hsid⟩
          · exact hnew.1 d hd (hsid.trans heq)
          · exact hnew.2 a ham (hsid.trans heq)
      · intro d' hd' hp
        rcases (hmem d').mp hd' with hd' | rfl
        · exact hB.unheld d' hd' hp
        · exact hfresh.2.1
      · intro d₁ hd₁ d₂ hd₂ heq
        rcases (hmem d₁).mp hd₁ with hd₁ | rfl <;> rcases (hmem d₂).mp hd₂ with hd₂ | rfl
        · exact hB.ownTask d₁ hd₁ d₂ hd₂ heq
        · exact absurd heq (hfresh.2.2.2.1 d₁ hd₁)
        · exact absurd heq.symm (hfresh.2.2.2.1 d₂ hd₂)
        · rfl
      · intro d' hd' hp
        rcases (hmem d').mp hd' with hd' | rfl
        · exact hB.recorded d' hd' hp
        · cases hp
      · intro d' hd' answer hp
        rcases (hmem d').mp hd' with hd' | rfl
        · exact hB.rolledBack d' hd' answer hp
        · cases hp
      · intro e he
        rcases hB.logged e he with ⟨d', hd', hsid⟩ | hans
        · exact .inl ⟨d', (hmem d').mpr (.inl hd'), hsid⟩
        · exact .inr hans
      · intro a ham d' hd'
        rcases (hmem d').mp hd' with hd' | rfl
        · exact hB.apart a ham d' hd'
        · exact ⟨hnew.2 a ham, hfresh.2.2.2.2 a ham⟩
      · exact hB.answered
      · exact hB.refused

theorem books_admitted {a : Admission} (hB : Books s) (h : s.admitted sid a = some t) :
    Books t := by
  simp only [admitted, Option.bind_eq_some_iff, Option.ite_none_right_eq_some] at h
  obtain ⟨d, hd, hp, h⟩ := h
  obtain ⟨hmem, rfl⟩ := Table.get_eq_some_iff.mp hd
  have hne : d.phase ≠ .committed := by
    rw [hp]
    intro h
    cases h
  have herror : Books (s.reply d .error) :=
    books_reply hB hmem rfl rfl rfl rfl (fun _ hin => hin) (fun _ => ⟨hne, hB.unheld d hmem hp⟩) fun h => by cases h
  cases a with
  | limited =>
    cases h
    exact herror
  | threw =>
    cases h
    exact herror
  | overBudget =>
    cases h
    exact herror
  | unresolved failure =>
    cases h
    exact books_advance .admitted (some failure) hB hmem hne (fun h => by cases h) rfl rfl (fun _ hin => .inl hin) (fun _ he => he)
      (fun _ he => .inl he) (fun _ hr => .inl hr) (fun h => by cases h) fun _ h => by cases h
  | reserved =>
    cases h
    refine books_advance .admitted none hB hmem hne (fun h => by cases h) rfl rfl ?_ (fun _ he => he) (fun _ he => .inl he)
      (fun _ hr => .inl hr) (fun h => by cases h) fun _ h => by cases h
    intro id hin
    rcases List.mem_cons.mp hin with rfl | hin
    · exact .inr rfl
    · exact .inl hin

theorem books_rollback {answer : DecisionAnswer} (hB : Books s) (hd : d ∈ s.decisions)
    (hp : d.phase = .admitted) (href : answer.refused = true) :
    Books (s.advance d.sid (.rolledBack answer) d.failure) := by
  refine books_advance (.rolledBack answer) d.failure hB hd (by rw [hp]; simp) (fun h => by cases h) rfl rfl (fun _ hin => .inl hin)
    (fun _ he => he) (fun _ he => .inl he) (fun _ hr => .inl hr) (fun h => by cases h) ?_
  intro answer' heq
  cases heq
  exact href

theorem books_commit (hB : Books s) (h : s.commit R sid = some t) : Books t := by
  obtain ⟨d, hd, rfl, hp, ⟨answer, href, rfl⟩ | ⟨_, ⟨hf, rfl⟩ | ⟨_, T, hT, rfl⟩⟩⟩ := SingleAux.commit_cases h
  · exact books_rollback hB hd hp href
  · refine books_advance .committed d.failure hB hd (by rw [hp]; simp) (fun h => by cases h) rfl rfl (fun _ hin => .inl hin)
      (fun e he => List.mem_append_left _ he) ?_ (fun _ hr => .inl hr) ?_ fun _ h => by cases h
    · intro e he
      rw [record, List.mem_append, List.mem_singleton] at he
      rcases he with he | rfl
      · exact .inl he
      · exact .inr ⟨rfl, rfl⟩
    · refine fun _ => ⟨_, List.mem_append_right _ List.mem_cons_self, rfl, fun hnone => ?_⟩
      rw [hnone] at hf
      cases hf
  · refine books_advance .committed d.failure hB hd (by rw [hp]; simp) (fun h => by cases h) rfl rfl (fun _ hin => .inl hin)
      (fun e he => List.mem_append_left _ he) ?_ ?_ ?_ fun _ h => by cases h
    · intro e he
      rw [record, List.mem_append, List.mem_singleton] at he
      rcases he with he | rfl
      · exact .inl he
      · exact .inr ⟨rfl, rfl⟩
    · intro r hr
      rcases (mem_of_insertQueued hT).1.mp hr with hr | rfl
      · exact .inl hr
      · exact .inr ⟨rfl, rfl⟩
    · exact fun _ => ⟨_, List.mem_append_right _ List.mem_cons_self, rfl, fun _ => rfl⟩

theorem books_throwInTx (hB : Books s) (h : s.throwInTx sid = some t) : Books t := by
  simp only [throwInTx, Option.bind_eq_some_iff, Option.ite_none_right_eq_some, Option.some.injEq] at h
  obtain ⟨d, hd, hp, rfl⟩ := h
  obtain ⟨hmem, rfl⟩ := Table.get_eq_some_iff.mp hd
  exact books_rollback hB hmem hp rfl

theorem books_finish {notified : Bool} (hB : Books s)
    (hok : Undisturbed R s (.finish sid notified)) (h : s.finish sid notified = some t) : Books t := by
  simp only [finish, Option.bind_eq_some_iff] at h
  obtain ⟨d, hd, h⟩ := h
  obtain ⟨hmem, hsid⟩ := Table.get_eq_some_iff.mp hd
  split at h
  · cases h
  · cases h
  · rename_i answer hp
    cases h
    refine books_reply hB hmem rfl rfl rfl rfl (fun _ hin => (List.mem_filter.mp hin).1) ?_ ?_
    · refine fun _ => ⟨by rw [hp]; simp, fun hin => ?_⟩
      have hne := (List.mem_filter.mp hin).2
      simp at hne
    · rintro rfl
      cases hB.rolledBack d hmem _ hp
  · rename_i hp
    split at h
    · cases h
      exact books_reply hB hmem rfl rfl rfl rfl (fun _ hin => hin) (fun h => by cases h) fun h => by cases h
    · rename_i hf
      have hnone : d.failure = none := by simpa using hf
      rw [hok d hmem hsid hp hnone] at h
      cases h
      obtain ⟨e, he, hes, het⟩ := hB.recorded d hmem hp
      exact books_reply hB hmem rfl rfl rfl rfl (fun _ hin => hin) (fun h => by cases h) fun _ => ⟨e, he, hes, het hnone⟩

theorem ids_of_modify {T : Tasks} {k : Nat} {f : TaskRow → TaskRow} (hf : ∀ r, (f r).id = r.id) {r : TaskRow}
    (hr : r ∈ T.modify k f hf) : ∃ r₀ ∈ T, r₀.id = r.id := by
  rw [Table.mem_modify] at hr
  rcases hr with ⟨r₀, hr₀, _, rfl⟩ | ⟨hr, _⟩
  · exact ⟨r₀, hr₀, (hf r₀).symm⟩
  · exact ⟨r, hr, rfl⟩

theorem books_step {a : DecisionAct} (hB : Books s) (hok : Undisturbed R s a)
    (h : s.step R a = some t) : Books t := by
  have hsame : ∀ r ∈ s.tasks, (∃ r₀ ∈ s.tasks, r₀.id = r.id) ∨ s.Fresh R r.id := fun r hr => .inl ⟨r, hr, rfl⟩
  cases a with
  | read sid userId d taskId => exact books_read hB h
  | admitted sid a => exact books_admitted hB h
  | commit sid => exact books_commit hB h
  | throwInTx sid => exact books_throwInTx hB h
  | finish sid notified => exact books_finish hB hok h
  | claim taskId workerId startedAt =>
    cases h
    exact books_of_kept (R := R) hB rfl rfl rfl (fun _ hin => hin) fun r hr => .inl (ids_of_modify (claimRow_id _ _) hr)
  | start taskId =>
    simp only [step, start, Option.ite_none_right_eq_some, Option.some.injEq] at h
    obtain ⟨_, rfl⟩ := h
    exact books_of_kept (R := R) hB rfl rfl rfl (fun _ hin => hin) hsame
  | snapshot taskId added steers =>
    obtain ⟨run, _, rfl⟩ := Option.map_eq_some_iff.mp h
    exact books_of_kept (R := R) hB rfl rfl rfl (fun _ hin => hin) hsame
  | terminal taskId status shown added steers =>
    simp only [step, terminal, Option.bind_eq_some_iff, Option.ite_none_right_eq_some, Option.some.injEq] at h
    obtain ⟨run, _, _, rfl⟩ := h
    exact books_of_kept (R := R) hB rfl rfl rfl (fun _ hin => (List.mem_filter.mp hin).1)
      fun r hr => .inl (ids_of_modify (TaskRow.finalized_id _ _) hr)
  | send leaf | settleMovedPast | moveLeaf leaf =>
    cases h
    exact books_of_kept (R := R) hB rfl rfl rfl (fun _ hin => hin) hsame
  | enqueueOther id userId createdAt =>
    simp only [step, Option.ite_none_right_eq_some, Option.map_eq_some_iff] at h
    obtain ⟨hfresh, T, hT, rfl⟩ := h
    refine books_of_kept (R := R) hB rfl rfl rfl (fun _ hin => hin) fun r hr => ?_
    rcases (mem_of_insertQueued hT).1.mp hr with hr | rfl
    · exact .inl ⟨r, hr, rfl⟩
    · exact .inr hfresh
  | finishOther id status =>
    simp only [step, Option.ite_none_right_eq_some, Option.some.injEq] at h
    obtain ⟨_, rfl⟩ := h
    exact books_of_kept (R := R) hB rfl rfl rfl (fun _ hin => hin) fun r hr => .inl (ids_of_modify (finishRow_id R _) hr)
  | absorbQueuedTasks exceptId =>
    cases h
    exact books_of_kept (R := R) hB rfl rfl rfl (fun _ hin => hin) fun r hr => .inl ⟨r, (Table.mem_filter.mp hr).1, rfl⟩

theorem writesOnRecord_step {a : DecisionAct} (h : s.step R a = some t) :
    WritesOnRecord s a t := by
  intro sid hreq
  cases a with
  | read sid' userId d taskId =>
    right
    simp only [step, DecisionState.read, Option.ite_none_left_eq_some] at h
    obtain ⟨_, h⟩ := h
    split at h
    · cases h
      exact ⟨rfl, rfl, rfl, fun _ _ => Iff.rfl⟩
    · split at h
      · cases h
        exact ⟨rfl, rfl, rfl, fun _ _ => Iff.rfl⟩
      · obtain ⟨D, _, rfl⟩ := Option.map_eq_some_iff.mp h
        exact ⟨rfl, rfl, rfl, fun _ _ => Iff.rfl⟩
  | admitted sid' a =>
    right
    cases hreq
    simp only [step, admitted, Option.bind_eq_some_iff, Option.ite_none_right_eq_some] at h
    obtain ⟨d, hd, _, h⟩ := h
    obtain ⟨hmem, hsid⟩ := Table.get_eq_some_iff.mp hd
    cases a with
    | reserved =>
      cases h
      refine ⟨rfl, rfl, rfl, fun id hid => ?_⟩
      dsimp only
      rw [List.mem_cons]
      exact ⟨fun hin => hin.resolve_left (hid d hmem hsid), .inr⟩
    | limited | threw | overBudget | unresolved =>
      cases h
      exact ⟨rfl, rfl, rfl, fun _ _ => Iff.rfl⟩
  | commit sid' =>
    cases hreq
    obtain ⟨d, _, hsid, _, ⟨_, _, rfl⟩ | ⟨_, ⟨_, rfl⟩ | ⟨_, T, _, rfl⟩⟩⟩ := SingleAux.commit_cases h
    · exact .inr ⟨rfl, rfl, rfl, fun _ _ => Iff.rfl⟩
    · exact .inl ⟨_, hsid, rfl⟩
    · exact .inl ⟨_, hsid, rfl⟩
  | throwInTx sid' =>
    right
    simp only [step, throwInTx, Option.bind_eq_some_iff, Option.ite_none_right_eq_some, Option.some.injEq] at h
    obtain ⟨d, _, _, rfl⟩ := h
    exact ⟨rfl, rfl, rfl, fun _ _ => Iff.rfl⟩
  | finish sid' notified =>
    right
    cases hreq
    simp only [step, finish, Option.bind_eq_some_iff] at h
    obtain ⟨d, hd, h⟩ := h
    obtain ⟨hmem, hsid⟩ := Table.get_eq_some_iff.mp hd
    split at h
    · cases h
    · cases h
    · cases h
      refine ⟨rfl, rfl, rfl, fun id hid => ?_⟩
      dsimp only
      rw [List.mem_filter]
      exact ⟨fun hin => hin.1, fun hin => ⟨hin, decide_eq_true (hid d hmem hsid)⟩⟩
    · split at h
      · cases h
        exact ⟨rfl, rfl, rfl, fun _ _ => Iff.rfl⟩
      · cases h
        exact ⟨rfl, rfl, rfl, fun _ _ => Iff.rfl⟩
  | _ => cases hreq

/-- The invariants at the start: the one run at work loaded nothing, and nothing is on record. -/
theorem rowInv_init (R : Reply) : RowInv R (init R) := by
  have hrow : ∀ r ∈ (init R).tasks, r = turnRow R := fun r hr => List.mem_singleton.mp hr
  have hrun : ∀ run ∈ (init R).runs, run = ⟨R.turnId, [], true⟩ := fun run h => List.mem_singleton.mp h
  have hlog : ∀ d, d ∉ (init R).log := fun d => List.not_mem_nil
  have hnil : ∀ i v, ¬DecidedAt [] i v := by
    intro i v h
    simp [DecidedAt] at h
  constructor
  · exact fun d hd => absurd hd (Table.not_mem_empty d)
  · exact List.nodup_nil
  · exact fun d hd => absurd hd (hlog d)
  · intro run h i v hdec
    rw [hrun run h] at hdec
    exact absurd hdec (hnil i v)
  · exact fun _ _ _ d hd => absurd hd (hlog d)
  · intro run _ _ run' h' i v hdec
    rw [hrun run' h'] at hdec
    exact absurd hdec (hnil i v)
  · intro r hr _
    rw [hrow r hr]
    rfl
  · intro r hr r' hr' _ _ _ _
    rw [hrow r hr, hrow r' hr']
  · intro run h
    rw [hrun run h]
    refine ⟨turnRow R, List.mem_singleton.mpr rfl, rfl, ?_, fun _ => rfl, nofun⟩
    simp [TaskRow.writesReply, turnRow, TaskRow.fresh]
  · exact fun d hd => absurd hd (hlog d)

theorem books_init (R : Reply) : Books (init R) := by
  have hdec : ∀ d, d ∉ (init R).decisions := Table.not_mem_empty
  have hlog : ∀ d, d ∉ (init R).log := fun d => List.not_mem_nil
  have hans : ∀ a, a ∉ (init R).answers := fun a => List.not_mem_nil
  exact ⟨fun d hd => absurd hd (hdec d), fun d hd => absurd hd (hdec d), fun d hd => absurd hd (hdec d),
    fun d hd => absurd hd (hdec d), fun d hd => absurd hd (hdec d), fun e he => absurd he (hlog e),
    fun a ha => absurd ha (hans a), fun a ha => absurd ha (hans a), fun a ha => absurd ha (hans a)⟩

end BooksAux

open BooksAux SingleAux

/-- In every run in which no step is disturbed: every state reached has at most one decision per call, each on the row, each acted
on by its own continuation and no earlier run, or still to be; and a refusal, or any step that puts no decision on record, writes
neither the row nor the queue nor anyone else's hold. -/
theorem decisions_upheld_of_undisturbed {R : Reply} {s : DecisionState}
    (h : Steps.Reaches (step R) (Undisturbed R) (init R) s) :
    Upheld R s ∧ ∀ a t, s.step R a = some t → WritesOnRecord s a t := by
  obtain ⟨hI, hB⟩ := h.invariant (I := fun x => RowInv R x ∧ Books x)
    (fun _ _ _ hx hok hstep => ⟨rowInv_step hx.1 hok hstep, books_step hx.2 hok hstep⟩) ⟨rowInv_init R, books_init R⟩
  exact ⟨⟨hI.once, hI.kept, hI.acted, hB.answered, hB.refused⟩, fun _ _ => writesOnRecord_step⟩

instance (R : Reply) (s : DecisionState) (d : DecisionStmt) : Decidable (s.Applies R d) :=
  inferInstanceAs (Decidable (s.leaf = R.messageId ∧ Decision.guard d.verdict s.metadata = true ∧
    (d.failure = none → (insertQueued (continuation R d.taskId) s.tasks).isSome)))

instance (R : Reply) (s : DecisionState) : Decidable (s.Idle R) :=
  inferInstanceAs (Decidable (∀ r ∈ s.tasks, r.writesReply R → r.status ≠ .running))

instance (R : Reply) (s : DecisionState) (a : DecisionAct) : Decidable (Undisturbed R s a) :=
  match a with
  | .commit sid => inferInstanceAs (Decidable (∀ d ∈ s.decisions, d.sid = sid → d.phase = .admitted → s.Applies R d →
      s.metadata = d.read ∧ s.Idle R))
  | .finish sid notified => inferInstanceAs (Decidable (∀ d ∈ s.decisions, d.sid = sid → d.phase = .committed →
      d.failure = none → notified = true))
  | .absorbQueuedTasks exceptId => inferInstanceAs (Decidable (∀ r ∈ s.tasks, r.absorbed R.chatId exceptId →
      r.writesReply R = false))
  | .read _ _ _ _ | .admitted _ _ | .throwInTx _ | .claim _ _ _ | .start _ | .snapshot _ _ _ | .terminal _ _ _ _ _ | .send _
  | .settleMovedPast | .moveLeaf _ | .enqueueOther _ _ _ | .finishOther _ _ => .isTrue trivial

/-- A reply of user 7 that turn 1 writes. -/
def twoCalls : Reply where
  messageId := 10
  chatId := 1
  ownerId := 7
  turnId := 1
  sha256 := fun _ => ""

/-- A gated call that waits. -/
def gated (id : Nat) : StoredPart := .toolCall id "manage" "" (some (.approval { id := id, approved := none, reason := none }))

/-- The turn suspends on two calls. -/
def suspended : List DecisionAct := [.terminal 1 .completed .awaitingApproval [gated 101, gated 102] []]

/-- The approval of one of them: it reads, is admitted, commits and is answered. -/
def approval (sid callId taskId : Nat) : List DecisionAct :=
  [.read sid 7 (approveManageForUser (.exactly callId) true none) taskId, .admitted sid .reserved, .commit sid, .finish sid true]

/-- One decision after the other: the first one's continuation runs and suspends again before the second is made. -/
def inTurn : List DecisionAct :=
  suspended ++ approval 1 101 201 ++
    [.claim 201 5 0, .start 201, .snapshot 201 [.toolResult 101 "manage" (.other "ok")] [],
      .terminal 201 .completed .awaitingApproval [.toolResult 101 "manage" (.other "ok")] []] ++
    approval 2 102 202 ++ [.claim 202 5 0, .start 202]

/-- Both decisions read the row; the first is applied and its continuation claimed before the second is applied. -/
def readTogether : List DecisionAct :=
  suspended ++ [.read 2 7 (approveManageForUser (.exactly 102) true none) 202] ++ approval 1 101 201 ++
    [.claim 201 5 0, .admitted 2 .reserved, .commit 2, .finish 2 true]

theorem decisions_upheld_in_turn :
    ∃ s, Steps.Reaches (step twoCalls) (Undisturbed twoCalls) (init twoCalls) s ∧ s.log.length = 2 ∧
      (Upheld twoCalls s ∧ ∀ a t, s.step twoCalls a = some t → WritesOnRecord s a t) := by
  obtain ⟨s, hs, hlen⟩ := Steps.exists_of_execOk (step twoCalls) (Undisturbed twoCalls) (init twoCalls)
    inTurn (P := fun s => s.log.length = 2) (by decide)
  exact ⟨s, hs, hlen, decisions_upheld_of_undisturbed hs⟩

/-- A decision that was answered as applied is gone from the row. -/
theorem decisions_upheld_false :
    ¬∀ (R : Reply) (s : DecisionState), Steps.Reaches (step R) Steps.Free (init R) s → Upheld R s := by
  intro h
  obtain ⟨s, hs, d, hd, hlost⟩ := Steps.exists_of_exec (step twoCalls) (init twoCalls) readTogether
    (P := fun s => ∃ d ∈ s.log, ¬DecidedAt s.metadata.partList d.index d.verdict) (by decide)
  exact hlost ((h twoCalls s hs).kept d hd)

end DecisionState

end Capka

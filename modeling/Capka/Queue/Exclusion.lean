import Capka.Queue.Calm

/-!
# One turn per workspace

A claim that passes the `NOT EXISTS` on its snapshot holds the workspace's advisory lock until its running row is committed, so
no other claim can start a turn there meanwhile; what the lock cannot undo is a turn that another claim started between the
snapshot and the lock. `Seen` is the condition that this did not happen, and that a heartbeat did not sit on its `now()` until
the lease ran out. Under it a running row with a lease is alone in its workspace, and a lease that ran out stays as it is
(`workspace_exclusive_of_seen`); without it the queue lets two turns in (`workspace_exclusive_false`).
-/

namespace Capka

namespace QueueState

namespace ExclAux

/-! ### The claims in flight -/

variable {W : Workspaces} {s : QueueState}

theorem inv_ended (hI : Inv W s) (sid : Nat) :
    Inv W { s with claims := s.claims.erase sid } := by
  have hsub : ∀ c ∈ s.claims.erase sid, c ∈ s.claims := fun c hc => (Table.mem_erase.mp hc).1
  constructor
  · exact hI.oneQueued
  · exact hI.exclusive
  · exact fun c hc => hI.begun c (hsub c hc)
  · exact fun c hc => hI.expired c (hsub c hc)
  · exact fun c hc => hI.held c (hsub c hc)
  · exact fun c hc => hI.clear c (hsub c hc)
  · exact fun c hc c' hc' => hI.disjoint c (hsub c hc) c' (hsub c' hc')
  · exact fun c hc => hI.pickedPassed c (hsub c hc)
  · exact fun c hc => hI.pickedQueued c (hsub c hc)
  · exact fun c hc c' hc' => hI.pickedOnce c (hsub c hc) c' (hsub c' hc')

variable {sid : Nat}

theorem inv_started {workerId : Nat} {C : Table ClaimStmt ClaimStmt.sid}
    (hI : Inv W s) (h : s.claims.insert (.start sid workerId s.now s.tasks) = some C) :
    Inv W { s with claims := C } := by
  have hmem : ∀ c ∈ C, c ∈ s.claims ∨ c = .start sid workerId s.now s.tasks := fun c hc => (Table.mem_of_insert h).mp hc
  constructor
  · exact hI.oneQueued
  · exact hI.exclusive
  · intro c hc
    rcases hmem c hc with hc | rfl
    · exact hI.begun c hc
    · exact Nat.le_refl _
  · intro c hc r hr hq he
    rcases hmem c hc with hc | rfl
    · exact hI.expired c hc r hr hq he
    · exact ⟨r, hr, rfl, hq, rfl⟩
  · intro c hc p hp
    rcases hmem c hc with hc | rfl
    · exact hI.held c hc p hp
    · cases hp
  · intro c hc p hp
    rcases hmem c hc with hc | rfl
    · exact hI.clear c hc p hp
    · cases hp
  · intro c hc c' hc' l hl hl'
    rcases hmem c hc with hc | rfl
    · rcases hmem c' hc' with hc' | rfl
      · exact hI.disjoint c hc c' hc' l hl hl'
      · cases hl'
    · cases hl
  · intro c hc q hq
    rcases hmem c hc with hc | rfl
    · exact hI.pickedPassed c hc q hq
    · cases hq
  · intro c hc q hq
    rcases hmem c hc with hc | rfl
    · exact hI.pickedQueued c hc q hq
    · cases hq
  · intro c hc c' hc' q q' hq hq' hid
    rcases hmem c hc with hc | rfl
    · rcases hmem c' hc' with hc' | rfl
      · exact hI.pickedOnce c hc c' hc' q q' hq hq' hid
      · cases hq'
    · cases hq

theorem mem_advance {f : ClaimStmt → ClaimStmt} {hf : ∀ c, (f c).sid = c.sid} {c₀ : ClaimStmt}
    (h₀ : s.claims.get sid = some c₀) {c : ClaimStmt} (hc : c ∈ (s.advance sid f hf).claims) :
    c = f c₀ ∨ (c ∈ s.claims ∧ c.sid ≠ sid) := by
  obtain ⟨hc₀, hsid⟩ := Table.get_eq_some_iff.mp h₀
  have hc' : c ∈ s.claims.modify sid f hf := hc
  rw [Table.mem_modify] at hc'
  rcases hc' with ⟨c₁, hc₁, hsid₁, rfl⟩ | hother
  · rw [Table.eq_of_key hc₁ hc₀ (hsid₁.trans hsid.symm)]
    exact .inl rfl
  · exact .inr hother

/-- What a claim may become in one step: it takes only free locks, passes only candidates whose workspace it locked and is
without a turn, and locks only a row that passed, that is queued and that nobody else locked. -/
structure Advances (W : Workspaces) (s : QueueState) (c d : ClaimStmt) : Prop where
  startedAt_eq : d.startedAt = c.startedAt
  snapshot_eq : d.snapshot = c.snapshot
  locks : ∀ l ∈ d.locks, l ∈ c.locks ∨ s.LockFree c.sid l
  held : ∀ p ∈ d.passed, W.lock p.chatId ∈ d.locks
  clear : ∀ p ∈ d.passed, ∀ r ∈ s.tasks, r.live s.now → W.key r.chatId ≠ W.key p.chatId
  picked : ∀ q, d.picked = some q → q ∈ d.passed ∧ (c.picked = some q ∨ s.Lockable q)

theorem inv_advanced {f : ClaimStmt → ClaimStmt} {hf : ∀ c, (f c).sid = c.sid}
    {c₀ : ClaimStmt} (hI : Inv W s) (h₀ : s.claims.get sid = some c₀) (h : Advances W s c₀ (f c₀)) :
    Inv W (s.advance sid f hf) := by
  obtain ⟨hc₀, hsid⟩ := Table.get_eq_some_iff.mp h₀
  have hmem : ∀ c ∈ (s.advance sid f hf).claims, c = f c₀ ∨ (c ∈ s.claims ∧ c.sid ≠ sid) := fun c hc => mem_advance h₀ hc
  -- A lock or a row of the advanced claim is not another claim's.
  have hlocks : ∀ c ∈ s.claims, c.sid ≠ sid → ∀ l ∈ (f c₀).locks, l ∉ c.locks := by
    intro c hc hne l hl hl'
    rcases h.locks l hl with hl | hl
    · rw [← hI.disjoint c₀ hc₀ c hc l hl hl'] at hne
      exact hne hsid
    · exact hne ((hl c hc hl').trans hsid)
  have hrows : ∀ c ∈ s.claims, c.sid ≠ sid → ∀ q q', (f c₀).picked = some q → c.picked = some q' → q.id ≠ q'.id := by
    intro c hc hne q q' hq hq' hid
    rcases (h.picked q hq).2 with hp | hp
    · rw [← hI.pickedOnce c₀ hc₀ c hc q q' hp hq' hid] at hne
      exact hne hsid
    · exact hp.1 ⟨c, hc, q', hq', hid.symm⟩
  constructor
  · exact hI.oneQueued
  · exact hI.exclusive
  · intro c hc
    rcases hmem c hc with rfl | ⟨hc, _⟩
    · rw [h.startedAt_eq]
      exact hI.begun c₀ hc₀
    · exact hI.begun c hc
  · intro c hc
    rcases hmem c hc with rfl | ⟨hc, _⟩
    · rw [h.startedAt_eq, h.snapshot_eq]
      exact hI.expired c₀ hc₀
    · exact hI.expired c hc
  · intro c hc
    rcases hmem c hc with rfl | ⟨hc, _⟩
    · exact h.held
    · exact hI.held c hc
  · intro c hc
    rcases hmem c hc with rfl | ⟨hc, _⟩
    · exact h.clear
    · exact hI.clear c hc
  · intro c hc c' hc' l hl hl'
    rcases hmem c hc with rfl | ⟨hc, hne⟩ <;> rcases hmem c' hc' with rfl | ⟨hc', hne'⟩
    · rfl
    · exact absurd hl' (hlocks c' hc' hne' l hl)
    · exact absurd hl (hlocks c hc hne l hl')
    · exact hI.disjoint c hc c' hc' l hl hl'
  · intro c hc q hq
    rcases hmem c hc with rfl | ⟨hc, _⟩
    · exact (h.picked q hq).1
    · exact hI.pickedPassed c hc q hq
  · intro c hc q hq
    rcases hmem c hc with rfl | ⟨hc, _⟩
    · rcases (h.picked q hq).2 with hp | hp
      · exact hI.pickedQueued c₀ hc₀ q hp
      · exact hp.2
    · exact hI.pickedQueued c hc q hq
  · intro c hc c' hc' q q' hq hq' hid
    rcases hmem c hc with rfl | ⟨hc, hne⟩ <;> rcases hmem c' hc' with rfl | ⟨hc', hne'⟩
    · rfl
    · exact absurd hid (hrows c' hc' hne' q q' hq hq')
    · exact absurd hid.symm (hrows c hc hne q' q hq' hq)
    · exact hI.pickedOnce c hc c' hc' q q' hq hq' hid

/-- A candidate that passes although its workspace has no turn the snapshot does not show: the workspace is free. The turns
the snapshot shows as running had leases that were over when the claim started, and such a lease stays over. -/
theorem clear_of_seen {c : ClaimStmt} {q : TaskRow} (hI : Inv W s) (hc : c ∈ s.claims)
    (hout : c.excluded W q = false)
    (hseen : s.Shown W c.snapshot q.chatId) :
    ∀ r ∈ s.tasks, r.live s.now → W.key r.chatId ≠ W.key q.chatId := by
  intro r hr hl hkey
  obtain ⟨r₀, hr₀, hid, hch, hst⟩ := hseen r hr hl hkey
  have hover : r₀.leaseAfter c.startedAt = false := by
    have hall := List.any_eq_false.mp hout r₀ hr₀
    simpa [TaskRow.live, hst, hch, hkey] using hall
  have hq₀ : r₀.status ≠ .queued := by
    rw [hst]
    intro h
    cases h
  obtain ⟨r', hr', hid', _, hlease⟩ := hI.expired c hc r₀ hr₀ hq₀ hover
  have heq : r' = r := Table.eq_of_key hr' hr (hid'.trans hid)
  have hafter : r.leaseAfter c.startedAt = true := leaseAfter_mono (hI.begun c hc) (lease_of_live hl)
  rw [← heq, leaseAfter_congr hlease, hover] at hafter
  cases hafter

variable {t : QueueState} {id : Nat}

theorem inv_claimScan (hI : Inv W s) (hok : Seen W s (.claimScan sid id))
    (h : s.claimScan W sid id = some t) : Inv W t := by
  simp only [QueueState.claimScan, Option.bind_eq_some_iff, Option.ite_none_right_eq_some, Option.some.injEq] at h
  obtain ⟨c, hc, q, hq, ⟨_, _, hnone⟩, rfl⟩ := h
  obtain ⟨hmem, hsid⟩ := Table.get_eq_some_iff.mp hc
  obtain ⟨hqmem, hqid⟩ := Table.get_eq_some_iff.mp hq
  subst hsid
  refine inv_advanced hI hc ⟨rfl, rfl, ?_, ?_, ?_, ?_⟩
  · intro l hl
    simp only [ClaimStmt.scan] at hl
    split at hl
    · rename_i hfree
      rcases List.mem_cons.mp hl with rfl | hl
      · exact .inr (of_decide_eq_true hfree)
      · exact .inl hl
    · exact .inl hl
  · intro p hp
    simp only [ClaimStmt.scan] at hp ⊢
    split at hp
    · rename_i hpass
      rw [Bool.and_eq_true] at hpass
      rw [if_pos hpass.1]
      rcases List.mem_cons.mp hp with rfl | hp
      · exact List.mem_cons_self
      · exact List.mem_cons_of_mem _ (hI.held c hmem p hp)
    · have hheld := hI.held c hmem p hp
      split
      · exact List.mem_cons_of_mem _ hheld
      · exact hheld
  · intro p hp
    simp only [ClaimStmt.scan] at hp
    split at hp
    · rename_i hpass
      simp only [Bool.and_eq_true, decide_eq_true_eq, Bool.not_eq_true'] at hpass
      rcases List.mem_cons.mp hp with rfl | hp
      · exact clear_of_seen hI hmem hpass.2 (hok c hmem rfl p hqmem hqid hpass.1 hpass.2)
      · exact hI.clear c hmem p hp
    · exact hI.clear c hmem p hp
  · intro q' hq'
    simp only [ClaimStmt.scan, hnone] at hq'
    cases hq'

theorem inv_claimSkip (hI : Inv W s)
    (h : s.claimSkip sid id = some t) : Inv W t := by
  simp only [QueueState.claimSkip, Option.bind_eq_some_iff, Option.ite_none_right_eq_some, Option.some.injEq] at h
  obtain ⟨c, hc, q, _, _, rfl⟩ := h
  have hmem := (Table.get_eq_some_iff.mp hc).1
  refine inv_advanced hI hc ⟨rfl, rfl, fun _ hl => .inl hl, hI.held c hmem, hI.clear c hmem, ?_⟩
  intro q' hq'
  exact ⟨hI.pickedPassed c hmem q' hq', .inl hq'⟩

theorem inv_claimPick (hI : Inv W s)
    (h : s.claimPick sid id = some t) : Inv W t := by
  simp only [QueueState.claimPick, Option.bind_eq_some_iff, Option.ite_none_right_eq_some, Option.some.injEq] at h
  obtain ⟨c, hc, q, hq, ⟨_, _, hlock⟩, rfl⟩ := h
  have hmem := (Table.get_eq_some_iff.mp hc).1
  refine inv_advanced hI hc ⟨rfl, rfl, fun _ hl => .inl hl, hI.held c hmem, hI.clear c hmem, ?_⟩
  intro q' hq'
  cases hq'
  exact ⟨List.mem_of_find?_eq_some hq, .inr hlock⟩

theorem mem_claimCommit (hI : Inv W s) (h : s.claimCommit sid = some t) :
    ∃ c ∈ s.claims, ∃ q ∈ c.passed, ∃ r₀ ∈ s.tasks, c.sid = sid ∧ c.picked = some q ∧ r₀.id = q.id ∧ r₀.chatId = q.chatId ∧
      r₀.status = .queued ∧ t.now = s.now ∧ t.claims = s.claims.erase sid ∧
      ∀ r, r ∈ t.tasks ↔ r = r₀.claimed c.workerId c.startedAt ∨ (r ∈ s.tasks ∧ r.id ≠ q.id) := by
  simp only [QueueState.claimCommit, Option.bind_eq_some_iff, Option.some.injEq] at h
  obtain ⟨c, hc, q, hq, rfl⟩ := h
  obtain ⟨hmem, hsid⟩ := Table.get_eq_some_iff.mp hc
  obtain ⟨r₀, hr₀, hid, hch, hst⟩ := hI.pickedQueued c hmem q hq
  refine ⟨c, hmem, q, hI.pickedPassed c hmem q hq, r₀, hr₀, hsid, hq, hid, hch, hst, rfl, rfl, ?_⟩
  intro r
  rw [Table.mem_modify]
  constructor
  · rintro (⟨r₁, hr₁, hid₁, rfl⟩ | hother)
    · rw [Table.eq_of_key hr₁ hr₀ (hid₁.trans hid.symm)]
      exact .inl rfl
    · exact .inr hother
  · rintro (rfl | hother)
    · exact .inl ⟨r₀, hr₀, hid, rfl⟩
    · exact .inr hother

/-- The commit of a claim: the turn it starts is alone in its workspace, and no other claim passed a candidate of that
workspace, for it would hold the same lock. -/
theorem inv_claimCommit (hI : Inv W s) (h : s.claimCommit sid = some t) :
    Inv W t := by
  obtain ⟨c, hc, q, hq, r₀, hr₀, hsid, hpick, hid, hch, hst, hnow, hclaims, hmem⟩ := mem_claimCommit hI h
  have hkeep : ∀ r, KeepsLease s.tasks r → KeepsLease t.tasks r := by
    rintro r ⟨r', hr', hid', hq', hl'⟩
    refine ⟨r', (hmem r').mpr (.inr ⟨hr', ?_⟩), hid', hq', hl'⟩
    intro heq
    rw [Table.eq_of_key hr' hr₀ (heq.trans hid.symm)] at hq'
    exact hq' hst
  have hsub : ∀ d ∈ t.claims, d ∈ s.claims ∧ d ≠ c := by
    intro d hd
    rw [hclaims] at hd
    obtain ⟨hd, hne⟩ := Table.mem_erase.mp hd
    refine ⟨hd, ?_⟩
    rintro rfl
    exact hne hsid
  constructor
  · intro r hr r' hr' hq₁ hq₂ hchat
    rcases (hmem r).mp hr with rfl | ⟨hr, _⟩
    · cases hq₁
    · rcases (hmem r').mp hr' with rfl | ⟨hr', _⟩
      · cases hq₂
      · exact hI.oneQueued r hr r' hr' hq₁ hq₂ hchat
  · intro r hr r' hr' hl hl' hkey
    rw [hnow] at hl hl'
    rcases (hmem r).mp hr with rfl | ⟨hr, _⟩ <;> rcases (hmem r').mp hr' with rfl | ⟨hr', _⟩
    · rfl
    · exact absurd (hkey.symm.trans (congrArg W.key hch)) (hI.clear c hc q hq r' hr' hl')
    · exact absurd (hkey.trans (congrArg W.key hch)) (hI.clear c hc q hq r hr hl)
    · exact hI.exclusive r hr r' hr' hl hl' hkey
  · intro d hd
    rw [hnow]
    exact hI.begun d (hsub d hd).1
  · intro d hd r hr hq' he
    exact hkeep r (hI.expired d (hsub d hd).1 r hr hq' he)
  · intro d hd
    exact hI.held d (hsub d hd).1
  · intro d hd p hp r hr hl
    rw [hnow] at hl
    obtain ⟨hd, hne⟩ := hsub d hd
    rcases (hmem r).mp hr with rfl | ⟨hr, _⟩
    · intro hkey
      have hkey' : W.key q.chatId = W.key p.chatId := (congrArg W.key hch).symm.trans hkey
      have hlock : W.lock q.chatId = W.lock p.chatId := congrArg W.hashtext hkey'
      have hboth := hI.held d hd p hp
      rw [← hlock] at hboth
      exact hne (hI.disjoint d hd c hc _ hboth (hI.held c hc q hq))
    · exact hI.clear d hd p hp r hr hl
  · intro d hd d' hd'
    exact hI.disjoint d (hsub d hd).1 d' (hsub d' hd').1
  · intro d hd
    exact hI.pickedPassed d (hsub d hd).1
  · intro d hd q' hq'
    obtain ⟨hd, hne⟩ := hsub d hd
    obtain ⟨r, hr, hid', hch', hst'⟩ := hI.pickedQueued d hd q' hq'
    refine ⟨r, (hmem r).mpr (.inr ⟨hr, ?_⟩), hid', hch', hst'⟩
    intro heq
    exact hne (hI.pickedOnce d hd c hc q' q hq' hpick (hid'.symm.trans heq))
  · intro d hd d' hd'
    exact hI.pickedOnce d (hsub d hd).1 d' (hsub d' hd').1

theorem calm_heartbeatRun (hok : Seen W s (.heartbeatRun sid))
    (h : s.heartbeatRun sid = some t) : t.now = s.now ∧ t.claims = s.claims ∧ Calm s t.tasks := by
  simp only [QueueState.heartbeatRun, Option.bind_eq_some_iff, Option.ite_none_left_eq_some, Option.some.injEq] at h
  obtain ⟨b, hb, _, rfl⟩ := h
  obtain ⟨hmem, hsid⟩ := Table.get_eq_some_iff.mp hb
  exact ⟨rfl, rfl, calm_modify (beat_id b) fun r hr hid => .inl (beat_calm (hok b hmem hsid r hr hid))⟩

/-! ### One step -/

theorem cancelAsked_calm (s : QueueState) (r : TaskRow) : CalmRow s r r.cancelAsked :=
  ⟨rfl, rfl, Iff.rfl, id, fun _ _ => rfl⟩

/-- The steps that write the table without inserting a turn or starting one. -/
def writesRows : QueueAct → Bool
  | .absorbQueuedTasks _ _ => true
  | .cancelQueuedTurn _ => true
  | .requestCancel _ => true
  | .heartbeatRun _ => true
  | .finalizeTask _ _ _ _ => true
  | .reconcileZombies _ => true
  | _ => false

variable {a : QueueAct}

theorem calm_of_step (hI : Inv W s) (hok : Seen W s a)
    (h : s.step W a = some t) (ha : writesRows a = true) : t.now = s.now ∧ t.claims = s.claims ∧ Calm s t.tasks := by
  cases a with
  | absorbQueuedTasks chatId exceptId =>
    simp only [step, Option.ite_none_left_eq_some, Option.some.injEq] at h
    obtain ⟨hfree, rfl⟩ := h
    refine ⟨rfl, rfl, calm_filter fun r hr hp => ?_⟩
    rw [Bool.not_eq_false'] at hp
    refine ⟨?_, fun hl => hfree ⟨r, hr, hp, hl⟩⟩
    simp only [TaskRow.absorbed, Bool.and_eq_true, decide_eq_true_eq] at hp
    exact hp.1.2
  | cancelQueuedTurn id =>
    simp only [step, Option.ite_none_left_eq_some, Option.some.injEq] at h
    obtain ⟨hfree, rfl⟩ := h
    refine ⟨rfl, rfl, calm_filter fun r _ hp => ?_⟩
    simp only [Bool.not_eq_false', Bool.and_eq_true, decide_eq_true_eq] at hp
    exact ⟨hp.2, hp.1 ▸ hfree⟩
  | requestCancel id =>
    simp only [step, Option.ite_none_left_eq_some, Option.some.injEq] at h
    obtain ⟨_, rfl⟩ := h
    exact ⟨rfl, rfl, calm_modify TaskRow.cancelAsked_id fun r _ _ => .inl (cancelAsked_calm s r)⟩
  | heartbeatRun sid => exact calm_heartbeatRun hok h
  | finalizeTask id status error workerId =>
    simp only [step, Option.ite_none_left_eq_some, Option.some.injEq, not_or, not_not] at h
    obtain ⟨⟨hfree, hterm⟩, rfl⟩ := h
    exact ⟨rfl, rfl, calm_modify (TaskRow.settle_id _ _ _) fun r _ hid => settled_calm hterm (hid ▸ hfree)⟩
  | reconcileZombies asOf =>
    simp only [step, Option.ite_none_right_eq_some, Option.some.injEq] at h
    obtain ⟨_, rfl⟩ := h
    exact ⟨rfl, rfl, calm_map (TaskRow.sweep_id asOf) fun r hr => sweep_calm hI asOf hr⟩
  | _ => cases ha

theorem inv_step (hI : Inv W s) (hok : Seen W s a)
    (h : s.step W a = some t) : Inv W t := by
  by_cases hw : writesRows a = true
  · obtain ⟨hnow, hclaims, hcalm⟩ := calm_of_step hI hok h hw
    exact inv_calm hI hnow hclaims hcalm
  · cases a with
    | tick ms =>
      cases h
      exact inv_tick hI ms
    | enqueueTask id chatId userId resumeMessageId createdAt =>
      simp only [step, Option.map_eq_some_iff] at h
      obtain ⟨T, hT, rfl⟩ := h
      exact inv_inserted hI rfl hT
    | claimStart sid workerId =>
      simp only [step, Option.map_eq_some_iff] at h
      obtain ⟨C, hC, rfl⟩ := h
      exact inv_started hI hC
    | claimScan sid id => exact inv_claimScan hI hok h
    | claimSkip sid id => exact inv_claimSkip hI h
    | claimPick sid id => exact inv_claimPick hI h
    | claimCommit sid => exact inv_claimCommit hI h
    | claimEnd sid =>
      cases h
      exact inv_ended hI sid
    | heartbeatStart sid taskId workerId =>
      simp only [step, Option.map_eq_some_iff] at h
      obtain ⟨B, _, rfl⟩ := h
      exact ⟨hI.1, hI.2, hI.3, hI.4, hI.5, hI.6, hI.7, hI.8, hI.9, hI.10⟩
    | _ => exact absurd rfl hw

theorem keepsLease_step {r : TaskRow} (hI : Inv W s) (hok : Seen W s a)
    (h : s.step W a = some t) (he : r.leaseAfter s.now = false) (hk : KeepsLease s.tasks r) :
    s.now ≤ t.now ∧ KeepsLease t.tasks r := by
  by_cases hw : writesRows a = true
  · obtain ⟨hnow, _, hcalm⟩ := calm_of_step hI hok h hw
    exact ⟨Nat.le_of_eq hnow.symm, hcalm.keepsLease he hk⟩
  · cases a with
    | tick ms =>
      cases h
      exact ⟨Nat.le_add_right _ _, hk⟩
    | enqueueTask id chatId userId resumeMessageId createdAt =>
      simp only [step, Option.map_eq_some_iff] at h
      obtain ⟨T, hT, rfl⟩ := h
      obtain ⟨r', hr', hrest⟩ := hk
      exact ⟨Nat.le_refl _, r', (mem_of_insertQueued hT).1.mpr (.inl hr'), hrest⟩
    | claimStart sid workerId =>
      simp only [step, Option.map_eq_some_iff] at h
      obtain ⟨C, _, rfl⟩ := h
      exact ⟨Nat.le_refl _, hk⟩
    | claimScan sid id =>
      simp only [step, claimScan, Option.bind_eq_some_iff, Option.ite_none_right_eq_some, Option.some.injEq] at h
      obtain ⟨_, _, _, _, _, rfl⟩ := h
      exact ⟨Nat.le_refl _, hk⟩
    | claimSkip sid id =>
      simp only [step, claimSkip, Option.bind_eq_some_iff, Option.ite_none_right_eq_some, Option.some.injEq] at h
      obtain ⟨_, _, _, _, _, rfl⟩ := h
      exact ⟨Nat.le_refl _, hk⟩
    | claimPick sid id =>
      simp only [step, claimPick, Option.bind_eq_some_iff, Option.ite_none_right_eq_some, Option.some.injEq] at h
      obtain ⟨_, _, _, _, _, rfl⟩ := h
      exact ⟨Nat.le_refl _, hk⟩
    | claimCommit sid =>
      obtain ⟨c, _, q, _, r₀, hr₀, _, _, hid, _, hst, hnow, _, hmem⟩ := mem_claimCommit hI h
      obtain ⟨r', hr', hid', hq', hl'⟩ := hk
      refine ⟨Nat.le_of_eq hnow.symm, r', (hmem r').mpr (.inr ⟨hr', ?_⟩), hid', hq', hl'⟩
      intro heq
      rw [Table.eq_of_key hr' hr₀ (heq.trans hid.symm)] at hq'
      exact hq' hst
    | claimEnd sid =>
      cases h
      exact ⟨Nat.le_refl _, hk⟩
    | heartbeatStart sid taskId workerId =>
      simp only [step, Option.map_eq_some_iff] at h
      obtain ⟨B, _, rfl⟩ := h
      exact ⟨Nat.le_refl _, hk⟩
    | _ => exact absurd rfl hw

theorem inv_init (W : Workspaces) : Inv W init := by
  constructor <;> intro r hr <;> exact absurd hr (Table.not_mem_empty r)

theorem inv_of_reaches (h : Steps.Reaches (step W) (Seen W) s t) (hI : Inv W s) :
    Inv W t :=
  h.invariant (fun _ _ _ hI hok hstep => inv_step hI hok hstep) hI

theorem keepsLease_of_reaches {r : TaskRow}
    (h : Steps.Reaches (step W) (Seen W) s t) (hI : Inv W s) (he : r.leaseAfter s.now = false)
    (hk : KeepsLease s.tasks r) : KeepsLease t.tasks r := by
  have hrel := h.invariant (I := fun u => Inv W u ∧ r.leaseAfter u.now = false ∧ KeepsLease u.tasks r) ?_ ⟨hI, he, hk⟩
  · exact hrel.2.2
  · intro u a v ⟨hu, heu, hku⟩ hok hv
    obtain ⟨hle, hkv⟩ := keepsLease_step hu hok hv heu hku
    exact ⟨inv_step hu hok hv, expired_mono hle heu, hkv⟩

end ExclAux

open ExclAux

/-- In every run whose scans miss no running turn and whose heartbeats are not late: every state reached has at most one
running turn with a lease per workspace and at most one queued turn per chat, and no lease that had expired in an earlier
state is extended. -/
theorem workspace_exclusive_of_seen {W : Workspaces} {s t : QueueState} (hs : Steps.Reaches (step W) (Seen W) init s)
    (ht : Steps.Reaches (step W) (Seen W) s t) : Exclusive W t ∧ OneQueued t.tasks ∧ LeasesKept s t := by
  have hIs := inv_of_reaches hs (inv_init W)
  have hIt := inv_of_reaches ht hIs
  refine ⟨hIt.exclusive, hIt.oneQueued, ?_⟩
  intro r hr hq he
  exact keepsLease_of_reaches ht hIs he ⟨r, hr, rfl, hq, rfl⟩

instance (W : Workspaces) (s : QueueState) : Decidable (Exclusive W s) :=
  inferInstanceAs (Decidable (∀ r ∈ s.tasks, ∀ r' ∈ s.tasks, r.live s.now → r'.live s.now → W.key r.chatId = W.key r'.chatId →
    r = r'))

instance (W : Workspaces) (s : QueueState) (T : Tasks) (chatId : Nat) : Decidable (s.Shown W T chatId) :=
  inferInstanceAs (Decidable (∀ r ∈ s.tasks, r.live s.now → W.key r.chatId = W.key chatId →
    ∃ r₀ ∈ T, r₀.id = r.id ∧ r₀.chatId = r.chatId ∧ r₀.status = .running))

instance (W : Workspaces) (s : QueueState) (a : QueueAct) : Decidable (Seen W s a) :=
  match a with
  | .claimScan sid id => inferInstanceAs (Decidable (∀ c ∈ s.claims, c.sid = sid → ∀ q ∈ c.snapshot, q.id = id →
      s.LockFree sid (W.lock q.chatId) → c.excluded W q = false → s.Shown W c.snapshot q.chatId))
  | .heartbeatRun sid => inferInstanceAs (Decidable (∀ b ∈ s.beats, b.sid = sid →
      ∀ r ∈ s.tasks, r.id = b.taskId → r.beats b.workerId b.startedAt → r.leaseAfter s.now))
  | .tick _ | .enqueueTask _ _ _ _ _ | .absorbQueuedTasks _ _ | .cancelQueuedTurn _ | .requestCancel _ | .claimStart _ _
  | .claimSkip _ _ | .claimPick _ _ | .claimCommit _ | .claimEnd _ | .heartbeatStart _ _ _ | .finalizeTask _ _ _ _
  | .reconcileZombies _ => .isTrue trivial

/-- Chats 1 and 2 in project 9. -/
def oneProject : Workspaces where
  projectId := fun chatId => if chatId = 1 ∨ chatId = 2 then some 9 else none
  hashtext := id

/-- Two claims take a snapshot; the second starts the turn of chat 1 and lets the lock go; the first then takes the lock, does
not see that turn in its snapshot, and starts the turn of chat 2. -/
def twoClaims : List QueueAct :=
  [.enqueueTask 1 1 7 none 0, .enqueueTask 2 2 7 none 1, .claimStart 10 100, .claimStart 20 200, .claimScan 20 1,
    .claimPick 20 1, .claimCommit 20, .claimScan 10 1, .claimSkip 10 1, .claimScan 10 2, .claimPick 10 2, .claimCommit 10]

/-- The claims one after the other: the second sees the first one's turn, and returns nothing; the turn's heartbeat comes in
time, its lease runs out, and the next claim starts the other turn. -/
def claimsInTurn : List QueueAct :=
  [.enqueueTask 1 1 7 none 0, .enqueueTask 2 2 7 none 1, .claimStart 20 200, .claimScan 20 1, .claimPick 20 1, .claimCommit 20,
    .claimStart 10 100, .claimScan 10 2, .claimEnd 10, .tick 5000, .heartbeatStart 30 1 200, .heartbeatRun 30, .tick 60000,
    .claimStart 10 100, .claimScan 10 2, .claimPick 10 2, .claimCommit 10]

theorem workspace_exclusive_in_turn :
    ∃ t, Steps.Reaches (step oneProject) (Seen oneProject) init t ∧ t.tasks.rows.length = 2 ∧
      (Exclusive oneProject t ∧ OneQueued t.tasks ∧ LeasesKept init t) := by
  obtain ⟨t, ht, hlen⟩ := Steps.exists_of_execOk (step oneProject) (Seen oneProject) init
    claimsInTurn (P := fun t => t.tasks.rows.length = 2) (by decide)
  exact ⟨t, ht, hlen, workspace_exclusive_of_seen (.refl _) ht⟩

/-- Two turns run in one workspace: not every reachable state is exclusive. -/
theorem workspace_exclusive_false :
    ¬∀ (W : Workspaces) (t : QueueState), Steps.Reaches (step W) Steps.Free init t → Exclusive W t := by
  intro h
  obtain ⟨t, ht, hbad⟩ := Steps.exists_of_exec (step oneProject) init
    twoClaims (P := fun t => ¬Exclusive oneProject t) (by decide)
  exact hbad (h oneProject t ht)

end QueueState

end Capka

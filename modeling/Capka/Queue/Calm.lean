import Capka.Queue.Claiming

/-!
# What a claim in flight relies on

The exclusion the queue promises, the condition `Seen` on a run, and the invariant `Inv`: what the claims in flight know about
the present. Most statements are calm: they start no turn, touch no expired lease and write no locked row, and a calm write
keeps the invariant whatever else it does.
-/

namespace Capka

namespace QueueState

/-- At most one running turn with a lease per workspace. -/
def Exclusive (W : Workspaces) (s : QueueState) : Prop :=
  ∀ r ∈ s.tasks, ∀ r' ∈ s.tasks, r.live s.now → r'.live s.now → W.key r.chatId = W.key r'.chatId → r = r'

/-- At most one queued turn per chat. -/
def OneQueued (T : Tasks) : Prop :=
  ∀ r ∈ T, ∀ r' ∈ T, r.status = .queued → r'.status = .queued → r.chatId = r'.chatId → r = r'

/-- The row is still there, claimed, under the lease it had. -/
def KeepsLease (T : Tasks) (r : TaskRow) : Prop :=
  ∃ r' ∈ T, r'.id = r.id ∧ r'.status ≠ .queued ∧ r'.leaseExpiresAt = r.leaseExpiresAt

/-- Every lease that has expired in `s` is in `t` as it was. -/
def LeasesKept (s t : QueueState) : Prop :=
  ∀ r ∈ s.tasks, r.status ≠ .queued → r.leaseAfter s.now = false → KeepsLease t.tasks r

/-- A snapshot shows as running every running turn with a lease in the chat's workspace. -/
def Shown (W : Workspaces) (s : QueueState) (snapshot : Tasks) (chatId : Nat) : Prop :=
  ∀ r ∈ s.tasks, r.live s.now → W.key r.chatId = W.key chatId →
    ∃ r₀ ∈ snapshot, r₀.id = r.id ∧ r₀.chatId = r.chatId ∧ r₀.status = .running

/-- The branches that go wrong are not taken: a candidate whose lock and `NOT EXISTS` pass has no running turn beside it that
the snapshot does not show as running; a heartbeat that takes effect finds the lease unexpired now, not only at its start. -/
def Seen (W : Workspaces) (s : QueueState) : QueueAct → Prop
  | .claimScan sid id => ∀ c ∈ s.claims, c.sid = sid → ∀ q ∈ c.snapshot, q.id = id →
      s.LockFree sid (W.lock q.chatId) → c.excluded W q = false → s.Shown W c.snapshot q.chatId
  | .heartbeatRun sid => ∀ b ∈ s.beats, b.sid = sid →
      ∀ r ∈ s.tasks, r.id = b.taskId → r.beats b.workerId b.startedAt → r.leaseAfter s.now
  | _ => True

/-- What the statements in flight have established about the present. -/
structure Inv (W : Workspaces) (s : QueueState) : Prop where
  oneQueued : OneQueued s.tasks
  exclusive : Exclusive W s
  begun : ∀ c ∈ s.claims, c.startedAt ≤ s.now
  expired : ∀ c ∈ s.claims, ∀ r ∈ c.snapshot, r.status ≠ .queued → r.leaseAfter c.startedAt = false → KeepsLease s.tasks r
  held : ∀ c ∈ s.claims, ∀ p ∈ c.passed, W.lock p.chatId ∈ c.locks
  clear : ∀ c ∈ s.claims, ∀ p ∈ c.passed, ∀ r ∈ s.tasks, r.live s.now → W.key r.chatId ≠ W.key p.chatId
  disjoint : ∀ c ∈ s.claims, ∀ c' ∈ s.claims, ∀ l ∈ c.locks, l ∈ c'.locks → c = c'
  pickedPassed : ∀ c ∈ s.claims, ∀ q, c.picked = some q → q ∈ c.passed
  pickedQueued : ∀ c ∈ s.claims, ∀ q, c.picked = some q →
    ∃ r ∈ s.tasks, r.id = q.id ∧ r.chatId = q.chatId ∧ r.status = .queued
  pickedOnce : ∀ c ∈ s.claims, ∀ c' ∈ s.claims, ∀ q q', c.picked = some q → c'.picked = some q' → q.id = q'.id → c = c'

namespace ExclAux

/-! ### Rows over time -/

variable {r : TaskRow} {a b : Nat}

theorem leaseAfter_mono (hab : a ≤ b) (h : r.leaseAfter b = true) : r.leaseAfter a = true := by
  simp only [TaskRow.leaseAfter, Option.any_eq_true, decide_eq_true_eq] at h ⊢
  obtain ⟨e, he, hlt⟩ := h
  exact ⟨e, he, by omega⟩

theorem live_mono (hab : a ≤ b) (h : r.live b = true) : r.live a = true := by
  simp only [TaskRow.live, Bool.and_eq_true] at h ⊢
  exact ⟨h.1, leaseAfter_mono hab h.2⟩

theorem expired_mono (hab : a ≤ b) (h : r.leaseAfter a = false) : r.leaseAfter b = false := by
  cases hb : r.leaseAfter b with
  | false => rfl
  | true =>
    rw [leaseAfter_mono hab hb] at h
    cases h

theorem leaseAfter_congr {r' : TaskRow} (h : r.leaseExpiresAt = r'.leaseExpiresAt) :
    r.leaseAfter a = r'.leaseAfter a := by
  unfold TaskRow.leaseAfter
  rw [h]

theorem running_of_live (h : r.live a = true) : r.status = .running := by
  simp only [TaskRow.live, Bool.and_eq_true, decide_eq_true_eq] at h
  exact h.1

theorem lease_of_live (h : r.live a = true) : r.leaseAfter a = true := by
  simp only [TaskRow.live, Bool.and_eq_true] at h
  exact h.2

/-! ### Writes that start no turn -/

/-- A write that inserts no queued row, starts no turn, touches no expired lease and no locked row. -/
structure Calm (s : QueueState) (T : Tasks) : Prop where
  queued : ∀ r' ∈ T, r'.status = .queued → ∃ r ∈ s.tasks, r.id = r'.id ∧ r.chatId = r'.chatId ∧ r.status = .queued
  live : ∀ r' ∈ T, r'.live s.now → ∃ r ∈ s.tasks, r.id = r'.id ∧ r.chatId = r'.chatId ∧ r.live s.now
  expired : ∀ r ∈ s.tasks, r.status ≠ .queued → r.leaseAfter s.now = false → KeepsLease T r
  locked : ∀ r ∈ s.tasks, s.RowLocked r.id → r.status = .queued →
    ∃ r' ∈ T, r'.id = r.id ∧ r'.chatId = r.chatId ∧ r'.status = .queued

/-- What a row-wise update must satisfy to be calm. -/
structure CalmRow (s : QueueState) (r r' : TaskRow) : Prop where
  id_eq : r'.id = r.id
  chat_eq : r'.chatId = r.chatId
  queued : r'.status = .queued ↔ r.status = .queued
  live : r'.live s.now → r.live s.now
  expired : r.status ≠ .queued → r.leaseAfter s.now = false → r'.leaseExpiresAt = r.leaseExpiresAt

theorem CalmRow.refl (s : QueueState) (r : TaskRow) : CalmRow s r r := ⟨rfl, rfl, Iff.rfl, id, fun _ _ => rfl⟩

variable {s : QueueState}

/-- A row-wise update whose rows change calmly, save that a row that is not locked may also leave the queue for good. -/
theorem calm_map {f : TaskRow → TaskRow} (hf : ∀ r, (f r).id = r.id)
    (h : ∀ r ∈ s.tasks, CalmRow s r (f r) ∨
      ((f r).chatId = r.chatId ∧ (f r).leaseExpiresAt = r.leaseExpiresAt ∧ (f r).status.terminal ∧ ¬s.RowLocked r.id)) :
    Calm s (s.tasks.map f hf) := by
  constructor
  · intro r' hr' hq
    obtain ⟨r, hr, rfl⟩ := Table.mem_map.mp hr'
    rcases h r hr with hc | ⟨_, _, ht, _⟩
    · exact ⟨r, hr, hc.id_eq.symm, hc.chat_eq.symm, hc.queued.mp hq⟩
    · rw [hq] at ht
      cases ht
  · intro r' hr' hl
    obtain ⟨r, hr, rfl⟩ := Table.mem_map.mp hr'
    rcases h r hr with hc | ⟨_, _, ht, _⟩
    · exact ⟨r, hr, hc.id_eq.symm, hc.chat_eq.symm, hc.live hl⟩
    · rw [running_of_live hl] at ht
      cases ht
  · intro r hr hq he
    refine ⟨f r, Table.mem_map.mpr ⟨r, hr, rfl⟩, hf r, ?_, ?_⟩
    · rcases h r hr with hc | ⟨_, _, ht, _⟩
      · exact fun h' => hq (hc.queued.mp h')
      · intro h'
        rw [h'] at ht
        cases ht
    · rcases h r hr with hc | ⟨_, hl, _, _⟩
      · exact hc.expired hq he
      · exact hl
  · intro r hr hl hq
    rcases h r hr with hc | ⟨_, _, _, hn⟩
    · exact ⟨f r, Table.mem_map.mpr ⟨r, hr, rfl⟩, hc.id_eq, hc.chat_eq, hc.queued.mpr hq⟩
    · exact absurd hl hn

theorem calm_modify {k : Nat} {f : TaskRow → TaskRow} (hf : ∀ r, (f r).id = r.id)
    (h : ∀ r ∈ s.tasks, r.id = k → CalmRow s r (f r) ∨
      ((f r).chatId = r.chatId ∧ (f r).leaseExpiresAt = r.leaseExpiresAt ∧ (f r).status.terminal ∧ ¬s.RowLocked r.id)) :
    Calm s (s.tasks.modify k f hf) := by
  refine calm_map _ fun r hr => ?_
  split
  · rename_i hid
    exact h r hr hid
  · exact .inl (.refl s r)

theorem calm_filter {p : TaskRow → Bool}
    (h : ∀ r ∈ s.tasks, p r = false → r.status = .queued ∧ ¬s.RowLocked r.id) : Calm s (s.tasks.filter p) := by
  have hkeep : ∀ r ∈ s.tasks, (r.status = .queued → s.RowLocked r.id) → r ∈ s.tasks.filter p := by
    intro r hr hl
    refine Table.mem_filter.mpr ⟨hr, ?_⟩
    cases hp : p r with
    | true => rfl
    | false => exact absurd (hl (h r hr hp).1) (h r hr hp).2
  constructor
  · intro r hr hq
    exact ⟨r, (Table.mem_filter.mp hr).1, rfl, rfl, hq⟩
  · intro r hr hl
    exact ⟨r, (Table.mem_filter.mp hr).1, rfl, rfl, hl⟩
  · intro r hr hq _
    exact ⟨r, hkeep r hr (fun h' => absurd h' hq), rfl, hq, rfl⟩
  · intro r hr hl hq
    exact ⟨r, hkeep r hr (fun _ => hl), rfl, rfl, hq⟩

theorem Calm.keepsLease {T : Tasks} (h : Calm s T) (he : r.leaseAfter s.now = false)
    (hk : KeepsLease s.tasks r) : KeepsLease T r := by
  obtain ⟨r', hr', hid, hq, hl⟩ := hk
  obtain ⟨r'', hr'', hid', hq', hl'⟩ := h.expired r' hr' hq ((leaseAfter_congr hl).trans he)
  exact ⟨r'', hr'', hid'.trans hid, hq', hl'.trans hl⟩

variable {W : Workspaces}

theorem inv_calm {t : QueueState} (hI : Inv W s) (hnow : t.now = s.now) (hclaims : t.claims = s.claims)
    (h : Calm s t.tasks) : Inv W t := by
  constructor
  · intro r hr r' hr' hq hq' hchat
    obtain ⟨r₀, hr₀, hid, hch, hq₀⟩ := h.queued r hr hq
    obtain ⟨r₁, hr₁, hid', hch', hq₁⟩ := h.queued r' hr' hq'
    have heq := hI.oneQueued r₀ hr₀ r₁ hr₁ hq₀ hq₁ (by rw [hch, hch', hchat])
    exact Table.eq_of_key hr hr' (by rw [← hid, ← hid', heq])
  · intro r hr r' hr' hl hl' hkey
    rw [hnow] at hl hl'
    obtain ⟨r₀, hr₀, hid, hch, hl₀⟩ := h.live r hr hl
    obtain ⟨r₁, hr₁, hid', hch', hl₁⟩ := h.live r' hr' hl'
    have heq := hI.exclusive r₀ hr₀ r₁ hr₁ hl₀ hl₁ (by rw [hch, hch', hkey])
    exact Table.eq_of_key hr hr' (by rw [← hid, ← hid', heq])
  · rw [hclaims, hnow]
    exact hI.begun
  · rw [hclaims]
    intro c hc r hr hq he
    exact h.keepsLease (expired_mono (hI.begun c hc) he) (hI.expired c hc r hr hq he)
  · rw [hclaims]
    exact hI.held
  · rw [hclaims, hnow]
    intro c hc p hp r hr hl
    obtain ⟨r₀, hr₀, _, hch, hl₀⟩ := h.live r hr hl
    rw [← hch]
    exact hI.clear c hc p hp r₀ hr₀ hl₀
  · rw [hclaims]
    exact hI.disjoint
  · rw [hclaims]
    exact hI.pickedPassed
  · rw [hclaims]
    intro c hc q hq
    obtain ⟨r, hr, hid, hch, hst⟩ := hI.pickedQueued c hc q hq
    obtain ⟨r', hr', hid', hch', hst'⟩ := h.locked r hr ⟨c, hc, q, hq, hid.symm⟩ hst
    exact ⟨r', hr', hid'.trans hid, hch'.trans hch, hst'⟩
  · rw [hclaims]
    exact hI.pickedOnce

theorem settled_calm {status : TaskStatus} {error : Option String} {worker : Option Nat}
    (ht : status.terminal = true) (hn : ¬s.RowLocked r.id) :
    CalmRow s r (r.settle status error worker) ∨
      ((r.settle status error worker).chatId = r.chatId ∧
        (r.settle status error worker).leaseExpiresAt = r.leaseExpiresAt ∧
        (r.settle status error worker).status.terminal ∧ ¬s.RowLocked r.id) := by
  unfold TaskRow.settle
  split
  · exact .inr ⟨rfl, rfl, ht, hn⟩
  · exact .inl (.refl s r)

theorem sweep_calm (hI : Inv W s) (asOf : Nat) (hr : r ∈ s.tasks) :
    CalmRow s r (r.sweep asOf) ∨
      ((r.sweep asOf).chatId = r.chatId ∧ (r.sweep asOf).leaseExpiresAt = r.leaseExpiresAt ∧
        (r.sweep asOf).status.terminal ∧ ¬s.RowLocked r.id) := by
  unfold TaskRow.sweep
  split
  · rename_i hd
    refine .inr ⟨rfl, rfl, rfl, ?_⟩
    rintro ⟨c, hc, q, hq, hid⟩
    obtain ⟨r', hr', hid', _, hst⟩ := hI.pickedQueued c hc q hq
    rw [Table.eq_of_key hr' hr (hid'.trans hid)] at hst
    simp [TaskRow.dead, hst] at hd
  · exact .inl (.refl s r)

theorem beat_calm {b : BeatStmt}
    (h : r.beats b.workerId b.startedAt → r.leaseAfter s.now) : CalmRow s r (beat b r) := by
  unfold beat
  split
  · rename_i hb
    have hl := h hb
    simp only [TaskRow.beats, Bool.and_eq_true, decide_eq_true_eq] at hb
    refine ⟨rfl, rfl, Iff.rfl, ?_, ?_⟩
    · intro _
      simp only [TaskRow.live, hb.1.1, hl, Bool.and_true, decide_true]
    · intro _ he
      rw [hl] at he
      cases he
  · exact .refl s r

/-! ### The other writes of the table -/

theorem inv_inserted {T : Tasks} (hI : Inv W s)
    (hq : r.status = .queued) (h : insertQueued r s.tasks = some T) : Inv W { s with tasks := T } := by
  have hmem : ∀ r', r' ∈ T ↔ r' ∈ s.tasks ∨ r' = r := fun r' => (mem_of_insertQueued h).1
  have hfree := (mem_of_insertQueued (x := r) h).2
  have hlive : ∀ r' ∈ T, r'.live s.now → r' ∈ s.tasks := by
    intro r' hr' hl
    rcases (hmem r').mp hr' with hr' | rfl
    · exact hr'
    · rw [running_of_live hl] at hq
      cases hq
  constructor
  · intro r₁ hr₁ r₂ hr₂ hq₁ hq₂ hchat
    rcases (hmem r₁).mp hr₁ with hr₁ | rfl <;> rcases (hmem r₂).mp hr₂ with hr₂ | rfl
    · exact hI.oneQueued r₁ hr₁ r₂ hr₂ hq₁ hq₂ hchat
    · exact absurd hchat (hfree r₁ hr₁ hq₁)
    · exact absurd hchat.symm (hfree r₂ hr₂ hq₂)
    · rfl
  · intro r₁ hr₁ r₂ hr₂ hl₁ hl₂ hkey
    exact hI.exclusive r₁ (hlive r₁ hr₁ hl₁) r₂ (hlive r₂ hr₂ hl₂) hl₁ hl₂ hkey
  · exact hI.begun
  · intro c hc r₀ hr₀ hq₀ he
    obtain ⟨r', hr', hrest⟩ := hI.expired c hc r₀ hr₀ hq₀ he
    exact ⟨r', (hmem r').mpr (.inl hr'), hrest⟩
  · exact hI.held
  · intro c hc p hp r' hr' hl
    exact hI.clear c hc p hp r' (hlive r' hr' hl) hl
  · exact hI.disjoint
  · exact hI.pickedPassed
  · intro c hc q hp
    obtain ⟨r', hr', hrest⟩ := hI.pickedQueued c hc q hp
    exact ⟨r', (hmem r').mpr (.inl hr'), hrest⟩
  · exact hI.pickedOnce

theorem inv_tick (hI : Inv W s) (ms : Nat) : Inv W { s with now := s.now + ms } := by
  have hle : s.now ≤ s.now + ms := Nat.le_add_right _ _
  constructor
  · exact hI.oneQueued
  · intro r hr r' hr' hl hl' hkey
    exact hI.exclusive r hr r' hr' (live_mono hle hl) (live_mono hle hl') hkey
  · intro c hc
    exact Nat.le_trans (hI.begun c hc) hle
  · exact hI.expired
  · exact hI.held
  · intro c hc p hp r hr hl
    exact hI.clear c hc p hp r hr (live_mono hle hl)
  · exact hI.disjoint
  · exact hI.pickedPassed
  · exact hI.pickedQueued
  · exact hI.pickedOnce

end ExclAux

end QueueState

end Capka

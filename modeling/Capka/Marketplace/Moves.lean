import Mathlib
import Capka.Marketplace.Applies

/-!
# What a step of an apply does

Every step of an apply turns its phase, and some update the rows as well, under the predicate that names its operation. The steps are
listed here once; what happens to a row, to the applies and to the record is read off the list.
-/

namespace Capka.Marketplace

/-- The phases before the claim. -/
def Phase.unclaimed : Phase → Bool
  | .asked => true
  | .planned => true
  | _ => false

/-- The phases of a claim that has written nothing. -/
def Phase.unmutated : Phase → Bool
  | .claimed => true
  | .releasing => true
  | .staling => true
  | .aborting => true
  | _ => false

/-- The phases that owe the journal an entry of a transition. -/
def Phase.owing : Phase → Bool
  | .recording _ => true
  | .staling => true
  | _ => false

/-- The steps of an apply that succeed. -/
inductive Moved (s : State) (op : Nat) (w : Apply) : Act → State → Prop
  | read (kind : ApplyKind) (seen : Nat) (hp : w.phase = .asked)
      (h : (w.installId = none ∧ kind = .install ∧ seen = 0) ∨
        ∃ id, w.installId = some id ∧ seen = ((s.rows.get id).map Install.revision).getD 0 ∧
          kind = if (s.rows.get id).any Install.neverCommitted then .retry else .upgrade) :
      Moved s op w (.read op) (s.put op { w with kind := kind, seen := seen, phase := .planned })
  | turned (a : Act) (q : Phase) (hq : q.unclaimed = false) (hm : q.unmutated = true → w.phase.unmutated = true)
      (ho : q.owing = false) : Moved s op w a (s.put op { w with phase := q })
  | staged (rows : Installs) (journal : List (Nat × Event)) (hp : w.phase = .planned) (hi : w.installId = none)
      (hrows : s.rows.insert ⟨s.nextId, some 0, 0, some ⟨op, .applying, w.kind, s.now + applyLeaseMs⟩, 0, false⟩ = some rows)
      (hj : insertAudit s.journal op .accepted = some journal) :
      Moved s op w (.claim op) { s with
        rows := rows
        journal := journal
        nextId := s.nextId + 1
        applies := s.applies.set op { w with installId := some s.nextId, phase := .claimed, before := none } }
  | claimed (id : Nat) (journal : List (Nat × Event)) (hp : w.phase = .planned) (hi : w.installId = some id)
      (hr : s.any (Install.claimable id w.seen) = true) (hj : insertAudit s.journal op .accepted = some journal) :
      Moved s op w (.claim op)
        ({ (s.update (Install.claimable id w.seen) (Install.claimed op w.kind s.now) (fun _ => rfl)) with journal := journal }.put op
          { w with phase := .claimed, before := s.rows.get id })
  | renewed (id : Nat) (hp : w.phase = .mutating) (hi : w.installId = some id) :
      Moved s op w (.renew op) (s.update (Install.mine id op) (Install.renewed s.now) (fun _ => rfl))
  | wrote (id : Nat) (hp : w.phase = .mutating) (hi : w.installId = some id) :
      Moved s op w (.write op) (s.update (Install.leased id op s.now) Install.wrote (fun _ => rfl))
  | finalized (id : Nat) (journal : List (Nat × Event)) (hp : w.phase = .committing) (hi : w.installId = some id)
      (hr : s.any (Install.leased id op s.now) = true) (hj : insertAudit s.journal op .succeeded = some journal) :
      Moved s op w (.finalize op true)
        ((({ (s.update (Install.leased id op s.now) (Install.finalized (w.prior + 1) w.view) (fun _ => rfl)) with journal := journal }).wins
          op .published).put op { w with phase := .done })
  | failed (id : Nat) (code : ErrorCode) (hp : w.phase = .failing code) (hi : w.installId = some id)
      (hr : s.any (Install.mine id op) = true) :
      Moved s op w (.markFailed op)
        (((s.update (Install.mine id op) Install.failed (fun _ => rfl)).wins op .failed).put op { w with phase := .recording code })
  | recorded (code : ErrorCode) (journal : List (Nat × Event)) (hp : w.phase = .recording code)
      (hj : insertAudit s.journal op (.failed code) = some journal) :
      Moved s op w (.record op) ({ s with journal := journal }.put op { w with phase := .done })
  | released (id : Nat) (q : Phase) (hp : (w.phase = .releasing ∧ q = .staling) ∨ (w.phase = .aborting ∧ q = .done))
      (hi : w.installId = some id) (hr : s.any (Install.mine id op) = true) :
      Moved s op w (.release op) ((s.release id op w.kind).put op { w with phase := q })
  | missed (id : Nat) (hp : w.phase = .releasing) (hi : w.installId = some id) (hr : s.any (Install.mine id op) = false) :
      Moved s op w (.release op) (s.put op { w with phase := .staling })
  | staled (journal : List (Nat × Event)) (hp : w.phase = .staling) (hj : insertAudit s.journal op .stale = some journal) :
      Moved s op w (.stale op) ({ s with journal := journal }.put op { w with phase := .done })

namespace MovesAux

variable {s t : State} {op : Nat} {w : Apply}

theorem moved_of_claim (hp : w.phase = .planned) (h : s.claim op w = some t) :
    Moved s op w (.claim op) t := by
  unfold State.claim at h
  split at h
  · rename_i hi
    split at h
    · rename_i rows journal hrows hj
      cases h
      exact .staged rows journal hp hi hrows hj
    · cases h
  · rename_i id hi
    split at h
    · rename_i hr
      split at h
      · rename_i journal hj
        cases h
        exact .claimed id journal hp hi hr hj
      · cases h
    · cases h
      exact .turned _ .done rfl (by simp [Phase.unmutated]) rfl

variable {id : Nat}

theorem moved_of_finalize {d : Bool} (hp : w.phase = .committing) (hi : w.installId = some id) :
    Moved s op w (.finalize op d) (s.finalize op id w d) := by
  unfold State.finalize
  split
  · rename_i hr
    split
    · rename_i journal hj
      exact .finalized id journal hp hi hr hj
    · exact .turned _ (.failing .policyStale) rfl (by simp [Phase.unmutated]) rfl
  · exact .turned _ (.failing .leaseLost) rfl (by simp [Phase.unmutated]) rfl

variable {kind : ApplyKind}

theorem release_of_not_any (h : s.any (Install.mine id op) = false) :
    s.release id op kind = s := by
  simp [State.release, h]

theorem moved_of_applyStep {a : Act} (ha : a.op = some op)
    (h : applyStep s op w a = some t) : Moved s op w a t := by
  unfold applyStep at h
  split at h
  all_goals (try simp only [Act.op, Option.some.injEq] at ha)
  all_goals (try subst ha)
  case h_1 hp hi =>
    cases h
    exact .read _ _ hp (.inl ⟨hi, rfl, rfl⟩)
  case h_2 id hp hi =>
    cases h
    exact .read _ _ hp (.inr ⟨id, hi, rfl, rfl⟩)
  case h_3 hp => exact moved_of_claim hp h
  case h_4 same hp =>
    cases h
    cases same
    · exact .turned _ .releasing rfl (by simp [hp, Phase.unmutated]) rfl
    · exact .turned _ .mutating rfl (by simp [Phase.unmutated]) rfl
  case h_5 id hp hi =>
    cases h
    exact .renewed id hp hi
  case h_6 id hp hi =>
    split at h
    · cases h
      exact .wrote id hp hi
    · cases h
      exact .turned _ (.failing .fenced) rfl (by simp [Phase.unmutated]) rfl
  case h_7 =>
    cases h
    exact .turned _ (.failing .writeFailed) rfl (by simp [Phase.unmutated]) rfl
  case h_8 =>
    cases h
    exact .turned _ .committing rfl (by simp [Phase.unmutated]) rfl
  case h_9 d id hp hi =>
    cases h
    exact moved_of_finalize hp hi
  case h_10 code id hp hi =>
    split at h
    · rename_i hr
      cases h
      exact .failed id code hp hi hr
    · cases h
      exact .turned _ .done rfl (by simp [Phase.unmutated]) rfl
  case h_11 code hp =>
    obtain ⟨journal, hj, rfl⟩ := Option.map_eq_some_iff.mp h
    exact .recorded code journal hp hj
  case h_12 id hp hi =>
    cases h
    cases hr : s.any (Install.mine id _) with
    | true => exact .released id .staling (.inl ⟨hp, rfl⟩) hi hr
    | false =>
      rw [release_of_not_any hr]
      exact .missed id hp hi hr
  case h_13 id hp hi =>
    cases h
    cases hr : s.any (Install.mine id _) with
    | true => exact .released id .done (.inr ⟨hp, rfl⟩) hi hr
    | false =>
      rw [release_of_not_any hr]
      exact .turned _ .done rfl (by simp [Phase.unmutated]) rfl
  case h_14 hp =>
    obtain ⟨journal, hj, rfl⟩ := Option.map_eq_some_iff.mp h
    exact .staled journal hp hj
  case h_15 hp =>
    cases h
    exact .turned _ .aborting rfl (by simp [hp, Phase.unmutated]) rfl
  case h_16 hp =>
    cases h
    exact .turned _ .aborting rfl (by simp [hp, Phase.unmutated]) rfl
  case h_17 hp =>
    cases h
    exact .turned _ .aborting rfl (by simp [hp, Phase.unmutated]) rfl
  case h_18 =>
    cases h
    exact .turned _ (.failing .aborted) rfl (by simp [Phase.unmutated]) rfl
  case h_19 =>
    cases h
    exact .turned _ (.failing .aborted) rfl (by simp [Phase.unmutated]) rfl
  case h_20 =>
    cases h
    exact .turned _ .done rfl (by simp [Phase.unmutated]) rfl
  case h_21 => cases h

theorem step_cases {a : Act} (h : step s a = some t) :
    (∃ w, a.op = none ∧ w.phase = .asked ∧ (∀ id, w.installId = some id → ∃ r ∈ s.rows, r.id = id) ∧
      t = { s with applies := s.applies ++ [w] }) ∨
    (∃ op w, a.op = some op ∧ s.applies[op]? = some w ∧ Moved s op w a t) ∨
    (a = .reap ∧ s.reap = some t) ∨
    (∃ id, a = .uninstall id ∧ t = { s with rows := s.rows.erase id }) ∨
    ∃ ms, a = .wait ms ∧ t = { s with now := s.now + ms } := by
  unfold step at h
  split at h
  · cases h
    exact .inl ⟨_, rfl, rfl, fun id hid => (by cases hid), rfl⟩
  · rename_i id view
    obtain ⟨r, hr, rfl⟩ := Option.map_eq_some_iff.mp h
    have hmem := Table.get_eq_some_iff.mp hr
    refine .inl ⟨_, rfl, rfl, ?_, rfl⟩
    intro id' hid
    cases hid
    exact ⟨r, hmem⟩
  · exact .inr (.inr (.inl ⟨rfl, h⟩))
  · rename_i id
    cases h
    exact .inr (.inr (.inr (.inl ⟨id, rfl, rfl⟩)))
  · rename_i ms
    cases h
    exact .inr (.inr (.inr (.inr ⟨ms, rfl, rfl⟩)))
  · obtain ⟨op, hop, h⟩ := Option.bind_eq_some_iff.mp h
    obtain ⟨w, hw, h⟩ := Option.bind_eq_some_iff.mp h
    exact .inr (.inl ⟨op, w, hop, hw, moved_of_applyStep hop h⟩)

theorem reap_cases (h : s.reap = some t) :
    ∃ journal, ((s.rows.rows.filter (Install.stale s.now)).filterMap Install.applyingOp).foldlM
        (fun journal op => insertAudit journal op (.failed .leaseExpired)) s.journal = some journal ∧
      t = { (s.update (Install.stale s.now) Install.failed (fun _ => rfl)) with
        journal := journal
        won := s.won ++ ((s.rows.rows.filter (Install.stale s.now)).filterMap Install.applyingOp).map (fun op => (op, .failed)) } := by
  obtain ⟨journal, hj, rfl⟩ := Option.map_eq_some_iff.mp h
  exact ⟨journal, hj, rfl⟩

variable {r : Install}

theorem mine_iff : r.mine id op = true ↔ r.id = id ∧ r.applyingOp = some op := by
  simp [Install.mine]

theorem mine_of_leased {now : Nat} (h : r.leased id op now = true) : r.mine id op = true := by
  simp only [Install.leased, Bool.and_eq_true] at h
  exact h.1

theorem claimable_iff {n : Nat} : r.claimable id n = true ↔ r.id = id ∧ r.revision = n ∧ r.applyingOp = none := by
  simp [Install.claimable, and_assoc]

theorem applyingOp_of_stale {now : Nat} (h : r.stale now = true) : ∃ op, r.applyingOp = some op := by
  unfold Install.stale at h
  cases ha : r.applyState with
  | none => simp [ha] at h
  | some a =>
    simp only [ha, Option.any_some, Bool.and_eq_true, beq_iff_eq] at h
    exact ⟨a.operationId, by simp [Install.applyingOp, ha, h.1]⟩

@[simp] theorem applyingOp_failed (r : Install) : r.failed.applyingOp = none := by
  cases h : r.applyState <;> simp [Install.failed, Install.applyingOp, h]

@[simp] theorem applyingOp_cleared (r : Install) : r.cleared.applyingOp = none := rfl

@[simp] theorem applyingOp_finalized (r : Install) (n view : Nat) : (r.finalized n view).applyingOp = none := rfl

@[simp] theorem applyingOp_wrote (r : Install) : r.wrote.applyingOp = r.applyingOp := rfl

@[simp] theorem applyingOp_claimed (r : Install) (op : Nat) (kind : ApplyKind) (now : Nat) :
    (r.claimed op kind now).applyingOp = some op := rfl

@[simp] theorem applyingOp_renewed (r : Install) (now : Nat) : (r.renewed now).applyingOp = r.applyingOp := by
  cases h : r.applyState <;> simp [Install.renewed, Install.applyingOp, h]

theorem mem_update {p : Install → Bool} {f : Install → Install} {hf : ∀ r, (f r).id = r.id} {r' : Install}
    (h : r' ∈ (s.update p f hf).rows) : ∃ r ∈ s.rows, r'.id = r.id ∧ ((p r = true ∧ r' = f r) ∨ (p r = false ∧ r' = r)) := by
  rcases (Table.mem_update hf).mp h with ⟨r, hr, hp, rfl⟩ | ⟨hr, hp⟩
  · exact ⟨r, hr, hf r, .inl ⟨hp, rfl⟩⟩
  · exact ⟨r', hr, rfl, .inr ⟨by simpa using hp, rfl⟩⟩

theorem exists_of_any {p : Install → Bool} (h : s.any p = true) : ∃ r ∈ s.rows, p r = true :=
  List.any_eq_true.mp h

theorem mem_release {r' : Install} (h : r' ∈ (s.release id op kind).rows) :
    ∃ r ∈ s.rows, r'.id = r.id ∧ ((r.mine id op = false ∧ r' = r) ∨
      (r.mine id op = true ∧ ((kind = .retry ∧ r' = r.failed) ∨ (kind = .upgrade ∧ r' = r.cleared)))) := by
  unfold State.release at h
  split at h
  · cases kind with
    | install =>
      obtain ⟨hr, hm⟩ := Table.mem_filter.mp h
      exact ⟨r', hr, rfl, .inl ⟨by simpa using hm, rfl⟩⟩
    | retry =>
      have h : r' ∈ (s.update (Install.mine id op) Install.failed (fun _ => rfl)).rows := h
      obtain ⟨r, hr, hid, ⟨hm, rfl⟩ | ⟨hm, rfl⟩⟩ := mem_update h
      · exact ⟨r, hr, hid, .inr ⟨hm, .inl ⟨rfl, rfl⟩⟩⟩
      · exact ⟨r', hr, hid, .inl ⟨hm, rfl⟩⟩
    | upgrade =>
      have h : r' ∈ (s.update (Install.mine id op) Install.cleared (fun _ => rfl)).rows := h
      obtain ⟨r, hr, hid, ⟨hm, rfl⟩ | ⟨hm, rfl⟩⟩ := mem_update h
      · exact ⟨r, hr, hid, .inr ⟨hm, .inr ⟨rfl, rfl⟩⟩⟩
      · exact ⟨r', hr, hid, .inl ⟨hm, rfl⟩⟩
  · rename_i hany
    refine ⟨r', h, rfl, .inl ⟨?_, rfl⟩⟩
    cases hm : r'.mine id op with
    | false => rfl
    | true => exact absurd (List.any_eq_true.mpr ⟨r', h, hm⟩) hany

@[simp] theorem applies_release (s : State) (id op : Nat) (kind : ApplyKind) : (s.release id op kind).applies = s.applies := by
  unfold State.release
  split
  · cases kind <;> rfl
  · rfl

@[simp] theorem journal_release (s : State) (id op : Nat) (kind : ApplyKind) : (s.release id op kind).journal = s.journal := by
  unfold State.release
  split
  · cases kind <;> rfl
  · rfl

@[simp] theorem nextId_release (s : State) (id op : Nat) (kind : ApplyKind) : (s.release id op kind).nextId = s.nextId := by
  unfold State.release
  split
  · cases kind <;> rfl
  · rfl

theorem won_release (h : s.any (Install.mine id op) = true) :
    (s.release id op kind).won = s.won ++ [(op, .released)] := by
  unfold State.release
  rw [if_pos h]
  cases kind <;> rfl

end MovesAux

open MovesAux

/-- What a step may do to a row that is there before and after. -/
inductive RowMove (s t : State) (a : Act) (r : Install) : Install → Prop
  | same : RowMove s t a r r
  | claimed (op : Nat) (w : Apply) (ha : a = .claim op) (hw : s.applies[op]? = some w) (hp : w.phase = .planned)
      (hi : w.installId = some r.id) (hv : r.revision = w.seen) (hn : r.applyingOp = none)
      (ht : t.applies[op]? = some { w with phase := .claimed, before := some r }) : RowMove s t a r (r.claimed op w.kind s.now)
  | renewed (op : Nat) (ha : a = .renew op) (hr : r.applyingOp = some op) : RowMove s t a r (r.renewed s.now)
  | wrote (op : Nat) (w : Apply) (ha : a = .write op) (hw : s.applies[op]? = some w) (hp : w.phase = .mutating)
      (hr : r.applyingOp = some op) : RowMove s t a r r.wrote
  | finalized (op : Nat) (w : Apply) (ha : a = .finalize op true) (hw : s.applies[op]? = some w) (hr : r.applyingOp = some op)
      (ht : t.won = s.won ++ [(op, .published)]) : RowMove s t a r (r.finalized (w.prior + 1) w.view)
  | failed (op : Nat) (hr : r.applyingOp = some op) : RowMove s t a r r.failed
  | cleared (op : Nat) (w : Apply) (ha : a = .release op) (hw : s.applies[op]? = some w) (hp : w.phase.unmutated = true)
      (hk : w.kind = .upgrade) (hr : r.applyingOp = some op) : RowMove s t a r r.cleared

/-- The staging row of a first install. -/
structure Staged (s t : State) (a : Act) (op : Nat) (w : Apply) (r' : Install) : Prop where
  act : a = .claim op
  here : s.applies[op]? = some w
  planned : w.phase = .planned
  first : w.installId = none
  row : r' = ⟨s.nextId, some 0, 0, some ⟨op, .applying, w.kind, s.now + applyLeaseMs⟩, 0, false⟩
  next : t.nextId = s.nextId + 1
  after : t.applies[op]? = some { w with installId := some s.nextId, phase := .claimed, before := none }

namespace MovesAux

theorem row_of_moved {s t : State} {a : Act} {op : Nat} {w : Apply} (hw : s.applies[op]? = some w) (h : Moved s op w a t)
    {r' : Install} (hr' : r' ∈ t.rows) :
    (∃ r ∈ s.rows, r'.id = r.id ∧ RowMove s t a r r') ∨ Staged s t a op w r' := by
  have hlt : op < s.applies.length := (List.getElem?_eq_some_iff.mp hw).1
  cases h with
  | read kind seen hp h
  | turned _ q hq hm ho
  | recorded code journal hp hj
  | missed id hp hi hr
  | staled journal hp hj => exact .inl ⟨r', hr', rfl, .same⟩
  | staged rows journal hp hi hrows hj =>
    rcases (Table.mem_of_insert hrows).mp hr' with hr | rfl
    · exact .inl ⟨r', hr, rfl, .same⟩
    · exact .inr ⟨rfl, hw, hp, hi, rfl, rfl, by simp [hlt]⟩
  | claimed id journal hp hi hany hj =>
    have hr' : r' ∈ (s.update (Install.claimable id w.seen) (Install.claimed op w.kind s.now) (fun _ => rfl)).rows := hr'
    obtain ⟨r, hr, hid, ⟨hc, rfl⟩ | ⟨_, rfl⟩⟩ := mem_update hr'
    · obtain ⟨rfl, hv, hn⟩ := claimable_iff.mp hc
      have hget : s.rows.get r.id = some r := Table.get_eq_some_iff.mpr ⟨hr, rfl⟩
      exact .inl ⟨r, hr, hid, .claimed op w rfl hw hp hi hv hn (by simp [State.put, State.update, hlt, hget])⟩
    · exact .inl ⟨r', hr, hid, .same⟩
  | renewed id hp hi =>
    obtain ⟨r, hr, hid, ⟨hm, rfl⟩ | ⟨_, rfl⟩⟩ := mem_update hr'
    · exact .inl ⟨r, hr, hid, .renewed op rfl (mine_iff.mp hm).2⟩
    · exact .inl ⟨r', hr, hid, .same⟩
  | wrote id hp hi =>
    obtain ⟨r, hr, hid, ⟨hm, rfl⟩ | ⟨_, rfl⟩⟩ := mem_update hr'
    · exact .inl ⟨r, hr, hid, .wrote op w rfl hw hp (mine_iff.mp (mine_of_leased hm)).2⟩
    · exact .inl ⟨r', hr, hid, .same⟩
  | finalized id journal hp hi hany hj =>
    have hr' : r' ∈ (s.update (Install.leased id op s.now) (Install.finalized (w.prior + 1) w.view) (fun _ => rfl)).rows := hr'
    obtain ⟨r, hr, hid, ⟨hm, rfl⟩ | ⟨_, rfl⟩⟩ := mem_update hr'
    · exact .inl ⟨r, hr, hid, .finalized op w rfl hw (mine_iff.mp (mine_of_leased hm)).2 rfl⟩
    · exact .inl ⟨r', hr, hid, .same⟩
  | failed id code hp hi hany =>
    have hr' : r' ∈ (s.update (Install.mine id op) Install.failed (fun _ => rfl)).rows := hr'
    obtain ⟨r, hr, hid, ⟨hm, rfl⟩ | ⟨_, rfl⟩⟩ := mem_update hr'
    · exact .inl ⟨r, hr, hid, .failed op (mine_iff.mp hm).2⟩
    · exact .inl ⟨r', hr, hid, .same⟩
  | released id q hp hi hany =>
    obtain ⟨r, hr, hid, ⟨_, rfl⟩ | ⟨hm, ⟨_, rfl⟩ | ⟨hk, rfl⟩⟩⟩ := mem_release hr'
    · exact .inl ⟨r', hr, rfl, .same⟩
    · exact .inl ⟨r, hr, hid, .failed op (mine_iff.mp hm).2⟩
    · refine .inl ⟨r, hr, hid, .cleared op w rfl hw ?_ hk (mine_iff.mp hm).2⟩
      rcases hp with ⟨hp, _⟩ | ⟨hp, _⟩ <;> simp [hp, Phase.unmutated]

theorem row_of_step {s t : State} {a : Act} (h : step s a = some t) {r' : Install} (hr' : r' ∈ t.rows) :
    (∃ r ∈ s.rows, r'.id = r.id ∧ RowMove s t a r r') ∨ ∃ op w, Staged s t a op w r' := by
  rcases step_cases h with ⟨w, _, _, _, rfl⟩ | ⟨op, w, _, hw, hm⟩ | ⟨rfl, hreap⟩ | ⟨id, rfl, rfl⟩ | ⟨ms, rfl, rfl⟩
  · exact .inl ⟨r', hr', rfl, .same⟩
  · exact (row_of_moved hw hm hr').imp_right (fun hs => ⟨op, w, hs⟩)
  · obtain ⟨journal, _, rfl⟩ := reap_cases hreap
    have hr' : r' ∈ (s.update (Install.stale s.now) Install.failed (fun _ => rfl)).rows := hr'
    obtain ⟨r, hr, hid, ⟨hs, rfl⟩ | ⟨_, rfl⟩⟩ := mem_update hr'
    · obtain ⟨op, hop⟩ := applyingOp_of_stale hs
      exact .inl ⟨r, hr, hid, .failed op hop⟩
    · exact .inl ⟨r', hr, hid, .same⟩
  · exact .inl ⟨r', (Table.mem_erase.mp hr').1, rfl, .same⟩
  · exact .inl ⟨r', hr', rfl, .same⟩

end MovesAux

end Capka.Marketplace

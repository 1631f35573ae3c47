import Mathlib
import Capka.Marketplace.Owners

/-!
# A failed apply stays visible

A release puts back what the claim took: a staging row goes, a row of before reads as it did. It puts it back by the kind of the apply, and
an upgrade is taken to have been ready; an upgrade that took over a failed apply and is released reads as ready with its half-written
resources.
-/

namespace Capka.Marketplace

/-- A release is not of an upgrade that took over a failed apply. -/
def OverReady (s : State) (a : Act) : Bool :=
  match a with
  | .release op => s.applies[op]?.all (fun w => w.kind != .upgrade || w.before.all (fun b => b.ownerState != .failed))
  | _ => true

/-- No row reads as ready while a resource of it was written since it was published. -/
def Clean (s : State) : Prop := ∀ r ∈ s.rows, r.ownerState = .ready → r.dirty = false

/-- What holds of a step. A release of a claim leaves what the claim took: nothing, or a row that reads as it did; and a row becomes ready
by its publication, or by the release of a claim that took it ready. -/
structure GivesBack (s t : State) (a : Act) : Prop where
  staging : ∀ op w, a = .release op → s.applies[op]? = some w → ∀ r ∈ s.rows, r.applyingOp = some op → w.before = none →
    ∀ r' ∈ t.rows, r'.id ≠ r.id
  row : ∀ op w, a = .release op → s.applies[op]? = some w → ∀ r ∈ s.rows, r.applyingOp = some op → ∀ b, w.before = some b →
    ∃ r' ∈ t.rows, r'.id = b.id ∧ r'.ownerState = b.ownerState ∧ r'.committedRevision = b.committedRevision ∧ r'.view = b.view
  ready : ∀ r ∈ s.rows, ∀ r' ∈ t.rows, r'.id = r.id → r.ownerState ≠ .ready → r'.ownerState = .ready →
    (∃ op, r.applyingOp = some op ∧ a = .finalize op true ∧ (op, .published) ∈ t.won) ∨
      ∃ op w b, a = .release op ∧ s.applies[op]? = some w ∧ w.before = some b ∧ b.ownerState = .ready

namespace VisibleAux

open MovesAux OwnersAux

variable {r : Install}

theorem ownerState_ready_iff : r.ownerState = .ready ↔ r.applyState = none := by
  unfold Install.ownerState
  cases r.applyState with
  | none => simp
  | some x => cases hs : x.status <;> simp [hs]

variable {op : Nat}

theorem ownerState_of_applyingOp (h : r.applyingOp = some op) : r.ownerState = .applying := by
  unfold Install.applyingOp at h
  unfold Install.ownerState
  cases ha : r.applyState with
  | none => simp [ha] at h
  | some x =>
    cases hs : x.status with
    | applying => simp [hs]
    | failed => simp [ha, hs] at h

theorem ownerState_failed (h : r.applyingOp = some op) : r.failed.ownerState = .failed := by
  unfold Install.applyingOp at h
  cases ha : r.applyState with
  | none => simp [ha] at h
  | some x => simp [Install.failed, Install.ownerState, ha]

theorem ready_or_failed (h : r.applyingOp = none) : r.ownerState = .ready ∨ r.ownerState = .failed := by
  unfold Install.applyingOp at h
  unfold Install.ownerState
  cases ha : r.applyState with
  | none => exact .inl rfl
  | some x =>
    cases hs : x.status with
    | applying => simp [ha, hs] at h
    | failed => exact .inr (by simp [hs])

variable {s : State}

theorem mem_update_of_mem {p : Install → Bool} {f : Install → Install} (hf : ∀ r, (f r).id = r.id)
    (hr : r ∈ s.rows) (hp : p r = true) : f r ∈ (s.update p f hf).rows :=
  (Table.mem_update hf).mpr (.inl ⟨r, hr, hp, rfl⟩)

variable {t : State} {w : Apply}

theorem release_of_step (hw : s.applies[op]? = some w) (h : step s (.release op) = some t) :
    ∃ id q, w.installId = some id ∧ t = (s.release id op w.kind).put op { w with phase := q } := by
  simp only [step, Act.op, Option.bind_some, hw] at h
  unfold applyStep at h
  split at h
  case h_12 id _ hp hi =>
    obtain rfl := Option.some.inj h
    exact ⟨id, _, hi, rfl⟩
  case h_13 id _ hp hi =>
    obtain rfl := Option.some.inj h
    exact ⟨id, _, hi, rfl⟩
  all_goals simp_all

theorem ready_of_overReady {b : Install} (hw : s.applies[op]? = some w)
    (hok : OverReady s (.release op) = true) (hk : w.kind = .upgrade) (hb : w.before = some b) (htook : Took w b r) :
    b.ownerState = .ready := by
  simp only [OverReady, hw, Option.all_some, hk, hb, Bool.or_eq_true, bne_iff_ne, ne_eq, not_true_eq_false, false_or] at hok
  exact (ready_or_failed htook.idle).resolve_right hok

theorem took_of_upgrade (hc : Core s) (hr : r ∈ s.rows) (ho : r.applyingOp = some op)
    (hw : s.applies[op]? = some w) (hk : w.kind = .upgrade) : ∃ b, w.before = some b ∧ Took w b r := by
  obtain ⟨w', hw', hown⟩ := hc.owner r hr op ho
  obtain rfl : w = w' := Option.some.inj (hw.symm.trans hw')
  rcases hown.before with ⟨_, hk'⟩ | hb
  · rw [hk] at hk'
    cases hk'
  · exact hb

/-- What the applies remember was clean when it was ready. -/
def Remembered (s : State) : Prop :=
  ∀ (op : Nat) (w : Apply) (b : Install), s.applies[op]? = some w → w.before = some b → b.ownerState = .ready → b.dirty = false

variable {a : Act}

theorem remembered_of_step (h : step s a = some t) (hclean : Clean s) (hrem : Remembered s)
    (hnew : ∀ (op : Nat) (w : Apply), s.applies[op]? = none → t.applies[op]? = some w → w.before = none) : Remembered t := by
  intro op w' b hw' hb hready
  cases hw : s.applies[op]? with
  | none =>
    rw [hnew op w' hw hw'] at hb
    cases hb
  | some w =>
    obtain ⟨x, hx, hcase⟩ := applies_of_step h hw
    obtain rfl : x = w' := Option.some.inj (hx.symm.trans hw')
    rcases hcase with ⟨_, hturn⟩ | ⟨_, rfl⟩
    · cases hturn with
      | on _ ho =>
        obtain ⟨q, rfl, _, _⟩ := ho
        exact hrem op w b hw hb hready
      | read kind seen hp hread ht => exact hrem op w b hw hb hready
      | staged hp hn => cases hb
      | claimed b' hp hmem => exact hclean b (hmem b hb) hready
    · exact hrem op x b hw hb hready

theorem before_of_new (h : step s a = some t) (hno : s.applies[op]? = none)
    (hw : t.applies[op]? = some w) : w.before = none := by
  have hlen : s.applies.length ≤ op := List.getElem?_eq_none_iff.mp hno
  unfold step at h
  split at h
  · cases h
    simp only [List.getElem?_append_right hlen] at hw
    have := List.mem_of_getElem? hw
    simp_all
  · obtain ⟨r, hr, rfl⟩ := Option.map_eq_some_iff.mp h
    simp only [List.getElem?_append_right hlen] at hw
    have := List.mem_of_getElem? hw
    simp_all
  · obtain ⟨journal, _, rfl⟩ := reap_cases h
    exact absurd (hno.symm.trans hw) (by simp)
  · cases h
    exact absurd (hno.symm.trans hw) (by simp)
  · cases h
    exact absurd (hno.symm.trans hw) (by simp)
  · obtain ⟨op', hop, h⟩ := Option.bind_eq_some_iff.mp h
    obtain ⟨w', hw', h⟩ := Option.bind_eq_some_iff.mp h
    obtain ⟨x, hx, _⟩ := turn_of_moved hw' (moved_of_applyStep hop h)
    have := (List.getElem?_eq_some_iff.mp hw).1
    simp only [hx, List.length_set] at this
    omega

theorem clean_of_step (hc : Core s) (hok : OverReady s a = true) (h : step s a = some t) (hclean : Clean s)
    (hrem : Remembered s) : Clean t := by
  intro r' hr' hready
  rcases row_of_step h hr' with ⟨r, hr, hid, hmove⟩ | ⟨op, w, hst⟩
  · cases hmove with
    | same => exact hclean r' hr hready
    | claimed op w ha hw hp hi hv hn ht => exact absurd (ownerState_ready_iff.mp hready) (by simp [Install.claimed])
    | renewed op ha ho =>
      rw [ownerState_of_applyingOp ((applyingOp_renewed r s.now).trans ho)] at hready
      cases hready
    | wrote op w ha hw hp ho =>
      rw [ownerState_of_applyingOp ((applyingOp_wrote r).trans ho)] at hready
      cases hready
    | finalized op w ha hw ho ht => rfl
    | failed op ho =>
      rw [ownerState_failed ho] at hready
      cases hready
    | cleared op w ha hw hp hk ho =>
      subst ha
      obtain ⟨b, hb, htook⟩ := took_of_upgrade hc hr ho hw hk
      have hbr := ready_of_overReady hw hok hk hb htook
      exact (htook.clean hp).symm.trans (hrem op w b hw hb hbr)
  · rw [hst.row] at hready
    cases hready

theorem givesBack_of_step (hc : Core s) (hok : OverReady s a = true) (h : step s a = some t) :
    GivesBack s t a := by
  refine ⟨?_, ?_, ?_⟩
  · rintro op w rfl hw r hr ho hb r' hr' hid
    obtain ⟨id, q, hi, rfl⟩ := release_of_step hw h
    obtain ⟨w', hw', hown⟩ := hc.owner r hr op ho
    obtain rfl : w = w' := Option.some.inj (hw.symm.trans hw')
    obtain rfl : id = r.id := Option.some.inj (hi.symm.trans hown.id)
    rcases hown.before with ⟨_, hk⟩ | ⟨b, hb', _⟩
    · obtain ⟨x, hx, hxid, ⟨hn, rfl⟩ | ⟨_, ⟨hk', _⟩ | ⟨hk', _⟩⟩⟩ := mem_release hr'
      · obtain rfl := Table.eq_of_key hx hr hid
        rw [mine_iff.mpr ⟨rfl, ho⟩] at hn
        cases hn
      · rw [hk] at hk'
        cases hk'
      · rw [hk] at hk'
        cases hk'
    · rw [hb] at hb'
      cases hb'
  · rintro op w rfl hw r hr ho b hb
    obtain ⟨id, q, hi, rfl⟩ := release_of_step hw h
    obtain ⟨w', hw', hown⟩ := hc.owner r hr op ho
    obtain rfl : w = w' := Option.some.inj (hw.symm.trans hw')
    obtain rfl : id = r.id := Option.some.inj (hi.symm.trans hown.id)
    have hmine : r.mine r.id op = true := mine_iff.mpr ⟨rfl, ho⟩
    have hany : s.any (Install.mine r.id op) = true := List.any_eq_true.mpr ⟨r, hr, hmine⟩
    obtain ⟨b', hb', htook⟩ := hown.before.resolve_left (by simp [hb])
    obtain rfl : b = b' := Option.some.inj (hb.symm.trans hb')
    cases hk : w.kind with
    | install => exact absurd hk htook.kind
    | retry =>
      refine ⟨r.failed, ?_, htook.id.symm, ?_, htook.committed.symm, htook.view.symm⟩
      · simp only [State.put, State.release, hany, if_true]
        exact mem_update_of_mem (f := Install.failed) (fun _ => rfl) hr hmine
      · rw [ownerState_failed ho, htook.retry hk]
    | upgrade =>
      refine ⟨r.cleared, ?_, htook.id.symm, ?_, htook.committed.symm, htook.view.symm⟩
      · simp only [State.put, State.release, hany, if_true]
        exact mem_update_of_mem (f := Install.cleared) (fun _ => rfl) hr hmine
      · rw [ready_of_overReady hw hok hk hb htook]
        rfl
  · intro r hr r' hr' hid hnot hready
    rcases row_of_step h hr' with ⟨x, hx, hxid, hmove⟩ | ⟨op, w, hst⟩
    · obtain rfl := Table.eq_of_key hx hr (hxid.symm.trans hid)
      cases hmove with
      | same => exact absurd hready hnot
      | claimed op w ha hw hp hi hv hn ht => exact absurd (ownerState_ready_iff.mp hready) (by simp [Install.claimed])
      | renewed op ha ho =>
        rw [ownerState_of_applyingOp ((applyingOp_renewed x s.now).trans ho)] at hready
        cases hready
      | wrote op w ha hw hp ho =>
        rw [ownerState_of_applyingOp ((applyingOp_wrote x).trans ho)] at hready
        cases hready
      | finalized op w ha hw ho ht => exact .inl ⟨op, ho, ha, by simp [ht]⟩
      | failed op ho =>
        rw [ownerState_failed ho] at hready
        cases hready
      | cleared op w ha hw hp hk ho =>
        subst ha
        obtain ⟨b, hb, htook⟩ := took_of_upgrade hc hr ho hw hk
        exact .inr ⟨op, w, b, rfl, hw, hb, ready_of_overReady hw hok hk hb htook⟩
    · rw [hst.row] at hready
      cases hready

end VisibleAux

open OwnersAux VisibleAux

/-- In a run without a release of an upgrade over a failed apply, no install reads as ready with resources half written, every release
leaves the install reading as it did before the claim, and nothing but a publication makes a failed one ready. -/
theorem visible_of_overReady {now nextId : Nat} {rows : Installs} (hrows : ∀ r ∈ rows, AtRest nextId r) {s : State}
    (h : Steps.Reaches step (fun s a => OverReady s a = true) (initial now nextId rows) s) :
    Clean s ∧ ∀ a t, OverReady s a = true → step s a = some t → GivesBack s t a := by
  have hall : Core s ∧ Clean s ∧ Remembered s := by
    refine h.invariant (I := fun s => Core s ∧ Clean s ∧ Remembered s) ?_ ⟨core_initial hrows, ?_, ?_⟩
    · rintro x a y ⟨hc, hclean, hrem⟩ hok hy
      exact ⟨core_step hc hy, clean_of_step hc hok hy hclean hrem,
        remembered_of_step hy hclean hrem (fun _ _ hno hw => before_of_new hy hno hw)⟩
    · intro r hr _
      exact (hrows r hr).2.2.2.2
    · intro op w b hw
      simp [initial] at hw
  exact ⟨hall.2.1, fun a t hok hy => givesBack_of_step hall.1 hok hy⟩

/-- A first install that fails, and a retry of it that is released: it is failed again. -/
theorem visible_of_overReady_retry : ∃ s, Steps.Reaches step (fun s a => OverReady s a = true) (initial 0 0 Table.empty) s ∧
    (∃ r ∈ s.rows.rows, r.ownerState = .failed ∧ r.dirty = true) ∧ Clean s := by
  obtain ⟨s, hs, hr⟩ := Steps.exists_of_execOk step (fun s a => OverReady s a = true) (initial 0 0 Table.empty)
    [.ask none 5, .read 0, .claim 0, .check 0 true, .write 0, .writeThrows 0, .markFailed 0, .record 0,
      .ask (some 0) 6, .read 1, .claim 1, .check 1 false, .release 1, .stale 1]
    (P := fun s : State => ∃ r ∈ s.rows.rows, r.ownerState = .failed ∧ r.dirty = true) (by decide)
  exact ⟨s, hs, hr, (visible_of_overReady (fun r hr => absurd hr (Table.not_mem_empty r)) hs).1⟩

/-- An upgrade fails half-way; the next one finds its review out of date, and its release clears the failure. -/
theorem visible_false : ¬ ∀ s, Steps.Reaches step Steps.Free (initial 0 0 Table.empty) s → Clean s := by
  intro hall
  obtain ⟨s, hs, r, hr, hready, hdirty⟩ := Steps.exists_of_exec step (initial 0 0 Table.empty)
    [.ask none 5, .read 0, .claim 0, .check 0 true, .write 0, .written 0, .finalize 0 true,
      .ask (some 0) 6, .read 1, .claim 1, .check 1 true, .write 1, .writeThrows 1, .markFailed 1, .record 1,
      .ask (some 0) 6, .read 2, .claim 2, .check 2 false, .release 2, .stale 2]
    (P := fun s : State => ∃ r ∈ s.rows.rows, r.ownerState = .ready ∧ r.dirty = true) (by decide)
  rw [hall s hs r hr hready] at hdirty
  cases hdirty

end Capka.Marketplace

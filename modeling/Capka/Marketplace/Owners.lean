import Mathlib
import Capka.Marketplace.Moves

/-!
# Whose the install is

An install that is being applied carries its operation, and the apply of that operation remembers the row it claimed. The invariant says
what the two have in common, and that an operation that lost its row never has one again.
-/

namespace Capka.Marketplace

/-- What the apply remembers of the row it claimed. -/
structure Took (w : Apply) (b r : Install) : Prop where
  id : b.id = r.id
  committed : b.committedRevision = r.committedRevision
  view : b.view = r.view
  idle : b.applyingOp = none
  kind : w.kind ≠ .install
  retry : w.kind = .retry → b.ownerState = .failed
  upgrade : w.kind = .upgrade → r.committedRevision ≠ some 0
  clean : w.phase.unmutated = true → b.dirty = r.dirty

/-- The apply whose operation is on the row. -/
structure Owns (w : Apply) (r : Install) : Prop where
  id : w.installId = some r.id
  seen : w.seen = r.revision
  past : w.phase.unclaimed = false
  before : (w.before = none ∧ w.kind = .install) ∨ ∃ b, w.before = some b ∧ Took w b r

/-- What holds of an apply before its claim. -/
structure Plan (s : State) (w : Apply) : Prop where
  id : ∀ id, w.installId = some id → id < s.nextId
  first : w.phase = .planned → w.installId = none → w.kind = .install ∧ w.seen = 0
  again : w.phase = .planned → ∀ r ∈ s.rows, w.installId = some r.id →
    w.kind ≠ .install ∧ (w.kind = .retry → w.seen = 0 ∧ r.committedRevision ≠ none) ∧ (w.kind = .upgrade → r.committedRevision ≠ some 0)

/-- The invariant of the applies and their rows. -/
structure Core (s : State) : Prop where
  fresh : ∀ r ∈ s.rows, r.id < s.nextId
  ready : ∀ r ∈ s.rows, r.applyState = none → r.committedRevision ≠ some 0
  owner : ∀ r ∈ s.rows, ∀ op, r.applyingOp = some op → ∃ w : Apply, s.applies[op]? = some w ∧ Owns w r
  plan : ∀ (op : Nat) (w : Apply), s.applies[op]? = some w → Plan s w
  lost : ∀ (op : Nat) (o : Outcome), (op, o) ∈ s.won →
    (∀ r ∈ s.rows, r.applyingOp ≠ some op) ∧ ∃ w : Apply, s.applies[op]? = some w ∧ w.phase.unclaimed = false

/-- Rows that no operation is on, as a reader of before the counter wrote them. -/
def AtRest (nextId : Nat) (r : Install) : Prop :=
  r.id < nextId ∧ r.applyState = none ∧ r.committedRevision = none ∧ r.published = 0 ∧ r.dirty = false

namespace OwnersAux

open MovesAux

/-- How a step leaves an apply that is past its claim. -/
def Onto (w w' : Apply) : Prop :=
  ∃ q, w' = { w with phase := q } ∧ q.unclaimed = false ∧ (q.unmutated = true → w.phase.unmutated = true)

/-- How a step of an apply leaves it. -/
inductive Turn (s t : State) (w : Apply) : Apply → Prop
  | on (w' : Apply) (h : Onto w w') : Turn s t w w'
  | read (kind : ApplyKind) (seen : Nat) (hp : w.phase = .asked)
      (h : (w.installId = none ∧ kind = .install ∧ seen = 0) ∨
        ∃ id, w.installId = some id ∧ seen = ((s.rows.get id).map Install.revision).getD 0 ∧
          kind = if (s.rows.get id).any Install.neverCommitted then .retry else .upgrade)
      (ht : t.rows = s.rows ∧ t.nextId = s.nextId) : Turn s t w { w with kind := kind, seen := seen, phase := .planned }
  | staged (hp : w.phase = .planned) (hn : t.nextId = s.nextId + 1) :
      Turn s t w { w with installId := some s.nextId, phase := .claimed, before := none }
  | claimed (b : Option Install) (hp : w.phase = .planned) (hb : ∀ r, b = some r → r ∈ s.rows) :
      Turn s t w { w with phase := .claimed, before := b }

variable {s t : State} {a : Act} {op : Nat} {w : Apply}

theorem turn_of_moved (hw : s.applies[op]? = some w) (h : Moved s op w a t) :
    ∃ w', t.applies = s.applies.set op w' ∧ Turn s t w w' := by
  have hset : s.applies.set op w = s.applies := by
    obtain ⟨hlt, hget⟩ := List.getElem?_eq_some_iff.mp hw
    rw [← hget]
    exact List.set_getElem_self hlt
  cases h with
  | read kind seen hp h => exact ⟨_, rfl, .read kind seen hp h ⟨rfl, rfl⟩⟩
  | turned _ q hq hm ho => exact ⟨_, rfl, .on _ ⟨q, rfl, hq, hm⟩⟩
  | staged rows journal hp hi hrows hj => exact ⟨_, rfl, .staged hp rfl⟩
  | claimed id journal hp hi hr hj => exact ⟨_, rfl, .claimed _ hp (fun r hb => (Table.get_eq_some_iff.mp hb).1)⟩
  | renewed id hp hi | wrote id hp hi => exact ⟨w, hset.symm, .on _ ⟨w.phase, rfl, by simp [hp, Phase.unclaimed], fun h => h⟩⟩
  | finalized id journal hp hi hr hj
  | recorded code journal hp hj
  | staled journal hp hj => exact ⟨_, rfl, .on _ ⟨.done, rfl, rfl, by simp [Phase.unmutated]⟩⟩
  | failed id code hp hi hr => exact ⟨_, rfl, .on _ ⟨.recording code, rfl, rfl, by simp [Phase.unmutated]⟩⟩
  | released id q hp hi hr =>
    refine ⟨_, by simp [State.put], .on _ ⟨q, rfl, ?_, ?_⟩⟩
    · rcases hp with ⟨_, rfl⟩ | ⟨_, rfl⟩ <;> rfl
    · rcases hp with ⟨hp, rfl⟩ | ⟨hp, rfl⟩ <;> simp [hp, Phase.unmutated]
  | missed id hp hi hr => exact ⟨_, rfl, .on _ ⟨.staling, rfl, rfl, by simp [hp, Phase.unmutated]⟩⟩

theorem applies_of_step (h : step s a = some t) (hw : s.applies[op]? = some w) :
    ∃ w', t.applies[op]? = some w' ∧ ((a.op = some op ∧ Turn s t w w') ∨ (a.op ≠ some op ∧ w' = w)) := by
  have hlt : op < s.applies.length := (List.getElem?_eq_some_iff.mp hw).1
  rcases step_cases h with ⟨w₀, ha, _, _, rfl⟩ | ⟨op', w', ha, hw', hm⟩ | ⟨rfl, hreap⟩ | ⟨id, rfl, rfl⟩ | ⟨ms, rfl, rfl⟩
  · refine ⟨w, ?_, .inr ⟨by simp [ha], rfl⟩⟩
    rw [List.getElem?_append_left hlt]
    exact hw
  · obtain ⟨x, hx, hturn⟩ := turn_of_moved hw' hm
    by_cases heq : op' = op
    · subst heq
      obtain rfl : w' = w := Option.some.inj (hw'.symm.trans hw)
      exact ⟨x, by simp [hx, hlt], .inl ⟨ha, hturn⟩⟩
    · exact ⟨w, by rw [hx, List.getElem?_set_ne heq]; exact hw, .inr ⟨by simp [ha, heq], rfl⟩⟩
  · obtain ⟨journal, _, rfl⟩ := reap_cases hreap
    exact ⟨w, hw, .inr ⟨by simp [Act.op], rfl⟩⟩
  · exact ⟨w, hw, .inr ⟨by simp [Act.op], rfl⟩⟩
  · exact ⟨w, hw, .inr ⟨by simp [Act.op], rfl⟩⟩

variable {w' : Apply}

theorem applies_before (h : step s a = some t) (hw' : t.applies[op]? = some w') :
    (w'.phase = .asked ∧ ∀ id, w'.installId = some id → ∃ r ∈ s.rows, r.id = id) ∨
      ∃ w, s.applies[op]? = some w ∧ ((a.op = some op ∧ Turn s t w w') ∨ (a.op ≠ some op ∧ w' = w)) := by
  cases hw : s.applies[op]? with
  | some w =>
    obtain ⟨x, hx, hcase⟩ := applies_of_step h hw
    obtain rfl : x = w' := Option.some.inj (hx.symm.trans hw')
    exact .inr ⟨w, rfl, hcase⟩
  | none =>
    have hlen : s.applies.length ≤ op := List.getElem?_eq_none_iff.mp hw
    rcases step_cases h with ⟨w₀, _, hp, hids, rfl⟩ | ⟨op', w₁, _, hw₁, hm⟩ | ⟨rfl, hreap⟩ | ⟨id, rfl, rfl⟩ | ⟨ms, rfl, rfl⟩
    · simp only [List.getElem?_append_right hlen] at hw'
      obtain rfl : w₀ = w' := by
        have := List.mem_of_getElem? hw'
        simp_all
      exact .inl ⟨hp, hids⟩
    · obtain ⟨x, hx, _⟩ := turn_of_moved hw₁ hm
      have := (List.getElem?_eq_some_iff.mp hw').1
      simp only [hx, List.length_set] at this
      omega
    · obtain ⟨journal, _, rfl⟩ := reap_cases hreap
      exact absurd (hw.symm.trans hw') (by simp)
    · exact absurd (hw.symm.trans hw') (by simp)
    · exact absurd (hw.symm.trans hw') (by simp)

theorem onto_of_step (h : step s a = some t) (hw : s.applies[op]? = some w)
    (hp : w.phase.unclaimed = false) : ∃ w', t.applies[op]? = some w' ∧ Onto w w' := by
  obtain ⟨w', hw', ⟨_, hturn⟩ | ⟨_, rfl⟩⟩ := applies_of_step h hw
  · refine ⟨w', hw', ?_⟩
    cases hturn with
    | on _ h => exact h
    | read kind seen hq _ _ | staged hq _ | claimed b hq _ => simp [hq, Phase.unclaimed] at hp
  · exact ⟨w', hw', w'.phase, rfl, hp, fun h => h⟩

theorem next_of_step (h : step s a = some t) : s.nextId ≤ t.nextId := by
  rcases step_cases h with ⟨w₀, _, _, _, rfl⟩ | ⟨op, w, _, hw, hm⟩ | ⟨rfl, hreap⟩ | ⟨id, rfl, rfl⟩ | ⟨ms, rfl, rfl⟩
  · exact Nat.le_refl _
  · cases hm with
    | staged => exact Nat.le_succ _
    | released => simp [State.put]
    | _ => exact Nat.le_refl _
  · obtain ⟨journal, _, rfl⟩ := reap_cases hreap
    exact Nat.le_refl _
  · exact Nat.le_refl _
  · exact Nat.le_refl _

variable {r r' : Install}

theorem eq_of_applyingOp (hc : Core s) (hr : r ∈ s.rows) (hr' : r' ∈ s.rows)
    (ho : r.applyingOp = some op) (ho' : r'.applyingOp = some op) : r = r' := by
  obtain ⟨w, hw, hown⟩ := hc.owner r hr op ho
  obtain ⟨w', hw', hown'⟩ := hc.owner r' hr' op ho'
  obtain rfl : w = w' := Option.some.inj (hw.symm.trans hw')
  exact Table.eq_of_key hr hr' (Option.some.inj (hown.id.symm.trans hown'.id))

theorem owns_of_onto (h : Owns w r) (ho : Onto w w') : Owns w' r := by
  obtain ⟨q, rfl, hq, hm⟩ := ho
  refine ⟨h.id, h.seen, hq, ?_⟩
  rcases h.before with hb | ⟨b, hb, htook⟩
  · exact .inl hb
  · exact .inr ⟨b, hb, htook.id, htook.committed, htook.view, htook.idle, htook.kind, htook.retry, htook.upgrade,
      fun h => htook.clean (hm h)⟩

theorem failed_of_neverCommitted (hready : r.applyState = none → r.committedRevision ≠ some 0)
    (hn : r.applyingOp = none) (hz : r.committedRevision = some 0) : r.ownerState = .failed := by
  unfold Install.applyingOp at hn
  unfold Install.ownerState
  cases ha : r.applyState with
  | none => exact absurd hz (hready ha)
  | some x =>
    cases hs : x.status with
    | applying => simp [ha, hs] at hn
    | failed => simp [hs]

theorem owns_of_claimed (hc : Core s) (hr : r ∈ s.rows)
    (hw : s.applies[op]? = some w) (hp : w.phase = .planned) (hi : w.installId = some r.id) (hv : r.revision = w.seen)
    (hn : r.applyingOp = none) : Owns { w with phase := .claimed, before := some r } (r.claimed op w.kind s.now) := by
  obtain ⟨hk, hretry, hupgrade⟩ := (hc.plan op w hw).again hp r hr hi
  refine ⟨hi, hv.symm, rfl, .inr ⟨r, rfl, rfl, rfl, rfl, hn, hk, ?_, hupgrade, fun _ => rfl⟩⟩
  intro hkr
  obtain ⟨hz, hne⟩ := hretry hkr
  refine failed_of_neverCommitted (hc.ready r hr) hn ?_
  cases hcr : r.committedRevision with
  | none => exact absurd hcr hne
  | some n =>
    rw [hz] at hv
    simp only [Install.revision, hcr, Option.getD_some] at hv
    rw [hv]

theorem owner_of_step (hc : Core s) (h : step s a = some t) (hr' : r' ∈ t.rows)
    (ho : r'.applyingOp = some op) : ∃ w, t.applies[op]? = some w ∧ Owns w r' := by
  rcases row_of_step h hr' with ⟨r, hr, hid, hmove⟩ | ⟨op', w, hst⟩
  · cases hmove with
    | same =>
      obtain ⟨w, hw, hown⟩ := hc.owner r' hr op ho
      obtain ⟨w', hw', honto⟩ := onto_of_step h hw hown.past
      exact ⟨w', hw', owns_of_onto hown honto⟩
    | claimed op' w ha hw hp hi hv hn ht =>
      obtain rfl : op' = op := by simpa using ho
      exact ⟨_, ht, owns_of_claimed hc hr hw hp hi hv hn⟩
    | renewed op' ha hro =>
      rw [applyingOp_renewed] at ho
      obtain ⟨w, hw, hown⟩ := hc.owner r hr op ho
      obtain ⟨w', hw', honto⟩ := onto_of_step h hw hown.past
      have hown' := owns_of_onto hown honto
      refine ⟨w', hw', hown'.id, hown'.seen, hown'.past, ?_⟩
      rcases hown'.before with hb | ⟨b, hb, htook⟩
      · exact .inl hb
      · exact .inr ⟨b, hb, htook.id, htook.committed, htook.view, htook.idle, htook.kind, htook.retry, htook.upgrade, htook.clean⟩
    | wrote op' w₀ ha hw₀ hp hro =>
      rw [applyingOp_wrote] at ho
      obtain rfl : op' = op := Option.some.inj (hro.symm.trans ho)
      obtain ⟨w, hw, hown⟩ := hc.owner r hr op' ho
      obtain rfl : w₀ = w := Option.some.inj (hw₀.symm.trans hw)
      obtain ⟨w', hw', honto⟩ := onto_of_step h hw hown.past
      have hown' := owns_of_onto hown honto
      refine ⟨w', hw', hown'.id, hown'.seen, hown'.past, ?_⟩
      rcases hown'.before with hb | ⟨b, hb, htook⟩
      · exact .inl hb
      · -- the row is written in a phase that is not one of an unwritten claim
        refine .inr ⟨b, hb, htook.id, htook.committed, htook.view, htook.idle, htook.kind, htook.retry, htook.upgrade, ?_⟩
        intro hun
        obtain ⟨q, rfl, _, hm⟩ := honto
        have := hm hun
        simp [hp, Phase.unmutated] at this
    | finalized op' w ha hw hro ht => simp at ho
    | failed op' hro => simp at ho
    | cleared op' w ha hw hp hk hro => simp at ho
  · obtain ⟨rfl, hw, hp, hi, rfl, hn, ht⟩ := hst
    obtain rfl : op' = op := by simpa [Install.applyingOp] using ho
    obtain ⟨hk, hz⟩ := (hc.plan op' w hw).first hp hi
    exact ⟨_, ht, rfl, by simp [hz, Install.revision], rfl, .inl ⟨rfl, hk⟩⟩

theorem lost_of_step (h : step s a = some t) (hw : s.applies[op]? = some w)
    (hp : w.phase.unclaimed = false) (hno : ∀ r ∈ s.rows, r.applyingOp ≠ some op) : ∀ r ∈ t.rows, r.applyingOp ≠ some op := by
  intro r' hr' ho
  rcases row_of_step h hr' with ⟨r, hr, hid, hmove⟩ | ⟨op', w', hst⟩
  · cases hmove with
    | same => exact hno r' hr ho
    | claimed op' w' ha hw' hp' hi hv hn ht =>
      obtain rfl : op' = op := by simpa using ho
      obtain rfl : w = w' := Option.some.inj (hw.symm.trans hw')
      simp [hp', Phase.unclaimed] at hp
    | renewed op' ha hro => exact hno r hr (by simpa using ho)
    | wrote op' w' ha hw' hp' hro => exact hno r hr (by simpa using ho)
    | finalized op' w' ha hw' hro ht => simp at ho
    | failed op' hro => simp at ho
    | cleared op' w' ha hw' hp' hk hro => simp at ho
  · obtain ⟨rfl, hw', hp', hi, rfl, hn, ht⟩ := hst
    obtain rfl : op' = op := by simpa [Install.applyingOp] using ho
    obtain rfl : w = w' := Option.some.inj (hw.symm.trans hw')
    simp [hp', Phase.unclaimed] at hp

theorem lost_of_update (hc : Core s) {p : Install → Bool} {f : Install → Install} {hf : ∀ r, (f r).id = r.id}
    {r₀ : Install} (hr₀ : r₀ ∈ s.rows) (ho₀ : r₀.applyingOp = some op) (hp₀ : p r₀ = true) (hnone : ∀ r, (f r).applyingOp = none) :
    ∀ r ∈ (s.update p f hf).rows, r.applyingOp ≠ some op := by
  intro r' hr' ho
  obtain ⟨r, hr, _, ⟨_, rfl⟩ | ⟨hp, rfl⟩⟩ := mem_update hr'
  · rw [hnone r] at ho
    cases ho
  · obtain rfl := eq_of_applyingOp hc hr hr₀ ho ho₀
    rw [hp₀] at hp
    cases hp

theorem won_of_step (hc : Core s) (h : step s a = some t) {o : Outcome} (hmem : (op, o) ∈ t.won) :
    (op, o) ∈ s.won ∨ (∃ r ∈ s.rows, r.applyingOp = some op) ∧ ∀ r ∈ t.rows, r.applyingOp ≠ some op := by
  rcases step_cases h with ⟨w₀, _, _, _, rfl⟩ | ⟨op', w, _, hw, hm⟩ | ⟨rfl, hreap⟩ | ⟨id, rfl, rfl⟩ | ⟨ms, rfl, rfl⟩
  · exact .inl hmem
  · cases hm with
    | finalized id journal hp hi hany hj =>
      rcases List.mem_append.mp hmem with hold | hnew
      · exact .inl hold
      · obtain ⟨rfl, rfl⟩ : op = op' ∧ o = .published := by simpa using hnew
        obtain ⟨r₀, hr₀, hl⟩ := exists_of_any hany
        have ho₀ := (mine_iff.mp (mine_of_leased hl)).2
        have hlost : ∀ r ∈ (s.update (Install.leased id op s.now) (Install.finalized (w.prior + 1) w.view) (fun _ => rfl)).rows,
            r.applyingOp ≠ some op := lost_of_update hc hr₀ ho₀ hl (fun _ => rfl)
        exact .inr ⟨⟨r₀, hr₀, ho₀⟩, hlost⟩
    | failed id code hp hi hany =>
      rcases List.mem_append.mp hmem with hold | hnew
      · exact .inl hold
      · obtain ⟨rfl, rfl⟩ : op = op' ∧ o = .failed := by simpa using hnew
        obtain ⟨r₀, hr₀, hl⟩ := exists_of_any hany
        have ho₀ := (mine_iff.mp hl).2
        have hlost : ∀ r ∈ (s.update (Install.mine id op) Install.failed (fun _ => rfl)).rows, r.applyingOp ≠ some op :=
          lost_of_update hc hr₀ ho₀ hl applyingOp_failed
        exact .inr ⟨⟨r₀, hr₀, ho₀⟩, hlost⟩
    | released id q hp hi hany =>
      have hmem : (op, o) ∈ (s.release id op' w.kind).won := hmem
      rw [won_release hany] at hmem
      rcases List.mem_append.mp hmem with hold | hnew
      · exact .inl hold
      · obtain ⟨rfl, rfl⟩ : op = op' ∧ o = .released := by simpa using hnew
        obtain ⟨r₀, hr₀, hl⟩ := exists_of_any hany
        have ho₀ := (mine_iff.mp hl).2
        refine .inr ⟨⟨r₀, hr₀, ho₀⟩, ?_⟩
        intro r' hr' ho
        obtain ⟨r, hr, _, ⟨hn, rfl⟩ | ⟨_, ⟨_, rfl⟩ | ⟨_, rfl⟩⟩⟩ := mem_release hr'
        · obtain rfl := eq_of_applyingOp hc hr hr₀ ho ho₀
          rw [hl] at hn
          cases hn
        · simp at ho
        · simp at ho
    | read | turned | staged | claimed | renewed | wrote | recorded | missed | staled => exact .inl hmem
  · obtain ⟨journal, _, rfl⟩ := reap_cases hreap
    rcases List.mem_append.mp hmem with hold | hnew
    · exact .inl hold
    · obtain ⟨op', hop', heq⟩ := List.mem_map.mp hnew
      obtain ⟨rfl, _⟩ := Prod.mk.inj heq
      obtain ⟨r₀, hr₀, ho₀⟩ := List.mem_filterMap.mp hop'
      obtain ⟨hr₀, hs⟩ := List.mem_filter.mp hr₀
      have hlost : ∀ r ∈ (s.update (Install.stale s.now) Install.failed (fun _ => rfl)).rows, r.applyingOp ≠ some op' :=
        lost_of_update hc hr₀ ho₀ hs applyingOp_failed
      exact .inr ⟨⟨r₀, hr₀, ho₀⟩, hlost⟩
  · exact .inl hmem
  · exact .inl hmem

theorem ready_of_step (hc : Core s) (h : step s a = some t) (hr' : r' ∈ t.rows)
    (hn : r'.applyState = none) : r'.committedRevision ≠ some 0 := by
  rcases row_of_step h hr' with ⟨r, hr, hid, hmove⟩ | ⟨op', w, hst⟩
  · have hsome : ∀ op, r.applyingOp = some op → r.applyState ≠ none := by
      intro op ho hn
      simp [Install.applyingOp, hn] at ho
    cases hmove with
    | same => exact hc.ready r' hr hn
    | claimed op w ha hw hp hi hv hno ht => simp [Install.claimed] at hn
    | renewed op ha ho => exact absurd (by simpa [Install.renewed] using hn) (hsome op ho)
    | wrote op w ha hw hp ho => exact hc.ready r hr hn
    | finalized op w ha hw ho ht => simp [Install.finalized]
    | failed op ho => exact absurd (by simpa [Install.failed] using hn) (hsome op ho)
    | cleared op w ha hw hp hk ho =>
      obtain ⟨w', hw', hown⟩ := hc.owner r hr op ho
      obtain rfl : w = w' := Option.some.inj (hw.symm.trans hw')
      rcases hown.before with ⟨_, hk'⟩ | ⟨b, _, htook⟩
      · rw [hk] at hk'
        cases hk'
      · exact htook.upgrade hk
  · obtain ⟨rfl, hw', hp', hi, rfl, hn', ht⟩ := hst
    cases hn

theorem again_of_step (hc : Core s) (h : step s a = some t) (hw : s.applies[op]? = some w)
    (hp : w.phase = .planned) (hr' : r' ∈ t.rows) (hi : w.installId = some r'.id) :
    w.kind ≠ .install ∧ (w.kind = .retry → w.seen = 0 ∧ r'.committedRevision ≠ none) ∧
      (w.kind = .upgrade → r'.committedRevision ≠ some 0) := by
  rcases row_of_step h hr' with ⟨r, hr, hid, hmove⟩ | ⟨op', w', hst⟩
  · obtain ⟨hk, hretry, hupgrade⟩ := (hc.plan op w hw).again hp r hr (hid ▸ hi)
    cases hmove with
    | finalized op' w' ha hw' ho ht =>
      refine ⟨hk, fun hkr => ⟨(hretry hkr).1, ?_⟩, fun _ => ?_⟩ <;> simp [Install.finalized]
    | same | claimed | renewed | wrote | failed | cleared => exact ⟨hk, hretry, hupgrade⟩
  · -- the number of a new row was never anyone's
    have := (hc.plan op w hw).id r'.id hi
    rw [hst.row] at this
    exact absurd this (Nat.lt_irrefl _)

theorem plan_of_read {kind : ApplyKind} {seen : Nat} (hold : Plan s w)
    (h : (w.installId = none ∧ kind = .install ∧ seen = 0) ∨
      ∃ id, w.installId = some id ∧ seen = ((s.rows.get id).map Install.revision).getD 0 ∧
        kind = if (s.rows.get id).any Install.neverCommitted then .retry else .upgrade)
    (hrows : t.rows = s.rows) (hnext : t.nextId = s.nextId) :
    Plan t { w with kind := kind, seen := seen, phase := .planned } := by
  refine ⟨fun id hi => hnext ▸ hold.id id hi, fun _ hi => ?_, fun _ r hr hi => ?_⟩
  · rcases h with ⟨_, hk, hz⟩ | ⟨id, hi', _⟩
    · exact ⟨hk, hz⟩
    · rw [hi'] at hi
      cases hi
  · rcases h with ⟨hi', _⟩ | ⟨id, hi', rfl, rfl⟩
    · rw [hi'] at hi
      cases hi
    · have heq : id = r.id := Option.some.inj (hi'.symm.trans hi)
      subst heq
      rw [hrows] at hr
      have hget : s.rows.get r.id = some r := Table.get_eq_some_iff.mpr ⟨hr, rfl⟩
      simp only [hget, Option.any_some, Install.neverCommitted, Option.map_some, Option.getD_some, Install.revision]
      cases hcr : r.committedRevision with
      | none => simp
      | some n =>
        by_cases hz : n = 0
        · simp [hz]
        · simp [hz]

theorem plan_of_step (hc : Core s) (h : step s a = some t)
    (hw' : t.applies[op]? = some w') : Plan t w' := by
  have hnext := next_of_step h
  rcases applies_before h hw' with ⟨hp, hids⟩ | ⟨w, hw, ⟨_, hturn⟩ | ⟨_, rfl⟩⟩
  · refine ⟨?_, fun hq => absurd (hp.symm.trans hq) (by simp), fun hq => absurd (hp.symm.trans hq) (by simp)⟩
    intro id hi
    obtain ⟨r, hr, rfl⟩ := hids id hi
    exact Nat.lt_of_lt_of_le (hc.fresh r hr) hnext
  · have hold := hc.plan op w hw
    cases hturn with
    | on _ ho =>
      obtain ⟨q, rfl, hq, _⟩ := ho
      refine ⟨fun id hi => Nat.lt_of_lt_of_le (hold.id id hi) hnext, ?_, ?_⟩
      · intro hpl
        simp only at hpl
        simp [hpl, Phase.unclaimed] at hq
      · intro hpl
        simp only at hpl
        simp [hpl, Phase.unclaimed] at hq
    | read kind seen hp hread ht => exact plan_of_read hold hread ht.1 ht.2
    | staged hp hn =>
      refine ⟨?_, fun hq => (by cases hq), fun hq => (by cases hq)⟩
      intro id hi
      obtain rfl : s.nextId = id := Option.some.inj hi
      omega
    | claimed b hp _ => exact ⟨fun id hi => Nat.lt_of_lt_of_le (hold.id id hi) hnext, fun hq => (by cases hq), fun hq => (by cases hq)⟩
  · have hold := hc.plan op w' hw
    exact ⟨fun id hi => Nat.lt_of_lt_of_le (hold.id id hi) hnext, hold.first, fun hp r hr hi => again_of_step hc h hw hp hr hi⟩

theorem core_step (hc : Core s) (h : step s a = some t) : Core t := by
  refine ⟨?_, fun r' hr' => ready_of_step hc h hr', fun r' hr' op ho => owner_of_step hc h hr' ho,
    fun op w' hw' => plan_of_step hc h hw', ?_⟩
  · intro r' hr'
    rcases row_of_step h hr' with ⟨r, hr, hid, _⟩ | ⟨op, w, hst⟩
    · rw [hid]
      exact Nat.lt_of_lt_of_le (hc.fresh r hr) (next_of_step h)
    · rw [hst.row, hst.next]
      exact Nat.lt_succ_self _
  · intro op o hmem
    rcases won_of_step hc h hmem with hold | ⟨⟨r, hr, ho⟩, hno⟩
    · obtain ⟨hno, w, hw, hp⟩ := hc.lost op o hold
      obtain ⟨w', hw', q, rfl, hq, _⟩ := onto_of_step h hw hp
      exact ⟨lost_of_step h hw hp hno, _, hw', hq⟩
    · obtain ⟨w, hw, hown⟩ := hc.owner r hr op ho
      obtain ⟨w', hw', q, rfl, hq, _⟩ := onto_of_step h hw hown.past
      exact ⟨hno, _, hw', hq⟩

theorem core_initial {now nextId : Nat} {rows : Installs} (h : ∀ r ∈ rows, AtRest nextId r) : Core (initial now nextId rows) := by
  refine ⟨fun r hr => (h r hr).1, ?_, ?_, ?_, ?_⟩
  · intro r hr _
    simp [(h r hr).2.2.1]
  · intro r hr op ho
    simp [Install.applyingOp, (h r hr).2.1] at ho
  · intro op w hw
    simp [initial] at hw
  · intro op o hmem
    cases hmem

end OwnersAux

end Capka.Marketplace

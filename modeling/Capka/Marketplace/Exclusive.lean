import Mathlib
import Capka.Marketplace.Owners

/-!
# One operation, one install

However applies, renewals, releases and the reaper interleave, an operation is on one install, and one that lost its install never
changes a row again. The revision is counted from the manifest the caller read, so it is the number of the publications only where that
reading is as new as the one the claim is compared with.
-/

namespace Capka.Marketplace

/-- A finalize is of an apply whose caller read the install at the revision at which the claim was compared. -/
def SameRead (s : State) (a : Act) : Bool :=
  match a with
  | .finalize op _ => s.applies[op]?.all (fun w => w.prior == w.seen)
  | _ => true

/-- What holds of the rows. -/
structure Exclusive (s : State) : Prop where
  one : ∀ r ∈ s.rows, ∀ r' ∈ s.rows, ∀ op, r.applyingOp = some op → r'.applyingOp = some op → r = r'
  ended : ∀ (op : Nat) (o : Outcome), (op, o) ∈ s.won → ∀ r ∈ s.rows, r.applyingOp ≠ some op
  counted : ∀ r ∈ s.rows, r.revision = r.published

/-- The operation claimed, and has no install any more: it was reaped, it ended, its install was taken over or removed. -/
def Ousted (s : State) (op : Nat) : Prop :=
  (∃ w, s.applies[op]? = some w ∧ w.phase.unclaimed = false) ∧ ∀ r ∈ s.rows, r.applyingOp ≠ some op

/-- What holds of a step. An operation that was ousted lands no write and wins no transition, and stays ousted; the revision of a row
rises by one where the row's operation is published, and is the same otherwise. -/
structure Fenced (s t : State) (a : Act) : Prop where
  still : ∀ op, Ousted s op → a.op = some op → t.rows = s.rows ∧ t.won = s.won
  stays : ∀ op, Ousted s op → Ousted t op
  rises : ∀ r ∈ s.rows, ∀ r' ∈ t.rows, r'.id = r.id → ∀ op, r.applyingOp = some op → (op, .published) ∈ t.won →
    r'.revision = r.revision + 1
  never : ∀ r ∈ s.rows, ∀ r' ∈ t.rows, r'.id = r.id → (∀ op, r.applyingOp = some op → (op, .published) ∉ t.won) →
    r'.revision = r.revision

namespace ExclusiveAux

open MovesAux OwnersAux

variable {s : State}

theorem rows_update_of_none {p : Install → Bool} {f : Install → Install} {hf : ∀ r, (f r).id = r.id}
    (h : ∀ r ∈ s.rows, p r = false) : (s.update p f hf).rows = s.rows := by
  refine Table.update_eq_self hf (fun r hr => ?_)
  simp [h r hr]

variable {op : Nat}

theorem mine_of_ousted (h : ∀ r ∈ s.rows, r.applyingOp ≠ some op) (id : Nat) :
    ∀ r ∈ s.rows, r.mine id op = false := by
  intro r hr
  cases hm : r.mine id op with
  | false => rfl
  | true => exact absurd (mine_iff.mp hm).2 (h r hr)

theorem leased_of_ousted (h : ∀ r ∈ s.rows, r.applyingOp ≠ some op) (id : Nat) :
    ∀ r ∈ s.rows, r.leased id op s.now = false := by
  intro r hr
  simp [Install.leased, mine_of_ousted h id r hr]

theorem not_any {p : Install → Bool} (h : ∀ r ∈ s.rows, p r = false) : s.any p ≠ true := by
  intro hany
  obtain ⟨r, hr, hp⟩ := exists_of_any hany
  rw [h r hr] at hp
  cases hp

variable {t : State} {a : Act}

theorem still_of_moved {w : Apply} (hp : w.phase.unclaimed = false)
    (hno : ∀ r ∈ s.rows, r.applyingOp ≠ some op) (h : Moved s op w a t) : t.rows = s.rows ∧ t.won = s.won := by
  cases h with
  | read kind seen hq h
  | turned _ q hq hm ho
  | recorded code journal hq hj
  | missed id hq hi hr
  | staled journal hq hj => exact ⟨rfl, rfl⟩
  | staged rows journal hq hi hrows hj | claimed id journal hq hi hr hj => simp [hq, Phase.unclaimed] at hp
  | renewed id hq hi => exact ⟨rows_update_of_none (mine_of_ousted hno id), rfl⟩
  | wrote id hq hi => exact ⟨rows_update_of_none (leased_of_ousted hno id), rfl⟩
  | finalized id journal hq hi hany hj => exact absurd hany (not_any (leased_of_ousted hno id))
  | failed id code hq hi hany | released id q hq hi hany => exact absurd hany (not_any (mine_of_ousted hno id))

theorem ousted_of_step (h : step s a = some t) (ho : Ousted s op) : Ousted t op := by
  obtain ⟨⟨w, hw, hp⟩, hno⟩ := ho
  obtain ⟨w', hw', q, rfl, hq, _⟩ := onto_of_step h hw hp
  exact ⟨⟨_, hw', hq⟩, lost_of_step h hw hp hno⟩

variable {r : Install}

theorem finalized_of_won (hc : Core s) (h : step s a = some t) {r' : Install} (hr : r ∈ s.rows)
    (hr' : r' ∈ t.rows) (hid : r'.id = r.id) (ho : r.applyingOp = some op) (hwon : (op, Outcome.published) ∈ t.won) :
    ∃ w, a = .finalize op true ∧ s.applies[op]? = some w ∧ r' = r.finalized (w.prior + 1) w.view := by
  have hnot : (op, Outcome.published) ∉ s.won := fun hold => (hc.lost op _ hold).1 r hr ho
  rcases step_cases h with ⟨w₀, _, _, _, rfl⟩ | ⟨op', w, _, hw, hm⟩ | ⟨rfl, hreap⟩ | ⟨id, rfl, rfl⟩ | ⟨ms, rfl, rfl⟩
  · exact absurd hwon hnot
  · cases hm with
    | finalized id journal hp hi hany hj =>
      rcases List.mem_append.mp hwon with hold | hnew
      · exact absurd hold hnot
      · obtain rfl : op = op' := by simpa using hnew
        obtain ⟨r₀, hr₀, hl⟩ := exists_of_any hany
        obtain rfl := eq_of_applyingOp hc hr₀ hr (mine_iff.mp (mine_of_leased hl)).2 ho
        have hr' : r' ∈ (s.update (Install.leased id op s.now) (Install.finalized (w.prior + 1) w.view) (fun _ => rfl)).rows := hr'
        obtain ⟨x, hx, hxid, hcase⟩ := mem_update hr'
        obtain rfl := Table.eq_of_key hx hr (hxid.symm.trans hid)
        rcases hcase with ⟨_, rfl⟩ | ⟨hp', _⟩
        · exact ⟨w, rfl, hw, rfl⟩
        · rw [hl] at hp'
          cases hp'
    | failed id code hp hi hany => exact absurd ((List.mem_append.mp hwon).resolve_right (by simp)) hnot
    | released id q hp hi hany =>
      have hwon : (op, Outcome.published) ∈ (s.release id op' w.kind).won := hwon
      rw [won_release hany] at hwon
      exact absurd ((List.mem_append.mp hwon).resolve_right (by simp)) hnot
    | read | turned | staged | claimed | renewed | wrote | recorded | missed | staled => exact absurd hwon hnot
  · obtain ⟨journal, _, rfl⟩ := reap_cases hreap
    exact absurd ((List.mem_append.mp hwon).resolve_right (by simp)) hnot
  · exact absurd hwon hnot
  · exact absurd hwon hnot

theorem prior_of_sameRead (hc : Core s) (hr : r ∈ s.rows) (ho : r.applyingOp = some op) {w : Apply}
    (hw : s.applies[op]? = some w) {d : Bool} (hok : SameRead s (.finalize op d) = true) : w.prior = r.revision := by
  obtain ⟨w', hw', hown⟩ := hc.owner r hr op ho
  obtain rfl : w = w' := Option.some.inj (hw.symm.trans hw')
  simp only [SameRead, hw, Option.all_some, beq_iff_eq] at hok
  rw [hok, hown.seen]

theorem move_of_step (hc : Core s) (h : step s a = some t) {r' : Install} (hr : r ∈ s.rows)
    (hr' : r' ∈ t.rows) (hid : r'.id = r.id) : RowMove s t a r r' := by
  rcases row_of_step h hr' with ⟨x, hx, hxid, hmove⟩ | ⟨op, w, hst⟩
  · obtain rfl := Table.eq_of_key hx hr (hxid.symm.trans hid)
    exact hmove
  · have := hc.fresh r hr
    rw [← hid, hst.row] at this
    exact absurd this (Nat.lt_irrefl _)

theorem fenced_of_step (hc : Core s) (hok : SameRead s a = true) (h : step s a = some t) : Fenced s t a := by
  refine ⟨?_, fun op ho => ousted_of_step h ho, ?_, ?_⟩
  · intro op ho ha
    obtain ⟨⟨w, hw, hp⟩, hno⟩ := ho
    rcases step_cases h with ⟨w₀, hop, _, _, rfl⟩ | ⟨op', w', ha', hw', hm⟩ | ⟨rfl, hreap⟩ | ⟨id, rfl, rfl⟩ | ⟨ms, rfl, rfl⟩
    · rw [hop] at ha
      cases ha
    · obtain rfl : op' = op := Option.some.inj (ha'.symm.trans ha)
      obtain rfl : w = w' := Option.some.inj (hw.symm.trans hw')
      exact still_of_moved hp hno hm
    · cases ha
    · cases ha
    · cases ha
  · intro r hr r' hr' hid op ho hwon
    obtain ⟨w, rfl, hw, rfl⟩ := finalized_of_won hc h hr hr' hid ho hwon
    rw [← prior_of_sameRead hc hr ho hw hok]
    rfl
  · intro r hr r' hr' hid hnot
    cases move_of_step hc h hr hr' hid with
    | finalized op w ha hw ho ht => exact absurd (by simp [ht]) (hnot op ho)
    | same => rfl
    | claimed => rfl
    | renewed => rfl
    | wrote => rfl
    | failed => rfl
    | cleared => rfl

theorem counted_of_step (hc : Core s) (hok : SameRead s a = true) (h : step s a = some t)
    (hn : ∀ r ∈ s.rows, r.revision = r.published) : ∀ r ∈ t.rows, r.revision = r.published := by
  intro r' hr'
  rcases row_of_step h hr' with ⟨r, hr, hid, hmove⟩ | ⟨op, w, hst⟩
  · have hold := hn r hr
    cases hmove with
    | finalized op w ha hw ho ht =>
      subst ha
      have hp := prior_of_sameRead hc hr ho hw hok
      simp only [Install.revision, Install.finalized, Option.getD_some]
      rw [hp, hold]
    | same => exact hold
    | claimed => exact hold
    | renewed => exact hold
    | wrote => exact hold
    | failed => exact hold
    | cleared => exact hold
  · rw [hst.row]
    rfl

end ExclusiveAux

open MovesAux OwnersAux ExclusiveAux

/-- In a run in which every finalize is of an apply that read the install once, each operation is on one install, an operation that lost
it lands nothing, and the committed revision is the number of successful finalizes, one more at each. -/
theorem exclusive_of_sameRead {now nextId : Nat} {rows : Installs} (hrows : ∀ r ∈ rows, AtRest nextId r) {s : State}
    (h : Steps.Reaches step (fun s a => SameRead s a = true) (initial now nextId rows) s) :
    Exclusive s ∧ ∀ a t, SameRead s a = true → step s a = some t → Fenced s t a := by
  have hboth : Core s ∧ ∀ r ∈ s.rows, r.revision = r.published := by
    refine h.invariant (I := fun s => Core s ∧ ∀ r ∈ s.rows, r.revision = r.published) ?_ ⟨core_initial hrows, ?_⟩
    · intro x a y hx hok hy
      exact ⟨core_step hx.1 hy, counted_of_step hx.1 hok hy hx.2⟩
    · intro r hr
      simp [Install.revision, (hrows r hr).2.2.1, (hrows r hr).2.2.2.1]
  obtain ⟨hc, hn⟩ := hboth
  refine ⟨⟨?_, fun op o hmem => (hc.lost op o hmem).1, hn⟩, fun a t hok hy => fenced_of_step hc hok hy⟩
  intro r hr r' hr' op ho ho'
  exact eq_of_applyingOp hc hr hr' ho ho'

/-- A first install, applied again once it is there. -/
theorem exclusive_of_sameRead_twice : ∃ s, Steps.Reaches step (fun s a => SameRead s a = true) (initial 0 0 Table.empty) s ∧
    (∃ r ∈ s.rows.rows, r.revision = 2) ∧ Exclusive s := by
  obtain ⟨s, hs, hr⟩ := Steps.exists_of_execOk step (fun s a => SameRead s a = true) (initial 0 0 Table.empty)
    [.ask none 5, .read 0, .claim 0, .check 0 true, .write 0, .written 0, .finalize 0 true,
      .ask (some 0) 6, .read 1, .claim 1, .check 1 true, .write 1, .written 1, .finalize 1 true]
    (P := fun s : State => ∃ r ∈ s.rows.rows, r.revision = 2) (by decide)
  exact ⟨s, hs, hr, (exclusive_of_sameRead (fun r hr => absurd hr (Table.not_mem_empty r)) hs).1⟩

/-- Two callers read an install at one revision, and apply one after the other: the second is published under the number of the first. -/
theorem exclusive_false : ¬ ∀ s, Steps.Reaches step Steps.Free (initial 0 0 Table.empty) s → Exclusive s := by
  intro hall
  obtain ⟨s, hs, r, hr, hne⟩ := Steps.exists_of_exec step (initial 0 0 Table.empty)
    [.ask none 5, .read 0, .claim 0, .check 0 true, .write 0, .written 0, .finalize 0 true,
      .ask (some 0) 5, .ask (some 0) 5, .read 1, .claim 1, .check 1 true, .write 1, .written 1, .finalize 1 true,
      .read 2, .claim 2, .check 2 true, .written 2, .finalize 2 true]
    (P := fun s : State => ∃ r ∈ s.rows.rows, r.revision ≠ r.published) (by decide)
  exact hne ((hall s hs).counted r hr)

end Capka.Marketplace

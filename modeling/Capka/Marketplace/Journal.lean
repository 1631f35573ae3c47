import Mathlib
import Capka.Marketplace.Owners

/-!
# One ending for an operation

Who wins the transition of a row writes the entry of the journal that describes it: the worker that published or marked the failure, the
reaper for the lease it took, the worker that gave the claim back. A worker that gives back a claim which the reaper took writes `stale`
all the same.
-/

namespace Capka.Marketplace

/-- The transition an event describes. -/
def Event.outcome : Event → Option Outcome
  | .accepted => none
  | .succeeded => some .published
  | .failed _ => some .failed
  | .stale => some .released

/-- How many terminal events an operation has. -/
def terminals (journal : List (Nat × Event)) (op : Nat) : Nat := journal.countP (fun x => x.1 == op && x.2.outcome.isSome)

/-- The release after the second check finds the claim still its own. -/
def Held (s : State) (a : Act) : Bool :=
  match a with
  | .release op => s.applies[op]?.all (fun w => w.phase != .releasing || w.installId.all (fun id => s.any (Install.mine id op)))
  | _ => true

/-- What the journal says of the transitions: one ending at most for an operation, and it is the one that was won. -/
structure Told (s : State) : Prop where
  once : ∀ op, terminals s.journal op ≤ 1
  won : ∀ (op : Nat) (e : Event) (o : Outcome), (op, e) ∈ s.journal → e.outcome = some o → (op, o) ∈ s.won
  single : ∀ (op : Nat) (o o' : Outcome), (op, o) ∈ s.won → (op, o') ∈ s.won → o = o'

/-- The transition of which an apply still owes the entry. -/
def Phase.owed : Phase → Option Outcome
  | .recording _ => some .failed
  | .staling => some .released
  | _ => none

namespace JournalAux

open MovesAux OwnersAux

/-- The invariant, over the journal, the record and the applies. -/
structure Tale (journal : List (Nat × Event)) (won : List (Nat × Outcome)) (applies : List Apply) : Prop where
  once : ∀ op, terminals journal op ≤ 1
  told : ∀ (op : Nat) (e : Event) (o : Outcome), (op, e) ∈ journal → e.outcome = some o → (op, o) ∈ won
  single : ∀ (op : Nat) (o o' : Outcome), (op, o) ∈ won → (op, o') ∈ won → o = o'
  owes : ∀ (op : Nat) (w : Apply) (o : Outcome), applies[op]? = some w → w.phase.owed = some o →
    (op, o) ∈ won ∧ terminals journal op = 0

theorem insertAudit_cases {journal journal' : List (Nat × Event)} {op : Nat} {e : Event} (h : insertAudit journal op e = some journal') :
    (journal' = journal ∧ (op, e) ∈ journal) ∨ journal' = journal ++ [(op, e)] := by
  unfold insertAudit at h
  split at h
  · exact .inr (Option.some.inj h).symm
  · rename_i x hx
    split at h
    · rename_i heq
      have hp := List.find?_some hx
      simp only [Bool.and_eq_true, beq_iff_eq] at hp
      have hmem := List.mem_of_find?_eq_some hx
      rw [← heq, ← hp.1]
      exact .inl ⟨(Option.some.inj h).symm, hmem⟩
    · cases h

theorem insertAudit_eq_self {journal journal' : List (Nat × Event)} {op : Nat} {e : Event} (hmem : (op, e) ∈ journal)
    (h : insertAudit journal op e = some journal') : journal' = journal := by
  unfold insertAudit at h
  split at h
  · rename_i hnone
    have := List.find?_eq_none.mp hnone (op, e) hmem
    simp at this
  · split at h
    · exact (Option.some.inj h).symm
    · cases h

theorem terminals_append (journal : List (Nat × Event)) (op op' : Nat) (e : Event) :
    terminals (journal ++ [(op, e)]) op' = terminals journal op' + if op = op' ∧ e.outcome.isSome then 1 else 0 := by
  simp [terminals, List.countP_append, List.countP_cons]

theorem not_mem_of_terminals {journal : List (Nat × Event)} {op : Nat} {e : Event} {o : Outcome} (h : terminals journal op = 0)
    (he : e.outcome = some o) : (op, e) ∉ journal := by
  intro hmem
  have := List.countP_eq_zero.mp h (op, e) hmem
  simp [he] at this

theorem terminals_of_not_won {journal : List (Nat × Event)} {won : List (Nat × Outcome)} {applies : List Apply}
    (h : Tale journal won applies) {op : Nat} (hno : ∀ o, (op, o) ∉ won) : terminals journal op = 0 := by
  refine List.countP_eq_zero.mpr ?_
  rintro ⟨op', e⟩ hmem hp
  simp only [Bool.and_eq_true, beq_iff_eq, Option.isSome_iff_exists] at hp
  obtain ⟨rfl, o, ho⟩ := hp
  exact hno o (h.told op' e o hmem ho)

theorem tale_applies {journal : List (Nat × Event)} {won : List (Nat × Outcome)} {applies applies' : List Apply}
    (h : Tale journal won applies)
    (hsub : ∀ (op : Nat) (w : Apply), applies'[op]? = some w → w.phase.owed ≠ none → applies[op]? = some w) :
    Tale journal won applies' := by
  refine ⟨h.once, h.told, h.single, ?_⟩
  intro op w o hw ho
  exact h.owes op w o (hsub op w hw (by simp [ho])) ho

theorem tale_set {journal : List (Nat × Event)} {won : List (Nat × Outcome)} {applies : List Apply} (h : Tale journal won applies)
    (op : Nat) {w : Apply} (hw : w.phase.owed = none) : Tale journal won (applies.set op w) := by
  refine tale_applies h ?_
  intro op' w' hw' hne
  by_cases heq : op = op'
  · subst heq
    rw [List.getElem?_set] at hw'
    simp only [if_true] at hw'
    split at hw'
    · obtain rfl : w = w' := Option.some.inj hw'
      exact absurd hw hne
    · cases hw'
  · rwa [List.getElem?_set_ne heq] at hw'

theorem tale_win {journal : List (Nat × Event)} {won : List (Nat × Outcome)} {applies : List Apply} (h : Tale journal won applies)
    {op : Nat} {o : Outcome} (hno : ∀ o', (op, o') ∈ won → o' = o) : Tale journal (won ++ [(op, o)]) applies := by
  refine ⟨h.once, fun op' e o' hmem he => List.mem_append_left _ (h.told op' e o' hmem he), ?_, ?_⟩
  · intro op' o₁ o₂ h₁ h₂
    simp only [List.mem_append, List.mem_singleton, Prod.mk.injEq] at h₁ h₂
    rcases h₁ with h₁ | ⟨rfl, rfl⟩
    · rcases h₂ with h₂ | ⟨rfl, rfl⟩
      · exact h.single op' o₁ o₂ h₁ h₂
      · exact hno o₁ h₁
    · rcases h₂ with h₂ | ⟨_, rfl⟩
      · exact (hno o₂ h₂).symm
      · rfl
  · intro op' w o' hw ho
    obtain ⟨hmem, hz⟩ := h.owes op' w o' hw ho
    exact ⟨List.mem_append_left _ hmem, hz⟩

theorem tale_tell {journal journal' : List (Nat × Event)} {won : List (Nat × Outcome)} {applies : List Apply}
    (h : Tale journal won applies) {op : Nat} {e : Event} {o : Outcome} (hwon : (op, o) ∈ won) (he : e.outcome = some o)
    (hz : terminals journal op = 0 ∨ (op, e) ∈ journal) (hq : ∀ w, applies[op]? = some w → w.phase.owed = none)
    (hj : insertAudit journal op e = some journal') : Tale journal' won applies := by
  rcases hz with hz | hmem
  · rcases insertAudit_cases hj with ⟨_, hmem⟩ | rfl
    · exact absurd hmem (not_mem_of_terminals hz he)
    · refine ⟨?_, ?_, h.single, ?_⟩
      · intro op'
        rw [terminals_append]
        by_cases heq : op = op'
        · subst heq
          rw [hz]
          split <;> omega
        · have := h.once op'
          simp [heq, this]
      · intro op' e' o' hmem he'
        rcases List.mem_append.mp hmem with hold | hnew
        · exact h.told op' e' o' hold he'
        · obtain ⟨rfl, rfl⟩ : op' = op ∧ e' = e := by simpa using hnew
          obtain rfl : o = o' := Option.some.inj (he.symm.trans he')
          exact hwon
      · intro op' w o' hw ho
        obtain ⟨hmem, hz'⟩ := h.owes op' w o' hw ho
        have hne : op ≠ op' := by
          rintro rfl
          rw [hq w hw] at ho
          cases ho
        exact ⟨hmem, by simp [terminals_append, hz', hne]⟩
  · rw [insertAudit_eq_self hmem hj]
    exact h

theorem tale_accepted {journal journal' : List (Nat × Event)} {won : List (Nat × Outcome)} {applies : List Apply}
    (h : Tale journal won applies) {op : Nat} (hj : insertAudit journal op .accepted = some journal') : Tale journal' won applies := by
  rcases insertAudit_cases hj with ⟨rfl, _⟩ | rfl
  · exact h
  · have hterm : ∀ op', terminals (journal ++ [(op, Event.accepted)]) op' = terminals journal op' := by
      intro op'
      simp [terminals_append, Event.outcome]
    refine ⟨fun op' => (hterm op').trans_le (h.once op'), ?_, h.single, ?_⟩
    · intro op' e o hmem he
      rcases List.mem_append.mp hmem with hold | hnew
      · exact h.told op' e o hold he
      · obtain ⟨rfl, rfl⟩ : op' = op ∧ e = .accepted := by simpa using hnew
        cases he
    · intro op' w o hw ho
      rw [hterm]
      exact h.owes op' w o hw ho

theorem tale_owe {journal : List (Nat × Event)} {won : List (Nat × Outcome)} {applies : List Apply} (h : Tale journal won applies)
    {op : Nat} {w : Apply} {o : Outcome} (hw : w.phase.owed = some o) (hwon : (op, o) ∈ won) (hz : terminals journal op = 0) :
    Tale journal won (applies.set op w) := by
  refine ⟨h.once, h.told, h.single, ?_⟩
  intro op' w' o' hw' ho'
  by_cases heq : op = op'
  · subst heq
    rw [List.getElem?_set] at hw'
    simp only [if_true] at hw'
    split at hw'
    · obtain rfl : w = w' := Option.some.inj hw'
      obtain rfl : o = o' := Option.some.inj (hw.symm.trans ho')
      exact ⟨hwon, hz⟩
    · cases hw'
  · rw [List.getElem?_set_ne heq] at hw'
    exact h.owes op' w' o' hw' ho'

theorem tale_reap (ops : List Nat) {journal journal' : List (Nat × Event)} {won : List (Nat × Outcome)} {applies : List Apply}
    (h : Tale journal won applies)
    (hops : ∀ op ∈ ops, (∀ o, (op, o) ∈ won → o = .failed) ∧
      (terminals journal op = 0 ∨ (op, Event.failed .leaseExpired) ∈ journal) ∧ ∀ w, applies[op]? = some w → w.phase.owed = none)
    (hj : ops.foldlM (fun journal op => insertAudit journal op (.failed .leaseExpired)) journal = some journal') :
    Tale journal' (won ++ ops.map (fun op => (op, .failed))) applies := by
  induction ops generalizing journal won with
  | nil =>
    obtain rfl : journal = journal' := by simpa using hj
    simpa using h
  | cons op ops ih =>
    simp only [List.foldlM_cons] at hj
    obtain ⟨journal₁, hj₁, hj⟩ := Option.bind_eq_some_iff.mp hj
    obtain ⟨hwon, hz, hq⟩ := hops op List.mem_cons_self
    have h₁ : Tale journal₁ (won ++ [(op, .failed)]) applies :=
      tale_tell (tale_win h hwon) (by simp) rfl hz hq hj₁
    have := ih h₁ ?_ hj
    · simpa [List.append_assoc] using this
    · intro op' hmem
      obtain ⟨hwon', hz', hq'⟩ := hops op' (List.mem_cons_of_mem _ hmem)
      refine ⟨?_, ?_, hq'⟩
      · intro o ho
        rcases List.mem_append.mp ho with hold | hnew
        · exact hwon' o hold
        · obtain ⟨_, rfl⟩ : op' = op ∧ o = .failed := by simpa using hnew
          rfl
      · by_cases heq : op = op'
        · subst heq
          rcases insertAudit_cases hj₁ with ⟨rfl, hin⟩ | rfl
          · exact .inr hin
          · exact .inr (by simp)
        · rcases insertAudit_cases hj₁ with ⟨rfl, _⟩ | rfl
          · exact hz'
          · refine hz'.imp (fun hz => ?_) (fun hin => List.mem_append_left _ hin)
            simp [terminals_append, hz, heq]

theorem fresh_of_row {s : State} (hc : Core s) (h : Tale s.journal s.won s.applies) {r : Install} (hr : r ∈ s.rows) {op : Nat}
    (ho : r.applyingOp = some op) :
    (∀ o, (op, o) ∉ s.won) ∧ terminals s.journal op = 0 ∧ ∀ w, s.applies[op]? = some w → w.phase.owed = none := by
  have hno : ∀ o, (op, o) ∉ s.won := fun o hmem => (hc.lost op o hmem).1 r hr ho
  refine ⟨hno, terminals_of_not_won h hno, ?_⟩
  intro w hw
  cases hq : w.phase.owed with
  | none => rfl
  | some o => exact absurd (h.owes op w o hw hq).1 (hno o)

theorem fresh_of_any {s : State} (hc : Core s) (h : Tale s.journal s.won s.applies) {id op : Nat}
    (hany : s.any (Install.mine id op) = true) : (∀ o, (op, o) ∉ s.won) ∧ terminals s.journal op = 0 := by
  obtain ⟨r, hr, hm⟩ := exists_of_any hany
  obtain ⟨hno, hz, _⟩ := fresh_of_row hc h hr (mine_iff.mp hm).2
  exact ⟨hno, hz⟩

theorem tale_done {s : State} (h : Tale s.journal s.won s.applies) {op : Nat} {w : Apply} (hw : s.applies[op]? = some w) {o : Outcome}
    (ho : w.phase.owed = some o) {e : Event} (he : e.outcome = some o) {journal : List (Nat × Event)}
    (hj : insertAudit s.journal op e = some journal) : Tale journal s.won (s.applies.set op { w with phase := .done }) := by
  obtain ⟨hwon, hz⟩ := h.owes op w o hw ho
  refine tale_tell (tale_set h op rfl) hwon he (.inl hz) ?_ hj
  intro w' hw'
  have hlt : op < s.applies.length := (List.getElem?_eq_some_iff.mp hw).1
  simp only [List.getElem?_set_self hlt, Option.some.injEq] at hw'
  subst hw'
  rfl

theorem tale_of_moved {s t : State} {a : Act} (hc : Core s) (h : Tale s.journal s.won s.applies) {op : Nat} {w : Apply}
    (hw : s.applies[op]? = some w) (hok : Held s a = true) (hm : Moved s op w a t) : Tale t.journal t.won t.applies := by
  have hlt : op < s.applies.length := (List.getElem?_eq_some_iff.mp hw).1
  cases hm with
  | read kind seen hp hread => exact tale_set h op rfl
  | turned _ q hq hm ho =>
    refine tale_set h op ?_
    cases q <;> simp_all [Phase.owing, Phase.owed]
  | staged rows journal hp hi hrows hj | claimed id journal hp hi hr hj => exact tale_accepted (tale_set h op rfl) hj
  | renewed id hp hi | wrote id hp hi => exact h
  | finalized id journal hp hi hany hj =>
    obtain ⟨r, hr, hl⟩ := exists_of_any hany
    obtain ⟨hno, hz, _⟩ := fresh_of_row hc h hr (mine_iff.mp (mine_of_leased hl)).2
    have hset : Tale s.journal (s.won ++ [(op, .published)]) (s.applies.set op { w with phase := .done }) :=
      tale_win (tale_set h op rfl) (fun o ho => absurd ho (hno o))
    have hdone : ∀ w', (s.applies.set op { w with phase := .done })[op]? = some w' → w'.phase.owed = none := by
      intro w' hw'
      simp only [List.getElem?_set_self hlt, Option.some.injEq] at hw'
      subst hw'
      rfl
    have htold : Tale journal (s.won ++ [(op, .published)]) (s.applies.set op { w with phase := .done }) :=
      tale_tell hset (List.mem_append_right _ List.mem_cons_self) rfl (.inl hz) hdone hj
    exact htold
  | failed id code hp hi hany =>
    obtain ⟨hno, hz⟩ := fresh_of_any hc h hany
    exact tale_owe (tale_win h (fun o ho => absurd ho (hno o))) rfl (by simp) hz
  | recorded code journal hp hj | staled journal hp hj => exact tale_done h hw (by rw [hp]; rfl) rfl hj
  | released id q hp hi hany =>
    obtain ⟨hno, hz⟩ := fresh_of_any hc h hany
    have hwin : Tale s.journal (s.won ++ [(op, .released)]) s.applies := tale_win h (fun o ho => absurd ho (hno o))
    simp only [State.put, journal_release, won_release hany, applies_release]
    rcases hp with ⟨_, rfl⟩ | ⟨_, rfl⟩
    · exact tale_owe hwin rfl (by simp) hz
    · exact tale_set hwin op rfl
  | missed id hp hi hany =>
    -- the claim is not its own any more
    simp [Held, hw, hp, hi, hany] at hok

theorem tale_of_step {s t : State} {a : Act} (hc : Core s) (h : Tale s.journal s.won s.applies) (hok : Held s a = true)
    (hstep : step s a = some t) : Tale t.journal t.won t.applies := by
  rcases step_cases hstep with ⟨w₀, _, hp, _, rfl⟩ | ⟨op, w, _, hw, hm⟩ | ⟨rfl, hreap⟩ | ⟨id, rfl, rfl⟩ | ⟨ms, rfl, rfl⟩
  · refine tale_applies h ?_
    intro op w hw hne
    rcases Nat.lt_or_ge op s.applies.length with hlt | hge
    · rwa [List.getElem?_append_left hlt] at hw
    · rw [List.getElem?_append_right hge] at hw
      obtain rfl : w = w₀ := by simpa using List.mem_of_getElem? hw
      simp [hp, Phase.owed] at hne
  · exact tale_of_moved hc h hw hok hm
  · obtain ⟨journal, hj, rfl⟩ := reap_cases hreap
    refine tale_reap _ h ?_ hj
    intro op hop
    obtain ⟨r, hr, ho⟩ := List.mem_filterMap.mp hop
    obtain ⟨hno, hz, hq⟩ := fresh_of_row hc h (List.mem_filter.mp hr).1 ho
    exact ⟨fun o ho => absurd ho (hno o), .inl hz, hq⟩
  · exact h
  · exact h

end JournalAux

open OwnersAux JournalAux

/-- In a run in which a release after the second check finds its claim, an operation has one terminal event at most, and it describes the
one transition that was won. -/
theorem told_of_held {now nextId : Nat} {rows : Installs} (hrows : ∀ r ∈ rows, AtRest nextId r) {s : State}
    (h : Steps.Reaches step (fun s a => Held s a = true) (initial now nextId rows) s) : Told s := by
  have hall : Core s ∧ Tale s.journal s.won s.applies := by
    refine h.invariant (I := fun s => Core s ∧ Tale s.journal s.won s.applies) ?_ ⟨core_initial hrows, ?_⟩
    · rintro x a y ⟨hc, htale⟩ hok hy
      exact ⟨core_step hc hy, tale_of_step hc htale hok hy⟩
    · refine ⟨fun op => Nat.zero_le _, ?_, ?_, ?_⟩
      · intro op e o hmem
        cases hmem
      · intro op o o' hmem
        cases hmem
      · intro op w o hw
        simp [initial] at hw
  exact ⟨hall.2.once, hall.2.told, hall.2.single⟩

/-- A first install whose review went out of date under the claim, and one whose lease ran out. -/
theorem told_of_held_stale : ∃ s, Steps.Reaches step (fun s a => Held s a = true) (initial 0 0 Table.empty) s ∧
    ((0, Event.stale) ∈ s.journal ∧ (1, Event.failed .leaseExpired) ∈ s.journal) ∧ Told s := by
  obtain ⟨s, hs, hr⟩ := Steps.exists_of_execOk step (fun s a => Held s a = true) (initial 0 0 Table.empty)
    [.ask none 5, .read 0, .claim 0, .check 0 false, .release 0, .stale 0,
      .ask none 5, .read 1, .claim 1, .check 1 true, .wait 80000, .reap, .writeThrows 1, .markFailed 1]
    (P := fun s : State => (0, Event.stale) ∈ s.journal ∧ (1, Event.failed .leaseExpired) ∈ s.journal) (by decide)
  exact ⟨s, hs, hr, told_of_held (fun r hr => absurd hr (Table.not_mem_empty r)) hs⟩

/-- The reaper takes the lease while the second check runs; the worker releases nothing, and writes `stale`. -/
theorem told_false : ¬ ∀ s, Steps.Reaches step Steps.Free (initial 0 0 Table.empty) s → Told s := by
  intro hall
  obtain ⟨s, hs, hne⟩ := Steps.exists_of_exec step (initial 0 0 Table.empty)
    [.ask none 5, .read 0, .claim 0, .check 0 false, .wait 80000, .reap, .release 0, .stale 0]
    (P := fun s : State => ¬ terminals s.journal 0 ≤ 1) (by decide)
  exact hne ((hall s hs).once 0)

end Capka.Marketplace

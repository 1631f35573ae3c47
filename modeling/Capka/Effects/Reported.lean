import Mathlib
import Capka.Effects.Ledger

/-!
# What the merged ledger reports

The report of a reply joins its ledger rows with the entries rebuilt from its parts. The rows have one entry a call; the parts have one
a result, and a call may have stored several.
-/

namespace Capka

namespace Effects

variable {V : Type}

/-- A stored part that says a call of the id ran: a result, or an error of a call that was not rejected before it ran. -/
def EffectPart.ran (id : String) : EffectPart V → Bool
  | .toolResult i _ => i = id
  | .toolError i _ invalid => i = id && !invalid
  | .toolCall _ _ _ => false
  | .other => false

/-- One that says the call threw. -/
def EffectPart.threw (id : String) : EffectPart V → Bool
  | .toolError i _ invalid => i = id && !invalid
  | .toolResult _ _ => false
  | .toolCall _ _ _ => false
  | .other => false

/-- The call was written to the ledger of the reply. -/
def Written (writes : List (EffectWrite V)) (messageId id : String) : Prop := ∃ w ∈ writes, w.key = (messageId, id)

/-- The report of a reply: the writes have reached the ledger, and the parts are those of its row. -/
def report (clamp : V → Option V) (writes : List (EffectWrite V)) (messageId : String) (parts : List (EffectPart V)) :
    List (TurnEffect V) :=
  mergeEffects (loadEffects (written clamp writes) messageId) (effectsFromParts parts)

/-- The report of a reply is faithful: each call once; every call with a write or a stored result; the marks of a call that was written
are those of its writes, and those of another those of its stored results; no call without either. -/
structure FaithfulReport (clamp : V → Option V) (writes : List (EffectWrite V)) (messageId : String) (parts : List (EffectPart V)) :
    Prop where
  once : ((report clamp writes messageId parts).map TurnEffect.id).Nodup
  written : ∀ id, Written writes messageId id → ∃ e ∈ report clamp writes messageId parts, e.id = id
  stored : ∀ id, (∃ p ∈ parts, p.ran id) → ∃ e ∈ report clamp writes messageId parts, e.id = id
  settled : ∀ e ∈ report clamp writes messageId parts, Written writes messageId e.id →
    (e.unsettled = false ↔ ∃ w ∈ writes, w.key = (messageId, e.id) ∧ w.settled = true)
  failed : ∀ e ∈ report clamp writes messageId parts, Written writes messageId e.id →
    (e.failed = true ↔ ∃ w ∈ writes, w.key = (messageId, e.id) ∧ w.failed = true)
  unwritten : ∀ e ∈ report clamp writes messageId parts, ¬ Written writes messageId e.id →
    e.unsettled = false ∧ (e.failed = true ↔ ∃ p ∈ parts, p.threw e.id)
  sound : ∀ e ∈ report clamp writes messageId parts, Written writes messageId e.id ∨ ∃ p ∈ parts, p.ran e.id

/-- No call that was never written has two stored results, and no call without an id was written and has one. -/
def Distinct (writes : List (EffectWrite V)) (messageId : String) (parts : List (EffectPart V)) : Prop :=
  (∀ id, ¬ Written writes messageId id → parts.countP (EffectPart.ran id) ≤ 1) ∧
    (Written writes messageId "" → parts.countP (EffectPart.ran "") = 0)

namespace ReportedAux

theorem partEffect_eq_some {parts : List (EffectPart V)} {p : EffectPart V} {e : TurnEffect V} (h : partEffect parts p = some e) :
    p.ran e.id = true ∧ e.unsettled = false ∧ e.failed = p.threw e.id := by
  cases p with
  | toolCall id name input => cases h
  | toolResult id name =>
    obtain rfl := Option.some.inj h
    simp [EffectPart.ran, EffectPart.threw]
  | toolError id name invalid =>
    cases invalid with
    | true => cases h
    | false =>
      obtain rfl := Option.some.inj h
      simp [EffectPart.ran, EffectPart.threw]
  | other => cases h

theorem exists_partEffect {parts : List (EffectPart V)} {p : EffectPart V} {id : String} (h : p.ran id = true) :
    ∃ e, partEffect parts p = some e ∧ e.id = id := by
  cases p with
  | toolCall i name input => cases h
  | toolResult i name => exact ⟨_, rfl, by simpa [EffectPart.ran] using h⟩
  | toolError i name invalid =>
    obtain ⟨hi, hv⟩ : i = id ∧ invalid = false := by simpa [EffectPart.ran] using h
    subst hv
    exact ⟨_, rfl, hi⟩
  | other => cases h

theorem ran_of_threw {p : EffectPart V} {id : String} (h : p.threw id = true) : p.ran id = true := by
  cases p with
  | toolCall i name input => cases h
  | toolResult i name => cases h
  | toolError i name invalid => exact h
  | other => cases h

theorem count_effects (all parts : List (EffectPart V)) (id : String) :
    ((parts.filterMap (partEffect all)).map TurnEffect.id).count id = parts.countP (EffectPart.ran id) := by
  induction parts with
  | nil => rfl
  | cons p parts ih =>
    cases hp : partEffect all p with
    | none =>
      have hran : p.ran id = false := by
        cases hr : p.ran id with
        | false => rfl
        | true =>
          obtain ⟨e, he, _⟩ := @exists_partEffect V all p id hr
          rw [hp] at he
          cases he
      rw [List.filterMap_cons_none hp, ih, List.countP_cons, hran]
      rfl
    | some e =>
      have hiff : p.ran id = true ↔ e.id = id := by
        constructor
        · intro hr
          obtain ⟨e', he', hid⟩ := @exists_partEffect V all p id hr
          rw [hp] at he'
          rwa [Option.some.inj he']
        · rintro rfl
          exact (partEffect_eq_some hp).1
      rw [List.filterMap_cons_some hp, List.map_cons, List.count_cons, ih, List.countP_cons]
      by_cases hid : e.id = id
      · simp [hid, hiff.mpr hid]
      · have hr : p.ran id = false := by
          rw [← Bool.not_eq_true, hiff]
          exact hid
        simp [hid, hr]

theorem eq_of_countP_le_one {α : Type} {q : α → Bool} {l : List α} (h : l.countP q ≤ 1) {a b : α} (ha : a ∈ l) (hqa : q a = true)
    (hb : b ∈ l) (hqb : q b = true) : a = b := by
  rw [List.countP_eq_length_filter] at h
  have ha' : a ∈ l.filter q := List.mem_filter.mpr ⟨ha, hqa⟩
  have hb' : b ∈ l.filter q := List.mem_filter.mpr ⟨hb, hqb⟩
  match hl : l.filter q, h with
  | [], _ =>
    rw [hl] at ha'
    cases ha'
  | [x], _ =>
    rw [hl] at ha' hb'
    rw [List.mem_singleton.mp ha', List.mem_singleton.mp hb']

theorem mem_loadEffects {ledger : Ledger V} {messageId : String} {e : TurnEffect V} :
    e ∈ loadEffects ledger messageId ↔ ∃ r ∈ ledger, r.messageId = messageId ∧ e = r.effect := by
  unfold loadEffects
  rw [List.mem_map]
  constructor
  · rintro ⟨r, hr, rfl⟩
    obtain ⟨hr, hm⟩ := List.mem_filter.mp (List.mem_mergeSort.mp hr)
    exact ⟨r, hr, by simpa using hm, rfl⟩
  · rintro ⟨r, hr, hm, rfl⟩
    exact ⟨r, List.mem_mergeSort.mpr (List.mem_filter.mpr ⟨hr, by simpa using hm⟩), rfl⟩

theorem nodup_loadEffects (ledger : Ledger V) (messageId : String) : ((loadEffects ledger messageId).map TurnEffect.id).Nodup := by
  have hperm : ((loadEffects ledger messageId).map TurnEffect.id).Perm
      ((ledger.rows.filter (fun r => r.messageId = messageId)).map EffectRow.toolCallId) := by
    rw [loadEffects, List.map_map]
    exact (List.mergeSort_perm _ _).map _
  rw [hperm.nodup_iff]
  have hsub : ((ledger.rows.filter (fun r => r.messageId = messageId)).map EffectRow.key).Nodup :=
    ledger.nodup.sublist (List.Sublist.map _ List.filter_sublist)
  have heq : (ledger.rows.filter (fun r => r.messageId = messageId)).map EffectRow.key =
      ((ledger.rows.filter (fun r => r.messageId = messageId)).map EffectRow.toolCallId).map (fun id => (messageId, id)) := by
    rw [List.map_map]
    apply List.map_congr_left
    intro r hr
    have hm : r.messageId = messageId := by simpa using (List.mem_filter.mp hr).2
    simp [EffectRow.key, hm]
  rw [heq] at hsub
  exact hsub.of_map

theorem exists_loaded_iff {clamp : V → Option V} {writes : List (EffectWrite V)} {messageId id : String} :
    (∃ e ∈ loadEffects (Effects.written clamp writes) messageId, e.id = id) ↔ Written writes messageId id := by
  have hrec := recorded_written clamp writes
  constructor
  · rintro ⟨e, he, rfl⟩
    obtain ⟨r, hr, rfl, rfl⟩ := mem_loadEffects.mp he
    exact hrec.source r hr
  · rintro ⟨w, hw, hk⟩
    obtain ⟨r, hr, hrk⟩ := hrec.all w hw
    have hkey : r.key = (messageId, id) := hrk.trans hk
    exact ⟨r.effect, mem_loadEffects.mpr ⟨r, hr, congrArg Prod.fst hkey, rfl⟩, congrArg Prod.snd hkey⟩

theorem mem_report {clamp : V → Option V} {writes : List (EffectWrite V)} {messageId : String} {parts : List (EffectPart V)}
    {e : TurnEffect V} : e ∈ report clamp writes messageId parts ↔
      (e ∈ effectsFromParts parts ∧ (e.id = "" ∨ ¬ Written writes messageId e.id)) ∨
        e ∈ loadEffects (Effects.written clamp writes) messageId := by
  have hknown : e.id ∉ ((loadEffects (Effects.written clamp writes) messageId).map TurnEffect.id).filter (· ≠ "") ↔
      e.id = "" ∨ ¬ Written writes messageId e.id := by
    rw [← @exists_loaded_iff V clamp, List.mem_filter, List.mem_map]
    by_cases h : e.id = ""
    · simp [h]
    · simp [h]
  rw [report, mergeEffects, List.mem_append, List.mem_filter]
  simp only [Bool.or_eq_true, decide_eq_true_eq]
  rw [hknown]
  constructor
  · rintro (⟨he, h | h⟩ | he)
    · exact Or.inl ⟨he, Or.inl h⟩
    · exact Or.inl ⟨he, h⟩
    · exact Or.inr he
  · rintro (⟨he, h⟩ | he)
    · exact Or.inl ⟨he, Or.inr h⟩
    · exact Or.inr he

theorem count_report (clamp : V → Option V) (writes : List (EffectWrite V)) (messageId : String) (parts : List (EffectPart V))
    (id : String) [Decidable (Written writes messageId id)] :
    ((report clamp writes messageId parts).map TurnEffect.id).count id =
      (if id = "" ∨ ¬ Written writes messageId id then parts.countP (EffectPart.ran id) else 0) +
        if Written writes messageId id then 1 else 0 := by
  have hmem : id ∈ (loadEffects (Effects.written clamp writes) messageId).map TurnEffect.id ↔ Written writes messageId id := by
    rw [List.mem_map]
    exact exists_loaded_iff
  have hledger : ((loadEffects (Effects.written clamp writes) messageId).map TurnEffect.id).count id =
      if Written writes messageId id then 1 else 0 := by
    rw [(nodup_loadEffects _ _).count]
    simp only [hmem]
  have hparts : ∀ known : List String,
      ((effectsFromParts parts).filter (fun e => e.id = "" || e.id ∉ known)).map TurnEffect.id =
        ((effectsFromParts parts).map TurnEffect.id).filter (fun i => i = "" || i ∉ known) := by
    intro known
    rw [List.filter_map]
    rfl
  rw [report, mergeEffects, List.map_append, List.count_append, hledger, hparts]
  congr 1
  by_cases hkeep : id = "" ∨ ¬ Written writes messageId id
  · rw [if_pos hkeep, List.count_filter]
    · exact count_effects parts parts id
    · rcases hkeep with rfl | hnot
      · simp
      · have hno : id ∉ ((loadEffects (Effects.written clamp writes) messageId).map TurnEffect.id).filter (· ≠ "") := by
          intro hin
          exact hnot (hmem.mp (List.mem_filter.mp hin).1)
        simp only [hno, not_false_eq_true, decide_true, Bool.or_true]
  · rw [if_neg hkeep]
    push Not at hkeep
    apply List.count_eq_zero_of_not_mem
    intro hin
    have hin := (List.mem_filter.mp hin).2
    have hknown : id ∈ ((loadEffects (Effects.written clamp writes) messageId).map TurnEffect.id).filter (· ≠ "") :=
      List.mem_filter.mpr ⟨hmem.mpr hkeep.2, by simpa using hkeep.1⟩
    simp only [hkeep.1, hknown, not_true_eq_false, decide_false, Bool.or_self] at hin
    cases hin

end ReportedAux

open ReportedAux

/-- The report of a reply is faithful exactly when the stored results are distinct where the ledger does not know the call. -/
theorem report_faithful_iff (clamp : V → Option V) (writes : List (EffectWrite V)) (messageId : String) (parts : List (EffectPart V)) :
    FaithfulReport clamp writes messageId parts ↔ Distinct writes messageId parts := by
  classical
  have honce : ((report clamp writes messageId parts).map TurnEffect.id).Nodup ↔ Distinct writes messageId parts := by
    rw [List.nodup_iff_count_le_one]
    constructor
    · intro h
      refine ⟨?_, ?_⟩
      · intro id hnot
        have hc := h id
        rw [count_report, if_pos (Or.inr hnot)] at hc
        omega
      · intro hw
        have hc := h ""
        rw [count_report, if_pos (Or.inl rfl), if_pos hw] at hc
        omega
    · rintro ⟨hone, hnone⟩ id
      rw [count_report]
      by_cases hw : Written writes messageId id
      · by_cases hid : id = ""
        · subst hid
          have := hnone hw
          rw [if_pos (Or.inl rfl), if_pos hw]
          omega
        · rw [if_neg (by tauto), if_pos hw]
      · have := hone id hw
        rw [if_pos (Or.inr hw), if_neg hw]
        omega
  have hrec := recorded_written clamp writes
  constructor
  · intro h
    exact honce.mp h.once
  · intro h
    -- an entry of a written call is its row's
    have hrow : ∀ e ∈ report clamp writes messageId parts, Written writes messageId e.id →
        ∃ r ∈ Effects.written clamp writes, r.key = (messageId, e.id) ∧ e = r.effect := by
      intro e he hw
      rcases mem_report.mp he with ⟨he, hid | hnot⟩ | he
      · obtain ⟨p, hp, hpe⟩ := List.mem_filterMap.mp he
        have hran := (partEffect_eq_some hpe).1
        rw [hid] at hw hran
        have hzero := List.countP_eq_zero.mp (h.2 hw) p hp
        exact absurd hran hzero
      · exact absurd hw hnot
      · obtain ⟨r, hr, hm, rfl⟩ := mem_loadEffects.mp he
        exact ⟨r, hr, by rw [← hm]; rfl, rfl⟩
    -- an entry of another call is its part's
    have hpart : ∀ e ∈ report clamp writes messageId parts, ¬ Written writes messageId e.id →
        ∃ p ∈ parts, p.ran e.id = true ∧ e.unsettled = false ∧ e.failed = p.threw e.id := by
      intro e he hnot
      rcases mem_report.mp he with ⟨he, -⟩ | he
      · obtain ⟨p, hp, hpe⟩ := List.mem_filterMap.mp he
        exact ⟨p, hp, partEffect_eq_some hpe⟩
      · exact absurd (exists_loaded_iff.mp ⟨e, he, rfl⟩) hnot
    refine { once := honce.mpr h, written := ?_, stored := ?_, settled := ?_, failed := ?_, unwritten := ?_, sound := ?_ }
    · intro id hw
      obtain ⟨e, he, hid⟩ := exists_loaded_iff.mpr hw
      exact ⟨e, mem_report.mpr (Or.inr he), hid⟩
    · rintro id ⟨p, hp, hran⟩
      by_cases hw : Written writes messageId id
      · obtain ⟨e, he, hid⟩ := exists_loaded_iff.mpr hw
        exact ⟨e, mem_report.mpr (Or.inr he), hid⟩
      · obtain ⟨e, he, rfl⟩ := @exists_partEffect V parts p id hran
        exact ⟨e, mem_report.mpr (Or.inl ⟨List.mem_filterMap.mpr ⟨p, hp, he⟩, Or.inr hw⟩), rfl⟩
    · intro e he hw
      obtain ⟨r, hr, hk, rfl⟩ := hrow e he hw
      rw [← hk, ← hrec.settled r hr, EffectRow.effect, Bool.not_eq_false']
    · intro e he hw
      obtain ⟨r, hr, hk, rfl⟩ := hrow e he hw
      rw [← hk, ← hrec.failed r hr, EffectRow.effect]
    · intro e he hnot
      obtain ⟨p, hp, hran, hu, hf⟩ := hpart e he hnot
      refine ⟨hu, ?_⟩
      rw [hf]
      constructor
      · intro ht
        exact ⟨p, hp, ht⟩
      · rintro ⟨p', hp', ht⟩
        have hsame := eq_of_countP_le_one (h.1 e.id hnot) hp hran hp' (ran_of_threw ht)
        rw [hsame]
        exact ht
    · intro e he
      by_cases hw : Written writes messageId e.id
      · exact Or.inl hw
      · obtain ⟨p, hp, hran, _⟩ := hpart e he hw
        exact Or.inr ⟨p, hp, hran⟩

/-- A call whose two results are stored, and that the ledger does not know, is reported twice. -/
theorem report_faithful_false :
    (report (V := Unit) some [] "reply" [.toolCall "c" "pay" (), .toolError "c" "pay" false, .toolResult "c" "pay"]).map TurnEffect.id =
        ["c", "c"] ∧
      ¬ FaithfulReport (V := Unit) some [] "reply" [.toolCall "c" "pay" (), .toolError "c" "pay" false, .toolResult "c" "pay"] := by
  have htwo : (report (V := Unit) some [] "reply"
      [.toolCall "c" "pay" (), .toolError "c" "pay" false, .toolResult "c" "pay"]).map TurnEffect.id = ["c", "c"] := by
    have hempty : loadEffects (Effects.written (V := Unit) some []) "reply" = [] := by simp [loadEffects, Effects.written, Table.empty]
    rw [report, hempty]
    decide
  refine ⟨htwo, ?_⟩
  intro h
  have honce := h.once
  rw [htwo] at honce
  exact absurd honce (by decide)

end Effects

end Capka

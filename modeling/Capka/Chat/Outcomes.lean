import Mathlib
import Capka.Chat.Presenter

/-!
# Every call fed to a model has one outcome

The state of a tool part decides its outcome: an output, an error, a denial, or none yet. What the row records of a call is its last
result, or else its last error. The presenter asks whether the text of an error is true rather than whether there is one, and of an
`ask` call it asks for the result only.
-/

namespace Capka

/-- What a provider is sent as the result of a call. -/
inductive ToolOutcome
  | result (output : Option ToolOutput)
  | error (text : Option String)
  | denied
  deriving DecidableEq

namespace ToolPart

/-- The outcome of a tool part: one in the terminal states, none in the others. -/
def outcome (part : ToolPart) : Option ToolOutcome :=
  match part.state with
  | .outputAvailable => some (.result part.output)
  | .outputError => some (.error part.errorText)
  | .outputDenied => some .denied
  | .inputStreaming => none
  | .inputAvailable => none
  | .approvalRequested => none
  | .approvalResponded => none

end ToolPart

def UIPart.toolPart : UIPart → Option ToolPart
  | .dynamicTool part => some part
  | .text _ => none
  | .reasoning _ => none

/-- The tool parts of a message. -/
def UIMessage.toolParts (m : UIMessage) : List ToolPart := m.parts.filterMap UIPart.toolPart

namespace StoredPart

def callOf : StoredPart → Option (Nat × Option Suspension)
  | .toolCall id _ _ waitsOn => some (id, waitsOn)
  | .text _ => none
  | .reasoning _ => none
  | .toolResult _ _ _ => none
  | .toolError _ _ _ _ => none

/-- What the parts of a row record as the outcome of a call. -/
def recorded (parts : List StoredPart) (id : Nat) : Option ToolOutcome :=
  match Presenter.resultMap parts id with
  | some output => some (.result (some output))
  | none => (Presenter.errorMap parts id).map (fun text => .error (some text))

/-- The outcome recorded of a call can be read off its part: an error that stands alone has a text, on an `ask` that is not skipped the
very text of an unanswered one; and an approval that has an outcome is decided, unless the chat moved past it. -/
def Legible (last : Bool) (o : ToolOutcome) (waitsOn : Option Suspension) : Prop :=
  (∀ text, o = .error (some text) → text ≠ "" ∧
    ∀ q, waitsOn = some (.answer q) → text = unansweredAskResult ∧ (q.value ≠ none ∨ last = true)) ∧
  ∀ a, waitsOn = some (.approval a) → last = true → a.approved ≠ none

end StoredPart

namespace PresenterRow

/-- The calls of a row, in order. -/
def calls (row : PresenterRow) : List Nat :=
  match row.parts, row.toolCalls with
  | some parts, _ => (parts.filterMap StoredPart.callOf).map Prod.fst
  | none, some calls => calls.map LegacyCall.id
  | none, none => []

/-- What a row records as the outcome of a call. -/
def recorded (row : PresenterRow) (id : Nat) : Option ToolOutcome :=
  match row.parts with
  | some parts => StoredPart.recorded parts id
  | none => (Presenter.legacyResult row.toolResults id).map (fun output => .result (some output))

/-- The outcomes of a row's calls can be read off their parts. -/
def Legible (last : Bool) (row : PresenterRow) : Prop :=
  ∀ parts, row.parts = some parts → ∀ id waitsOn, (id, waitsOn) ∈ parts.filterMap StoredPart.callOf →
    ∀ o, StoredPart.recorded parts id = some o → StoredPart.Legible last o waitsOn

end PresenterRow

/-- The history fed to a model. -/
def fedHistory (rows : List PresenterRow) : List UIMessage := sealOrphanToolCalls (toUIMessages rows)

/-- Every tool part of a message that is not the last has an outcome; a call with a recorded outcome keeps it; and closing the history
again changes nothing. -/
structure OneOutcomeEach (rows : List PresenterRow) : Prop where
  closed : ∀ (i : Nat) (m : UIMessage), (fedHistory rows)[i]? = some m → i + 1 < rows.length → m.role = .assistant →
    ∀ part ∈ m.toolParts, part.outcome.isSome
  keeps : ∀ (i : Nat) (row : PresenterRow) (m : UIMessage), rows[i]? = some row → (fedHistory rows)[i]? = some m → row.role = .assistant →
    List.Forall₂ (fun id part => part.toolCallId = id ∧ ∀ o, row.recorded id = some o → part.outcome = some o) row.calls m.toolParts
  stable : sealOrphanToolCalls (fedHistory rows) = fedHistory rows

namespace OutcomesAux

attribute [local simp] ToolPart.sealed ToolPart.sealUnrun ToolPart.sealDenied ToolPart.sealUndecided ToolPart.sealOrphan ToolPart.outcome

/-! ## The loop on one part -/

@[simp] theorem sealed_toolCallId (last : Bool) (part : ToolPart) : (part.sealed last).toolCallId = part.toolCallId := by
  unfold ToolPart.sealed ToolPart.sealUnrun ToolPart.sealDenied ToolPart.sealUndecided ToolPart.sealOrphan
  repeat' split
  all_goals rfl

variable {last : Bool} {part : ToolPart}

theorem sealed_of_outcome (h : part.outcome.isSome) : part.sealed last = part := by
  obtain ⟨id, name, input, state, output, errorText, approval, form, value⟩ := part
  cases state with
  | outputAvailable
  | outputError
  | outputDenied => simp
  | inputStreaming | inputAvailable | approvalRequested | approvalResponded => cases h

theorem sealed_cases (last : Bool) (part : ToolPart) : (part.sealed last).outcome.isSome ∨ part.sealed last = part := by
  obtain ⟨id, name, input, state, output, errorText, approval, form, value⟩ := part
  cases state with
  | outputAvailable | outputError | outputDenied => exact Or.inr (sealed_of_outcome rfl)
  | inputStreaming | inputAvailable =>
    left
    simp
  | approvalRequested =>
    cases last with
    | true =>
      right
      simp
    | false =>
      left
      simp
  | approvalResponded =>
    by_cases hd : approval.bind Approval.approved = some false
    · left
      simp [hd]
    · by_cases ha : approval.bind Approval.approved = some true ∧ last = false
      · left
        simp [ha]
      · right
        simp [hd, ha]

theorem sealed_sealed (last : Bool) (part : ToolPart) : (part.sealed last).sealed last = part.sealed last := by
  rcases sealed_cases last part with h | h
  · exact sealed_of_outcome h
  · rw [h, h]

variable {o : ToolOutcome}

theorem outcome_sealed (h : part.outcome = some o) : (part.sealed last).outcome = some o := by
  rw [sealed_of_outcome (by rw [h]; rfl), h]

/-! ## The part of one call -/

/-- Of a result and an error, the result is what is recorded. -/
def recordedOf (tr : Option ToolOutput) (err : Option String) : Option ToolOutcome :=
  match tr with
  | some output => some (.result (some output))
  | none => err.map (fun text => .error (some text))

theorem legible_result {output : Option ToolOutput} {waitsOn : Option Suspension}
    (h : ∀ a, waitsOn = some (.approval a) → last = true → a.approved ≠ none) : StoredPart.Legible last (.result output) waitsOn := by
  refine ⟨?_, h⟩
  intro text ht
  cases ht

variable {id : Nat} {name input : String} {tr : Option ToolOutput} {err : Option String}

theorem askPart_outcome {q : AskPart}
    (h : recordedOf tr err = some o) :
    ((Presenter.askPart (!last) id name input q tr).sealed last).outcome = some o ↔ StoredPart.Legible last o (some (.answer q)) := by
  cases tr with
  | some output =>
    obtain rfl : .result (some output) = o := Option.some.inj h
    constructor
    · intro _
      exact legible_result (fun a ha => by cases ha)
    · intro _
      exact outcome_sealed (by simp [Presenter.askPart, ToolPart.outcome])
  | none =>
    obtain ⟨text, rfl, rfl⟩ := Option.map_eq_some_iff.mp h
    by_cases hskip : q.value = none ∧ last = false
    · -- skipped: the part has an output
      constructor
      · intro hout
        rw [sealed_of_outcome (by simp [Presenter.askPart, ToolPart.outcome, hskip])] at hout
        simp [Presenter.askPart, ToolPart.outcome, hskip] at hout
      · intro hleg
        rcases (hleg.1 text rfl).2 q rfl with ⟨_, hv | hl⟩
        · exact absurd hskip.1 hv
        · rw [hskip.2] at hl
          cases hl
    · have hns : (q.value.isNone && !last) = false := by
        cases hv : q.value with
        | none => cases last with
          | false => exact absurd ⟨hv, rfl⟩ hskip
          | true => rfl
        | some v => rfl
      have hout : ((Presenter.askPart (!last) id name input q none).sealed last).outcome = some (.error (some unansweredAskResult)) := by
        simp [Presenter.askPart, hns]
      rw [hout]
      constructor
      · intro ho
        have htext : unansweredAskResult = text := by injection ho with ho; injection ho with ho; injection ho
        refine ⟨fun t ht => ?_, fun a ha => by cases ha⟩
        injection ht with ht
        injection ht with ht
        subst ht
        refine ⟨by rw [← htext]; decide, fun q' hq => ?_⟩
        obtain rfl : q = q' := by injection hq with hq; injection hq
        refine ⟨htext.symm, ?_⟩
        by_contra hne
        push Not at hne
        exact hskip ⟨hne.1, by simpa using hne.2⟩
      · intro hleg
        rw [((hleg.1 text rfl).2 q rfl).1]

/-- The approval of a gated call as the presenter reads it. -/
def readApproval (last : Bool) (a : Approval) : Approval :=
  if a.approved = none && !last then { id := a.id, approved := some false, reason := some undecidedApprovalReason } else a

variable {status : Option MessageStatus} {a : Approval}

theorem approvalPart_undecided
    (ha : a.approved = none) :
    ((Presenter.approvalPart status false id name input a tr err).sealed true).outcome = none := by
  simp [Presenter.approvalPart, ha]

theorem approvalPart_decided
    (ha : a.approved = none → last = false)
    (h : recordedOf tr err = some o) (htext : o ≠ .error (some "")) :
    (Presenter.approvalPart status (!last) id name input a tr err).outcome = some o := by
  have hread : (readApproval last a).approved ≠ none := by
    unfold readApproval
    split
    · simp
    · next hc =>
      intro hn
      rw [hn, ha hn] at hc
      exact hc rfl
  have heq : (if a.approved = none && !last then { id := a.id, approved := some false, reason := some undecidedApprovalReason } else a) =
    readApproval last a := rfl
  simp only [Presenter.approvalPart, heq]
  cases tr with
  | some output =>
    obtain rfl : .result (some output) = o := Option.some.inj h
    simp [ToolPart.outcome, hread]
  | none =>
    obtain ⟨text, rfl, rfl⟩ := Option.map_eq_some_iff.mp h
    have ht : text ≠ "" := by
      rintro rfl
      exact htext rfl
    simp [ToolPart.outcome, hread, Presenter.truthy, ht]

theorem approvalPart_textless :
    ((Presenter.approvalPart status (!last) id name input a none (some "")).sealed last).outcome ≠ some (.error (some "")) := by
  have heq : (if a.approved = none && !last then { id := a.id, approved := some false, reason := some undecidedApprovalReason } else a) =
    readApproval last a := rfl
  simp only [Presenter.approvalPart, heq]
  have htrue : Presenter.truthy (some "") = false := rfl
  obtain ⟨i, approved, reason⟩ := readApproval last a
  rcases approved with _ | approved
  · cases last with
    | true | false =>
      simp
  · cases approved with
    | false =>
      simp [htrue]
    | true =>
      by_cases hrun : status = some .completed
      · simp [htrue, hrun]
      · cases last with
        | true =>
          simp [htrue, hrun]
        | false =>
          simp [htrue, hrun, interruptedToolResult]

theorem approvalPart_outcome
    (h : recordedOf tr err = some o) :
    ((Presenter.approvalPart status (!last) id name input a tr err).sealed last).outcome = some o ↔
      StoredPart.Legible last o (some (.approval a)) := by
  constructor
  · intro hout
    refine ⟨?_, ?_⟩
    · rintro text rfl
      refine ⟨?_, fun q hq => by cases hq⟩
      rintro rfl
      cases tr with
      | some output => cases h
      | none =>
        obtain ⟨text, rfl, ht⟩ := Option.map_eq_some_iff.mp h
        injection ht with ht
        injection ht with ht
        subst ht
        exact approvalPart_textless hout
    · rintro a' ha' rfl hn
      obtain rfl : a = a' := by injection ha' with ha'; injection ha'
      rw [Bool.not_true, approvalPart_undecided hn] at hout
      cases hout
  · intro hleg
    refine outcome_sealed (approvalPart_decided ?_ h ?_)
    · intro hn
      cases last with
      | false => rfl
      | true => exact absurd hn (hleg.2 a rfl rfl)
    · rintro rfl
      exact (hleg.1 "" rfl).1 rfl

theorem plainPart_outcome
    (h : recordedOf tr err = some o) :
    ((Presenter.plainPart status id name input tr err).sealed last).outcome = some o ↔ StoredPart.Legible last o none := by
  cases tr with
  | some output =>
    obtain rfl : .result (some output) = o := Option.some.inj h
    constructor
    · intro _
      exact legible_result (fun a ha => by cases ha)
    · intro _
      exact outcome_sealed (by simp [Presenter.plainPart, ToolPart.outcome])
  | none =>
    obtain ⟨text, rfl, rfl⟩ := Option.map_eq_some_iff.mp h
    by_cases ht : text = ""
    · subst ht
      have hout : ((Presenter.plainPart status id name input none (some "")).sealed last).outcome =
          some (.error (some interruptedToolResult)) := by
        by_cases hlive : status = some .running
        · simp [Presenter.plainPart, Presenter.truthy, hlive]
        · exact outcome_sealed (by simp [Presenter.plainPart, Presenter.truthy, ToolPart.outcome, hlive])
      rw [hout]
      constructor
      · intro ho
        simp [interruptedToolResult] at ho
      · intro hleg
        exact absurd rfl (hleg.1 "" rfl).1
    · constructor
      · intro _
        refine ⟨fun t ht' => ?_, fun a ha => by cases ha⟩
        injection ht' with ht'
        injection ht' with ht'
        exact ⟨ht' ▸ ht, fun q hq => by cases hq⟩
      · intro _
        exact outcome_sealed (by simp [Presenter.plainPart, ToolPart.outcome, Presenter.truthy, ht])

theorem callPart_outcome {parts : List StoredPart}
    {waitsOn : Option Suspension} (h : StoredPart.recorded parts id = some o) :
    ((Presenter.callPart status (!last) parts id name input waitsOn).sealed last).outcome = some o ↔
      StoredPart.Legible last o waitsOn := by
  have hrec : recordedOf (Presenter.resultMap parts id) (Presenter.errorMap parts id) = some o := h
  cases waitsOn with
  | none => exact plainPart_outcome hrec
  | some w =>
    cases w with
    | approval a => exact approvalPart_outcome hrec
    | answer q => exact askPart_outcome hrec

theorem callPart_toolCallId (status : Option MessageStatus) (movedPast : Bool) (parts : List StoredPart) (id : Nat) (name input : String)
    (waitsOn : Option Suspension) : (Presenter.callPart status movedPast parts id name input waitsOn).toolCallId = id := by
  cases waitsOn with
  | none => rfl
  | some w =>
    cases w with
    | approval a => rfl
    | answer q => rfl

theorem sealed_closed (h : part.state = .approvalResponded → part.approval.bind Approval.approved ≠ none) :
    (part.sealed false).outcome.isSome := by
  rcases sealed_cases false part with hs | hs
  · exact hs
  · obtain ⟨id, name, input, state, output, errorText, approval, form, value⟩ := part
    cases state with
    | approvalResponded =>
      cases hb : approval.bind Approval.approved with
      | none => exact absurd hb (h rfl)
      | some b =>
        cases b with
        | false
        | true => simp [hb]
    | inputStreaming | inputAvailable | approvalRequested | outputAvailable | outputError | outputDenied =>
      simp

theorem callPart_closed (status : Option MessageStatus) (parts : List StoredPart) (id : Nat) (name input : String)
    (waitsOn : Option Suspension) : ((Presenter.callPart status true parts id name input waitsOn).sealed false).outcome.isSome := by
  apply sealed_closed
  intro hstate
  cases waitsOn with
  | none =>
    simp only [Presenter.callPart, Presenter.plainPart] at hstate
    split at hstate
    · cases hstate
    · split at hstate <;> cases hstate
  | some w =>
    cases w with
    | answer q =>
      simp only [Presenter.callPart, Presenter.askPart] at hstate
      generalize (if (Presenter.resultMap parts id).isNone && q.value.isNone && true then some skippedAnswer else none) = skipped at hstate
      split at hstate <;> cases hstate
    | approval a =>
      intro hnone
      simp only [Presenter.callPart, Presenter.approvalPart, Option.bind_some] at hstate hnone
      rw [if_pos hnone] at hstate
      cases hstate

/-! ## The tool parts of a message -/

theorem forall₂_calls {status : Option MessageStatus} {movedPast last : Bool} {all parts : List StoredPart}
    {P : Nat × Option Suspension → ToolPart → Prop}
    (h : ∀ id name input waitsOn, StoredPart.toolCall id name input waitsOn ∈ parts →
      P (id, waitsOn) ((Presenter.callPart status movedPast all id name input waitsOn).sealed last)) :
    List.Forall₂ P (parts.filterMap StoredPart.callOf)
      (((parts.filterMap (Presenter.uiPart status movedPast all)).map (UIPart.sealed last)).filterMap UIPart.toolPart) := by
  induction parts with
  | nil => exact .nil
  | cons p parts ih =>
    have ih := ih (fun id name input waitsOn hmem => h id name input waitsOn (List.mem_cons_of_mem _ hmem))
    cases p with
    | text text =>
      have hc : StoredPart.callOf (.text text) = none := rfl
      rw [List.filterMap_cons_none hc]
      by_cases ht : text = []
      · rw [List.filterMap_cons_none (by simp [Presenter.uiPart, ht])]
        exact ih
      · rw [List.filterMap_cons_some (by simp [Presenter.uiPart, ht]; rfl)]
        exact ih
    | reasoning text =>
      have hc : StoredPart.callOf (.reasoning text) = none := rfl
      rw [List.filterMap_cons_none hc]
      by_cases ht : text = []
      · rw [List.filterMap_cons_none (by simp [Presenter.uiPart, ht])]
        exact ih
      · rw [List.filterMap_cons_some (by simp [Presenter.uiPart, ht]; rfl)]
        exact ih
    | toolResult id name output =>
      have hc : StoredPart.callOf (.toolResult id name output) = none := rfl
      rw [List.filterMap_cons_none hc, List.filterMap_cons_none rfl]
      exact ih
    | toolError id name error invalid =>
      have hc : StoredPart.callOf (.toolError id name error invalid) = none := rfl
      rw [List.filterMap_cons_none hc, List.filterMap_cons_none rfl]
      exact ih
    | toolCall id name input waitsOn =>
      have hc : StoredPart.callOf (.toolCall id name input waitsOn) = some (id, waitsOn) := rfl
      have hu : Presenter.uiPart status movedPast all (.toolCall id name input waitsOn) =
        some (.dynamicTool (Presenter.callPart status movedPast all id name input waitsOn)) := rfl
      rw [List.filterMap_cons_some hc, List.filterMap_cons_some hu]
      exact .cons (h id name input waitsOn List.mem_cons_self) ih

theorem getElem?_fedHistory (rows : List PresenterRow) (i : Nat) :
    (fedHistory rows)[i]? = rows[i]?.map (fun row =>
      (Presenter.uiMessage (i < rows.length - 1) row).sealed (!decide (i < rows.length - 1))) := by
  cases h : rows[i]? with
  | none | some row => simp [fedHistory, sealOrphanToolCalls, toUIMessages, List.getElem?_mapIdx, h]

theorem forall₂_iff {α β : Type} {A B : α → β → Prop} {Q : α → Prop} {xs : List α} {ys : List β} (h : List.Forall₂ A xs ys)
    (hB : ∀ x y, A x y → (B x y ↔ Q x)) : List.Forall₂ B xs ys ↔ ∀ x ∈ xs, Q x := by
  induction h with
  | nil => simp
  | cons hA _ ih => rw [List.forall₂_cons, ih, hB _ _ hA, List.forall_mem_cons]

theorem exists_of_forall₂ {α β : Type} {A : α → β → Prop} {xs : List α} {ys : List β} (h : List.Forall₂ A xs ys) :
    ∀ y ∈ ys, ∃ x ∈ xs, A x y := by
  induction h with
  | nil => simp
  | cons hA _ ih =>
    intro y hy
    rcases List.mem_cons.mp hy with rfl | hy
    · exact ⟨_, List.mem_cons_self, hA⟩
    · obtain ⟨x, hx, hxy⟩ := ih y hy
      exact ⟨x, List.mem_cons_of_mem _ hx, hxy⟩

theorem contentPart_toolParts (last : Bool) (row : PresenterRow) :
    ((Presenter.contentPart row).map (UIPart.sealed last)).filterMap UIPart.toolPart = [] := by
  unfold Presenter.contentPart
  split
  · rfl
  · rfl

theorem legacyPart_outcome (results : List LegacyResult) (call : LegacyCall) (last : Bool) :
    ((Presenter.legacyPart results call).sealed last).outcome.isSome ∧
      ∀ o, (Presenter.legacyResult results call.id).map (fun output => ToolOutcome.result (some output)) = some o →
        ((Presenter.legacyPart results call).sealed last).outcome = some o := by
  cases h : Presenter.legacyResult results call.id with
  | none =>
    have hout : (Presenter.legacyPart results call).outcome = some (.error none) := by
      simp [Presenter.legacyPart, ToolPart.outcome, h]
    refine ⟨by rw [outcome_sealed hout]; rfl, fun o ho => by cases ho⟩
  | some output =>
    have hout : (Presenter.legacyPart results call).outcome = some (.result (some output)) := by
      simp [Presenter.legacyPart, ToolPart.outcome, h]
    refine ⟨by rw [outcome_sealed hout]; rfl, fun o ho => ?_⟩
    rw [outcome_sealed hout]
    exact ho

theorem forall₂_legacy (last : Bool) (results : List LegacyResult) (calls : List LegacyCall) :
    List.Forall₂ (fun id part => part.toolCallId = id ∧ part.outcome.isSome ∧
        ∀ o, (Presenter.legacyResult results id).map (fun output => ToolOutcome.result (some output)) = some o → part.outcome = some o)
      (calls.map LegacyCall.id)
      (((calls.map (fun call => UIPart.dynamicTool (Presenter.legacyPart results call))).map (UIPart.sealed last)).filterMap
        UIPart.toolPart) := by
  induction calls with
  | nil => exact .nil
  | cons call calls ih =>
    have hp : UIPart.toolPart (UIPart.sealed last (.dynamicTool (Presenter.legacyPart results call))) =
      some ((Presenter.legacyPart results call).sealed last) := rfl
    rw [List.map_cons, List.map_cons, List.map_cons, List.filterMap_cons_some hp]
    exact .cons ⟨sealed_toolCallId _ _, legacyPart_outcome results call last⟩ ih

theorem parts_sealed {m : UIMessage} (h : m.role = .assistant) :
    (m.sealed last).parts = m.parts.map (UIPart.sealed last) := by
  rw [UIMessage.sealed, if_pos h]

theorem keeps_iff {row : PresenterRow} (h : row.role = .assistant) :
    List.Forall₂ (fun id part => part.toolCallId = id ∧ ∀ o, row.recorded id = some o → part.outcome = some o) row.calls
      ((Presenter.uiMessage (!last) row).sealed last).toolParts ↔ row.Legible last := by
  obtain ⟨rid, role, content, status, parts, toolCalls, toolResults⟩ := row
  have hrole : (Presenter.uiMessage (!last) ⟨rid, role, content, status, parts, toolCalls, toolResults⟩).role = .assistant := h
  rw [UIMessage.toolParts, parts_sealed hrole]
  cases parts with
  | some parts =>
    rw [PresenterRow.calls, List.forall₂_map_left_iff]
    have hsteps := @forall₂_calls status (!last) last parts parts
      (fun c part => part.toolCallId = c.1 ∧ ∀ o, StoredPart.recorded parts c.1 = some o →
        (part.outcome = some o ↔ StoredPart.Legible last o c.2))
      (fun id name input waitsOn _ => ⟨by rw [sealed_toolCallId, callPart_toolCallId], fun o ho => callPart_outcome ho⟩)
    refine (forall₂_iff (Q := fun c => ∀ o, StoredPart.recorded parts c.1 = some o → StoredPart.Legible last o c.2) hsteps ?_).trans ?_
    · rintro c part ⟨hid, hiff⟩
      constructor
      · intro hB o ho
        exact (hiff o ho).mp (hB.2 o ho)
      · intro hQ
        exact ⟨hid, fun o ho => (hiff o ho).mpr (hQ o ho)⟩
    · constructor
      · intro hQ parts' hparts id waitsOn hmem
        obtain rfl : parts = parts' := Option.some.inj hparts
        exact hQ (id, waitsOn) hmem
      · intro hleg c hmem
        exact hleg parts rfl c.1 c.2 hmem
  | none =>
    have hleg : PresenterRow.Legible last ⟨rid, role, content, status, none, toolCalls, toolResults⟩ := fun parts hparts => by cases hparts
    refine iff_of_true ?_ hleg
    cases toolCalls with
    | none =>
      have hnil := contentPart_toolParts last ⟨rid, role, content, status, none, none, toolResults⟩
      rw [PresenterRow.calls, Presenter.uiMessage, Presenter.messageParts, hnil]
      exact .nil
    | some calls =>
      have hnil := contentPart_toolParts last ⟨rid, role, content, status, none, some calls, toolResults⟩
      rw [PresenterRow.calls, Presenter.uiMessage, Presenter.messageParts, List.map_append, List.filterMap_append, hnil, List.append_nil]
      refine (forall₂_legacy last toolResults calls).imp ?_
      rintro id part ⟨hid, _, hkeep⟩
      exact ⟨hid, hkeep⟩

theorem closed_of_movedPast {row : PresenterRow} (h : row.role = .assistant)
    (hpart : part ∈ ((Presenter.uiMessage true row).sealed false).toolParts) : part.outcome.isSome := by
  have hrole : (Presenter.uiMessage true row).role = .assistant := h
  rw [UIMessage.toolParts, parts_sealed hrole] at hpart
  obtain ⟨rid, role, content, status, parts, toolCalls, toolResults⟩ := row
  cases parts with
  | some parts =>
    have hsteps := @forall₂_calls status true false parts parts (fun _ part => part.outcome.isSome)
      (fun id name input waitsOn _ => callPart_closed status parts id name input waitsOn)
    obtain ⟨c, _, hc⟩ := exists_of_forall₂ hsteps part hpart
    exact hc
  | none =>
    cases toolCalls with
    | none =>
      have hnil := contentPart_toolParts false ⟨rid, role, content, status, none, none, toolResults⟩
      rw [Presenter.uiMessage, Presenter.messageParts, hnil] at hpart
      cases hpart
    | some calls =>
      have hnil := contentPart_toolParts false ⟨rid, role, content, status, none, some calls, toolResults⟩
      rw [Presenter.uiMessage, Presenter.messageParts, List.map_append, List.filterMap_append, hnil, List.append_nil] at hpart
      obtain ⟨id, _, hc⟩ := exists_of_forall₂ (forall₂_legacy false toolResults calls) part hpart
      exact hc.2.1

theorem seal_idempotent (messages : List UIMessage) :
    sealOrphanToolCalls (sealOrphanToolCalls messages) = sealOrphanToolCalls messages := by
  have hpart : ∀ last p, UIPart.sealed last (UIPart.sealed last p) = UIPart.sealed last p := by
    intro last p
    cases p with
    | text text => rfl
    | reasoning text => rfl
    | dynamicTool part => exact congrArg UIPart.dynamicTool (sealed_sealed last part)
  have hmsg : ∀ last m, UIMessage.sealed last (UIMessage.sealed last m) = UIMessage.sealed last m := by
    intro last m
    by_cases hr : m.role = .assistant
    · simp [UIMessage.sealed, hr, Function.comp_def, hpart]
    · simp [UIMessage.sealed, hr]
  apply List.ext_getElem?
  intro i
  simp only [sealOrphanToolCalls, List.getElem?_mapIdx, List.length_mapIdx, Option.map_map, Function.comp_def, hmsg]

end OutcomesAux

open OutcomesAux

/-- A history keeps every outcome exactly when every row of the assistant is legible. -/
theorem fedHistory_one_outcome_iff (rows : List PresenterRow) : OneOutcomeEach rows ↔
    ∀ (i : Nat) (row : PresenterRow), rows[i]? = some row → row.role = .assistant → row.Legible (!decide (i < rows.length - 1)) := by
  have hfed : ∀ (i : Nat) (row : PresenterRow), rows[i]? = some row →
      (fedHistory rows)[i]? = some ((Presenter.uiMessage (!(!decide (i < rows.length - 1))) row).sealed (!decide (i < rows.length - 1))) := by
    intro i row hrow
    rw [getElem?_fedHistory, hrow, Bool.not_not]
    rfl
  constructor
  · intro h i row hrow hrole
    exact (keeps_iff hrole).mp (h.keeps i row _ hrow (hfed i row hrow) hrole)
  · intro h
    refine { closed := ?_, keeps := ?_, stable := seal_idempotent _ }
    · intro i m hm hlt hrole part hpart
      rw [getElem?_fedHistory] at hm
      obtain ⟨row, hrow, rfl⟩ := Option.map_eq_some_iff.mp hm
      have hpast : decide (i < rows.length - 1) = true := decide_eq_true (by omega)
      rw [hpast] at hpart hrole
      refine closed_of_movedPast ?_ hpart
      rw [← hrole]
      unfold UIMessage.sealed
      split <;> rfl
    · intro i row m hrow hm hrole
      rw [hfed i row hrow] at hm
      obtain rfl := Option.some.inj hm
      exact (keeps_iff hrole).mpr (h i row hrow hrole)

namespace OutcomesRun

/-- The reply of a completed turn: its approved call threw, and the error has no text. -/
def threw : PresenterRow where
  id := 1
  role := .assistant
  content := []
  status := some .completed
  parts := some [.toolCall 7 "pay" "" (some (.approval { id := 3, approved := some true, reason := none })), .toolError 7 "pay" "" false]
  toolCalls := none
  toolResults := []

/-- The message the user sent next. -/
def next : PresenterRow where
  id := 2
  role := .user
  content := ['?']
  status := none
  parts := none
  toolCalls := none
  toolResults := []

end OutcomesRun

open OutcomesRun

/-- An error without a text is told to the model as a call that never ran. -/
theorem fedHistory_one_outcome_false :
    threw.recorded 7 = some (.error (some "")) ∧
      ((fedHistory [threw, next])[0]?.map (fun m => m.toolParts.map ToolPart.outcome)) = some [some (.result (some notRunOutput))] ∧
      ¬ OneOutcomeEach [threw, next] := by
  have hout : ((fedHistory [threw, next])[0]?.map (fun m => m.toolParts.map ToolPart.outcome)) =
      some [some (.result (some notRunOutput))] := by decide
  refine ⟨by decide, hout, ?_⟩
  intro h
  obtain ⟨m, hm, hparts⟩ := Option.map_eq_some_iff.mp hout
  have hkeep := h.keeps 0 threw m rfl hm rfl
  have hcalls : threw.calls = [7] := by decide
  rw [hcalls] at hkeep
  obtain ⟨part, rest, hpart, _, htool⟩ := List.forall₂_cons_left_iff.mp hkeep
  rw [htool] at hparts
  have herr := hpart.2 (.error (some "")) (by decide)
  rw [List.map_cons, herr] at hparts
  cases hparts

end Capka

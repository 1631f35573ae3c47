import Mathlib
import Capka.Lib.Json
import Capka.Lib.Table

/-!
# What becomes of permission rules

A rule names a resource by its type and its name. A review says of each rule whether anything that remains answers to that name, and whether
the reader may delete it; an apply carries out what was chosen, in one transaction with its own check of both. A stale review comes back with
the choices that can still be carried out; a choice to move a rule comes back with them, which no apply carries out.
-/

namespace Capka.Marketplace

open Ecma

inductive CapabilityType
  | skill
  | connector
  deriving Repr, DecidableEq

def CapabilityType.text : CapabilityType → Units
  | .skill => ofString "skill"
  | .connector => ofString "connector"

inductive PolicyScope
  | system
  | user
  | project
  deriving Repr, DecidableEq

def PolicyScope.text : PolicyScope → Units
  | .system => ofString "system"
  | .user => ofString "user"
  | .project => ofString "project"

/-- The effect of a rule. -/
inductive Effect
  | allow
  | deny
  | ask
  deriving Repr, DecidableEq

structure PolicyBaselineRow where
  id : Units
  capabilityType : CapabilityType
  capabilityKey : Units
  effect : Effect
  scope : PolicyScope
  userId : Option Units
  projectId : Option Units
  revision : Nat
  deriving Repr, DecidableEq

/-- `capability_policies`. -/
abbrev CapabilityPolicies := Table PolicyBaselineRow PolicyBaselineRow.id

def policyKey (r : PolicyBaselineRow) : Units :=
  joined 0x3a [r.scope.text, r.capabilityType.text, r.capabilityKey, r.userId.getD [], r.projectId.getD []]

/-- A resource by its type and its name. -/
structure CapabilityName where
  type : CapabilityType
  name : Units
  deriving Repr, DecidableEq

/-- The name that a rule is about. -/
def PolicyBaselineRow.about (r : PolicyBaselineRow) : CapabilityName := ⟨r.capabilityType, r.capabilityKey⟩

def readPolicyBaseline (stored : CapabilityPolicies) (names : List CapabilityName) : List PolicyBaselineRow :=
  stored.rows.filter fun r => names.contains r.about

inductive Outlook
  | still_applies
  | applies_to_nothing
  deriving Repr, DecidableEq

structure PolicyOutlook where
  key : Units
  capabilityType : CapabilityType
  capabilityKey : Units
  effect : Effect
  outlook : Outlook
  canDelete : Bool
  deriving Repr, DecidableEq

structure DispositionActor where
  userId : Units
  isAdmin : Bool
  deriving Repr, DecidableEq

def ownsPolicy (row : PolicyBaselineRow) (actor : DispositionActor) : Bool :=
  actor.isAdmin || (row.scope = .user && row.userId = some actor.userId)

/-- A name as the set of the surviving ones holds it. -/
def CapabilityName.text (n : CapabilityName) : Units := n.type.text ++ 0x3a :: n.name

/-- The outlook of one rule. -/
def analysePolicy (survivingNames : List CapabilityName) (actor : DispositionActor) (r : PolicyBaselineRow) : PolicyOutlook :=
  let outlook := if (survivingNames.map CapabilityName.text).contains r.about.text then .still_applies else .applies_to_nothing
  { key := policyKey r
    capabilityType := r.capabilityType
    capabilityKey := r.capabilityKey
    effect := r.effect
    outlook := outlook
    canDelete := outlook = .applies_to_nothing && ownsPolicy r actor }

def analysePolicies (affected : List PolicyBaselineRow) (survivingNames : List CapabilityName) (actor : DispositionActor) :
    List PolicyOutlook :=
  affected.map (analysePolicy survivingNames actor)

inductive PolicyDisposition
  | keep
  | delete
  | reassign
  deriving Repr, DecidableEq

/-- What was chosen, by the key of a rule. -/
structure Dispositions where
  entries : List (Units × PolicyDisposition)
  nodup : (entries.map Prod.fst).Nodup

/-- What a `Map` made of the entries has under a key: the last of it. -/
def byKey {α : Type} (key : α → Units) (rows : List α) (k : Units) : Option α := (rows.filter fun r => key r = k).getLast?

/-- Whether a disposition survives. -/
def survives (outlooks : List PolicyOutlook) (entry : Units × PolicyDisposition) : Bool :=
  match byKey PolicyOutlook.key outlooks entry.1 with
  | none => false
  | some outlook => !(entry.2 = .delete && !outlook.canDelete)

/-- Each key is assigned once, to no value of its own under the prototype's name. -/
def survivingDispositions (dispositions : Dispositions) (outlooks : List PolicyOutlook) : Dispositions where
  entries := dispositions.entries.filter fun entry => survives outlooks entry && entry.1 != ofString "__proto__"
  nodup := (List.filter_sublist.map Prod.fst).nodup dispositions.nodup

/-- What an apply throws. -/
inductive DispositionError
  | stalePolicy (key : Units)
  | forbiddenDisposition (key why : Units)
  | notImplemented (key : Units)
  deriving Repr, DecidableEq

def DispositionError.message : DispositionError → Units
  | .stalePolicy key => ofString "Policy " ++ key ++ ofString " changed after the review was accepted"
  | .forbiddenDisposition key why => ofString "Not allowed to change policy " ++ key ++ ofString ": " ++ why
  | .notImplemented key => ofString "Policy disposition \"reassign\" is not implemented yet (key " ++ key ++ ofString ")"

def assertDispositionAllowed (key : Units) (disposition : PolicyDisposition) (row : PolicyBaselineRow) (outlook : Option PolicyOutlook)
    (actor : DispositionActor) : Except DispositionError Unit :=
  if disposition = .keep then .ok ()
  else if !ownsPolicy row actor then .error (.forbiddenDisposition key (ofString "only an admin can change a rule that is not your own"))
  else
    match outlook with
    | none => .error (.forbiddenDisposition key (ofString "this rule is not part of the review"))
    | some o =>
      if o.outlook ≠ .applies_to_nothing then
        .error (.forbiddenDisposition key (ofString "this rule still applies to a resource that remains"))
      else .ok ()

/-- The transaction so far. -/
structure Applied where
  stored : CapabilityPolicies
  deleted : List PolicyBaselineRow

/-- `DELETE … WHERE id = … AND revision = …`, by the row. -/
def deleteRow (row : PolicyBaselineRow) (stored : CapabilityPolicies) : CapabilityPolicies :=
  stored.filter fun r => !(r.id = row.id && r.revision = row.revision)

/-- The rows that the statement takes. -/
def rowCount (row : PolicyBaselineRow) (stored : CapabilityPolicies) : Nat := stored.count fun r => r.id = row.id && r.revision = row.revision

/-- One disposition. -/
def applyDisposition (baseline : List PolicyBaselineRow) (outlooks : List PolicyOutlook) (actor : DispositionActor) (s : Applied)
    (entry : Units × PolicyDisposition) : Except DispositionError Applied :=
  if entry.2 = .keep then .ok s
  else
    match byKey policyKey baseline entry.1 with
    | none => .error (.stalePolicy entry.1)
    | some row =>
      match assertDispositionAllowed entry.1 entry.2 row (byKey PolicyOutlook.key outlooks entry.1) actor with
      | .error e => .error e
      | .ok () =>
        if entry.2 = .delete then
          if rowCount row s.stored = 0 then .error (.stalePolicy entry.1)
          else .ok { stored := deleteRow row s.stored, deleted := s.deleted ++ [row] }
        else .error (.notImplemented entry.1)

/-- An error takes the transaction back. -/
def applyDispositions (stored : CapabilityPolicies) (dispositions : Dispositions) (baseline : List PolicyBaselineRow)
    (outlooks : List PolicyOutlook) (actor : DispositionActor) : Except DispositionError Applied :=
  dispositions.entries.foldlM (applyDisposition baseline outlooks actor) ⟨stored, []⟩

/-- The choices and their guards agree, of what is stored under the names, what remains of them, who asks and what was chosen. -/
structure Agrees (stored : CapabilityPolicies) (names survivingNames : List CapabilityName) (actor : DispositionActor)
    (dispositions : Dispositions) : Prop where
  offered : ∀ r ∈ readPolicyBaseline stored names, (analysePolicy survivingNames actor r).canDelete = true ↔
    assertDispositionAllowed (policyKey r) .delete r (some (analysePolicy survivingNames actor r)) actor = .ok ()
  surviving : (applyDispositions stored
    (survivingDispositions dispositions (analysePolicies (readPolicyBaseline stored names) survivingNames actor))
    (readPolicyBaseline stored names) (analysePolicies (readPolicyBaseline stored names) survivingNames actor) actor).isOk = true
  /-- Whatever was chosen, and whatever became of what is stored. -/
  deleted : ∀ (now : CapabilityPolicies) (chosen : Dispositions) (out : Applied),
    applyDispositions now chosen (readPolicyBaseline stored names)
        (analysePolicies (readPolicyBaseline stored names) survivingNames actor) actor = .ok out →
      (∀ row ∈ out.deleted, row ∈ readPolicyBaseline stored names ∧ row.about ∉ survivingNames ∧
        (actor.isAdmin = true ∨ (row.scope = .user ∧ row.userId = some actor.userId))) ∧
      ∀ r ∈ now, r ∉ out.stored → ∃ row ∈ out.deleted, r.id = row.id ∧ r.revision = row.revision

/-- None of the dispositions of the rules is to move one. -/
def NoneMoved (baseline : List PolicyBaselineRow) (dispositions : Dispositions) : Prop :=
  ∀ entry ∈ dispositions.entries, entry.2 = .reassign → ∀ r ∈ baseline, policyKey r ≠ entry.1

namespace DispositionsAux

/-! ### Names and keys -/

theorem colon_mem_policyKey (r : PolicyBaselineRow) : 0x3a ∈ policyKey r := by
  rw [policyKey, joined_cons_cons]
  exact List.mem_append_right _ List.mem_cons_self

theorem policyKey_ne_proto (r : PolicyBaselineRow) : policyKey r ≠ ofString "__proto__" := by
  intro h
  have hcolon := colon_mem_policyKey r
  rw [h] at hcolon
  exact absurd hcolon (by decide +kernel)

theorem capabilityName_text_injective : Function.Injective CapabilityName.text := by
  have hskill : ofString "skill" = [0x73, 0x6b, 0x69, 0x6c, 0x6c] := by decide +kernel
  have hconnector : ofString "connector" = [0x63, 0x6f, 0x6e, 0x6e, 0x65, 0x63, 0x74, 0x6f, 0x72] := by decide +kernel
  rintro ⟨t, n⟩ ⟨t', n'⟩ h
  cases t <;> cases t' <;> simp_all [CapabilityName.text, CapabilityType.text]

/-! ### What is under a key -/

section
variable {α : Type} {key : α → Units} {rows : List α} {k : Units}

theorem byKey_some {r : α} (h : byKey key rows k = some r) : r ∈ rows ∧ key r = k := by
  have hmem := List.mem_of_getLast? h
  rw [List.mem_filter] at hmem
  exact ⟨hmem.1, by simpa using hmem.2⟩

theorem byKey_eq_none_iff : byKey key rows k = none ↔ ∀ r ∈ rows, key r ≠ k := by
  rw [byKey, List.getLast?_eq_none_iff, List.filter_eq_nil_iff]
  simp

end

section
variable {survivingNames : List CapabilityName} {actor : DispositionActor}

theorem byKey_analysePolicies (rows : List PolicyBaselineRow) (k : Units) :
    byKey PolicyOutlook.key (analysePolicies rows survivingNames actor) k =
      (byKey policyKey rows k).map (analysePolicy survivingNames actor) := by
  rw [byKey, byKey, analysePolicies, List.filter_map, List.getLast?_map]
  rfl

variable {r : PolicyBaselineRow}

theorem applies_to_nothing_iff :
    (analysePolicy survivingNames actor r).outlook = .applies_to_nothing ↔ r.about ∉ survivingNames := by
  have hmem : r.about.text ∈ survivingNames.map CapabilityName.text ↔ r.about ∈ survivingNames :=
    List.mem_map_of_injective capabilityName_text_injective
  simp only [analysePolicy, List.contains_iff_mem, hmem]
  split_ifs with h
  · simp [h]
  · simp [h]

theorem canDelete_iff :
    (analysePolicy survivingNames actor r).canDelete = true ↔ r.about ∉ survivingNames ∧ ownsPolicy r actor = true := by
  rw [← (applies_to_nothing_iff : (analysePolicy survivingNames actor r).outlook = .applies_to_nothing ↔ _)]
  simp [analysePolicy]

theorem ownsPolicy_iff :
    ownsPolicy r actor = true ↔ actor.isAdmin = true ∨ (r.scope = .user ∧ r.userId = some actor.userId) := by
  simp [ownsPolicy]

theorem allowed_delete_iff {k : Units} {o : PolicyOutlook} :
    assertDispositionAllowed k .delete r (some o) actor = .ok () ↔ ownsPolicy r actor = true ∧ o.outlook = .applies_to_nothing := by
  unfold assertDispositionAllowed
  cases hown : ownsPolicy r actor
  · simp
  · by_cases ho : o.outlook = .applies_to_nothing
    · simp [ho]
    · simp [ho]

end

/-! ### One disposition -/

section
variable {baseline : List PolicyBaselineRow} {outlooks : List PolicyOutlook} {actor : DispositionActor}

variable {s t : Applied}

theorem applyDisposition_cases {entry : Units × PolicyDisposition}
    (h : applyDisposition baseline outlooks actor s entry = .ok t) :
    (entry.2 = .keep ∧ t = s) ∨
      (entry.2 = .delete ∧ ∃ row, byKey policyKey baseline entry.1 = some row ∧
        assertDispositionAllowed entry.1 .delete row (byKey PolicyOutlook.key outlooks entry.1) actor = .ok () ∧
        t = { stored := deleteRow row s.stored, deleted := s.deleted ++ [row] }) := by
  unfold applyDisposition at h
  by_cases hkeep : entry.2 = .keep
  · rw [if_pos hkeep] at h
    exact .inl ⟨hkeep, by simpa using h.symm⟩
  · rw [if_neg hkeep] at h
    cases hrow : byKey policyKey baseline entry.1 with
    | none => simp [hrow] at h
    | some row =>
      simp only [hrow] at h
      cases hallowed : assertDispositionAllowed entry.1 entry.2 row (byKey PolicyOutlook.key outlooks entry.1) actor with
      | error e => simp [hallowed] at h
      | ok u =>
        simp only [hallowed] at h
        by_cases hdelete : entry.2 = .delete
        · rw [if_pos hdelete] at h
          split_ifs at h with hcount
          rw [hdelete] at hallowed
          exact .inr ⟨hdelete, row, rfl, hallowed, by simpa using h.symm⟩
        · rw [if_neg hdelete] at h
          cases h

theorem applyDisposition_delete {k : Units} {row : PolicyBaselineRow} (hrow : byKey policyKey baseline k = some row)
    (hallowed : assertDispositionAllowed k .delete row (byKey PolicyOutlook.key outlooks k) actor = .ok ()) (hstored : row ∈ s.stored) :
    applyDisposition baseline outlooks actor s (k, .delete) = .ok { stored := deleteRow row s.stored, deleted := s.deleted ++ [row] } := by
  have hcount : rowCount row s.stored ≠ 0 := by
    intro hzero
    have := List.countP_eq_zero.mp hzero row hstored
    simp at this
  simp only [applyDisposition, reduceCtorEq, if_false, hrow, hallowed, if_true, if_neg hcount]

theorem mem_deleteRow {row r : PolicyBaselineRow} {stored : CapabilityPolicies} :
    r ∈ deleteRow row stored ↔ r ∈ stored ∧ ¬(r.id = row.id ∧ r.revision = row.revision) := by
  rw [deleteRow, Table.mem_filter]
  simp [imp_iff_not_or]

/-! ### All of them -/

variable {entries : List (Units × PolicyDisposition)}

theorem applyDispositions_induction {P : Applied → Prop}
    (hstep : ∀ s t entry, P s → applyDisposition baseline outlooks actor s entry = .ok t → P t) (hs : P s)
    (h : entries.foldlM (applyDisposition baseline outlooks actor) s = .ok t) : P t := by
  induction entries generalizing s with
  | nil =>
    cases h
    exact hs
  | cons entry entries ih =>
    rw [List.foldlM_cons] at h
    cases hone : applyDisposition baseline outlooks actor s entry with
    | error e => simp [hone, bind, Except.bind] at h
    | ok u =>
      rw [hone] at h
      exact ih (hstep s u entry hs hone) h

theorem not_reassign_of_ok
    (h : entries.foldlM (applyDisposition baseline outlooks actor) s = .ok t) : ∀ entry ∈ entries, entry.2 ≠ .reassign := by
  induction entries generalizing s with
  | nil => simp
  | cons first entries ih =>
    rw [List.foldlM_cons] at h
    cases hone : applyDisposition baseline outlooks actor s first with
    | error e => simp [hone, bind, Except.bind] at h
    | ok u =>
      rw [hone] at h
      rintro entry hentry
      rcases List.mem_cons.mp hentry with rfl | hentry
      · rcases applyDisposition_cases hone with ⟨hkeep, _⟩ | ⟨hdelete, _⟩
        · simp [hkeep]
        · simp [hdelete]
      · exact ih h entry hentry

theorem foldlM_ok (hnodup : (entries.map Prod.fst).Nodup)
    (hids : ∀ r ∈ baseline, ∀ r' ∈ baseline, r.id = r'.id → r = r')
    (hstored : ∀ entry ∈ entries, ∀ row, byKey policyKey baseline entry.1 = some row → row ∈ s.stored)
    (hallowed : ∀ entry ∈ entries, entry.2 = .keep ∨ (entry.2 = .delete ∧ ∃ row, byKey policyKey baseline entry.1 = some row ∧
      assertDispositionAllowed entry.1 .delete row (byKey PolicyOutlook.key outlooks entry.1) actor = .ok ())) :
    ∃ t, entries.foldlM (applyDisposition baseline outlooks actor) s = .ok t := by
  induction entries generalizing s with
  | nil => exact ⟨s, rfl⟩
  | cons first entries ih =>
    obtain ⟨k, d⟩ := first
    rw [List.map_cons, List.nodup_cons] at hnodup
    obtain ⟨hfirst, hrest⟩ := hnodup
    have hallowedRest := fun entry hentry => hallowed entry (List.mem_cons_of_mem _ hentry)
    rw [List.foldlM_cons]
    rcases hallowed (k, d) List.mem_cons_self with hkeep | ⟨hdelete, row, hrow, hok⟩
    · have hone : applyDisposition baseline outlooks actor s (k, d) = .ok s := by rw [applyDisposition, if_pos hkeep]
      rw [hone]
      exact ih hrest (fun entry hentry => hstored entry (List.mem_cons_of_mem _ hentry)) hallowedRest
    · obtain rfl : d = .delete := hdelete
      rw [applyDisposition_delete hrow hok (hstored _ List.mem_cons_self row hrow)]
      refine ih hrest ?_ hallowedRest
      -- Another key is another rule's, which the statement leaves.
      intro entry hentry row' hrow'
      refine mem_deleteRow.mpr ⟨hstored entry (List.mem_cons_of_mem _ hentry) row' hrow', fun hsame => ?_⟩
      obtain ⟨hmem, hkey⟩ := byKey_some hrow
      obtain ⟨hmem', hkey'⟩ := byKey_some hrow'
      have heq := hids row' hmem' row hmem hsame.1
      refine hfirst (List.mem_map.mpr ⟨entry, hentry, ?_⟩)
      rw [← hkey', heq, hkey]

end

section
variable {stored : CapabilityPolicies} {names survivingNames : List CapabilityName} {actor : DispositionActor}

theorem deleted_of_ok {baseline : List PolicyBaselineRow} {now : CapabilityPolicies} {chosen : Dispositions} {out : Applied}
    (h : applyDispositions now chosen baseline (analysePolicies baseline survivingNames actor) actor = .ok out) :
    (∀ row ∈ out.deleted, row ∈ baseline ∧ row.about ∉ survivingNames ∧
      (actor.isAdmin = true ∨ (row.scope = .user ∧ row.userId = some actor.userId))) ∧
      ∀ r ∈ now, r ∉ out.stored → ∃ row ∈ out.deleted, r.id = row.id ∧ r.revision = row.revision := by
  refine applyDispositions_induction (P := fun s => (∀ row ∈ s.deleted, row ∈ baseline ∧ row.about ∉ survivingNames ∧
    (actor.isAdmin = true ∨ (row.scope = .user ∧ row.userId = some actor.userId))) ∧
      ∀ r ∈ now, r ∉ s.stored → ∃ row ∈ s.deleted, r.id = row.id ∧ r.revision = row.revision) ?_ ?_ h
  · rintro s t entry ⟨hdeleted, hgone⟩ hone
    rcases applyDisposition_cases hone with ⟨_, rfl⟩ | ⟨_, row, hrow, hallowed, rfl⟩
    · exact ⟨hdeleted, hgone⟩
    · rw [byKey_analysePolicies, hrow, Option.map_some, allowed_delete_iff, applies_to_nothing_iff, ownsPolicy_iff] at hallowed
      constructor
      · intro row' hrow'
        rcases List.mem_append.mp hrow' with hrow' | hrow'
        · exact hdeleted row' hrow'
        · rw [List.mem_singleton.mp hrow']
          exact ⟨(byKey_some hrow).1, hallowed.2, hallowed.1⟩
      · intro r hr hnot
        by_cases hstill : r ∈ s.stored
        · have hsame := not_not.mp fun hne => hnot (mem_deleteRow.mpr ⟨hstill, hne⟩)
          exact ⟨row, by simp, hsame⟩
        · obtain ⟨row', hrow', hsame⟩ := hgone r hr hstill
          exact ⟨row', List.mem_append_left _ hrow', hsame⟩
  · exact ⟨by simp, fun r hr hnot => absurd hr hnot⟩

theorem mem_readPolicyBaseline {r : PolicyBaselineRow} (h : r ∈ readPolicyBaseline stored names) : r ∈ stored := (List.mem_filter.mp h).1

theorem surviving_allowed {baseline : List PolicyBaselineRow} {dispositions : Dispositions} (h : NoneMoved baseline dispositions) :
    ∀ entry ∈ (survivingDispositions dispositions (analysePolicies baseline survivingNames actor)).entries,
      entry.2 = .keep ∨ (entry.2 = .delete ∧ ∃ row, byKey policyKey baseline entry.1 = some row ∧
        assertDispositionAllowed entry.1 .delete row
          (byKey PolicyOutlook.key (analysePolicies baseline survivingNames actor) entry.1) actor = .ok ()) := by
  rintro ⟨k, d⟩ hentry
  obtain ⟨hmem, hsurvives⟩ := List.mem_filter.mp hentry
  have hsurvives := (Bool.and_eq_true_iff.mp hsurvives).1
  rw [survives, byKey_analysePolicies] at hsurvives
  cases hrow : byKey policyKey baseline k with
  | none => simp [hrow] at hsurvives
  | some row =>
    rw [byKey_analysePolicies, hrow, Option.map_some]
    cases d with
    | keep => exact .inl rfl
    | delete =>
      have hcan : (analysePolicy survivingNames actor row).canDelete = true := by simpa [hrow] using hsurvives
      refine .inr ⟨rfl, row, rfl, ?_⟩
      rw [canDelete_iff] at hcan
      rw [allowed_delete_iff, applies_to_nothing_iff]
      exact ⟨hcan.2, hcan.1⟩
    | reassign =>
      obtain ⟨hbase, hkey⟩ := byKey_some hrow
      exact absurd hkey (h (k, .reassign) hmem rfl row hbase)

end

end DispositionsAux

open DispositionsAux in
/-- What is offered is what is allowed, and what is deleted is what may be; what survives goes through just when no rule of the review was
chosen to be moved. -/
theorem dispositions_agree_iff (stored : CapabilityPolicies) (names survivingNames : List CapabilityName) (actor : DispositionActor)
    (dispositions : Dispositions) :
    Agrees stored names survivingNames actor dispositions ↔ NoneMoved (readPolicyBaseline stored names) dispositions := by
  constructor
  · intro h entry hentry hmove r hr hkey
    obtain ⟨k, d⟩ := entry
    obtain rfl : d = .reassign := hmove
    obtain rfl : policyKey r = k := hkey
    have hsurvives : (policyKey r, PolicyDisposition.reassign) ∈
        (survivingDispositions dispositions (analysePolicies (readPolicyBaseline stored names) survivingNames actor)).entries := by
      refine List.mem_filter.mpr ⟨hentry, ?_⟩
      rw [Bool.and_eq_true_iff, survives, byKey_analysePolicies]
      refine ⟨?_, by simpa using policyKey_ne_proto r⟩
      cases hrow : byKey policyKey (readPolicyBaseline stored names) (policyKey r) with
      | none => exact absurd rfl (byKey_eq_none_iff.mp hrow r hr)
      | some row => simp
    have hok := h.surviving
    unfold applyDispositions at hok
    cases hrun : (survivingDispositions dispositions
        (analysePolicies (readPolicyBaseline stored names) survivingNames actor)).entries.foldlM
          (applyDisposition (readPolicyBaseline stored names)
            (analysePolicies (readPolicyBaseline stored names) survivingNames actor) actor) ⟨stored, []⟩ with
    | error e => simp [hrun, Except.isOk, Except.toBool] at hok
    | ok out => exact not_reassign_of_ok hrun _ hsurvives rfl
  · intro h
    refine ⟨?_, ?_, fun now chosen out hout => deleted_of_ok hout⟩
    · intro r _
      rw [canDelete_iff, allowed_delete_iff, applies_to_nothing_iff, and_comm]
    · obtain ⟨out, hout⟩ := foldlM_ok (s := ⟨stored, []⟩)
        (survivingDispositions dispositions (analysePolicies (readPolicyBaseline stored names) survivingNames actor)).nodup
        (fun r hr r' hr' => Table.eq_of_key (mem_readPolicyBaseline hr) (mem_readPolicyBaseline hr'))
        (fun entry _ row hrow => mem_readPolicyBaseline (byKey_some hrow).1) (surviving_allowed h)
      rw [applyDispositions, hout]
      rfl

/-- A rule of the organisation about a connector. -/
def orgRule : PolicyBaselineRow where
  id := ofString "p1"
  capabilityType := .connector
  capabilityKey := ofString "api"
  effect := .deny
  scope := .system
  userId := none
  projectId := none
  revision := 0

/-- A rule that is chosen to be moved stays so chosen, and the apply throws. -/
theorem surviving_reassign_throws :
    ¬Agrees ⟨[orgRule], List.nodup_singleton _⟩ [orgRule.about] [] ⟨ofString "a1", true⟩
      ⟨[(policyKey orgRule, .reassign)], List.nodup_singleton _⟩ := by
  intro h
  exact absurd h.surviving (by decide +kernel)

end Capka.Marketplace

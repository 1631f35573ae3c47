import Capka.Vault.Approved

/-!
# Disagreements on record

A claim that contests another points at its row, and the readers show the pair while both rows are heads. A correction of either side puts a
new row in the place of the old one, and the pointer does not follow.
-/

namespace Capka

/-- How long a class that nobody vouched for is kept, in milliseconds: `HORIZON_DAYS`. -/
def horizon : Nat := 90 * 24 * 60 * 60 * 1000

namespace SourceClass

/-- `horizonFor`, for what was stored at a time. -/
def expiresAt (recordedAt : Nat) : SourceClass → Option Nat
  | .userDirect | .ownerAuthored | .legacyConfirmed => none
  | .agentInferred | .untrustedDerived => some (recordedAt + horizon)

end SourceClass

inductive PromptAccess where
  | manifest
  | memorySearch
  | knowledgeSearch
  | ownerOnly
  deriving DecidableEq, Repr

/-- The generated column `prompt_access`. -/
def promptAccess (sensitive : Bool) (sourceClass : SourceClass) : PromptAccess :=
  if sensitive then .ownerOnly
  else
    match sourceClass with
    | .legacyConfirmed | .ownerAuthored | .userDirect => .manifest
    | .agentInferred => .memorySearch
    | .untrustedDerived => .knowledgeSearch

def PromptAccess.memoryToolChannel (access : PromptAccess) : Prop := access = .manifest ∨ access = .memorySearch

instance (access : PromptAccess) : Decidable access.memoryToolChannel := by
  unfold PromptAccess.memoryToolChannel
  infer_instance

/-- One side of a disagreement, as the owner sees it. -/
structure ConflictSide where
  id : String
  revision : Nat
  statement : String
  sensitive : Bool
  sourceClass : SourceClass
  recordedAt : Nat
  deriving DecidableEq, Repr

structure ConflictView where
  claim : ConflictSide
  contested : ConflictSide
  deriving DecidableEq, Repr

def VaultClaim.side (c : VaultClaim) : ConflictSide where
  id := c.id
  revision := c.revision
  statement := c.statement
  sensitive := c.sensitive
  sourceClass := c.sourceClass
  recordedAt := c.recordedAt

/-- What the model is told of a claim it opens, but for the topic. -/
structure OpenedClaim where
  id : String
  revision : Nat
  statement : String
  sourceClass : SourceClass
  recordedAt : Nat
  conflict : Option (String × SourceClass)
  deriving DecidableEq, Repr

inductive OpenOutcome (α : Type) where
  | ok (item : α)
  | notFound
  | offChannel
  deriving DecidableEq

namespace Vault

/-- `readConflicts`: the heads of the space that contest a head of the space, the latest first. -/
def readConflicts (spaceId : String) (v : Vault) : List ConflictView :=
  (v.listHeadClaims spaceId).filterMap fun c =>
    (c.conflictsWith.bind fun id => (v.claims.get id).filter fun t => t.spaceId = spaceId ∧ t.supersededAt = none).map fun t =>
      { claim := c.side, contested := t.side }

/-- `liveClaimForModel`, with the join on the node. -/
def liveClaimForModel (now : Nat) (c : VaultClaim) (v : Vault) : Prop :=
  c.supersededAt = none ∧ (∃ n ∈ v.graph.nodes, n.id = c.id ∧ n.deletedAt = none) ∧ (∀ t ∈ c.sourceClass.expiresAt c.recordedAt, now < t) ∧
    c.sensitive = false

instance (now : Nat) (c : VaultClaim) (v : Vault) : Decidable (v.liveClaimForModel now c) := by
  unfold liveClaimForModel
  infer_instance

/-- The claim of the space under an id, if the model may see it at all. -/
def modelClaim (spaceId nodeId : String) (now : Nat) (v : Vault) : Option VaultClaim :=
  (v.claims.get nodeId).filter fun c => c.spaceId = spaceId ∧ v.liveClaimForModel now c

def openClaimForModel (spaceId nodeId : String) (now : Nat) (v : Vault) : OpenOutcome OpenedClaim :=
  match v.modelClaim spaceId nodeId now with
  | none => .notFound
  | some row =>
    if (promptAccess row.sensitive row.sourceClass).memoryToolChannel then
      .ok
        { id := row.id, revision := row.revision, statement := fitStatement row.statement, sourceClass := row.sourceClass,
          recordedAt := row.recordedAt,
          conflict := (row.conflictsWith.bind fun id => v.modelClaim spaceId id now).map fun c => (c.id, c.sourceClass) }
    else .offChannel

/-- The disagreement of two claims is reported: the readers show the heads of their chains as a pair, the one for the model as far as it may
see them. -/
def Reports (v : Vault) (spaceId claimId contestedId : String) : Prop :=
  ∃ a ∈ v.claims, ∃ b ∈ v.claims, v.claims.Descends spaceId a.id claimId ∧ v.claims.Descends spaceId b.id contestedId ∧
    (∃ view ∈ v.readConflicts spaceId, view.claim.id = a.id ∧ view.contested.id = b.id) ∧
    ∀ now opened, v.openClaimForModel spaceId a.id now = .ok opened → v.liveClaimForModel now b → opened.conflict = some (b.id, b.sourceClass)

/-- A head of the space points at another head of the space. -/
def Contests (v : Vault) (spaceId claimId contestedId : String) : Prop :=
  (∃ a ∈ v.claims, a.id = claimId ∧ a.spaceId = spaceId ∧ a.supersededAt = none ∧ a.conflictsWith = some contestedId) ∧
    ∃ b ∈ v.claims, b.id = contestedId ∧ b.spaceId = spaceId ∧ b.supersededAt = none

instance (v : Vault) (spaceId claimId contestedId : String) : Decidable (v.Contests spaceId claimId contestedId) := by
  unfold Contests
  infer_instance

theorem mem_modelClaim {spaceId nodeId : String} {now : Nat} {v : Vault} {c : VaultClaim} :
    v.modelClaim spaceId nodeId now = some c ↔ c ∈ v.claims ∧ c.id = nodeId ∧ c.spaceId = spaceId ∧ v.liveClaimForModel now c := by
  unfold modelClaim
  rw [Option.filter_eq_some_iff, Table.get_eq_some_iff]
  simp [and_assoc]

theorem openClaimForModel_ok {spaceId nodeId : String} {now : Nat} {v : Vault} {opened : OpenedClaim}
    (h : v.openClaimForModel spaceId nodeId now = .ok opened) :
    ∃ row, v.modelClaim spaceId nodeId now = some row ∧
      opened.conflict = (row.conflictsWith.bind fun id => v.modelClaim spaceId id now).map fun c => (c.id, c.sourceClass) := by
  unfold openClaimForModel at h
  split at h
  · cases h
  · rename_i row hrow
    split at h
    · cases h
      exact ⟨row, hrow, rfl⟩
    · cases h

theorem Contests.reports {v : Vault} {spaceId claimId contestedId : String} (h : v.Contests spaceId claimId contestedId) :
    v.Reports spaceId claimId contestedId := by
  obtain ⟨⟨a, ha, rfl, has, hal, hap⟩, b, hb, rfl, hbs, hbl⟩ := h
  refine ⟨a, ha, b, hb, .refl, .refl, ⟨{ claim := a.side, contested := b.side }, ?_, rfl, rfl⟩, ?_⟩
  · refine List.mem_filterMap.mpr ⟨a, ?_, ?_⟩
    · unfold listHeadClaims
      rw [List.mem_insertionSort, List.mem_filter]
      exact ⟨ha, by simp [has, hal]⟩
    · have hget : v.claims.get b.id = some b := Table.get_eq_some_iff.mpr ⟨hb, rfl⟩
      simp [hap, hget, hbs, hbl, Option.filter_some]
  · intro now opened hopen hlive
    obtain ⟨row, hrow, hconflict⟩ := openClaimForModel_ok hopen
    obtain ⟨hmem, hid, _⟩ := mem_modelClaim.mp hrow
    have heq : row = a := Table.eq_of_key hmem ha hid
    subst heq
    have hb' : v.modelClaim spaceId b.id now = some b := mem_modelClaim.mpr ⟨hb, rfl, hbs, hlive⟩
    rw [hconflict, hap, Option.bind_some, hb', Option.map_some]

end Vault

namespace CallAct

/-- The owner's decision on the disagreement that the claim records is called. -/
def decides (claimId : String) : CallAct → Prop
  | .call (.resolveConflict id _ _ _) _ _ => id = claimId
  | _ => False

/-- A correction, of whatever claim. -/
def isUpdate : CallAct → Prop
  | .call (.updateClaim _ _ _) _ _ => True
  | _ => False

end CallAct

namespace CallState

/-- The step ends a claim without superseding it: the claim is forgotten. -/
def Forgets (env : VaultEnv) (s : CallState) (a : CallAct) (claimId : String) : Prop :=
  ¬a.isUpdate ∧ ∃ t ∈ s.step env a, ¬t.store.vault.isHead claimId

/-- The disagreement is not decided by the step, and neither side is forgotten. -/
def Stands (env : VaultEnv) (claimId contestedId : String) (s : CallState) (a : CallAct) : Prop :=
  ¬a.decides claimId ∧ ¬s.Forgets env a claimId ∧ ¬s.Forgets env a contestedId

/-- A correction of either side finds nothing to correct. -/
def Uncorrected (claimId contestedId : String) (s : CallState) : CallAct → Prop
  | .call (.updateClaim args _ _) _ _ => args.claimId = claimId ∨ args.claimId = contestedId → s.store.vault.updateTarget args = none
  | _ => True

instance (a : CallAct) (claimId : String) : Decidable (a.decides claimId) := by
  unfold CallAct.decides
  split <;> infer_instance

instance (a : CallAct) : Decidable a.isUpdate := by
  unfold CallAct.isUpdate
  split <;> infer_instance

instance (env : VaultEnv) (s : CallState) (a : CallAct) (claimId : String) : Decidable (s.Forgets env a claimId) := by
  unfold Forgets
  infer_instance

instance (env : VaultEnv) (claimId contestedId : String) (s : CallState) (a : CallAct) : Decidable (s.Stands env claimId contestedId a) := by
  unfold Stands
  infer_instance

instance (claimId contestedId : String) (s : CallState) (a : CallAct) : Decidable (s.Uncorrected claimId contestedId a) := by
  unfold Uncorrected
  split <;> infer_instance

end CallState

namespace DisputesAux

open Claims

variable {seen v : Vault} {T : Claims} {op : VaultOp} {ok : Bool}

theorem pointer_update {p : VaultClaim → Prop} [DecidablePred p] {f : VaultClaim → VaultClaim} (hf : ∀ r, (f r).id = r.id)
    {x x' : VaultClaim} (hx : x ∈ T) (hx' : x' ∈ T.update p f hf) (hid : x'.id = x.id)
    (hrow : ∀ r, (f r).conflictsWith = r.conflictsWith) : x'.conflictsWith = x.conflictsWith := by
  rcases (Table.mem_update hf).mp hx' with ⟨y, hy, _, rfl⟩ | ⟨hx', _⟩
  · rw [Table.eq_of_key hx hy (hid.symm.trans (hf y))]
    exact hrow y
  · rw [Table.eq_of_key hx' hx hid]

theorem pointer_clearConflict {id : String} {x x' : VaultClaim} (hx : x ∈ T) (hx' : x' ∈ T.clearConflict id) (hid : x'.id = x.id)
    (hne : id ≠ x.id) : x'.conflictsWith = x.conflictsWith := by
  rcases (Table.mem_update _).mp hx' with ⟨y, _, hy, rfl⟩ | ⟨hx', _⟩
  · exact absurd (hy.symm.trans hid) hne
  · rw [Table.eq_of_key hx' hx hid]

theorem pointer_effect (heff : CallEffect seen v op ok T) {x x' : VaultClaim} (hx : x ∈ v.claims) (hx' : x' ∈ T) (hid : x'.id = x.id)
    (hop : ∀ keep allowed now, op ≠ .resolveConflict x.id keep allowed now) : x'.conflictsWith = x.conflictsWith := by
  cases heff with
  | untouched _ _ _ => rw [Table.eq_of_key hx' hx hid]
  | created input fresh now _ _ hins =>
    rcases (Table.mem_of_insert hins).mp hx' with hmem | rfl
    · rw [Table.eq_of_key hmem hx hid]
    · exact absurd hid.symm (Table.key_ne_of_insert hins x hx)
  | superseded args fresh now prev _ _ _ hstep =>
    obtain ⟨_, hins⟩ := ChainAux.supersede_cases hstep
    rcases (Table.mem_of_insert hins).mp hx' with hmem | rfl
    · exact pointer_update _ hx hmem hid fun _ => rfl
    · obtain ⟨y, hy, hyid, _⟩ := Table.exists_mem_update (fun c => decide (c.id = args.claimId) = true)
        (f := fun c : VaultClaim => { c with supersededAt := some now }) (fun _ => rfl) hx
      exact absurd (hyid.trans hid.symm) (Table.key_ne_of_insert hins y hy)
  | forgotten args now _
  | revived claimId allowed _ _
  | emptied spaceId now clock
  | confirmed id sensitive actor now _ => exact pointer_update _ hx hx' hid fun _ => rfl
  | cleared id keep allowed now _ c _ => exact pointer_clearConflict hx hx' hid fun heq => hop keep allowed now (by rw [heq])
  | dropped id keep allowed now c _ head =>
    obtain ⟨y, hy, hyid, _⟩ := Table.exists_mem_update (fun c => c.id = id) (f := fun c : VaultClaim => { c with conflictsWith := none })
      (fun _ => rfl) hx
    have hcleared := pointer_clearConflict hx hy hyid fun heq => hop keep allowed now (by rw [heq])
    have hfinished : x'.conflictsWith = y.conflictsWith := pointer_update _ hy hx' (hid.trans hyid.symm) fun _ => rfl
    exact hfinished.trans hcleared

theorem isHead_update {args : UpdateClaimArgs} {fresh : Nat → String} {now : Nat} (heff : CallEffect seen v (.updateClaim args fresh now) ok T)
    {x : VaultClaim} (hx : x ∈ v.claims) (hlive : x.supersededAt = none) (hne : args.claimId = x.id → v.updateTarget args = none) :
    ∃ y ∈ T, y.id = x.id ∧ y.supersededAt = none := by
  cases heff with
  | untouched _ _ _ => exact ⟨x, hx, rfl, hlive⟩
  | superseded _ _ _ prev _ htarget _ hstep =>
    obtain ⟨_, hins⟩ := ChainAux.supersede_cases hstep
    refine ⟨x, (Table.mem_of_insert hins).mpr (.inl (mem_finish.mpr (.inr ⟨hx, ?_⟩))), rfl, hlive⟩
    intro heq
    have hid : x.id = args.claimId := by simpa using heq
    rw [hne hid.symm] at htarget
    cases htarget

end DisputesAux

namespace CallState

open DisputesAux

variable {env : VaultEnv}

theorem contests_step {spaceId claimId contestedId : String} {s t : CallState} {a : CallAct}
    (h : s.store.vault.Contests spaceId claimId contestedId) (hstands : s.Stands env claimId contestedId a)
    (hun : s.Uncorrected claimId contestedId a) (hstep : s.step env a = some t) : t.store.vault.Contests spaceId claimId contestedId := by
  obtain ⟨⟨x, hx, rfl, hxs, hxl, hxp⟩, y, hy, rfl, hys, hyl⟩ := h
  obtain ⟨hdecides, hfx, hfy⟩ := hstands
  have hheads : ∀ z ∈ s.store.vault.claims, z.supersededAt = none → (z.id = x.id ∨ z.id = y.id) → ¬s.Forgets env a z.id →
      t.store.vault.isHead z.id := by
    intro z hz hzl hzid hforget
    by_cases hupdate : a.isUpdate
    · rcases step_cases hstep with ⟨op, read, seen, r, e, ok, rfl, _, _, _, hrun, _⟩ | ⟨_, rfl, _⟩ | ⟨_, _, rfl, _⟩
      · cases op with
        | updateClaim args fresh now =>
          refine isHead_update (VaultOp.effect_of_runSeen hrun) hz hzl fun heq => hun ?_
          exact hzid.imp heq.trans heq.trans
        | _ => exact absurd hupdate id
      · exact absurd hupdate id
      · exact absurd hupdate id
    · by_contra hdead
      exact hforget ⟨hupdate, t, hstep, hdead⟩
  obtain ⟨x', hx', hxid, hxl'⟩ := hheads x hx hxl (.inl rfl) hfx
  obtain ⟨y', hy', hyid, hyl'⟩ := hheads y hy hyl (.inr rfl) hfy
  have hspace : ∀ z ∈ s.store.vault.claims, ∀ z' ∈ t.store.vault.claims, z'.id = z.id → z'.spaceId = z.spaceId := by
    intro z hz z' hz' hid
    rcases step_cases hstep with ⟨op, read, seen, r, e, ok, rfl, _, _, _, hrun, _⟩ | ⟨_, _, hvault, _⟩ | ⟨_, _, _, hvault, _⟩
    · obtain ⟨z'', hz'', hrow⟩ := (Claims.ApprovedAux.rowOf_effect (VaultOp.effect_of_runSeen hrun)).2 z hz
      rw [Table.eq_of_key hz' hz'' (hid.trans hrow.1.symm), hrow.2.1]
    · rw [hvault] at hz'
      rw [Table.eq_of_key hz' hz hid]
    · rw [hvault, Vault.claims_retire] at hz'
      rw [Table.eq_of_key (Table.mem_filter.mp hz').1 hz hid]
  have hpointer : x'.conflictsWith = x.conflictsWith := by
    rcases step_cases hstep with ⟨op, read, seen, r, e, ok, rfl, _, _, _, hrun, _⟩ | ⟨_, _, hvault, _⟩ | ⟨_, _, _, hvault, _⟩
    · refine pointer_effect (VaultOp.effect_of_runSeen hrun) hx hx' hxid ?_
      rintro keep allowed now rfl
      exact hdecides rfl
    · rw [hvault] at hx'
      rw [Table.eq_of_key hx' hx hxid]
    · rw [hvault, Vault.claims_retire] at hx'
      rw [Table.eq_of_key (Table.mem_filter.mp hx').1 hx hxid]
  exact ⟨⟨x', hx', hxid, (hspace x hx x' hx' hxid).trans hxs, hxl', hpointer.trans hxp⟩, y', hy', hyid, (hspace y hy y' hy' hyid).trans hys,
    hyl'⟩

/-- A recorded disagreement is reported until it is decided or a side is forgotten, as long as no correction of either side goes through. -/
theorem reports_of_uncorrected {spaceId claimId contestedId : String} {s t : CallState} (hs : s.store.vault.Contests spaceId claimId contestedId)
    (h : Steps.Reaches (step env) (fun x a => x.Stands env claimId contestedId a ∧ x.Uncorrected claimId contestedId a) s t) :
    t.store.vault.Reports spaceId claimId contestedId := by
  have hcontests : t.store.vault.Contests spaceId claimId contestedId :=
    h.invariant (I := fun x : CallState => x.store.vault.Contests spaceId claimId contestedId)
      (fun _ _ _ hx hok hy => contests_step hx hok.1 hok.2 hy) hs
  exact hcontests.reports

namespace DisputesRun

open MemoryStore.CorrectRun

/-- A space, a fact in it, and another that contests the first. -/
def calls : List CallAct :=
  [.openSpace { id := "s", type := .user, refId := "u", ownerUserId := "u", retiredAt := none },
    .call (.createClaim
      { spaceId := "s", statement := "Lives in Lviv", slotKey := none, value := none, sensitive := false, topicNoteId := none,
        sourceClass := .ownerAuthored, createdTaskId := none, conflictsWith := none } (idsOf 't') 1) 0 0,
    .call (.createClaim
      { spaceId := "s", statement := "Lives in Odesa", slotKey := none, value := none, sensitive := false, topicNoteId := none,
        sourceClass := .userDirect, createdTaskId := none, conflictsWith := some "t" } (idsOf 'c') 2) 0 0]

/-- The contesting fact is corrected. -/
def correction : CallAct := .call (.updateClaim args (idsOf 'd') 3) 0 0

/-- A third fact is written and corrected. -/
def others : List CallAct :=
  [.call (.createClaim
      { spaceId := "s", statement := "Works in Kyiv", slotKey := none, value := none, sensitive := false, topicNoteId := none,
        sourceClass := .userDirect, createdTaskId := none, conflictsWith := none } (idsOf 'e') 4) 0 0,
    .call (.updateClaim { args with claimId := "e" } (idsOf 'f') 5) 0 0]

end DisputesRun

open MemoryStore.CorrectRun DisputesRun

/-- A correction of the contesting fact ends the disagreement: its successor points at nothing. -/
theorem reports_false : ∃ s, Steps.Reaches (step MemoryStore.CorrectRun.env) Steps.Free empty s ∧ s.store.vault.Contests "s" "c" "t" ∧
    ∃ t, Steps.Reaches (step MemoryStore.CorrectRun.env) (Stands MemoryStore.CorrectRun.env "c" "t") s t ∧
      ¬t.store.vault.Reports "s" "c" "t" := by
  obtain ⟨s, hs, hcontests, hnext⟩ := Steps.exists_of_exec (step MemoryStore.CorrectRun.env) empty calls
    (P := fun s : CallState => s.store.vault.Contests "s" "c" "t" ∧
      ((step MemoryStore.CorrectRun.env s correction).any fun t => decide (t.store.vault.readConflicts "s" = [])) = true) (by decide)
  obtain ⟨t, ht, hnone⟩ := (Option.any_eq_true _ _).mp hnext
  have hstands : s.Stands MemoryStore.CorrectRun.env "c" "t" correction := ⟨id, fun h => h.1 trivial, fun h => h.1 trivial⟩
  refine ⟨s, hs, hcontests, t, (Steps.Reaches.refl s).snoc hstands ht, ?_⟩
  rintro ⟨a, _, b, _, _, _, ⟨view, hview, _⟩, _⟩
  rw [of_decide_eq_true hnone] at hview
  cases hview

/-- The theorem while a third fact is written and corrected. -/
theorem reports_beside_others : ∃ t : CallState, t.store.vault.claims.rows.length = 4 ∧ t.store.vault.Reports "s" "c" "t" := by
  obtain ⟨s, _, hcontests, hnext⟩ := Steps.exists_of_exec (step MemoryStore.CorrectRun.env) empty calls
    (P := fun s : CallState => s.store.vault.Contests "s" "c" "t" ∧
      ((Steps.execOk (step MemoryStore.CorrectRun.env)
          (fun x a => x.Stands MemoryStore.CorrectRun.env "c" "t" a ∧ x.Uncorrected "c" "t" a) s others).any fun t =>
        decide (t.store.vault.claims.rows.length = 4)) = true) (by decide)
  obtain ⟨t, ht, hrows⟩ := Steps.exists_of_execOk (step MemoryStore.CorrectRun.env) _ s others hnext
  exact ⟨t, hrows, reports_of_uncorrected hcontests ht⟩

end CallState

end Capka

import Capka.Vault.Correctable

/-!
# The topic a fact is filed under

`resolveTopic` looks a topic up by handle and by title, and brings a deleted title back; the default topic it looks up by its key alone. So
a deleted default topic is named as it is, and the link into it throws. Two races come to the same: a title another call took and whose topic
was deleted since, and a topic brought back, deleted anew and found under another stamp.
-/

namespace Capka

open MemoryGraph

namespace Vault

/-- The topic is live in the space, so every live note and claim of the space can be linked into it. -/
def Named (v : Vault) (spaceId topicId : String) : Prop :=
  v.graph.Live spaceId topicId ∧ ∀ b edgeId, (∃ n, v.graph.liveNode spaceId b = some n ∧ n.kind ≠ .source) → b ≠ topicId →
    (∀ e ∈ v.graph.edges, e.id ≠ edgeId) → (v.graph.linkNodes spaceId topicId b .contains edgeId).isSome = true

/-- The call falls back on the default topic: no name, a name like a credential, or one of no live topic where only those may be had. -/
def FallsBack (env : VaultEnv) (args : ResolveArgs) (v : Vault) : Prop :=
  let raw := fitTopicTitle (args.nameOrHandle.getD "")
  raw = "" ∨ (v.topicOfHandle args raw = none ∧ (looksLikeSecret raw = true ∨
    ((v.topicTitled env args.spaceId raw).filter (fun n => v.stampOf n.id = none) = none ∧ args.existingOnly = true)))

/-- The title the call looks up. -/
def Seeks (env : VaultEnv) (args : ResolveArgs) (v : Vault) (raw : String) : Prop :=
  (v.FallsBack env args ∧ v.topicWithKey args.spaceId defaultTopicKey = none ∧ raw = topicLabel defaultTopicKey) ∨
    (¬v.FallsBack env args ∧ v.topicOfHandle args raw = none ∧ raw = fitTopicTitle (args.nameOrHandle.getD ""))

/-- The title leads to a deleted topic: one that took the title meanwhile, or one that was deleted anew before it was brought back. -/
def TitleAstray (env : VaultEnv) (spaceId raw : String) (v later : Vault) : Prop :=
  (v.topicTitled env spaceId raw = none ∧ ∃ won, later.topicTitled env spaceId raw = some won ∧ ¬later.graph.Live spaceId won.id) ∨
    ∃ hit stamp, v.topicTitled env spaceId raw = some hit ∧ v.stampOf hit.id = some stamp ∧ ¬later.graph.Live spaceId hit.id ∧
      ¬∃ n ∈ later.graph.nodes, n.id = hit.id ∧ n.spaceId = spaceId ∧ n.deletedAt = some stamp

/-- The call leads to a deleted topic: the default topic is, or the title it looks up leads to one. -/
def Astray (env : VaultEnv) (args : ResolveArgs) (v later : Vault) : Prop :=
  (v.FallsBack env args ∧ ∃ found, v.topicWithKey args.spaceId defaultTopicKey = some found ∧ ¬v.graph.Live args.spaceId found.id) ∨
    ∃ raw, v.Seeks env args raw ∧ TitleAstray env args.spaceId raw v later

namespace TopicsAux

variable {env : VaultEnv} {v w later : Vault} {spaceId raw id : String} {n : VaultNote}

theorem mem_topicTitled (h : v.topicTitled env spaceId raw = some n) : n ∈ v.notes ∧ n.spaceId = spaceId := by
  have hp := List.find?_some h
  simp only [decide_eq_true_eq] at hp
  exact ⟨List.mem_of_find?_eq_some h, hp.1⟩

theorem mem_topicWithKey {key : String} (h : v.topicWithKey spaceId key = some n) : n ∈ v.notes ∧ n.spaceId = spaceId := by
  have hp := List.find?_some h
  simp only [decide_eq_true_eq] at hp
  exact ⟨List.mem_of_find?_eq_some h, hp.1⟩

theorem mem_topicOfHandle {args : ResolveArgs} (h : v.topicOfHandle args raw = some n) :
    n ∈ v.notes ∧ n.spaceId = args.spaceId ∧ ∃ m ∈ v.graph.nodes, m.id = n.id ∧ m.deletedAt = none := by
  unfold topicOfHandle at h
  split at h
  · obtain ⟨t, _, h⟩ := Option.bind_eq_some_iff.mp h
    obtain ⟨hget, hcond⟩ := Option.filter_eq_some_iff.mp h
    simp only [decide_eq_true_eq] at hcond
    exact ⟨(Table.get_eq_some_iff.mp hget).1, hcond.1, hcond.2.2⟩
  · cases h

def NoteNode (g : MemoryGraph) (spaceId noteId : String) : Prop := ∃ m ∈ g.nodes, m.id = noteId ∧ m.spaceId = spaceId ∧ m.kind = .note

theorem noteNode_of_mem (h : RowsOk v) (hn : n ∈ v.notes) (hs : n.spaceId = spaceId) : NoteNode v.graph spaceId n.id := by
  obtain ⟨m, hm, hid, hms, hk⟩ := h.noteNodes n hn
  exact ⟨m, hm, hid, hms.trans hs, hk⟩

theorem NoteNode.kept {dies : String → Prop} {g g' : MemoryGraph} {noteId : String} (h : NoteNode g spaceId noteId)
    (hkeep : KeepsNodes dies g g') : NoteNode g' spaceId noteId := by
  obtain ⟨m, hm, hid, hs, hk⟩ := h
  obtain ⟨m', hm', hid', hs', hk', _⟩ := hkeep.nodes m hm
  exact ⟨m', hm', hid'.trans hid, hs'.trans hs, hk'.trans hk⟩

theorem named_iff {noteId : String} (h : NoteNode w.graph spaceId noteId) : w.Named spaceId noteId ↔ w.graph.Live spaceId noteId := by
  refine ⟨fun hn => hn.1, fun hlive => ⟨hlive, ?_⟩⟩
  rintro b edgeId ⟨nb, hb, hkind⟩ hne hid
  obtain ⟨m, hm, hmid, _, hk⟩ := h
  obtain ⟨na, hna, haid, has, had⟩ := hlive
  have heq : na = m := node_eq hna hm (haid.trans hmid.symm)
  have hlegal : EdgeRelation.contains.legal na.kind nb.kind = true := by
    rw [heq, hk]
    cases hkb : nb.kind with
    | note => rfl
    | claim => rfl
    | source => exact absurd hkb hkind
  obtain ⟨r, hr⟩ := linkNodes_isSome (liveNode_eq_some_iff.mpr ⟨hna, haid, has, had⟩) hb hlegal (Ne.symm hne) hid
  rw [hr]
  rfl

theorem live_iff_stampOf (h : RowsOk v) (hn : n ∈ v.notes) (hs : n.spaceId = spaceId) :
    v.graph.Live spaceId n.id ↔ v.stampOf n.id = none := by
  obtain ⟨m, hm, hid, hms, _⟩ := h.noteNodes n hn
  have hget : v.graph.nodes.get n.id = some m := Table.get_eq_some_iff.mpr ⟨hm, hid⟩
  unfold stampOf
  rw [hget, Option.bind_some]
  constructor
  · exact fun hlive => hlive.deletedAt_eq_none hm hid
  · exact fun hd => ⟨m, hm, hid, hms.trans hs, hd⟩

theorem live_restoreNode_iff {g : MemoryGraph} {nodeId : String} {stamp : Nat} {r : MemoryGraph × Bool}
    (h : g.restoreNode nodeId spaceId stamp = some r) :
    r.1.Live spaceId nodeId ↔ g.Live spaceId nodeId ∨ ∃ n ∈ g.nodes, n.id = nodeId ∧ n.spaceId = spaceId ∧ n.deletedAt = some stamp := by
  rcases restoreNode_cases h with ⟨hstamp, rfl⟩ | ⟨hstamp, rfl⟩
  · refine ⟨fun _ => .inr hstamp, fun _ => ?_⟩
    obtain ⟨n, hn, hid, hs, hd⟩ := hstamp
    have hkeep : KeepsNodes NoneDies g (g.reopen nodeId spaceId stamp) := keepsNodes_reopen
    obtain ⟨n', hn', hid', hs', _⟩ := hkeep.nodes n hn
    exact ⟨n', hn', hid'.trans hid, hs'.trans hs, live_of_reopen hn' (hid'.trans hid) ⟨n, hn, hid, hs, hd⟩⟩
  · exact ⟨.inl, fun hx => hx.resolve_right hstamp⟩

theorem named_resolveTitle_iff {r : Vault × Topic} (hv : RowsOk v) (hl : RowsOk later) (hkeep : KeepsNodes AnyDies v.graph later.graph)
    (h : resolveTitle env spaceId raw id v later = some r) :
    NoteNode r.1.graph spaceId r.2.id ∧ (r.1.graph.Live spaceId r.2.id ↔ ¬TitleAstray env spaceId raw v later) := by
  cases resolveTitle_cases h with
  | live hit hhit hlive =>
    obtain ⟨hmem, hs⟩ := mem_topicTitled hhit
    refine ⟨noteNode_of_mem hv hmem hs, fun _ => ?_, fun _ => (live_iff_stampOf hv hmem hs).mpr hlive⟩
    rintro (⟨hmiss, _⟩ | ⟨hit', stamp, hhit', hstamp, _⟩)
    · rw [hmiss] at hhit
      cases hhit
    · rw [hhit] at hhit'
      cases hhit'
      rw [hlive] at hstamp
      cases hstamp
  | revived hit stamp g hhit hstamp hg =>
    obtain ⟨hmem, hs⟩ := mem_topicTitled hhit
    have hrestored : KeepsNodes NoneDies later.graph g.1 := keepsNodes_restoreNode hg
    have hnode := ((noteNode_of_mem hv hmem hs).kept hkeep).kept hrestored
    refine ⟨hnode, ?_⟩
    rw [live_restoreNode_iff hg]
    constructor
    · rintro hlive (⟨hmiss, _⟩ | ⟨hit', stamp', hhit', hstamp', hdead, hno⟩)
      · rw [hmiss] at hhit
        cases hhit
      · rw [hhit] at hhit'
        cases hhit'
        rw [hstamp] at hstamp'
        cases hstamp'
        exact hlive.elim hdead hno
    · intro hnot
      by_contra hx
      rw [not_or] at hx
      exact hnot (.inr ⟨hit, stamp, hhit, hstamp, hx.1, hx.2⟩)
  | lost won hmiss hwon =>
    obtain ⟨hmem, hs⟩ := mem_topicTitled hwon
    refine ⟨noteNode_of_mem hl hmem hs, ?_⟩
    constructor
    · rintro hlive (⟨_, won', hwon', hdead⟩ | ⟨hit, _, hhit, _⟩)
      · rw [hwon] at hwon'
        cases hwon'
        exact hdead hlive
      · rw [hmiss] at hhit
        cases hhit
    · intro hnot
      by_contra hdead
      exact hnot (.inl ⟨hmiss, won, hwon, hdead⟩)
  | created w x hmiss hfree hw hx =>
    obtain ⟨graph, notes, hgraph, _, _, rfl⟩ := insertNote_cases hw
    obtain ⟨_, _, _, _, _, _, _, hx⟩ := insertNoteVersion_cases hx
    have hnode : (⟨id, spaceId, .note, none⟩ : VaultNode) ∈ graph.nodes := (mem_nodes_of_insertNode hgraph).mpr (.inr rfl)
    simp only [hx]
    refine ⟨⟨_, hnode, rfl, rfl, rfl⟩, fun _ => ?_, fun _ => ⟨_, hnode, rfl, rfl, rfl⟩⟩
    rintro (⟨_, won, hwon, _⟩ | ⟨hit, _, hhit, _⟩)
    · rw [hfree] at hwon
      cases hwon
    · rw [hmiss] at hhit
      cases hhit

theorem named_topicByKey_iff {r : Vault × Topic} (hv : RowsOk v) (hl : RowsOk later) (hkeep : KeepsNodes AnyDies v.graph later.graph)
    (h : topicByKey env spaceId id v later = some r) :
    NoteNode r.1.graph spaceId r.2.id ∧ (r.1.graph.Live spaceId r.2.id ↔
      ¬((∃ found, v.topicWithKey spaceId defaultTopicKey = some found ∧ ¬v.graph.Live spaceId found.id) ∨
        (v.topicWithKey spaceId defaultTopicKey = none ∧ TitleAstray env spaceId (topicLabel defaultTopicKey) v later))) := by
  rcases topicByKey_cases h with ⟨found, hfound, hr, hid⟩ | ⟨hmiss, x, w, hx, hw, hr, hid⟩
  · obtain ⟨hmem, hs⟩ := mem_topicWithKey hfound
    rw [hr, hid]
    refine ⟨noteNode_of_mem hv hmem hs, ?_⟩
    constructor
    · rintro hlive (⟨found', hfound', hdead⟩ | ⟨hmiss, _⟩)
      · rw [hfound] at hfound'
        cases hfound'
        exact hdead hlive
      · rw [hmiss] at hfound
        cases hfound
    · intro hnot
      by_contra hdead
      exact hnot (.inl ⟨found, hfound, hdead⟩)
  · obtain ⟨hnode, hiff⟩ := named_resolveTitle_iff hv hl hkeep hx
    obtain ⟨notes, _, rfl⟩ := stampKey_cases hw
    rw [hr, hid]
    refine ⟨hnode, ?_⟩
    change x.1.graph.Live spaceId x.2.id ↔ _
    rw [hiff]
    constructor
    · rintro hnot (⟨found, hfound, _⟩ | ⟨_, hastray⟩)
      · rw [hmiss] at hfound
        cases hfound
      · exact hnot hastray
    · exact fun hnot hastray => hnot (.inr ⟨hmiss, hastray⟩)

theorem astray_iff_of_fallsBack {args : ResolveArgs} (hfall : v.FallsBack env args) :
    Astray env args v later ↔
      (∃ found, v.topicWithKey args.spaceId defaultTopicKey = some found ∧ ¬v.graph.Live args.spaceId found.id) ∨
        (v.topicWithKey args.spaceId defaultTopicKey = none ∧ TitleAstray env args.spaceId (topicLabel defaultTopicKey) v later) := by
  constructor
  · rintro (⟨_, hdead⟩ | ⟨raw, ⟨_, hmiss, rfl⟩ | ⟨hnot, _⟩, hastray⟩)
    · exact .inl hdead
    · exact .inr ⟨hmiss, hastray⟩
    · exact absurd hfall hnot
  · rintro (hdead | ⟨hmiss, hastray⟩)
    · exact .inl ⟨hfall, hdead⟩
    · exact .inr ⟨_, .inl ⟨hfall, hmiss, rfl⟩, hastray⟩

end TopicsAux

open TopicsAux

theorem named_resolveTopic_iff {env : VaultEnv} {args : ResolveArgs} {id : String} {v later : Vault} {r : Vault × Topic} (hv : RowsOk v)
    (hl : RowsOk later) (hkeep : KeepsNodes AnyDies v.graph later.graph) (h : resolveTopic env args id v later = some r) :
    r.1.Named args.spaceId r.2.id ↔ ¬Astray env args v later := by
  have hfall : ∀ state, v.FallsBack env args → (topicByKey env args.spaceId id v later).map (fun r => (r.1, { r.2 with state })) = some r →
      (r.1.Named args.spaceId r.2.id ↔ ¬Astray env args v later) := by
    intro state hf hr
    obtain ⟨x, hx, rfl⟩ := Option.map_eq_some_iff.mp hr
    obtain ⟨hnode, hiff⟩ := named_topicByKey_iff hv hl hkeep hx
    rw [astray_iff_of_fallsBack hf]
    exact (named_iff hnode).trans hiff
  unfold resolveTopic at h
  simp only at h
  split at h
  · rename_i hblank
    exact hfall _ (.inl hblank) h
  · rename_i hblank
    split at h
    · rename_i n hn
      cases h
      obtain ⟨hmem, hs, m, hm, hmid, hd⟩ := mem_topicOfHandle hn
      obtain ⟨k, hk, hkid, hks, hkk⟩ := noteNode_of_mem hv hmem hs
      have heq : m = k := node_eq hm hk (hmid.trans hkid.symm)
      have hlive : v.graph.Live args.spaceId n.id := ⟨k, hk, hkid, hks, heq ▸ hd⟩
      refine ⟨fun _ => ?_, fun _ => (named_iff ⟨k, hk, hkid, hks, hkk⟩).mpr hlive⟩
      have hnot : ¬v.FallsBack env args := by
        rintro (hx | ⟨hx, _⟩)
        · exact hblank hx
        · rw [hn] at hx
          cases hx
      rintro (⟨hf, _⟩ | ⟨raw, ⟨hf, _⟩ | ⟨_, hx, rfl⟩, _⟩)
      · exact hnot hf
      · exact hnot hf
      · rw [hn] at hx
        cases hx
    · rename_i hhandle
      split at h
      · rename_i hsecret
        exact hfall _ (.inr ⟨hhandle, .inl hsecret⟩) h
      · rename_i hsecret
        split at h
        · rename_i hexisting
          exact hfall _ (.inr ⟨hhandle, .inr hexisting⟩) h
        · rename_i hexisting
          have hnot : ¬v.FallsBack env args := by
            rintro (hx | ⟨_, hx | hx⟩)
            · exact hblank hx
            · exact hsecret hx
            · exact hexisting hx
          obtain ⟨hnode, hiff⟩ := named_resolveTitle_iff hv hl hkeep h
          rw [named_iff hnode, hiff]
          constructor
          · rintro hx (⟨hf, _⟩ | ⟨raw, ⟨hf, _⟩ | ⟨_, _, rfl⟩, hastray⟩)
            · exact hnot hf
            · exact hnot hf
            · exact hx hastray
          · exact fun hx hastray => hx (.inr ⟨_, .inr ⟨hnot, hhandle, rfl⟩, hastray⟩)

end Vault

namespace MemoryStore

open Vault

/-- In every state of the memory, and whatever other writers have done to it by the time the call writes: the topic it returns is live and
takes its link, exactly when the call does not go astray. -/
theorem resolveTopic_named_iff {env : VaultEnv} {s later : MemoryStore} (h : Steps.Reaches (step env) Steps.Free empty s)
    (hlater : Steps.Reaches (step env) Steps.Free s later) {args : ResolveArgs} {id : String} {r : Vault × Topic}
    (hr : resolveTopic env args id s.vault later.vault = some r) :
    r.1.Named args.spaceId r.2.id ↔ ¬Astray env args s.vault later.vault :=
  named_resolveTopic_iff (rowsOk_of_reaches h) (rowsOk_of_reaches (h.trans hlater)) (keepsNodes_of_reaches hlater) hr

open CorrectRun

/-- A call without a name. -/
def unnamed : ResolveArgs where
  spaceId := "s"
  nameOrHandle := none
  resolveHandle := none
  existingOnly := false

/-- The default topic, opened and forgotten: the next call without a name returns it, deleted. -/
theorem resolveTopic_named_false : ∃ s : MemoryStore, Steps.Reaches (step env) Steps.Free empty s ∧ s.spaces.acceptsWrites "s" ∧
    ∃ r, resolveTopic env unnamed "x" s.vault s.vault = some r ∧ ¬r.1.graph.Live "s" r.2.id ∧
      (r.1.graph.linkNodes "s" r.2.id "c" .contains "e") = none := by
  obtain ⟨s, hs, hspace, hbad⟩ := Steps.exists_of_exec (step env) empty
    (acts ++
      [.write (.resolveTopic unnamed "g"),
        .write (.forgetNote { noteId := "g", spaceId := "s", expectedRevision := 1, createdTaskId := none } 3)])
    (P := fun s : MemoryStore => s.spaces.acceptsWrites "s" ∧ (resolveTopic env unnamed "x" s.vault s.vault).any fun r =>
      decide (¬r.1.graph.Live "s" r.2.id ∧ (r.1.graph.linkNodes "s" r.2.id "c" .contains "e").isNone)) (by decide)
  obtain ⟨r, hr, hcond⟩ := (Option.any_eq_true _ _).mp hbad
  simp only [decide_eq_true_eq, Option.isNone_iff_eq_none] at hcond
  exact ⟨s, hs, hspace, r, hr, hcond⟩

/-- The theorem at a call without a name in a space that has no default topic yet. -/
theorem resolveTopic_named_iff_new : ∃ (s : MemoryStore) (r : Vault × Topic), resolveTopic env unnamed "x" s.vault s.vault = some r ∧
    (r.1.Named "s" r.2.id ↔ ¬Astray env unnamed s.vault s.vault) := by
  obtain ⟨s, hs, hsome⟩ := Steps.exists_of_exec (step env) empty acts
    (P := fun s : MemoryStore => (resolveTopic env unnamed "x" s.vault s.vault).isSome = true) (by decide)
  obtain ⟨r, hr⟩ := Option.isSome_iff_exists.mp hsome
  exact ⟨s, r, hr, resolveTopic_named_iff hs (Steps.Reaches.refl s) hr⟩

end MemoryStore

end Capka

import Mathlib
import Capka.Chat.Message
import Capka.Tree.Nodes

/-!
# Shaping the context of a turn

`buildModelContext` collapses the path at its newest checkpoint into a summary, clears the bodies of stale tool exchanges, and lowers
what is left to rows again. The mark of untrusted content rides the row: `foldAssembledRows` reads it and nothing else.
-/

namespace Capka

/-- `ContextRow`: a row of the path as the context is built from it. -/
structure ContextRow where
  id : Nat
  role : Role
  content : List Char
  parts : Option (List StoredPart)
  compaction : Option String
  untrustedIngress : Option Bool
  deriving DecidableEq

namespace Shaping

/-- A row lifted for shaping. -/
structure Lifted where
  id : Nat
  role : Role
  parts : Option (List StoredPart)
  compaction : Option String
  deriving DecidableEq

/-- `SUMMARY_HEADING`. -/
def summaryHeading : String := "[Summary of the earlier conversation]"

/-- `CLEARED_TOOL_OUTPUT`. -/
def clearedToolOutput : ToolOutput := .other "[cleared to save context]"

/-- What a cleared call's arguments read as, with `CLEARED_TOOL_INPUT`. -/
def clearedToolInput : String := "\x7b\"note\":\"[cleared]\"\x7d"

/-- The row of a message, lifted. -/
def lift (r : ContextRow) : Lifted where
  id := r.id
  role := r.role
  parts := r.parts
  compaction := r.compaction

/-- The loop of `applyCompaction`: the index of the last checkpoint. -/
def lastCheckpoint (messages : List Lifted) : Option Nat :=
  messages.zipIdx.foldl (fun last m => if m.1.compaction.isSome then some m.2 else last) none

/-- The summary message of a checkpoint. -/
def summaryMessage (cp : Lifted) : Lifted where
  id := cp.id
  role := .user
  parts := some [.text (summaryHeading ++ "\n" ++ cp.compaction.getD "").toList]
  compaction := none

def applyCompaction (messages : List Lifted) : List Lifted :=
  match lastCheckpoint messages with
  | none => messages
  | some i => (messages[i]?.map summaryMessage).toList ++ messages.drop (i + 1)

/-- The place of every tool result, in order. -/
def positions (messages : List Lifted) : List (Nat × Nat) :=
  (messages.zipIdx.map (fun m => ((m.1.parts.getD []).zipIdx.filter (fun p => match p.1 with
    | .toolResult _ _ _ => true
    | _ => false)).map (fun p => (m.2, p.2)))).flatten

/-- The id of the call a result at a place answers. -/
def callIdAt (messages : List Lifted) (place : Nat × Nat) : Option Nat :=
  match ((messages[place.1]?.bind Lifted.parts).getD [])[place.2]? with
  | some (.toolResult id _ _) => some id
  | _ => none

/-- A part with its body cleared where it is stale. -/
def clearPart (staleCut : List (Nat × Nat)) (staleCallIds : List Nat) (mi pi : Nat) : StoredPart → StoredPart
  | .toolResult id name output => if (mi, pi) ∈ staleCut then .toolResult id name clearedToolOutput else .toolResult id name output
  | .toolCall id name input waitsOn =>
    if id ∈ staleCallIds then .toolCall id name clearedToolInput waitsOn else .toolCall id name input waitsOn
  | p => p

def clearStaleToolResults (messages : List Lifted) (keepLast : Nat) : List Lifted :=
  if (positions messages).length ≤ keepLast then messages
  else
    let staleCut := (positions messages).take ((positions messages).length - keepLast)
    let staleCallIds := staleCut.filterMap (callIdAt messages)
    messages.mapIdx (fun mi m => { m with parts := m.parts.map (fun parts => parts.mapIdx (fun pi p => clearPart staleCut staleCallIds mi pi p)) })

/-- `byId.get`: the last row of an id. -/
def byId (rows : List ContextRow) (id : Nat) : Option ContextRow := rows.reverse.find? (·.id = id)

/-- A shaped message lowered to a row: a message that kept its role keeps its row, and the summary gets a fresh one with its
checkpoint's mark. -/
def lower (rows : List ContextRow) (m : Lifted) : ContextRow :=
  match byId rows m.id with
  | some orig =>
    if m.role = orig.role then { orig with parts := m.parts }
    else { id := m.id, role := m.role, content := [], parts := m.parts, compaction := none, untrustedIngress := orig.untrustedIngress }
  | none => { id := m.id, role := m.role, content := [], parts := m.parts, compaction := none, untrustedIngress := none }

end Shaping

open Shaping in
def buildModelContext (rows : List ContextRow) (clearToolsKeepLast : Option Nat) : List ContextRow :=
  let shaped := applyCompaction (rows.map lift)
  let cleared := match clearToolsKeepLast with
    | some keepLast => clearStaleToolResults shaped keepLast
    | none => shaped
  cleared.map (lower rows)

def foldAssembledRows (rows : List ContextRow) : Bool := rows.any (fun r => r.untrustedIngress = some true)

/-- The row carries untrusted content. -/
def ContextRow.Tainted (r : ContextRow) : Prop := r.untrustedIngress = some true

instance (r : ContextRow) : Decidable r.Tainted := inferInstanceAs (Decidable (_ = _))

namespace Shaping

theorem map_id_clearStaleToolResults (messages : List Lifted) (keepLast : Nat) :
    (clearStaleToolResults messages keepLast).map Lifted.id = messages.map Lifted.id := by
  unfold clearStaleToolResults
  split
  · rfl
  · apply List.ext_getElem?
    intro i
    cases h : messages[i]? with
    | none => simp [List.getElem?_mapIdx, h]
    | some m => simp [List.getElem?_mapIdx, h]

theorem byId_of_mem {rows : List ContextRow} (hnd : (rows.map ContextRow.id).Nodup) {r : ContextRow} (hr : r ∈ rows) :
    byId rows r.id = some r := by
  unfold byId
  cases h : rows.reverse.find? (·.id = r.id) with
  | none =>
    have := List.find?_eq_none.mp h r (List.mem_reverse.mpr hr)
    simp at this
  | some r' =>
    have hr' : r' ∈ rows := List.mem_reverse.mp (List.mem_of_find?_eq_some h)
    have hid : r'.id = r.id := by simpa using List.find?_some h
    rw [List.inj_on_of_nodup_map hnd hr' hr hid]

theorem untrustedIngress_lower (rows : List ContextRow) (m : Lifted) :
    (lower rows m).untrustedIngress = (byId rows m.id).bind ContextRow.untrustedIngress := by
  unfold lower
  cases byId rows m.id with
  | none => rfl
  | some orig =>
    dsimp only
    split
    · rfl
    · rfl

theorem lastCheckpoint_spec (messages : List Lifted) : ∀ i, lastCheckpoint messages = some i →
    ∃ cp, messages[i]? = some cp ∧ cp.compaction.isSome := by
  induction messages using List.reverseRecOn with
  | nil =>
    intro i h
    cases h
  | append_singleton messages m ih =>
    intro i h
    rw [lastCheckpoint, List.zipIdx_append, List.foldl_append] at h
    by_cases hm : m.compaction.isSome
    · simp only [List.zipIdx_singleton, List.foldl_cons, List.foldl_nil, hm, if_true] at h
      obtain rfl := Option.some.inj h
      exact ⟨m, by simp, hm⟩
    · simp only [List.zipIdx_singleton, List.foldl_cons, List.foldl_nil, hm] at h
      obtain ⟨cp, hcp, hc⟩ := ih i h
      refine ⟨cp, ?_, hc⟩
      rw [List.getElem?_append_left (List.getElem?_eq_some_iff.mp hcp).1]
      exact hcp

/-- What the shaped context stands for: the rows from the newest checkpoint on. -/
def kept (rows : List ContextRow) : List ContextRow := rows.drop ((lastCheckpoint (rows.map lift)).getD 0)

theorem map_id_applyCompaction (rows : List ContextRow) : (applyCompaction (rows.map lift)).map Lifted.id = (kept rows).map ContextRow.id := by
  unfold applyCompaction kept
  cases h : lastCheckpoint (rows.map lift) with
  | none => simp [Function.comp_def, lift]
  | some i =>
    obtain ⟨cp, hcp, _⟩ := lastCheckpoint_spec _ i h
    have hlt : i < rows.length := by
      have := (List.getElem?_eq_some_iff.mp hcp).1
      simpa using this
    have hrow : rows[i]? = some rows[i] := List.getElem?_eq_getElem hlt
    have hlift : (rows.map lift)[i]? = some (lift rows[i]) := by simp [hrow]
    have hdrop : rows.drop i = rows[i] :: rows.drop (i + 1) := List.drop_eq_getElem_cons hlt
    dsimp only
    rw [Option.getD_some, hdrop, hlift]
    simp only [Option.map_some, Option.toList_some, List.map_cons, List.singleton_append, ← List.map_drop, List.map_map]
    rfl

/-- The flag a context reports is whether a row it stands for from the newest checkpoint on carries untrusted content. -/
theorem fold_eq_true_iff {rows : List ContextRow} (hnd : (rows.map ContextRow.id).Nodup) (clearToolsKeepLast : Option Nat) :
    foldAssembledRows (buildModelContext rows clearToolsKeepLast) = true ↔ ∃ r ∈ kept rows, r.Tainted := by
  have hids : ∀ shaped : List Lifted, shaped.map Lifted.id = (kept rows).map ContextRow.id →
      (foldAssembledRows (shaped.map (lower rows)) = true ↔ ∃ r ∈ kept rows, r.Tainted) := by
    intro shaped hshaped
    have hmarks : (shaped.map (lower rows)).map ContextRow.untrustedIngress = (kept rows).map ContextRow.untrustedIngress := by
      have hleft : (shaped.map (lower rows)).map ContextRow.untrustedIngress =
          (shaped.map Lifted.id).map (fun id => (byId rows id).bind ContextRow.untrustedIngress) := by
        simp only [List.map_map, Function.comp_def, untrustedIngress_lower]
      rw [hleft, hshaped, List.map_map]
      apply List.map_congr_left
      intro r hr
      have hmem : r ∈ rows := List.mem_of_mem_drop hr
      rw [Function.comp_apply, byId_of_mem hnd hmem]
      rfl
    have hany : foldAssembledRows (shaped.map (lower rows)) =
        ((shaped.map (lower rows)).map ContextRow.untrustedIngress).any (fun mark => mark = some true) := by
      simp only [foldAssembledRows, List.any_map, Function.comp_def]
    rw [hany, hmarks, List.any_map, List.any_eq_true]
    simp [ContextRow.Tainted]
  cases clearToolsKeepLast with
  | none => exact hids _ (map_id_applyCompaction rows)
  | some keepLast => exact hids _ ((map_id_clearStaleToolResults _ keepLast).trans (map_id_applyCompaction rows))

end Shaping

end Capka

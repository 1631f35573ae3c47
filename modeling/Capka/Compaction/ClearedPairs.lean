import Capka.Compaction.Shaping

/-!
# Clearing a call with its result

The bodies of all tool results but the last few are cleared, and the arguments of the calls that carry their ids. Where an id occurs in one
exchange only, call and result are cleared together; a call that shares its id with an older exchange loses its arguments with that one.
-/

namespace Capka

namespace Shaping

def partAt (messages : List Lifted) (place : Nat × Nat) : Option StoredPart := ((messages[place.1]?.bind Lifted.parts).getD [])[place.2]?

/-- The parts of all messages with their places, in order. -/
def flat (messages : List Lifted) : List ((Nat × Nat) × StoredPart) :=
  messages.zipIdx.flatMap fun m => (m.1.parts.getD []).zipIdx.map fun p => ((m.2, p.2), p.1)

/-- The places of the results whose exchanges are not among the last ones. -/
def stalePlaces (messages : List Lifted) (keepLast : Nat) : List (Nat × Nat) :=
  (positions messages).take ((positions messages).length - keepLast)

/-- The part is a call of this id, or answers one, with a result or an error. -/
def concerns (id : Nat) : StoredPart → Bool
  | .toolCall i _ _ _ => i = id
  | .toolResult i _ _ => i = id
  | .toolError i _ _ _ => i = id
  | .text _ => false
  | .reasoning _ => false

/-- The result of the exchange a call at a place began: the next part behind it that concerns its id, where that is a result. -/
def resultOfCall (messages : List Lifted) (place : Nat × Nat) (id : Nat) : Option (Nat × Nat) :=
  match (((flat messages).dropWhile (·.1 ≠ place)).drop 1).find? (fun e => concerns id e.2) with
  | some (q, .toolResult _ _ _) => some q
  | _ => none

/-- The exchange a call at a place began has a result that is not among the last ones. -/
def StaleExchange (messages : List Lifted) (keepLast : Nat) (place : Nat × Nat) (id : Nat) : Prop :=
  ∃ q, resultOfCall messages place id = some q ∧ q ∈ stalePlaces messages keepLast

local instance lawfulPlace : LawfulBEq (Nat × Nat) := inferInstance

instance (messages : List Lifted) (keepLast : Nat) (place : Nat × Nat) (id : Nat) : Decidable (StaleExchange messages keepLast place id) :=
  match h : resultOfCall messages place id with
  | some q => if hq : q ∈ stalePlaces messages keepLast then .isTrue ⟨q, h, hq⟩ else .isFalse (by
      rintro ⟨q', hq', hmem⟩
      rw [h] at hq'
      cases hq'
      exact hq hmem)
  | none => .isFalse (by
      rintro ⟨q', hq', _⟩
      rw [h] at hq'
      cases hq')

/-- Exchanges are cleared in pairs: the messages and their parts keep their number and their order; exactly the results that are not among
the last ones lose their bodies, and a call loses its arguments exactly when the result of its exchange loses its body. -/
structure ClearsPairs (keepLast : Nat) (messages cleared : List Lifted) : Prop where
  shape : cleared.map (fun m => (m.id, m.role, m.compaction, m.parts.map List.length)) =
    messages.map fun m => (m.id, m.role, m.compaction, m.parts.map List.length)
  results : ∀ place id name output, partAt messages place = some (.toolResult id name output) →
    partAt cleared place = some (.toolResult id name (if place ∈ stalePlaces messages keepLast then clearedToolOutput else output))
  calls : ∀ place id name input waitsOn, partAt messages place = some (.toolCall id name input waitsOn) →
    partAt cleared place =
      some (.toolCall id name (if StaleExchange messages keepLast place id then clearedToolInput else input) waitsOn)
  others : ∀ place p, partAt messages place = some p → (∀ id name output, p ≠ .toolResult id name output) →
    (∀ id name input waitsOn, p ≠ .toolCall id name input waitsOn) → partAt cleared place = some p

/-- A call that carries the id of a result that is not among the last ones belongs to an exchange whose result is one of these, unless its
arguments read as cleared already. -/
def StaleIdsOwned (messages : List Lifted) (keepLast : Nat) : Prop :=
  ∀ place id name input waitsOn, partAt messages place = some (.toolCall id name input waitsOn) →
    (∃ q ∈ stalePlaces messages keepLast, callIdAt messages q = some id) →
      StaleExchange messages keepLast place id ∨ input = clearedToolInput

namespace PairsAux

variable {messages : List Lifted} {keepLast : Nat}

theorem mem_flat {place : Nat × Nat} {p : StoredPart} : (place, p) ∈ flat messages ↔ partAt messages place = some p := by
  obtain ⟨mi, pi⟩ := place
  simp only [flat, List.mem_flatMap, List.mem_map, partAt]
  constructor
  · rintro ⟨⟨m, i⟩, hm, ⟨p', j⟩, hp, heq⟩
    obtain ⟨⟨rfl, rfl⟩, rfl⟩ : (i = mi ∧ j = pi) ∧ p' = p := by simpa using heq
    rw [List.mem_zipIdx_iff_getElem?] at hm hp
    rw [hm, Option.bind_some]
    exact hp
  · intro h
    cases hm : messages[mi]? with
    | none => simp [hm] at h
    | some m =>
      rw [hm, Option.bind_some] at h
      exact ⟨(m, mi), List.mem_zipIdx_iff_getElem?.mpr hm, (p, pi), List.mem_zipIdx_iff_getElem?.mpr h, rfl⟩

theorem callIdAt_iff {place : Nat × Nat} {id : Nat} :
    callIdAt messages place = some id ↔ ∃ name output, partAt messages place = some (.toolResult id name output) := by
  unfold callIdAt partAt
  constructor
  · intro h
    split at h
    · rename_i i name output hpart
      cases h
      exact ⟨name, output, hpart⟩
    · cases h
  · rintro ⟨name, output, h⟩
    rw [h]

theorem callIdAt_of_resultOfCall {place q : Nat × Nat} {id : Nat} (h : resultOfCall messages place id = some q) :
    callIdAt messages q = some id := by
  unfold resultOfCall at h
  split at h
  · rename_i q' i name output hfind
    cases h
    have hid : i = id := by simpa [concerns] using List.find?_some hfind
    subst hid
    have hmem := List.mem_of_mem_drop (List.mem_of_find?_eq_some hfind)
    exact callIdAt_iff.mpr ⟨name, output, mem_flat.mp (List.dropWhile_suffix _ |>.subset hmem)⟩
  · cases h

/-- The ids whose calls are cleared. -/
def staleIds (messages : List Lifted) (keepLast : Nat) : List Nat := (stalePlaces messages keepLast).filterMap (callIdAt messages)

theorem mem_staleIds {id : Nat} : id ∈ staleIds messages keepLast ↔ ∃ q ∈ stalePlaces messages keepLast, callIdAt messages q = some id :=
  List.mem_filterMap

theorem partAt_clear (place : Nat × Nat) :
    partAt (clearStaleToolResults messages keepLast) place =
      (partAt messages place).map (clearPart (stalePlaces messages keepLast) (staleIds messages keepLast) place.1 place.2) := by
  unfold clearStaleToolResults
  split
  · rename_i hle
    have hstale : stalePlaces messages keepLast = [] := by
      rw [stalePlaces, Nat.sub_eq_zero_of_le hle, List.take_zero]
    have hids : staleIds messages keepLast = [] := by rw [staleIds, hstale, List.filterMap_nil]
    have hid : ∀ p, clearPart (stalePlaces messages keepLast) (staleIds messages keepLast) place.1 place.2 p = p := by
      intro p
      rw [hstale, hids]
      cases p <;> simp [clearPart]
    cases hp : partAt messages place with
    | none => rfl
    | some p => rw [Option.map_some, hid]
  · change partAt (messages.mapIdx _) place = _
    unfold partAt
    cases hm : messages[place.1]? with
    | none => simp [List.getElem?_mapIdx, hm]
    | some m =>
      cases hparts : m.parts with
      | none => simp [List.getElem?_mapIdx, hm, hparts]
      | some parts => simp [List.getElem?_mapIdx, hm, hparts, stalePlaces, staleIds]

theorem shape_clear :
    (clearStaleToolResults messages keepLast).map (fun m => (m.id, m.role, m.compaction, m.parts.map List.length)) =
      messages.map fun m => (m.id, m.role, m.compaction, m.parts.map List.length) := by
  unfold clearStaleToolResults
  split
  · rfl
  · apply List.ext_getElem?
    intro i
    cases hm : messages[i]? with
    | none => simp [List.getElem?_mapIdx, hm]
    | some m => simp [List.getElem?_mapIdx, hm, Function.comp_def]

end PairsAux

open PairsAux

/-- **The clearing keeps exchanges together exactly where a stale id is no other exchange's.** -/
theorem clearsPairs_iff (messages : List Lifted) (keepLast : Nat) :
    ClearsPairs keepLast messages (clearStaleToolResults messages keepLast) ↔ StaleIdsOwned messages keepLast := by
  constructor
  · intro h place id name input waitsOn hcall hstale
    have hout := h.calls place id name input waitsOn hcall
    rw [partAt_clear, hcall, Option.map_some, clearPart, if_pos (mem_staleIds.mpr hstale)] at hout
    by_cases hex : StaleExchange messages keepLast place id
    · exact .inl hex
    · rw [if_neg hex] at hout
      injection hout with hout
      injection hout with _ _ hinput _
      exact .inr hinput.symm
  · intro h
    refine ⟨shape_clear, ?_, ?_, ?_⟩
    · intro place id name output hres
      rw [partAt_clear, hres, Option.map_some, clearPart]
      split <;> rfl
    · intro place id name input waitsOn hcall
      rw [partAt_clear, hcall, Option.map_some, clearPart]
      by_cases hid : id ∈ staleIds messages keepLast
      · rw [if_pos hid]
        rcases h place id name input waitsOn hcall (mem_staleIds.mp hid) with hex | rfl
        · rw [if_pos hex]
        · rw [ite_self]
      · have hex : ¬StaleExchange messages keepLast place id := by
          rintro ⟨q, hq, hmem⟩
          exact hid (mem_staleIds.mpr ⟨q, hmem, callIdAt_of_resultOfCall hq⟩)
        rw [if_neg hid, if_neg hex]
    · intro place p hp hres hcall
      rw [partAt_clear, hp, Option.map_some]
      cases p with
      | text _ => rfl
      | reasoning _ => rfl
      | toolError _ _ _ _ => rfl
      | toolResult id name output => exact absurd rfl (hres id name output)
      | toolCall id name input waitsOn => exact absurd rfl (hcall id name input waitsOn)

/-- Two turns number their only call alike: the last exchange loses its arguments with the one before it. -/
theorem clearsPairs_false :
    ¬∀ (messages : List Lifted) (keepLast : Nat), ClearsPairs keepLast messages (clearStaleToolResults messages keepLast) := by
  intro h
  have hcalls := (h [⟨1, .assistant, some [.toolCall 0 "read" "old" none, .toolResult 0 "read" (.other "one")], none⟩,
    ⟨2, .assistant, some [.toolCall 0 "read" "new" none, .toolResult 0 "read" (.other "two")], none⟩] 1).calls (1, 0) 0 "read" "new" none rfl
  exact absurd hcalls (by decide +kernel)

end Shaping

end Capka

import Mathlib
import Capka.Lib.Table

/-!
# The effect ledger of a reply

Every executed call of a reply has a row in `message_effects`: one write when the call is entered, one when its outcome is known. Both
are the same upsert, whose marks only grow. The reply's stored parts describe the calls a second time, and `mergeEffects` joins the two.
The values of arguments are of any type; `clamp` is what the upsert stores of them.
-/

namespace Capka

namespace Effects

variable {V : Type}

/-- A stored part, as the ledger reads it. -/
inductive EffectPart (V : Type)
  | toolCall (id name : String) (input : V)
  | toolResult (id name : String)
  | toolError (id name : String) (invalid : Bool)
  | other
  deriving DecidableEq

structure TurnEffect (V : Type) where
  id : String
  name : String
  input : Option V
  failed : Bool
  unsettled : Bool
  deriving DecidableEq

/-- `EffectWrite`, with whether it is settled and the moment it lands. -/
structure EffectWrite (V : Type) where
  messageId : String
  toolCallId : String
  name : String
  input : V
  failed : Bool
  settled : Bool
  now : Nat
  deriving DecidableEq

def recordEffectStarted (messageId toolCallId name : String) (input : V) (now : Nat) : EffectWrite V where
  messageId := messageId
  toolCallId := toolCallId
  name := name
  input := input
  failed := false
  settled := false
  now := now

def recordEffect (messageId toolCallId name : String) (input : V) (failed : Bool) (now : Nat) : EffectWrite V where
  messageId := messageId
  toolCallId := toolCallId
  name := name
  input := input
  failed := failed
  settled := true
  now := now

/-- A row of `message_effects`. -/
structure EffectRow (V : Type) where
  messageId : String
  toolCallId : String
  toolName : String
  input : Option V
  failed : Bool
  settled : Bool
  createdAt : Nat
  deriving DecidableEq

/-- The key the upsert conflicts on. -/
def EffectRow.key (r : EffectRow V) : String × String := (r.messageId, r.toolCallId)

def EffectWrite.key (w : EffectWrite V) : String × String := (w.messageId, w.toolCallId)

/-- The ledger. -/
abbrev Ledger (V : Type) := Table (EffectRow V) EffectRow.key

/-- The row a write inserts. -/
def EffectWrite.row (clamp : V → Option V) (w : EffectWrite V) : EffectRow V where
  messageId := w.messageId
  toolCallId := w.toolCallId
  toolName := w.name
  input := clamp w.input
  failed := w.failed
  settled := w.settled
  createdAt := w.now

/-- What it makes of the row that is there: the marks are joined. -/
def EffectRow.overwrite (clamp : V → Option V) (w : EffectWrite V) (r : EffectRow V) : EffectRow V :=
  { r with toolName := w.name, input := clamp w.input, failed := r.failed || w.failed, settled := r.settled || w.settled }

def upsertEffect (clamp : V → Option V) (ledger : Ledger V) (w : EffectWrite V) : Ledger V :=
  match ledger.get w.key with
  | some r => ledger.put (r.overwrite clamp w)
  | none => ledger.put (w.row clamp)

/-- The ledger after a sequence of writes. -/
def written (clamp : V → Option V) (writes : List (EffectWrite V)) : Ledger V :=
  writes.foldl (upsertEffect clamp) Table.empty

/-- The entry of a row. -/
def EffectRow.effect (r : EffectRow V) : TurnEffect V where
  id := r.toolCallId
  name := r.toolName
  input := r.input
  failed := r.failed
  unsettled := !r.settled

/-- The order of the ledger: by age, then by the call's id. -/
def EffectRow.before (a b : EffectRow V) : Bool := a.createdAt < b.createdAt || (a.createdAt = b.createdAt && a.toolCallId ≤ b.toolCallId)

def loadEffects (ledger : Ledger V) (messageId : String) : List (TurnEffect V) :=
  ((ledger.rows.filter (fun r => r.messageId = messageId)).mergeSort EffectRow.before).map EffectRow.effect

/-- `calls.get`: the last call of an id. -/
def callOf (parts : List (EffectPart V)) (id : String) : Option (String × V) :=
  parts.foldl (fun found p => match p with
    | .toolCall i name input => if i = id then some (name, input) else found
    | _ => found) none

/-- The entry of a result or an error; none where the call was rejected before it ran. -/
def partEffect (parts : List (EffectPart V)) : EffectPart V → Option (TurnEffect V)
  | .toolCall _ _ _ => none
  | .toolResult id name =>
    some { id := id, name := ((callOf parts id).map Prod.fst).getD name, input := (callOf parts id).map Prod.snd, failed := false,
           unsettled := false }
  | .toolError id name invalid =>
    if invalid then none
    else some { id := id, name := ((callOf parts id).map Prod.fst).getD name, input := (callOf parts id).map Prod.snd, failed := true,
                unsettled := false }
  | .other => none

def effectsFromParts (parts : List (EffectPart V)) : List (TurnEffect V) := parts.filterMap (partEffect parts)

def mergeEffects (ledger fromParts : List (TurnEffect V)) : List (TurnEffect V) :=
  let known := (ledger.map TurnEffect.id).filter (· ≠ "")
  fromParts.filter (fun e => e.id = "" || e.id ∉ known) ++ ledger

/-! ## What the ledger says of a call -/

theorem mem_upsertEffect {clamp : V → Option V} {ledger : Ledger V} {w : EffectWrite V} {r : EffectRow V} :
    r ∈ upsertEffect clamp ledger w ↔
      (r ∈ ledger ∧ r.key ≠ w.key) ∨ (∃ old ∈ ledger, old.key = w.key ∧ r = old.overwrite clamp w) ∨
        ((∀ old ∈ ledger, old.key ≠ w.key) ∧ r = w.row clamp) := by
  unfold upsertEffect
  cases hg : ledger.get w.key with
  | none =>
    have hno := Table.get_eq_none_iff.mp hg
    rw [Table.mem_put]
    constructor
    · rintro (rfl | ⟨hr, hne⟩)
      · exact Or.inr (Or.inr ⟨hno, rfl⟩)
      · exact Or.inl ⟨hr, hne⟩
    · rintro (⟨hr, hne⟩ | ⟨old, hold, hk, -⟩ | ⟨-, rfl⟩)
      · exact Or.inr ⟨hr, hne⟩
      · exact absurd hk (hno old hold)
      · exact Or.inl rfl
  | some old =>
    obtain ⟨hold, hk⟩ := Table.get_eq_some_iff.mp hg
    have hkey : (old.overwrite clamp w).key = w.key := hk
    rw [Table.mem_put, hkey]
    constructor
    · rintro (rfl | ⟨hr, hne⟩)
      · exact Or.inr (Or.inl ⟨old, hold, hk, rfl⟩)
      · exact Or.inl ⟨hr, hne⟩
    · rintro (⟨hr, hne⟩ | ⟨old', hold', hk', rfl⟩ | ⟨hno, -⟩)
      · exact Or.inr ⟨hr, hne⟩
      · obtain rfl := Table.eq_of_key hold' hold (hk'.trans hk.symm)
        exact Or.inl rfl
      · exact absurd hk (hno old hold)

/-- What the rows say of the writes: each row's key was written, its marks are those of some write under the key, and each key that was
written has a row. -/
structure Recorded (writes : List (EffectWrite V)) (ledger : Ledger V) : Prop where
  source : ∀ r ∈ ledger, ∃ w ∈ writes, w.key = r.key
  settled : ∀ r ∈ ledger, (r.settled = true ↔ ∃ w ∈ writes, w.key = r.key ∧ w.settled = true)
  failed : ∀ r ∈ ledger, (r.failed = true ↔ ∃ w ∈ writes, w.key = r.key ∧ w.failed = true)
  all : ∀ w ∈ writes, ∃ r ∈ ledger, r.key = w.key

theorem Recorded.upsert {clamp : V → Option V} {writes : List (EffectWrite V)} {ledger : Ledger V} (h : Recorded writes ledger)
    (w : EffectWrite V) : Recorded (writes ++ [w]) (upsertEffect clamp ledger w) := by
  have hother : ∀ {k : String × String} {q : EffectWrite V → Prop}, k ≠ w.key →
      ((∃ w' ∈ writes ++ [w], w'.key = k ∧ q w') ↔ ∃ w' ∈ writes, w'.key = k ∧ q w') := by
    intro k q hne
    simp only [List.mem_append, List.mem_singleton]
    constructor
    · rintro ⟨w', hw' | rfl, hk, hq⟩
      · exact ⟨w', hw', hk, hq⟩
      · exact absurd hk.symm hne
    · rintro ⟨w', hw', hk, hq⟩
      exact ⟨w', Or.inl hw', hk, hq⟩
  have hjoin : ∀ {q : EffectWrite V → Prop} {b : Bool}, (b = true ↔ ∃ w' ∈ writes, w'.key = w.key ∧ q w') →
      (b = true ∨ q w ↔ ∃ w' ∈ writes ++ [w], w'.key = w.key ∧ q w') := by
    intro q b hb
    simp only [List.mem_append, List.mem_singleton]
    constructor
    · rintro (ht | hq)
      · obtain ⟨w', hw', hk, hq⟩ := hb.mp ht
        exact ⟨w', Or.inl hw', hk, hq⟩
      · exact ⟨w, Or.inr rfl, rfl, hq⟩
    · rintro ⟨w', hw' | rfl, hk, hq⟩
      · exact Or.inl (hb.mpr ⟨w', hw', hk, hq⟩)
      · exact Or.inr hq
  have hfresh : ∀ {q : EffectWrite V → Prop}, (∀ old ∈ ledger, old.key ≠ w.key) →
      ((∃ w' ∈ writes ++ [w], w'.key = w.key ∧ q w') ↔ q w) := by
    intro q hno
    simp only [List.mem_append, List.mem_singleton]
    constructor
    · rintro ⟨w', hw' | rfl, hk, hq⟩
      · obtain ⟨old, hold, hok⟩ := h.all w' hw'
        exact absurd (hok.trans hk) (hno old hold)
      · exact hq
    · intro hq
      exact ⟨w, Or.inr rfl, rfl, hq⟩
  refine { source := ?_, settled := ?_, failed := ?_, all := ?_ }
  · intro r hr
    rcases mem_upsertEffect.mp hr with ⟨hr, _⟩ | ⟨old, hold, hk, rfl⟩ | ⟨_, rfl⟩
    · obtain ⟨w', hw', hk⟩ := h.source r hr
      exact ⟨w', List.mem_append_left _ hw', hk⟩
    · exact ⟨w, by simp, hk.symm⟩
    · exact ⟨w, by simp, rfl⟩
  · intro r hr
    rcases mem_upsertEffect.mp hr with ⟨hr, hne⟩ | ⟨old, hold, hk, rfl⟩ | ⟨hno, rfl⟩
    · rw [hother hne]
      exact h.settled r hr
    · have hold' := h.settled old hold
      have hkey : (old.overwrite clamp w).key = w.key := hk
      rw [hk] at hold'
      rw [hkey, ← hjoin hold', EffectRow.overwrite, Bool.or_eq_true]
    · have hkey : (w.row clamp).key = w.key := rfl
      rw [hkey, hfresh hno]
      rfl
  · intro r hr
    rcases mem_upsertEffect.mp hr with ⟨hr, hne⟩ | ⟨old, hold, hk, rfl⟩ | ⟨hno, rfl⟩
    · rw [hother hne]
      exact h.failed r hr
    · have hold' := h.failed old hold
      have hkey : (old.overwrite clamp w).key = w.key := hk
      rw [hk] at hold'
      rw [hkey, ← hjoin hold', EffectRow.overwrite, Bool.or_eq_true]
    · have hkey : (w.row clamp).key = w.key := rfl
      rw [hkey, hfresh hno]
      rfl
  · intro w' hw'
    rcases List.mem_append.mp hw' with hw' | hw'
    · obtain ⟨r, hr, hk⟩ := h.all w' hw'
      by_cases hne : r.key = w.key
      · exact ⟨r.overwrite clamp w, mem_upsertEffect.mpr (Or.inr (Or.inl ⟨r, hr, hne, rfl⟩)), hk⟩
      · exact ⟨r, mem_upsertEffect.mpr (Or.inl ⟨hr, hne⟩), hk⟩
    · obtain rfl := List.mem_singleton.mp hw'
      by_cases hold : ∃ old ∈ ledger, old.key = w'.key
      · obtain ⟨old, hold, hk⟩ := hold
        exact ⟨old.overwrite clamp w', mem_upsertEffect.mpr (Or.inr (Or.inl ⟨old, hold, hk, rfl⟩)), hk⟩
      · push Not at hold
        exact ⟨w'.row clamp, mem_upsertEffect.mpr (Or.inr (Or.inr ⟨hold, rfl⟩)), rfl⟩

theorem recorded_written (clamp : V → Option V) (writes : List (EffectWrite V)) : Recorded writes (written clamp writes) := by
  induction writes using List.reverseRecOn with
  | nil =>
    refine { source := ?_, settled := ?_, failed := ?_, all := ?_ }
    · intro r hr
      exact absurd hr (Table.not_mem_empty r)
    · intro r hr
      exact absurd hr (Table.not_mem_empty r)
    · intro r hr
      exact absurd hr (Table.not_mem_empty r)
    · intro w hw
      cases hw
  | append_singleton writes w ih =>
    rw [written, List.foldl_append]
    exact ih.upsert w

end Effects

end Capka

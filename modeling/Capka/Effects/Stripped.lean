import Capka.Effects.Clamped
import Capka.Vault.DedupKey

/-!
# Stripped values

What comes from a tool loses its NUL characters before it is stored. The strings do; the keys of objects are assigned as they are, so a NUL in
one stays, and a member of the prototype's name is none of the result.
-/

namespace Capka

namespace Effects

open Ecma

mutual

def stripNul : Json → Json
  | .str s => .str (if s.contains 0 then s.filter (· != 0) else s)
  | .arr items => .arr (stripNulItems items)
  | .obj fields => .obj (stripNulFields fields [])
  | v => v

def stripNulItems : List Json → List Json
  | [] => []
  | v :: items => stripNul v :: stripNulItems items

/-- The loop over the entries; a member that is an object is no member of the prototype's name either. -/
def stripNulFields : List (Units × Json) → List (Units × Json) → List (Units × Json)
  | [], out => out
  | (k, v) :: fields, out => stripNulFields fields (assign k (stripNul v) out)

end

mutual

/-- The value with the NULs deleted, in its strings and in its keys. -/
def withoutNul : Json → Json
  | .str s => .str (s.filter (· != 0))
  | .arr items => .arr (withoutNulItems items)
  | .obj fields => .obj (withoutNulFields fields)
  | v => v

def withoutNulItems : List Json → List Json
  | [] => []
  | v :: items => withoutNul v :: withoutNulItems items

def withoutNulFields : List (Units × Json) → List (Units × Json)
  | [] => []
  | (k, v) :: fields => (k.filter (· != 0), withoutNul v) :: withoutNulFields fields

end

mutual

/-- No string and no key has a NUL, at every depth. -/
def NulFree : Json → Prop
  | .str s => 0 ∉ s
  | .arr items => NulFreeItems items
  | .obj fields => NulFreeFields fields
  | _ => True

def NulFreeItems : List Json → Prop
  | [] => True
  | v :: items => NulFree v ∧ NulFreeItems items

def NulFreeFields : List (Units × Json) → Prop
  | [] => True
  | (k, v) :: fields => 0 ∉ k ∧ NulFree v ∧ NulFreeFields fields

end

mutual

/-- No key has a NUL, and none is the prototype's name, at every depth. -/
def PlainKeys : Json → Prop
  | .arr items => PlainKeysItems items
  | .obj fields => PlainKeysFields fields
  | _ => True

def PlainKeysItems : List Json → Prop
  | [] => True
  | v :: items => PlainKeys v ∧ PlainKeysItems items

def PlainKeysFields : List (Units × Json) → Prop
  | [] => True
  | (k, v) :: fields => (0 ∉ k ∧ k ≠ ofString "__proto__") ∧ PlainKeys v ∧ PlainKeysFields fields

end

/-- Every NUL goes and nothing else does, and a second time there is nothing to do. -/
structure StripsNul (v : Json) : Prop where
  free : NulFree (stripNul v)
  exact : stripNul v = withoutNul v
  idempotent : stripNul (stripNul v) = stripNul v

namespace StrippedAux

open Vault (DistinctKeys DistinctKeysItems DistinctKeysFields)

theorem erase_eq_self_iff {s : Units} : s.filter (· != 0) = s ↔ 0 ∉ s := by
  rw [List.filter_eq_self]
  constructor
  · intro h hmem
    simpa using h 0 hmem
  · intro h u hu
    have hne : u ≠ 0 := fun heq => h (heq ▸ hu)
    simpa using hne

theorem not_mem_erase (s : Units) : 0 ∉ s.filter (· != 0) := by simp

theorem stripString (s : Units) : (if s.contains 0 then s.filter (· != 0) else s) = s.filter (· != 0) := by
  split_ifs with h
  · rfl
  · exact (erase_eq_self_iff.mpr (by simpa using h)).symm

theorem assign_new {k : Units} (v : Json) {out : List (Units × Json)} (hproto : k ≠ ofString "__proto__") (h : k ∉ out.map Prod.fst) :
    assign k v out = out ++ [(k, v)] := by
  rw [assign, if_neg hproto, if_neg h]

/-- The members that come through. -/
def kept : List (Units × Json) → List (Units × Json)
  | [] => []
  | (k, v) :: fields => if k = ofString "__proto__" then kept fields else (k, stripNul v) :: kept fields

theorem kept_length (fields : List (Units × Json)) : (kept fields).length ≤ fields.length := by
  induction fields with
  | nil => exact le_rfl
  | cons f fields ih =>
    rw [kept]
    split_ifs
    · exact ih.trans (Nat.le_succ _)
    · exact Nat.succ_le_succ ih

theorem withoutNulFields_length (fields : List (Units × Json)) : (withoutNulFields fields).length = fields.length := by
  induction fields with
  | nil => rfl
  | cons f fields ih => rw [withoutNulFields, List.length_cons, List.length_cons, ih]

theorem stripNulFields_eq {fields out : List (Units × Json)} (hnodup : (fields.map Prod.fst).Nodup)
    (hnew : ∀ k ∈ fields.map Prod.fst, k ∉ out.map Prod.fst) : stripNulFields fields out = out ++ kept fields := by
  induction fields generalizing out with
  | nil => simp [stripNulFields, kept]
  | cons f fields ih =>
    obtain ⟨k, v⟩ := f
    rw [List.map_cons, List.nodup_cons] at hnodup
    obtain ⟨hfirst, hrest⟩ := hnodup
    rw [stripNulFields, kept]
    by_cases hproto : k = ofString "__proto__"
    · rw [if_pos hproto, assign, if_pos hproto]
      exact ih hrest fun k' hk' => hnew k' (List.mem_cons_of_mem _ hk')
    · rw [if_neg hproto, assign_new _ hproto (hnew k (by simp)), ih hrest, List.append_assoc]
      · rfl
      · intro k' hk' hmem
        rw [List.map_append, List.mem_append] at hmem
        rcases hmem with hmem | hmem
        · exact hnew k' (List.mem_cons_of_mem _ hk') hmem
        · have heq : k' = k := by simpa using hmem
          exact hfirst (heq ▸ hk')

mutual

theorem stripNul_eq_iff : (v : Json) → DistinctKeys v → (stripNul v = withoutNul v ↔ PlainKeys v)
  | .null, _ => by simp [stripNul, withoutNul, PlainKeys]
  | .bool _, _ => by simp [stripNul, withoutNul, PlainKeys]
  | .num _, _ => by simp [stripNul, withoutNul, PlainKeys]
  | .str s, _ => by simp only [stripNul, withoutNul, PlainKeys, stripString]
  | .arr items, h => by
    rw [DistinctKeys] at h
    rw [stripNul, withoutNul, PlainKeys, ← stripNulItems_eq_iff items h, Json.arr.injEq]
  | .obj fields, h => by
    rw [DistinctKeys] at h
    rw [stripNul, withoutNul, PlainKeys, ← kept_eq_iff fields h.2, Json.obj.injEq, stripNulFields_eq h.1 (by simp), List.nil_append]

theorem stripNulItems_eq_iff : (items : List Json) → DistinctKeysItems items →
    (stripNulItems items = withoutNulItems items ↔ PlainKeysItems items)
  | [], _ => by simp [stripNulItems, withoutNulItems, PlainKeysItems]
  | v :: items, h => by
    rw [DistinctKeysItems] at h
    rw [stripNulItems, withoutNulItems, PlainKeysItems, List.cons.injEq, stripNul_eq_iff v h.1, stripNulItems_eq_iff items h.2]

theorem kept_eq_iff : (fields : List (Units × Json)) → DistinctKeysFields fields →
    (kept fields = withoutNulFields fields ↔ PlainKeysFields fields)
  | [], _ => by simp [kept, withoutNulFields, PlainKeysFields]
  | (k, v) :: fields, h => by
    rw [DistinctKeysFields] at h
    rw [kept, PlainKeysFields]
    split_ifs with hproto
    · -- A member is missing.
      refine iff_of_false (fun heq => ?_) fun hplain => hplain.1.2 hproto
      have hlen := congrArg List.length heq
      have hle := kept_length fields
      rw [withoutNulFields_length, List.length_cons] at hlen
      omega
    · rw [withoutNulFields, List.cons.injEq, Prod.mk.injEq, kept_eq_iff fields h.2, stripNul_eq_iff v h.1, eq_comm, erase_eq_self_iff]
      simp [hproto, and_assoc]

end

mutual

theorem nulFree_withoutNul : (v : Json) → NulFree (withoutNul v)
  | .null => by simp [withoutNul, NulFree]
  | .bool _ => by simp [withoutNul, NulFree]
  | .num _ => by simp [withoutNul, NulFree]
  | .str s => by simp [withoutNul, NulFree]
  | .arr items => by
    rw [withoutNul, NulFree]
    exact nulFree_withoutNulItems items
  | .obj fields => by
    rw [withoutNul, NulFree]
    exact nulFree_withoutNulFields fields

theorem nulFree_withoutNulItems : (items : List Json) → NulFreeItems (withoutNulItems items)
  | [] => trivial
  | v :: items => by
    rw [withoutNulItems, NulFreeItems]
    exact ⟨nulFree_withoutNul v, nulFree_withoutNulItems items⟩

theorem nulFree_withoutNulFields : (fields : List (Units × Json)) → NulFreeFields (withoutNulFields fields)
  | [] => trivial
  | (k, v) :: fields => by
    rw [withoutNulFields, NulFreeFields]
    exact ⟨not_mem_erase k, nulFree_withoutNul v, nulFree_withoutNulFields fields⟩

end

theorem keys_withoutNul {fields : List (Units × Json)} (h : PlainKeysFields fields) :
    (withoutNulFields fields).map Prod.fst = fields.map Prod.fst := by
  induction fields with
  | nil => rfl
  | cons f fields ih =>
    rw [PlainKeysFields] at h
    rw [withoutNulFields, List.map_cons, List.map_cons, ih h.2.2, erase_eq_self_iff.mpr h.1.1]

mutual

theorem withoutNul_settled : (v : Json) → DistinctKeys v → PlainKeys v →
    DistinctKeys (withoutNul v) ∧ PlainKeys (withoutNul v) ∧ withoutNul (withoutNul v) = withoutNul v
  | .null, _, _ => by simp [withoutNul, DistinctKeys, PlainKeys]
  | .bool _, _, _ => by simp [withoutNul, DistinctKeys, PlainKeys]
  | .num _, _, _ => by simp [withoutNul, DistinctKeys, PlainKeys]
  | .str s, _, _ => by simp [withoutNul, DistinctKeys, PlainKeys]
  | .arr items, hd, hp => by
    rw [DistinctKeys] at hd
    rw [PlainKeys] at hp
    obtain ⟨hd', hp', heq⟩ := withoutNulItems_settled items hd hp
    rw [withoutNul, DistinctKeys, PlainKeys, withoutNul, heq]
    exact ⟨hd', hp', rfl⟩
  | .obj fields, hd, hp => by
    rw [DistinctKeys] at hd
    rw [PlainKeys] at hp
    obtain ⟨hd', hp', heq⟩ := withoutNulFields_settled fields hd.2 hp
    rw [withoutNul, DistinctKeys, PlainKeys, withoutNul, heq, keys_withoutNul hp]
    exact ⟨⟨hd.1, hd'⟩, hp', rfl⟩

theorem withoutNulItems_settled : (items : List Json) → DistinctKeysItems items → PlainKeysItems items →
    DistinctKeysItems (withoutNulItems items) ∧ PlainKeysItems (withoutNulItems items) ∧
      withoutNulItems (withoutNulItems items) = withoutNulItems items
  | [], _, _ => ⟨trivial, trivial, rfl⟩
  | v :: items, hd, hp => by
    rw [DistinctKeysItems] at hd
    rw [PlainKeysItems] at hp
    obtain ⟨hdv, hpv, hv⟩ := withoutNul_settled v hd.1 hp.1
    obtain ⟨hds, hps, hs⟩ := withoutNulItems_settled items hd.2 hp.2
    rw [withoutNulItems, DistinctKeysItems, PlainKeysItems, withoutNulItems, hv, hs]
    exact ⟨⟨hdv, hds⟩, ⟨hpv, hps⟩, rfl⟩

theorem withoutNulFields_settled : (fields : List (Units × Json)) → DistinctKeysFields fields → PlainKeysFields fields →
    DistinctKeysFields (withoutNulFields fields) ∧ PlainKeysFields (withoutNulFields fields) ∧
      withoutNulFields (withoutNulFields fields) = withoutNulFields fields
  | [], _, _ => ⟨trivial, trivial, rfl⟩
  | (k, v) :: fields, hd, hp => by
    rw [DistinctKeysFields] at hd
    rw [PlainKeysFields] at hp
    obtain ⟨hdv, hpv, hv⟩ := withoutNul_settled v hd.1 hp.2.1
    obtain ⟨hds, hps, hs⟩ := withoutNulFields_settled fields hd.2 hp.2.2
    have hk : k.filter (· != 0) = k := erase_eq_self_iff.mpr hp.1.1
    rw [withoutNulFields, hk, DistinctKeysFields, PlainKeysFields, withoutNulFields, hk, hv, hs]
    exact ⟨⟨hdv, hds⟩, ⟨hp.1, hpv, hps⟩, rfl⟩

end

end StrippedAux

open Vault (JsonValue DistinctKeys)

open StrippedAux in
/-- Every NUL goes, and nothing else does, just when no object has a key with a NUL or of the prototype's name. -/
theorem stripNul_strips_iff (v : JsonValue) : StripsNul v.val ↔ PlainKeys v.val := by
  constructor
  · intro h
    exact (stripNul_eq_iff v.val v.property).mp h.exact
  · intro h
    have heq := (stripNul_eq_iff v.val v.property).mpr h
    obtain ⟨hdistinct, hplain, hsettled⟩ := withoutNul_settled v.val v.property h
    refine ⟨?_, heq, ?_⟩
    · rw [heq]
      exact nulFree_withoutNul v.val
    · rw [heq, (stripNul_eq_iff _ hdistinct).mpr hplain, hsettled]

/-- A key keeps its NUL. -/
theorem stripNul_key_kept : DistinctKeys (.obj [([0x61, 0], .null)]) ∧ ¬StripsNul (.obj [([0x61, 0], .null)]) := by
  refine ⟨by simp [DistinctKeys, Vault.DistinctKeysFields], fun h => ?_⟩
  have hassign : assign [0x61, 0] .null [] = [([0x61, 0], .null)] := by
    rw [assign, if_neg (by decide +kernel), if_neg (by simp), List.nil_append]
  have hfree := h.free
  simp [stripNul, stripNulFields, hassign, NulFree, NulFreeFields] at hfree

end Effects

end Capka

import Mathlib
import Capka.Lib.Json

/-!
# Clamped arguments

What the ledger stores of a call's arguments: all of them while they are small, and else the first fields, each cut down to what says what it
was. Values, numbers and markers are cut to a size of their own; keys are not.
-/

namespace Capka

namespace Effects

open Ecma

/-- `EFFECT_ARG_CHARS`. -/
def effectArgChars : Nat := 100

/-- `EFFECT_INPUT_BYTES`. -/
def effectInputBytes : Nat := 2048

/-- `EFFECT_INPUT_FIELDS`. -/
def effectInputFields : Nat := 32

/-- `outputBytes`: a string counts without its quotes. -/
def outputBytes : Json → Nat
  | .str s => utf8Length s
  | v => utf8Length (stringify v)

/-- `Math.round(bytes / 1024)`, as text. -/
def kilobytes (bytes : Nat) : Units := ofNumber ((bytes + 512) / 1024)

def clampValue : Json → Json
  | .str s =>
    if s.length ≤ effectArgChars then .str s
    else .str (s.take effectArgChars ++ ofString "…(+" ++ kilobytes (utf8Length s) ++ ofString " KB)")
  | .arr items => .str (ofString "…(" ++ ofNumber items.length ++ ofString " items, " ++ kilobytes (outputBytes (.arr items)) ++ ofString " KB)")
  | .obj fields =>
    .str (ofString "…(" ++ ofNumber fields.length ++ ofString " fields, " ++ kilobytes (outputBytes (.obj fields)) ++ ofString " KB)")
  | v => v

/-- The assignment `out[key] = value` of what is no object: the prototype takes none and is no member. -/
def assign (key : Units) (value : Json) (out : List (Units × Json)) : List (Units × Json) :=
  if key = ofString "__proto__" then out
  else if key ∈ out.map Prod.fst then out.map fun f => if f.1 = key then (key, value) else f
  else out ++ [(key, value)]

/-- The first fields, each clamped. -/
def clampedFields (fields : List (Units × Json)) : List (Units × Json) :=
  (fields.take effectInputFields).foldl (fun out f => assign f.1 (clampValue f.2) out) []

def clampEffectInput (input : Json) : Json :=
  if outputBytes input ≤ effectInputBytes then input
  else
    match input with
    | .obj fields =>
      if effectInputFields < fields.length then
        .obj (assign (ofString "…") (.str (ofNumber (fields.length - effectInputFields) ++ ofString " more fields")) (clampedFields fields))
      else .obj (clampedFields fields)
    | v => clampValue v

/-- The keys that a clamped object keeps are of no more than so many units. -/
def KeysWithin (bound : Nat) : Json → Prop
  | .obj fields => effectInputBytes < outputBytes (.obj fields) → ∀ f ∈ fields.take effectInputFields, f.1.length ≤ bound
  | _ => True

namespace ClampedAux

theorem mem_of_assign {key : Units} {value : Json} {out : List (Units × Json)} {f : Units × Json} (h : f ∈ assign key value out) :
    f ∈ out ∨ f = (key, value) := by
  unfold assign at h
  split_ifs at h with hproto hkey
  · exact .inl h
  · obtain ⟨g, hg, rfl⟩ := List.mem_map.mp h
    by_cases heq : g.1 = key
    · rw [if_pos heq]
      exact .inr rfl
    · rw [if_neg heq]
      exact .inl hg
  · rcases List.mem_append.mp h with h | h
    · exact .inl h
    · exact .inr (List.mem_singleton.mp h)

theorem assign_length (key : Units) (value : Json) (out : List (Units × Json)) : (assign key value out).length ≤ out.length + 1 := by
  unfold assign
  split_ifs <;> simp

theorem keys_assign (key : Units) (value : Json) {k : Units} {out : List (Units × Json)} (h : k ∈ out.map Prod.fst) :
    k ∈ (assign key value out).map Prod.fst := by
  unfold assign
  split_ifs with hproto hkey
  · exact h
  · obtain ⟨f, hf, rfl⟩ := List.mem_map.mp h
    refine List.mem_map.mpr ⟨_, List.mem_map.mpr ⟨f, hf, rfl⟩, ?_⟩
    split_ifs with heq
    · exact heq.symm
    · rfl
  · rw [List.map_append]
    exact List.mem_append_left _ h

theorem key_assign {key : Units} (hproto : key ≠ ofString "__proto__") (value : Json) (out : List (Units × Json)) :
    key ∈ (assign key value out).map Prod.fst := by
  unfold assign
  rw [if_neg hproto]
  split_ifs with hkey
  · obtain ⟨f, hf, hfk⟩ := List.mem_map.mp hkey
    refine List.mem_map.mpr ⟨_, List.mem_map.mpr ⟨f, hf, rfl⟩, ?_⟩
    rw [if_pos hfk]
  · simp

theorem mem_of_foldl {fields out : List (Units × Json)} {f : Units × Json}
    (h : f ∈ fields.foldl (fun out f => assign f.1 (clampValue f.2) out) out) : f ∈ out ∨ ∃ g ∈ fields, f = (g.1, clampValue g.2) := by
  induction fields generalizing out with
  | nil => exact .inl h
  | cons g fields ih =>
    rcases ih h with h | ⟨g', hg', rfl⟩
    · rcases mem_of_assign h with h | rfl
      · exact .inl h
      · exact .inr ⟨g, List.mem_cons_self, rfl⟩
    · exact .inr ⟨g', List.mem_cons_of_mem _ hg', rfl⟩

theorem foldl_length (fields out : List (Units × Json)) :
    (fields.foldl (fun out f => assign f.1 (clampValue f.2) out) out).length ≤ out.length + fields.length := by
  induction fields generalizing out with
  | nil => simp
  | cons g fields ih =>
    have hone := assign_length g.1 (clampValue g.2) out
    have hrest := ih (assign g.1 (clampValue g.2) out)
    rw [List.foldl_cons, List.length_cons]
    omega

theorem keys_foldl {fields out : List (Units × Json)} {k : Units}
    (h : k ∈ out.map Prod.fst ∨ (k ∈ fields.map Prod.fst ∧ k ≠ ofString "__proto__")) :
    k ∈ (fields.foldl (fun out f => assign f.1 (clampValue f.2) out) out).map Prod.fst := by
  induction fields generalizing out with
  | nil =>
    rcases h with h | ⟨h, _⟩
    · exact h
    · cases h
  | cons g fields ih =>
    refine ih ?_
    rcases h with h | ⟨h, hproto⟩
    · exact .inl (keys_assign _ _ h)
    · rcases List.mem_cons.mp h with rfl | h
      · exact .inl (key_assign hproto _ _)
      · exact .inr ⟨h, hproto⟩

/-! ## Sizes -/

theorem quote_le {s : Units} {n : Nat} (h : s.length ≤ n) : (quote s).length ≤ 6 * n + 2 := by
  have := (quote_length s).2
  omega

theorem clampValue_length (v : Json) : (stringify (clampValue v)).length ≤ 1000 := by
  have hcount : ∀ n, (ofNumber n).length ≤ 21 := ofNumber_length
  cases v with
  | null => decide
  | bool b => cases b <;> decide
  | num n =>
    have := n.short
    simp only [clampValue, stringify]
    omega
  | str s =>
    rw [clampValue]
    split_ifs with h
    · have := quote_le h
      simp only [stringify, effectArgChars] at this ⊢
      omega
    · refine (quote_le (n := 130) ?_).trans (by norm_num)
      have h₁ : (ofString "…(+").length = 3 := by decide
      have h₂ : (ofString " KB)").length = 4 := by decide
      have h₃ := hcount ((utf8Length s + 512) / 1024)
      have h₄ : (s.take effectArgChars).length ≤ 100 := List.length_take_le _ _
      simp only [List.length_append, kilobytes]
      omega
  | arr items =>
    refine (quote_le (n := 130) ?_).trans (by norm_num)
    have h₁ : (ofString "…(").length = 2 := by decide
    have h₂ : (ofString " KB)").length = 4 := by decide
    have h₃ : (ofString " items, ").length = 8 := by decide
    have h₄ := hcount items.length
    have h₅ := hcount ((outputBytes (.arr items) + 512) / 1024)
    simp only [List.length_append, kilobytes]
    omega
  | obj fields =>
    refine (quote_le (n := 130) ?_).trans (by norm_num)
    have h₁ : (ofString "…(").length = 2 := by decide
    have h₂ : (ofString " KB)").length = 4 := by decide
    have h₃ : (ofString " fields, ").length = 9 := by decide
    have h₄ := hcount fields.length
    have h₅ := hcount ((outputBytes (.obj fields) + 512) / 1024)
    simp only [List.length_append, kilobytes]
    omega

theorem obj_length {fields : List (Units × Json)} (n bound : Nat) (hlen : fields.length ≤ n)
    (hsmall : ∀ f ∈ fields, f.1.length ≤ bound ∧ (stringify f.2).length ≤ 1000) :
    (stringify (.obj fields)).length ≤ n * (6 * bound + 1004) + 2 := by
  have hmember : ∀ x ∈ (stringifyFields fields).map fun t => t.length + 1, x ≤ 6 * bound + 1004 := by
    rw [stringifyFields_eq, List.map_map]
    intro x hx
    obtain ⟨f, hf, rfl⟩ := List.mem_map.mp hx
    obtain ⟨hkey, hvalue⟩ := hsmall f hf
    have := quote_le hkey
    simp only [Function.comp, member, List.length_append, List.length_cons]
    omega
  have hsum := List.sum_le_card_nsmul _ _ hmember
  have hcommas := (commas_length (stringifyFields fields)).2
  have hcount : ((stringifyFields fields).map fun t => t.length + 1).length = fields.length := by
    rw [List.length_map, stringifyFields_eq, List.length_map]
  have hmul : fields.length * (6 * bound + 1004) ≤ n * (6 * bound + 1004) := Nat.mul_le_mul_right _ hlen
  rw [hcount, smul_eq_mul] at hsum
  simp only [stringify, List.length_cons, List.length_append, List.length_nil]
  omega

theorem key_le_obj {fields : List (Units × Json)} {k : Units} (h : k ∈ fields.map Prod.fst) :
    k.length ≤ (stringify (.obj fields)).length := by
  obtain ⟨f, hf, rfl⟩ := List.mem_map.mp h
  have hmem : (member f.1 (stringify f.2)).length + 1 ∈ (stringifyFields fields).map fun t => t.length + 1 := by
    rw [stringifyFields_eq, List.map_map]
    exact List.mem_map.mpr ⟨f, hf, rfl⟩
  have hone := List.single_le_sum (fun _ _ => Nat.zero_le _) _ hmem
  have hcommas := (commas_length (stringifyFields fields)).1
  have hquote := (quote_length f.1).1
  simp only [member, List.length_append, List.length_cons] at hone
  simp only [stringify, List.length_cons, List.length_append, List.length_nil]
  omega

end ClampedAux

open ClampedAux

theorem clampEffectInput_length {bound : Nat} {input : Json} (h : KeysWithin bound input) :
    (stringify (clampEffectInput input)).length ≤ 33 * (6 * (bound + 1) + 1004) + 13000 := by
  unfold clampEffectInput
  split_ifs with hsmall
  · -- stored as it is
    cases input with
    | str s =>
      have hunits := length_le_utf8Length s
      simp only [outputBytes, effectInputBytes] at hsmall
      have := quote_le (hunits.trans hsmall)
      simp only [stringify]
      omega
    | _ =>
      refine (length_le_utf8Length _).trans (hsmall.trans ?_)
      simp only [effectInputBytes]
      omega
  · cases input with
    | obj fields =>
      have hfields := h (by simpa using hsmall)
      have hlen : (clampedFields fields).length ≤ 32 := by
        have hloop := foldl_length (fields.take effectInputFields) []
        have htake := List.length_take_le effectInputFields fields
        simp only [effectInputFields, List.length_nil, Nat.zero_add] at hloop htake
        exact hloop.trans htake
      have hmem : ∀ f ∈ clampedFields fields, f.1.length ≤ bound + 1 ∧ (stringify f.2).length ≤ 1000 := by
        intro f hf
        rcases mem_of_foldl hf with hf | ⟨g, hg, rfl⟩
        · cases hf
        · exact ⟨(hfields g hg).trans (Nat.le_succ _), clampValue_length _⟩
      simp only
      split_ifs with hmore
      · refine (obj_length 33 (bound + 1) ((assign_length _ _ _).trans (by omega)) fun f hf => ?_).trans (by omega)
        rcases mem_of_assign hf with hf | rfl
        · exact hmem f hf
        · have hkey : (ofString "…").length = 1 := by decide
          have htext : (ofString " more fields").length = 12 := by decide
          have hnumber := ofNumber_length (fields.length - effectInputFields)
          refine ⟨by simp only [hkey]; omega, (quote_le (n := 130) ?_).trans (by norm_num)⟩
          simp only [List.length_append]
          omega
      · exact (obj_length _ _ hlen hmem).trans (by omega)
    | _ => exact (clampValue_length _).trans (by omega)

theorem keysWithin_of_length {bound : Nat} {input : Json} (h : (stringify (clampEffectInput input)).length ≤ bound) :
    KeysWithin (bound + 9) input := by
  cases input with
  | obj fields =>
    intro hlarge f hf
    by_cases hproto : f.1 = ofString "__proto__"
    · rw [hproto, show (ofString "__proto__").length = 9 by decide]
      omega
    · have hkey : f.1 ∈ (clampedFields fields).map Prod.fst := keys_foldl (.inr ⟨List.mem_map.mpr ⟨f, hf, rfl⟩, hproto⟩)
      unfold clampEffectInput at h
      rw [if_neg (by omega)] at h
      simp only at h
      split_ifs at h
      · have := key_le_obj (keys_assign (ofString "…")
          (.str (ofNumber (fields.length - effectInputFields) ++ ofString " more fields")) hkey)
        omega
      · have := key_le_obj hkey
        omega
  | _ => trivial

/-- The stored arguments of any number of calls are within one bound exactly if the keys they keep are. -/
theorem clampEffectInput_bounded_iff (inputs : Set Json) :
    (∃ bound, ∀ input ∈ inputs, (stringify (clampEffectInput input)).length ≤ bound) ↔
      ∃ bound, ∀ input ∈ inputs, KeysWithin bound input := by
  constructor
  · rintro ⟨bound, h⟩
    exact ⟨bound + 9, fun input hi => keysWithin_of_length (h input hi)⟩
  · rintro ⟨bound, h⟩
    exact ⟨_, fun input hi => clampEffectInput_length (h input hi)⟩

/-- One field with a long key outgrows any bound. -/
theorem clampEffectInput_bounded_false : ¬∃ bound, ∀ input, (stringify (clampEffectInput input)).length ≤ bound := by
  rintro ⟨bound, h⟩
  have hwithin := keysWithin_of_length (h (.obj [(List.replicate (bound + 2058) 0x61, .null)]))
  have hlarge : effectInputBytes < outputBytes (.obj [(List.replicate (bound + 2058) 0x61, .null)]) := by
    have hkey := key_le_obj (List.mem_map.mpr ⟨_, List.mem_singleton_self ((List.replicate (bound + 2058) 0x61, .null) : Units × Json), rfl⟩)
    have hbytes := length_le_utf8Length (stringify (.obj [(List.replicate (bound + 2058) 0x61, .null)]))
    rw [List.length_replicate] at hkey
    simp only [outputBytes, effectInputBytes]
    omega
  have := hwithin hlarge (List.replicate (bound + 2058) 0x61, .null) (by simp [effectInputFields])
  rw [List.length_replicate] at this
  omega

end Effects

end Capka

import Mathlib

/-!
# Bytes of characters

Text is characters and its bytes are UTF-8. An offset into the bytes lies inside a character's bytes, where a continuation byte stands, or
on the boundary of two characters; a text cut at a boundary is two texts.
-/

namespace Utf8

/-- The bytes of a text. -/
def encode (s : List Char) : List UInt8 := s.flatMap String.utf8EncodeChar

/-- The text of bytes; bytes that are no text make a replacement character. -/
def decode (bytes : List UInt8) : List Char :=
  match bytes.toByteArray.utf8Decode? with
  | some s => s.toList
  | none => [Char.ofNat 0xfffd]

@[simp] theorem decode_encode (s : List Char) : decode (encode s) = s := by
  have h : (encode s).toByteArray.utf8Decode? = some s.toArray := List.utf8Decode?_utf8Encode
  simp [decode, h]

@[simp] theorem encode_nil : encode [] = [] := rfl

@[simp] theorem encode_append (s t : List Char) : encode (s ++ t) = encode s ++ encode t := List.flatMap_append ..

theorem encode_cons (c : Char) (s : List Char) : encode (c :: s) = String.utf8EncodeChar c ++ encode s := rfl

theorem char_bytes (c : Char) : 1 ≤ (String.utf8EncodeChar c).length ∧ (String.utf8EncodeChar c).length ≤ 4 := by
  rw [String.length_utf8EncodeChar]
  exact ⟨c.utf8Size_pos, c.utf8Size_le_four⟩

theorem length_le_encode (s : List Char) : s.length ≤ (encode s).length := by
  induction s with
  | nil => rfl
  | cons c s ih =>
    have := (char_bytes c).1
    rw [encode_cons, List.length_append, List.length_cons]
    omega

/-- The byte continues a character. -/
def continues (b : UInt8) : Bool := b &&& 0xc0 = 0x80

/-- The offset lies inside a character. -/
def midSequence (bytes : List UInt8) (n : Nat) : Bool := bytes[n]?.any continues

theorem continues_mask (x : UInt8) : continues (x &&& 0x3f ||| 0x80) = true := by
  rw [continues, decide_eq_true_eq, ← UInt8.toBitVec_inj]
  exact (by decide : ∀ v : BitVec 8, (v &&& 0x3f#8 ||| 0x80#8) &&& 0xc0#8 = 0x80#8) x.toBitVec

theorem not_continues_of_first {b : UInt8} (h : b.IsUTF8FirstByte) : continues b = false := by
  rw [continues, decide_eq_false_iff_not, ← UInt8.toBitVec_inj]
  simp only [UInt8.IsUTF8FirstByte, ← UInt8.toBitVec_inj] at h
  exact (by decide : ∀ v : BitVec 8, (v &&& 0x80#8 = 0#8 ∨ v &&& 0xe0#8 = 0xc0#8 ∨ v &&& 0xf0#8 = 0xe0#8 ∨ v &&& 0xf8#8 = 0xf0#8) →
    ¬v &&& 0xc0#8 = 0x80#8) b.toBitVec h

theorem continues_iff (c : Char) {i : Nat} {b : UInt8} (h : (String.utf8EncodeChar c)[i]? = some b) : continues b = true ↔ i ≠ 0 := by
  constructor
  · rintro hcont rfl
    obtain ⟨hi, rfl⟩ := List.getElem?_eq_some_iff.mp h
    rw [not_continues_of_first (by simp)] at hcont
    cases hcont
  · intro hi
    rw [String.utf8EncodeChar_eq_utf8EncodeCharFast, String.utf8EncodeCharFast] at h
    obtain ⟨j, rfl⟩ := Nat.exists_eq_succ_of_ne_zero hi
    simp only [Nat.succ_eq_add_one] at h
    split_ifs at h
    · simp at h
    · rcases j with _ | j
      · simp only [zero_add, List.getElem?_cons_succ, List.getElem?_cons_zero, Option.some.injEq] at h
        exact h ▸ continues_mask _
      · simp at h
    · rcases j with _ | _ | j
      · simp only [zero_add, List.getElem?_cons_succ, List.getElem?_cons_zero, Option.some.injEq] at h
        exact h ▸ continues_mask _
      · simp only [zero_add, List.getElem?_cons_succ, List.getElem?_cons_zero, Option.some.injEq] at h
        exact h ▸ continues_mask _
      · simp at h
    · rcases j with _ | _ | _ | j
      · simp only [zero_add, List.getElem?_cons_succ, List.getElem?_cons_zero, Option.some.injEq] at h
        exact h ▸ continues_mask _
      · simp only [zero_add, List.getElem?_cons_succ, List.getElem?_cons_zero, Option.some.injEq] at h
        exact h ▸ continues_mask _
      · simp only [zero_add, List.getElem?_cons_succ, List.getElem?_cons_zero, Option.some.injEq] at h
        exact h ▸ continues_mask _
      · simp at h

theorem not_mid_encode (s t : List Char) : midSequence (encode (s ++ t)) (encode s).length = false := by
  rw [encode_append, midSequence, List.getElem?_append_right (le_refl _), Nat.sub_self]
  cases t with
  | nil => rfl
  | cons c t =>
    have hpos := (char_bytes c).1
    rw [encode_cons, List.getElem?_append_left (by omega)]
    obtain ⟨b, hb⟩ : ∃ b, (String.utf8EncodeChar c)[0]? = some b := ⟨_, List.getElem?_eq_getElem (by omega)⟩
    rw [hb, Option.any_some, ← Bool.not_eq_true, continues_iff c hb]
    exact fun h => h rfl

theorem exists_append_of_not_mid {s : List Char} {n : Nat} (hn : n ≤ (encode s).length) (h : midSequence (encode s) n = false) :
    ∃ a b, s = a ++ b ∧ (encode a).length = n := by
  induction s generalizing n with
  | nil => exact ⟨[], [], rfl, (Nat.le_zero.mp hn).symm⟩
  | cons c s ih =>
    rw [encode_cons] at h hn
    by_cases hpast : (String.utf8EncodeChar c).length ≤ n
    · rw [List.length_append] at hn
      rw [midSequence, List.getElem?_append_right hpast] at h
      obtain ⟨a, b, rfl, hlen⟩ := ih (n := n - (String.utf8EncodeChar c).length) (by omega) h
      refine ⟨c :: a, b, rfl, ?_⟩
      rw [encode_cons, List.length_append, hlen]
      omega
    · rw [midSequence, List.getElem?_append_left (by omega)] at h
      obtain ⟨x, hx⟩ : ∃ x, (String.utf8EncodeChar c)[n]? = some x := ⟨_, List.getElem?_eq_getElem (by omega)⟩
      rw [hx, Option.any_some, ← Bool.not_eq_true, continues_iff c hx, ne_eq, Classical.not_not] at h
      exact ⟨[], c :: s, rfl, h.symm⟩

/-- The last offset up to the given one that lies in no character. -/
def stepBack (bytes : List UInt8) : Nat → Nat
  | 0 => 0
  | n + 1 => if midSequence bytes (n + 1) then stepBack bytes n else n + 1

theorem stepBack_le (bytes : List UInt8) (n : Nat) : stepBack bytes n ≤ n := by
  induction n with
  | zero => rfl
  | succ n ih =>
    rw [stepBack]
    split <;> omega

theorem le_stepBack {bytes : List UInt8} {m n : Nat} (hm : midSequence bytes m = false) (h : m ≤ n) : m ≤ stepBack bytes n := by
  induction n with
  | zero => omega
  | succ n ih =>
    rw [stepBack]
    split
    · rename_i hmid
      refine ih ?_
      rcases Nat.lt_or_eq_of_le h with hlt | rfl
      · omega
      · rw [hm] at hmid
        cases hmid
    · exact h

theorem not_mid_stepBack {bytes : List UInt8} {n : Nat} (h : stepBack bytes n ≠ 0) : midSequence bytes (stepBack bytes n) = false := by
  induction n with
  | zero => exact absurd rfl h
  | succ n ih =>
    rw [stepBack] at h ⊢
    split
    · rename_i hmid
      rw [if_pos hmid] at h
      exact ih h
    · rename_i hmid
      simpa using hmid

theorem exists_cut {s : List Char} {room : Nat} (hroom : 4 ≤ room) (hlong : room < (encode s).length) :
    ∃ a b, s = a ++ b ∧ a ≠ [] ∧ b ≠ [] ∧ (encode a).length = stepBack (encode s) room := by
  obtain ⟨c, t, rfl⟩ : ∃ c t, s = c :: t := List.exists_cons_of_ne_nil (by
    rintro rfl
    simp at hlong)
  have hfirst : midSequence (encode (c :: t)) (String.utf8EncodeChar c).length = false := by
    have h := not_mid_encode [c] t
    rwa [encode_cons c [], encode_nil, List.append_nil] at h
  have hchar := char_bytes c
  have hpos := le_stepBack hfirst (hchar.2.trans hroom)
  have hback := stepBack_le (encode (c :: t)) room
  obtain ⟨a, b, hab, hlen⟩ := exists_append_of_not_mid (hback.trans hlong.le) (not_mid_stepBack (by omega))
  refine ⟨a, b, hab, ?_, ?_, hlen⟩
  · rintro rfl
    rw [encode_nil, List.length_nil] at hlen
    omega
  · rintro rfl
    rw [hab, List.append_nil] at hlong
    rw [hab, List.append_nil] at hlen hback
    omega

end Utf8

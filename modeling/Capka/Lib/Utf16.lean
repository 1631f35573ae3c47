import Capka.Lib.Json
import Capka.Lib.Search
import Capka.Lib.Utf8Lossy

/-!
# Text in UTF-8

A text is written in UTF-8 character by character. A pair of surrogates is one character, and a surrogate without its pair is written as the
replacement character, so that texts of the same characters have the same bytes. A text behind its length in bytes and a colon ends where it
ends.
-/

namespace Ecma

/-- The character of a unit that is no half of a pair. -/
def loneChar (u : UInt16) : Char := if isHigh u || isLow u then Utf8.replacement else Char.ofNat u.toNat

/-- The character of a pair. -/
def pairChar (u v : UInt16) : Char := Char.ofNat (0x10000 + (u.toNat - 0xd800) * 0x400 + (v.toNat - 0xdc00))

/-- The characters of a text. -/
def scalars : Units → List Char
  | [] => []
  | [u] => [loneChar u]
  | u :: v :: rest => if isHigh u && isLow v then pairChar u v :: scalars rest else loneChar u :: scalars (v :: rest)

/-- The bytes of a text. -/
def toUtf8 (s : Units) : List UInt8 := Utf8.encode (scalars s)

/-- Every surrogate is half of a pair. -/
def isWellFormed : Units → Bool
  | [] => true
  | [u] => !(isHigh u || isLow u)
  | u :: v :: rest => if isHigh u && isLow v then isWellFormed rest else !(isHigh u || isLow u) && isWellFormed (v :: rest)

/-- A text behind its length in bytes. -/
def lengthPrefixed (s : Units) : Units := decimal (utf8Length s) ++ 0x3a :: s

/-- Characters behind their length in bytes. -/
def prefixedChars (cs : List Char) : List Char := Nat.toDigits 10 (Utf8.encode cs).length ++ ':' :: cs

/-! ## Characters -/

theorem isHigh_iff {u : UInt16} : isHigh u = true ↔ 0xd800 ≤ u.toNat ∧ u.toNat ≤ 0xdbff := by
  simp [isHigh, UInt16.le_iff_toNat_le]

theorem isLow_iff {u : UInt16} : isLow u = true ↔ 0xdc00 ≤ u.toNat ∧ u.toNat ≤ 0xdfff := by
  simp [isLow, UInt16.le_iff_toNat_le]

theorem surrogate_iff {u : UInt16} : (isHigh u || isLow u) = true ↔ 0xd800 ≤ u.toNat ∧ u.toNat ≤ 0xdfff := by
  rw [Bool.or_eq_true, isHigh_iff, isLow_iff]
  omega

theorem toNat_ofNat_char {n : Nat} (h : n < 0xd800 ∨ 0xdfff < n ∧ n < 0x110000) : (Char.ofNat n).toNat = n := by
  have hvalid : n.isValidChar := h
  simp only [Char.ofNat, dif_pos hvalid]
  exact Char.toNat_ofNatAux hvalid

theorem toNat_loneChar (u : UInt16) : (loneChar u).toNat = if isHigh u || isLow u then 0xfffd else u.toNat := by
  have hlt := u.toNat_lt
  unfold loneChar
  split_ifs with h
  · rfl
  · rw [surrogate_iff] at h
    exact toNat_ofNat_char (by omega)

theorem toNat_pairChar {u v : UInt16} (hu : isHigh u = true) (hv : isLow v = true) :
    (pairChar u v).toNat = 0x10000 + (u.toNat - 0xd800) * 0x400 + (v.toNat - 0xdc00) := by
  rw [isHigh_iff] at hu
  rw [isLow_iff] at hv
  exact toNat_ofNat_char (by omega)

theorem scalars_pair {u v : UInt16} (h : (isHigh u && isLow v) = true) (rest : Units) :
    scalars (u :: v :: rest) = pairChar u v :: scalars rest := by
  rw [scalars, if_pos h]

theorem scalars_lone {u : UInt16} {rest : Units} (h : pairs u rest = false) : scalars (u :: rest) = loneChar u :: scalars rest := by
  cases rest with
  | nil => rfl
  | cons v rest =>
    have hpair : (isHigh u && isLow v) = false := h
    rw [scalars, if_neg (by simp [hpair])]

theorem pairs_of_ascii {u : UInt16} (h : u.toNat < 0x80) (rest : Units) : pairs u rest = false := by
  have hhigh : isHigh u = false := by
    rw [Bool.eq_false_iff]
    intro hu
    rw [isHigh_iff] at hu
    omega
  rw [pairs, hhigh, Bool.false_and]

theorem loneChar_of_ascii {u : UInt16} (h : u.toNat < 0x80) : loneChar u = Char.ofNat u.toNat := by
  unfold loneChar
  rw [if_neg]
  rw [surrogate_iff]
  omega

theorem scalars_ascii {u : UInt16} (h : u.toNat < 0x80) (rest : Units) : scalars (u :: rest) = Char.ofNat u.toNat :: scalars rest := by
  rw [scalars_lone (pairs_of_ascii h rest), loneChar_of_ascii h]

/-- The text begins with no second half of a pair. -/
def Fresh (t : Units) : Prop := ∀ u ∈ t.head?, isLow u = false

theorem fresh_nil : Fresh [] := by simp [Fresh]

theorem fresh_ascii {u : UInt16} (h : u.toNat < 0x80) (rest : Units) : Fresh (u :: rest) := by
  intro v hv
  obtain rfl : u = v := by simpa using hv
  rw [Bool.eq_false_iff]
  intro hlow
  rw [isLow_iff] at hlow
  omega

/-- Texts are joined character by character where no pair comes about. -/
theorem scalars_append (s : Units) {t : Units} (ht : Fresh t) : scalars (s ++ t) = scalars s ++ scalars t := by
  induction s using scalars.induct with
  | case1 => rfl
  | case2 u =>
    have hpair : pairs u t = false := by
      unfold pairs
      cases t with
      | nil => simp
      | cons v t => simp [ht v (by simp)]
    exact scalars_lone hpair
  | case3 u v rest h ih =>
    rw [List.cons_append, List.cons_append, scalars_pair h, scalars_pair h, ih]
    rfl
  | case4 u v rest h ih =>
    have hpair : ∀ rest, pairs u (v :: rest) = false := fun _ => by simpa [pairs] using h
    rw [List.cons_append, List.cons_append, scalars_lone (hpair _), scalars_lone (hpair _), ← List.cons_append, ih]
    rfl

/-! ## Lengths -/

theorem utf8Size_eq (c : Char) :
    c.utf8Size = if c.toNat < 0x80 then 1 else if c.toNat < 0x800 then 2 else if c.toNat < 0x10000 then 3 else 4 := by
  have h₁ : c.val ≤ 0x7f ↔ c.toNat ≤ 0x7f := UInt32.le_iff_toNat_le
  have h₂ : c.val ≤ 0x7ff ↔ c.toNat ≤ 0x7ff := UInt32.le_iff_toNat_le
  have h₃ : c.val ≤ 0xffff ↔ c.toNat ≤ 0xffff := UInt32.le_iff_toNat_le
  have hsize : c.utf8Size = if c.val ≤ 0x7f then 1 else if c.val ≤ 0x7ff then 2 else if c.val ≤ 0xffff then 3 else 4 := rfl
  rw [hsize]
  simp only [h₁, h₂, h₃]
  split_ifs <;> omega

theorem utf8From_lone {u : UInt16} {rest : Units} (h : pairs u rest = false) :
    utf8From false (u :: rest) = (loneChar u).utf8Size + utf8From false rest := by
  have hlt := u.toNat_lt
  rw [utf8From, utf8Size_eq, toNat_loneChar]
  simp only [UInt16.lt_iff_toNat_lt, UInt16.reduceToNat, h, Bool.false_eq_true, if_false]
  by_cases hs : (isHigh u || isLow u) = true
  · rw [if_pos hs]
    rw [surrogate_iff] at hs
    split_ifs <;> omega
  · rw [if_neg hs]
    split_ifs <;> omega

theorem length_toUtf8 (s : Units) : (toUtf8 s).length = utf8Length s := by
  unfold toUtf8 utf8Length
  induction s using scalars.induct with
  | case1 => rfl
  | case2 u =>
    rw [scalars, Utf8.encode_cons, List.length_append, String.length_utf8EncodeChar, utf8From_lone (by simp [pairs])]
    rfl
  | case3 u v rest h ih =>
    rw [scalars_pair h, Utf8.encode_cons, List.length_append, String.length_utf8EncodeChar, ih]
    have hpairs : pairs u (v :: rest) = true := h
    rw [Bool.and_eq_true] at h
    have hhigh := isHigh_iff.mp h.1
    have hchar := toNat_pairChar h.1 h.2
    rw [utf8Size_eq, hchar, utf8From, utf8From]
    simp only [UInt16.lt_iff_toNat_lt, UInt16.reduceToNat, hpairs, if_true]
    split_ifs <;> omega
  | case4 u v rest h ih =>
    have hpair : pairs u (v :: rest) = false := by simpa [pairs] using h
    rw [scalars_lone hpair, Utf8.encode_cons, List.length_append, String.length_utf8EncodeChar, ih, utf8From_lone hpair]

/-! ## Bytes -/

theorem encode_injective : Function.Injective Utf8.encode := by
  intro s t h
  rw [← Utf8.decode_encode s, ← Utf8.decode_encode t, h]

theorem toUtf8_eq_iff {s t : Units} : toUtf8 s = toUtf8 t ↔ scalars s = scalars t := encode_injective.eq_iff

theorem ofChar_loneChar {u : UInt16} (h : (isHigh u || isLow u) = false) : ofChar (loneChar u) = [u] := by
  have hchar := toNat_loneChar u
  rw [h, if_neg (by decide)] at hchar
  rw [ofChar, hchar, if_pos (by have := u.toNat_lt; omega), UInt16.ofNat_toNat]

theorem ofChar_pairChar {u v : UInt16} (hu : isHigh u = true) (hv : isLow v = true) : ofChar (pairChar u v) = [u, v] := by
  rw [ofChar, toNat_pairChar hu hv, if_neg (by omega)]
  rw [isHigh_iff] at hu
  rw [isLow_iff] at hv
  have hfirst : 0xd800 + (0x10000 + (u.toNat - 0xd800) * 0x400 + (v.toNat - 0xdc00) - 0x10000) / 0x400 = u.toNat := by omega
  have hsecond : 0xdc00 + (0x10000 + (u.toNat - 0xd800) * 0x400 + (v.toNat - 0xdc00) - 0x10000) % 0x400 = v.toNat := by omega
  rw [hfirst, hsecond, UInt16.ofNat_toNat, UInt16.ofNat_toNat]

theorem flatMap_scalars {s : Units} (h : isWellFormed s = true) : (scalars s).flatMap ofChar = s := by
  induction s using scalars.induct with
  | case1 => rfl
  | case2 u =>
    rw [scalars, List.flatMap_singleton]
    exact ofChar_loneChar (by simpa [isWellFormed] using h)
  | case3 u v rest hpair ih =>
    rw [isWellFormed, if_pos hpair] at h
    rw [scalars_pair hpair, List.flatMap_cons, ih h]
    rw [Bool.and_eq_true] at hpair
    rw [ofChar_pairChar hpair.1 hpair.2]
    rfl
  | case4 u v rest hpair ih =>
    rw [isWellFormed, if_neg hpair, Bool.and_eq_true] at h
    rw [scalars_lone (by simpa [pairs] using hpair), List.flatMap_cons, ih h.2, ofChar_loneChar (by simpa using h.1)]
    rfl

theorem scalars_inj {s t : Units} (hs : isWellFormed s = true) (ht : isWellFormed t = true) (h : scalars s = scalars t) : s = t := by
  rw [← flatMap_scalars hs, ← flatMap_scalars ht, h]

/-! ## Lengths in front -/

theorem scalars_decimal_append (n : Nat) (t : Units) : scalars (decimal n ++ t) = Nat.toDigits 10 n ++ scalars t := by
  have hall : ∀ c ∈ Nat.toDigits 10 n, 0x30 ≤ c.toNat ∧ c.toNat ≤ 0x39 := fun _ hc => digit_bounds hc
  rw [decimal]
  generalize Nat.toDigits 10 n = digits at hall
  induction digits with
  | nil => rfl
  | cons c digits ih =>
    have hc := hall c List.mem_cons_self
    have hunit : (UInt16.ofNat c.toNat).toNat = c.toNat := UInt16.toNat_ofNat_of_lt' (by simp only [UInt16.size]; omega)
    rw [List.map_cons, List.cons_append, scalars_ascii (by omega), hunit, Char.ofNat_toNat, ih fun d hd => hall d (List.mem_cons_of_mem _ hd)]
    rfl

theorem scalars_lengthPrefixed_append (s : Units) {t : Units} (ht : Fresh t) :
    scalars (lengthPrefixed s ++ t) = prefixedChars (scalars s) ++ scalars t := by
  rw [lengthPrefixed, List.append_assoc, scalars_decimal_append, List.cons_append, scalars_ascii (by decide), scalars_append s ht,
    ← length_toUtf8, prefixedChars, toUtf8, List.append_assoc]
  rfl

theorem fresh_lengthPrefixed_append (s t : Units) : Fresh (lengthPrefixed s ++ t) := by
  intro u hu
  rw [lengthPrefixed, List.append_assoc] at hu
  cases hd : decimal (utf8Length s) with
  | nil =>
    rw [hd] at hu
    exact fresh_ascii (by decide) _ u hu
  | cons d rest =>
    have hmem : d ∈ decimal (utf8Length s) := by rw [hd]; exact List.mem_cons_self
    rw [hd] at hu
    have hbounds := decimal_bounds hmem
    exact fresh_ascii (by omega) _ u hu

theorem toDigits_append_inj {m n : Nat} {r s : List Char} (h : Nat.toDigits 10 m ++ ':' :: r = Nat.toDigits 10 n ++ ':' :: s) :
    m = n ∧ r = s := by
  have hcolon : ∀ k, ':' ∉ Nat.toDigits 10 k := fun k hmem => absurd (digit_bounds hmem).2 (by decide)
  obtain ⟨hdigits, hrest⟩ := Search.append_cons_inj (hcolon m) (hcolon n) h
  exact ⟨toDigits_injective hdigits, hrest⟩

theorem prefixedChars_append_inj {a b r s : List Char} (h : prefixedChars a ++ r = prefixedChars b ++ s) : a = b ∧ r = s := by
  rw [prefixedChars, prefixedChars, List.append_assoc, List.append_assoc, List.cons_append, List.cons_append] at h
  obtain ⟨hlen, hrest⟩ := toDigits_append_inj h
  have hbytes := congrArg Utf8.encode hrest
  rw [Utf8.encode_append, Utf8.encode_append] at hbytes
  obtain ⟨ha, hr⟩ := List.append_inj hbytes hlen
  exact ⟨encode_injective ha, encode_injective hr⟩

end Ecma

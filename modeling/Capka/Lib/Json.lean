import Mathlib

/-!
# Text and JSON

Text is UTF-16 code units. `Json` is a value as `JSON.parse` makes it, a member that is absent being no member and an absent value `null`;
`stringify` is what `JSON.stringify` writes of it. A string in quotes, and a value before what cannot carry a number on, ends where it
ends: nothing that follows is read as part of it.
-/

namespace Ecma

/-- Text: UTF-16 code units. -/
abbrev Units := List UInt16

/-- The units of a character: one, or a pair. -/
def ofChar (c : Char) : Units :=
  if c.toNat < 0x10000 then [UInt16.ofNat c.toNat]
  else [UInt16.ofNat (0xd800 + (c.toNat - 0x10000) / 0x400), UInt16.ofNat (0xdc00 + (c.toNat - 0x10000) % 0x400)]

/-- The text of characters. -/
def ofString (s : String) : Units := s.toList.flatMap ofChar

/-- The white space of a regular expression, and what `trim` takes off. -/
def isSpace (u : UInt16) : Bool :=
  (0x9 ≤ u && u ≤ 0xd) || u = 0x20 || u = 0xa0 || u = 0x1680 || (0x2000 ≤ u && u ≤ 0x200a) || u = 0x2028 || u = 0x2029 ||
    u = 0x202f || u = 0x205f || u = 0x3000 || u = 0xfeff

def isHigh (u : UInt16) : Bool := 0xd800 ≤ u && u ≤ 0xdbff

def isLow (u : UInt16) : Bool := 0xdc00 ≤ u && u ≤ 0xdfff

/-- A surrogate with its pair behind it. -/
def pairs (u : UInt16) (rest : Units) : Bool := isHigh u && rest.head?.any isLow

/-- The bytes of a text in UTF-8, of which the first unit is the second of a pair, or it is not: two to each half of a pair, three to a
surrogate without its pair. -/
def utf8From : Bool → Units → Nat
  | _, [] => 0
  | true, _ :: rest => 2 + utf8From false rest
  | false, u :: rest =>
    if u < 0x80 then 1 + utf8From false rest
    else if u < 0x800 then 2 + utf8From false rest
    else if pairs u rest then 2 + utf8From true rest
    else 3 + utf8From false rest

/-- The bytes of a text in UTF-8. -/
def utf8Length (s : Units) : Nat := utf8From false s

theorem length_le_utf8From (paired : Bool) (s : Units) : s.length ≤ utf8From paired s := by
  induction s generalizing paired with
  | nil => simp [utf8From]
  | cons u rest ih =>
    have htrue := ih true
    have hfalse := ih false
    cases paired with
    | true =>
      rw [utf8From, List.length_cons]
      omega
    | false =>
      rw [utf8From, List.length_cons]
      split_ifs <;> omega

theorem length_le_utf8Length (s : Units) : s.length ≤ utf8Length s := length_le_utf8From false s

/-! ## Numbers -/

/-- The decimal digits of a whole number. -/
def decimal (n : Nat) : Units := (Nat.toDigits 10 n).map fun c => UInt16.ofNat c.toNat

variable {n : Nat}

theorem digit_bounds {c : Char} (h : c ∈ Nat.toDigits 10 n) : 0x30 ≤ c.toNat ∧ c.toNat ≤ 0x39 := by
  have hdigit := Nat.isDigit_of_mem_toDigits (by decide) (by decide) h
  simp only [Char.isDigit, Bool.and_eq_true, decide_eq_true_eq, UInt32.le_iff_toNat_le] at hdigit
  exact hdigit

theorem toNat_digit {c : Char} (h : c ∈ Nat.toDigits 10 n) : (UInt16.ofNat c.toNat).toNat = c.toNat := by
  have hbounds := digit_bounds h
  exact UInt16.toNat_ofNat_of_lt' (by simp only [UInt16.size]; omega)

variable {u : UInt16}

theorem decimal_bounds (h : u ∈ decimal n) : 0x30 ≤ u.toNat ∧ u.toNat ≤ 0x39 := by
  obtain ⟨c, hc, rfl⟩ := List.mem_map.mp h
  rw [toNat_digit hc]
  exact digit_bounds hc

theorem toDigits_injective : Function.Injective (Nat.toDigits 10) := by
  intro m n h
  have hnumber := congrArg (fun l => Nat.ofDigitChars 10 l 0) h
  simpa only [Nat.ofDigitChars_ten_toDigits] using hnumber

theorem decimal_injective : Function.Injective decimal := by
  have hdecode : ∀ k, (decimal k).map (fun u => Char.ofNat u.toNat) = Nat.toDigits 10 k := by
    intro k
    rw [decimal, List.map_map]
    refine (List.map_congr_left fun c hc => ?_).trans (List.map_id _)
    rw [Function.comp_apply, toNat_digit hc, Char.ofNat_toNat, id_eq]
  intro m n h
  have hdigits := congrArg (List.map fun u => Char.ofNat u.toNat) h
  rw [hdecode, hdecode] at hdigits
  exact toDigits_injective hdigits

theorem decimal_length_le {e : Nat} (he : 0 < e) (h : n < 10 ^ e) : (decimal n).length ≤ e := by
  rw [decimal, List.length_map]
  exact Nat.toDigits_length 10 n e he h

/-- The text of a count: its digits, and from `1e21` on, where no count gets, its first digit and the exponent. -/
def ofNumber (n : Nat) : Units :=
  if n < 10 ^ 21 then decimal n
  else if n < 10 ^ 308 then decimal (n / 10 ^ (Nat.log 10 n)) ++ ofString "e+" ++ decimal (Nat.log 10 n)
  else ofString "Infinity"

theorem ofNumber_length (n : Nat) : (ofNumber n).length ≤ 21 := by
  unfold ofNumber
  split_ifs with h h'
  · exact decimal_length_le (by omega) h
  · have hpos : n ≠ 0 := by
      rintro rfl
      exact h (by positivity)
    have hlead : n / 10 ^ (Nat.log 10 n) < 10 ^ 1 := by
      rw [Nat.div_lt_iff_lt_mul (by positivity), ← Nat.pow_add, Nat.add_comm]
      exact Nat.lt_pow_succ_log_self (by omega) n
    have hlog : Nat.log 10 n < 10 ^ 3 := lt_of_lt_of_le (Nat.log_lt_of_lt_pow hpos h') (by norm_num)
    have h₁ := decimal_length_le (by omega) hlead
    have h₂ := decimal_length_le (by omega) hlog
    have h₃ : (ofString "e+").length = 2 := by decide
    simp only [List.length_append]
    omega
  · decide

/-- A unit of a number's text. -/
def isNumeric (u : UInt16) : Bool := (0x30 ≤ u && u ≤ 0x39) || u = 0x2d || u = 0x2b || u = 0x2e || u = 0x65

/-- The text of a number: a few numeric units, of which the first is a digit or a minus. -/
structure Numeral where
  text : Units
  numeric : ∀ u ∈ text, isNumeric u = true
  begins : ∃ u ∈ text.head?, (0x30 ≤ u ∧ u ≤ 0x39) ∨ u = 0x2d
  short : text.length ≤ 25

/-! ## Strings in quotes -/

/-- A lower-case hexadecimal digit. -/
def hexDigit (d : Nat) : UInt16 := if d < 10 then UInt16.ofNat (0x30 + d) else UInt16.ofNat (0x57 + d)

/-- A unit by its number. -/
def hexEscape (u : UInt16) : Units :=
  [0x5c, 0x75, hexDigit (u.toNat / 4096 % 16), hexDigit (u.toNat / 256 % 16), hexDigit (u.toNat / 16 % 16), hexDigit (u.toNat % 16)]

/-- A unit in quotes. -/
def escape (u : UInt16) : Units :=
  if u = 0x08 then [0x5c, 0x62]
  else if u = 0x09 then [0x5c, 0x74]
  else if u = 0x0a then [0x5c, 0x6e]
  else if u = 0x0c then [0x5c, 0x66]
  else if u = 0x0d then [0x5c, 0x72]
  else if u = 0x22 then [0x5c, 0x22]
  else if u = 0x5c then [0x5c, 0x5c]
  else if u < 0x20 || isHigh u || isLow u then hexEscape u
  else [u]

/-- A text in quotes, without them; the first unit is the second of a pair, or it is not. Pairs stand as they are. -/
def quoteBody : Bool → Units → Units
  | _, [] => []
  | true, u :: rest => u :: quoteBody false rest
  | false, u :: rest =>
    if pairs u rest then u :: quoteBody true rest else escape u ++ quoteBody false rest

/-- A text in quotes. -/
def quote (s : Units) : Units := 0x22 :: (quoteBody false s ++ [0x22])

theorem escape_length (u : UInt16) : 1 ≤ (escape u).length ∧ (escape u).length ≤ 6 := by
  unfold escape hexEscape
  split_ifs <;> simp

theorem quoteBody_length (paired : Bool) (s : Units) :
    s.length ≤ (quoteBody paired s).length ∧ (quoteBody paired s).length ≤ 6 * s.length := by
  induction s generalizing paired with
  | nil => simp [quoteBody]
  | cons u rest ih =>
    have htrue := ih true
    have hfalse := ih false
    have hescape := escape_length u
    cases paired with
    | true =>
      rw [quoteBody, List.length_cons, List.length_cons]
      omega
    | false =>
      rw [quoteBody]
      split
      · rw [List.length_cons, List.length_cons]
        omega
      · rw [List.length_append, List.length_cons]
        omega

theorem quote_length (s : Units) : s.length + 2 ≤ (quote s).length ∧ (quote s).length ≤ 6 * s.length + 2 := by
  have := quoteBody_length false s
  simp only [quote, List.length_cons, List.length_append, List.length_nil]
  omega

/-! ### Where a string in quotes ends -/

/-- The unit a letter behind a backslash stands for. -/
def shortEscape (c : UInt16) : UInt16 :=
  if c = 0x62 then 0x08 else if c = 0x74 then 0x09 else if c = 0x6e then 0x0a else if c = 0x66 then 0x0c else if c = 0x72 then 0x0d else c

/-- The number of a hexadecimal digit. -/
def hexValue (u : UInt16) : Nat := if u < 0x40 then u.toNat - 0x30 else u.toNat - 0x57

/-- Read one unit in quotes: it, whether it stands as itself, and what follows. -/
def unescape : Units → Option (UInt16 × Bool × Units)
  | 0x5c :: 0x75 :: a :: b :: c :: d :: rest =>
    some (UInt16.ofNat (((hexValue a * 16 + hexValue b) * 16 + hexValue c) * 16 + hexValue d), false, rest)
  | 0x5c :: c :: rest => some (shortEscape c, false, rest)
  | u :: rest => some (u, true, rest)
  | [] => none

theorem hexValue_hexDigit : ∀ d < 16, hexValue (hexDigit d) = d := by decide

theorem unescape_hexEscape (u : UInt16) (rest : Units) : unescape (hexEscape u ++ rest) = some (u, false, rest) := by
  have hlt := u.toNat_lt
  have h : ∀ n, hexValue (hexDigit (n % 16)) = n % 16 := fun n => hexValue_hexDigit _ (Nat.mod_lt _ (by decide))
  simp only [hexEscape, List.cons_append, List.nil_append, unescape, h]
  have hsum : ((u.toNat / 4096 % 16 * 16 + u.toNat / 256 % 16) * 16 + u.toNat / 16 % 16) * 16 + u.toNat % 16 = u.toNat := by omega
  rw [hsum, UInt16.ofNat_toNat]

/-- A unit stands as itself in quotes unless it is escaped. -/
def plain (u : UInt16) : Bool :=
  !(u = 0x08 || u = 0x09 || u = 0x0a || u = 0x0c || u = 0x0d || u = 0x22 || u = 0x5c || u < 0x20 || isHigh u || isLow u)

theorem escape_of_plain (h : plain u = true) : escape u = [u] := by
  simp only [plain, Bool.not_eq_true', Bool.or_eq_false_iff, decide_eq_false_iff_not] at h
  simp [escape, h]

theorem unescape_of_ne (h : u ≠ 0x5c) (rest : Units) : unescape (u :: rest) = some (u, true, rest) := by
  unfold unescape
  split
  · rename_i heq
    exact absurd (List.cons.inj heq).1 h
  · rename_i heq
    exact absurd (List.cons.inj heq).1 h
  · rename_i heq
    obtain ⟨rfl, rfl⟩ := List.cons.inj heq
    rfl
  · rename_i heq
    cases heq

theorem unescape_escape (u : UInt16) (rest : Units) : unescape (escape u ++ rest) = some (u, plain u, rest) := by
  by_cases hplain : plain u = true
  · rw [escape_of_plain hplain, hplain]
    refine unescape_of_ne ?_ rest
    rintro rfl
    exact absurd hplain (by decide)
  · rw [Bool.not_eq_true] at hplain
    unfold escape
    split_ifs with h₁ h₂ h₃ h₄ h₅ h₆ h₇ h₈
    · rw [h₁]; rfl
    · rw [h₂]; rfl
    · rw [h₃]; rfl
    · rw [h₄]; rfl
    · rw [h₅]; rfl
    · rw [h₆]; rfl
    · rw [h₇]; rfl
    · rw [unescape_hexEscape, hplain]
    · rw [Bool.not_eq_true] at h₈
      simp [plain, h₁, h₂, h₃, h₄, h₅, h₆, h₇, h₈] at hplain

theorem not_plain_of_surrogate (h : (isHigh u || isLow u) = true) : u ≠ 0x5c ∧ plain u = false := by
  refine ⟨?_, ?_⟩
  · rintro rfl
    revert h
    decide
  · rw [Bool.or_eq_true] at h
    rcases h with h | h <;> simp [plain, h]

/-- The unit stands as half of a pair. -/
def halves (paired : Bool) (u : UInt16) (rest : Units) : Bool := paired || pairs u rest

variable {paired : Bool} {rest : Units}

/-- The first unit of a text in quotes is read back, and the rest of the text is left. -/
theorem unescape_quoteBody (hp : paired = true → isLow u = true) (x : Units) :
    unescape (quoteBody paired (u :: rest) ++ x) =
      some (u, halves paired u rest || plain u, quoteBody (!paired && pairs u rest) rest ++ x) := by
  cases paired with
  | true =>
    have hsurrogate := not_plain_of_surrogate (u := u) (by simp [hp rfl])
    rw [quoteBody, List.cons_append, unescape_of_ne hsurrogate.1]
    rfl
  | false =>
    rw [quoteBody]
    by_cases hpairs : pairs u rest = true
    · have hsurrogate := not_plain_of_surrogate (u := u) (by
        rw [pairs, Bool.and_eq_true] at hpairs
        simp [hpairs.1])
      rw [if_pos hpairs, List.cons_append, unescape_of_ne hsurrogate.1]
      simp [halves, hpairs]
    · rw [if_neg hpairs, List.append_assoc, unescape_escape]
      simp [halves, hpairs]

theorem surrogate_of_halves (hp : paired = true → isLow u = true)
    (h : halves paired u rest = true) : (isHigh u || isLow u) = true := by
  rw [halves, Bool.or_eq_true] at h
  rcases h with h | h
  · simp [hp h]
  · rw [pairs, Bool.and_eq_true] at h
    simp [h.1]

theorem unescape_quoteBody_ne (hp : paired = true → isLow u = true) (x r : Units) :
    unescape (quoteBody paired (u :: rest) ++ x) ≠ unescape (0x22 :: r) := by
  rw [unescape_quoteBody hp, unescape_of_ne (by decide)]
  intro h
  obtain ⟨rfl, hflag⟩ := Prod.mk.inj (Option.some.inj h)
  have hstands := (Prod.mk.inj hflag).1
  rw [Bool.or_eq_true] at hstands
  rcases hstands with hhalf | hplain
  · exact absurd (surrogate_of_halves hp hhalf) (by decide)
  · exact absurd hplain (by decide)

@[simp] theorem quoteBody_nil (paired : Bool) : quoteBody paired [] = [] := by
  cases paired <;> rfl

theorem quoteBody_append {a b r s : Units} (ha : paired = true → a.head?.all isLow = true)
    (hb : paired = true → b.head?.all isLow = true) (h : quoteBody paired a ++ 0x22 :: r = quoteBody paired b ++ 0x22 :: s) :
    a = b ∧ r = s := by
  induction a generalizing paired b with
  | nil =>
    cases b with
    | nil =>
      rw [quoteBody_nil] at h
      exact ⟨rfl, (List.cons.inj h).2⟩
    | cons v b =>
      rw [quoteBody_nil, List.nil_append] at h
      exact absurd (congrArg unescape h).symm (unescape_quoteBody_ne hb _ _)
  | cons u a ih =>
    cases b with
    | nil =>
      rw [quoteBody_nil, List.nil_append] at h
      exact absurd (congrArg unescape h) (unescape_quoteBody_ne ha _ _)
    | cons v b =>
      have hread := congrArg unescape h
      rw [unescape_quoteBody ha, unescape_quoteBody hb] at hread
      obtain ⟨rfl, hread⟩ := Prod.mk.inj (Option.some.inj hread)
      obtain ⟨hflag, htail⟩ := Prod.mk.inj hread
      -- the flag tells a half of a pair from a surrogate that stands alone
      have hhalves : halves paired u a = halves paired u b := by
        by_cases hsurrogate : (isHigh u || isLow u) = true
        · rw [(not_plain_of_surrogate hsurrogate).2, Bool.or_false, Bool.or_false] at hflag
          exact hflag
        · rw [Bool.eq_false_iff.mpr fun hh => hsurrogate (surrogate_of_halves ha hh),
            Bool.eq_false_iff.mpr fun hh => hsurrogate (surrogate_of_halves hb hh)]
      have hnext : (!paired && pairs u a) = (!paired && pairs u b) := by
        cases paired with
        | true => rfl
        | false => exact hhalves
      rw [← hnext] at htail
      have hlow : ∀ {c : Units}, (!paired && pairs u c) = true → c.head?.all isLow = true := by
        intro c hc
        rw [pairs, Bool.and_eq_true, Bool.and_eq_true] at hc
        obtain ⟨w, hw, hl⟩ := (Option.any_eq_true _ _).mp hc.2.2
        rw [hw]
        exact hl
      obtain ⟨rfl, hrest⟩ := ih hlow (fun hn => hlow (hnext ▸ hn)) htail
      exact ⟨rfl, hrest⟩

theorem quote_append {a b r s : Units} (h : quote a ++ r = quote b ++ s) : a = b ∧ r = s := by
  simp only [quote, List.cons_append, List.append_assoc, List.nil_append, List.cons.injEq, true_and] at h
  exact quoteBody_append (by simp) (by simp) h

/-! ## Values -/

inductive Json where
  | null
  | bool (b : Bool)
  | num (n : Numeral)
  | str (s : Units)
  | arr (items : List Json)
  | obj (fields : List (Units × Json))

/-- Texts with a unit between them. -/
def joined (sep : UInt16) (texts : List Units) : Units := [sep].intercalate texts

theorem joined_cons_cons (sep : UInt16) (t u : Units) (texts : List Units) :
    joined sep (t :: u :: texts) = t ++ sep :: joined sep (u :: texts) := by
  simp [joined]

theorem joined_length (sep : UInt16) (texts : List Units) (h : texts ≠ []) :
    (joined sep texts).length + 1 = (texts.map fun t => t.length + 1).sum := by
  induction texts with
  | nil => exact absurd rfl h
  | cons t texts ih =>
    cases texts with
    | nil => simp [joined]
    | cons u texts =>
      rw [joined_cons_cons]
      have := ih (List.cons_ne_nil _ _)
      simp only [List.map_cons, List.sum_cons, List.length_append, List.length_cons] at this ⊢
      omega

/-- Texts with commas between them. -/
def commas (texts : List Units) : Units := joined 0x2c texts

theorem commas_length (texts : List Units) :
    (texts.map fun t => t.length + 1).sum ≤ (commas texts).length + 1 ∧ (commas texts).length ≤ (texts.map fun t => t.length + 1).sum := by
  cases texts with
  | nil => simp [commas, joined]
  | cons t texts =>
    have := joined_length 0x2c (t :: texts) (by simp)
    rw [commas]
    omega

/-- A member of an object. -/
def member (key value : Units) : Units := quote key ++ 0x3a :: value

mutual

/-- `JSON.stringify`. -/
def stringify : Json → Units
  | .null => ofString "null"
  | .bool b => if b then ofString "true" else ofString "false"
  | .num n => n.text
  | .str s => quote s
  | .arr items => 0x5b :: (commas (stringifyItems items) ++ [0x5d])
  | .obj fields => 0x7b :: (commas (stringifyFields fields) ++ [0x7d])

def stringifyItems : List Json → List Units
  | [] => []
  | v :: items => stringify v :: stringifyItems items

def stringifyFields : List (Units × Json) → List Units
  | [] => []
  | (k, v) :: fields => member k (stringify v) :: stringifyFields fields

end

theorem stringifyFields_eq (fields : List (Units × Json)) : stringifyFields fields = fields.map fun f => member f.1 (stringify f.2) := by
  induction fields with
  | nil => rfl
  | cons f fields ih => rw [stringifyFields, ih, List.map_cons]

end Ecma

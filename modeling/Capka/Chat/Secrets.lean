import Mathlib
import Capka.Lib.Json
import Capka.Lib.Replace

/-!
# The secrets of a chat and their redaction

A secret is a name and a value. Before an output reaches the model, `redactSecrets` takes out every value and every spelling of it that a
command prints by accident (`secretEncodings`), the longest first, and writes `[secret:NAME]` in its place. The replacements run one after
the other over one text. No spelling has a bracket in it, and so none can stand across a label.

A label is written with the name, and a name may spell a form: what stands inside a label is not taken out.
-/

namespace Capka.Secrets

open Ecma

def isUpper (u : UInt16) : Bool := 0x41 ≤ u && u ≤ 0x5a

def isLower (u : UInt16) : Bool := 0x61 ≤ u && u ≤ 0x7a

def isDigit (u : UInt16) : Bool := 0x30 ≤ u && u ≤ 0x39

/-- `NAME_RE` -/
def matchesName : Units → Bool
  | [] => false
  | u :: rest => isUpper u && rest.length ≤ 63 && rest.all fun v => isUpper v || isDigit v || v = 0x5f

def maxSecretValueChars : Nat := 8192

def minSecretValueChars : Nat := 6

def minEncodedFormChars : Nat := 8

/-! ## Spellings -/

/-- The code points of a text; a surrogate without its pair is one. -/
def codePoints : Units → List Nat
  | [] => []
  | [u] => [u.toNat]
  | u :: v :: rest =>
    if isHigh u && isLow v then (0x10000 + (u.toNat - 0xd800) * 0x400 + (v.toNat - 0xdc00)) :: codePoints rest
    else u.toNat :: codePoints (v :: rest)

def isSurrogate (c : Nat) : Bool := 0xd800 ≤ c && c ≤ 0xdfff

def isWellFormed (s : Units) : Bool := (codePoints s).all fun c => !isSurrogate c

def isValidSecretValue (value : Units) : Bool :=
  minSecretValueChars ≤ value.length && value.length ≤ maxSecretValueChars && !value.contains 0 && isWellFormed value

/-- The bytes of a code point in UTF-8. -/
def pointBytes (c : Nat) : List UInt8 :=
  if c < 0x80 then [UInt8.ofNat c]
  else if c < 0x800 then [UInt8.ofNat (0xc0 + c / 0x40), UInt8.ofNat (0x80 + c % 0x40)]
  else if c < 0x10000 then
    [UInt8.ofNat (0xe0 + c / 0x1000), UInt8.ofNat (0x80 + c / 0x40 % 0x40), UInt8.ofNat (0x80 + c % 0x40)]
  else
    [UInt8.ofNat (0xf0 + c / 0x40000), UInt8.ofNat (0x80 + c / 0x1000 % 0x40), UInt8.ofNat (0x80 + c / 0x40 % 0x40),
      UInt8.ofNat (0x80 + c % 0x40)]

/-- The bytes of a text, in which a replacement character stands for a surrogate without its pair. -/
def utf8Bytes (s : Units) : List UInt8 := (codePoints s).flatMap fun c => pointBytes (if isSurrogate c then 0xfffd else c)

/-- A digit of base64. -/
def sextet (d : Nat) : UInt16 :=
  if d < 26 then UInt16.ofNat (0x41 + d)
  else if d < 52 then UInt16.ofNat (0x61 + (d - 26))
  else if d < 62 then UInt16.ofNat (0x30 + (d - 52))
  else if d = 62 then 0x2b
  else 0x2f

def base64 : List UInt8 → Units
  | [] => []
  | [a] => [sextet (a.toNat / 4), sextet (a.toNat % 4 * 16), 0x3d, 0x3d]
  | [a, b] => [sextet (a.toNat / 4), sextet (a.toNat % 4 * 16 + b.toNat / 16), sextet (b.toNat % 16 * 4), 0x3d]
  | a :: b :: c :: rest =>
    sextet (a.toNat / 4) :: sextet (a.toNat % 4 * 16 + b.toNat / 16) :: sextet (b.toNat % 16 * 4 + c.toNat / 64) ::
      sextet (c.toNat % 64) :: base64 rest

/-- Without the padding at the end. -/
def unpadded (s : Units) : Units := (s.reverse.dropWhile (· = 0x3d)).reverse

/-- The digit of the url-safe alphabet. -/
def urlSafe (u : UInt16) : UInt16 := if u = 0x2b then 0x2d else if u = 0x2f then 0x5f else u

def hex (bytes : List UInt8) : Units := bytes.flatMap fun b => [hexDigit (b.toNat / 16), hexDigit (b.toNat % 16)]

def toUpper (u : UInt16) : UInt16 := if isLower u then u - 0x20 else u

/-- The text in lines of a width, joined by line breaks. -/
def wrapped (width : Nat) (flat : Units) : Units :=
  [0x0a].intercalate ((List.range ((flat.length + width - 1) / width)).map fun k => (flat.drop (k * width)).take width)

/-- A unit that percent-encoding leaves as it is. -/
def unreserved (u : UInt16) : Bool :=
  isUpper u || isLower u || isDigit u || [0x2d, 0x5f, 0x2e, 0x21, 0x7e, 0x2a, 0x27, 0x28, 0x29].contains u

def percent (bytes : List UInt8) : Units :=
  bytes.flatMap fun b => [0x25, toUpper (hexDigit (b.toNat / 16)), toUpper (hexDigit (b.toNat % 16))]

/-- The percent-encoding of a text; none of one that is not well formed. -/
def encodeURIComponent : Units → Option Units
  | [] => some []
  | [u] =>
    if unreserved u then some [u] else if isSurrogate u.toNat then none else some (percent (pointBytes u.toNat))
  | u :: v :: rest =>
    if isHigh u && isLow v then
      (encodeURIComponent rest).map
        (percent (pointBytes (0x10000 + (u.toNat - 0xd800) * 0x400 + (v.toNat - 0xdc00))) ++ ·)
    else if unreserved u then (encodeURIComponent (v :: rest)).map (u :: ·)
    else if isSurrogate u.toNat then none
    else (encodeURIComponent (v :: rest)).map (percent (pointBytes u.toNat) ++ ·)

/-- The spellings of the base64 of bytes on one line. -/
def flatForms (bytes : List UInt8) : List Units :=
  [base64 bytes, unpadded (base64 bytes), (base64 bytes).map urlSafe, unpadded ((base64 bytes).map urlSafe)]

/-- The spellings of a value that the model could read back out as the value, without the value. -/
def secretEncodings (value : Units) : List Units :=
  flatForms (utf8Bytes value) ++ [hex (utf8Bytes value), (hex (utf8Bytes value)).map toUpper] ++
    [76, 64].flatMap (fun width =>
      ((flatForms (utf8Bytes value)).eraseDups.filter fun flat => width < flat.length).map (wrapped width)) ++
    (encodeURIComponent value).toList

/-! ## Redaction -/

/-- What stands in the place of a secret. -/
def label (name : Units) : Units := ofString "[secret:" ++ name ++ ofString "]"

/-- A spelling, its secret's name, and the length from which on it is taken out. -/
structure Candidate where
  name : Units
  form : Units
  floor : Nat

/-- The spellings of a secret, the value first. -/
def candidates (secret : Units × Units) : List Candidate :=
  if secret.2.length < minSecretValueChars then []
  else ⟨secret.1, secret.2, minSecretValueChars⟩ ::
    (secretEncodings secret.2).map fun form => ⟨secret.1, form, minEncodedFormChars⟩

/-- The spelling joins the forms, unless it is too short or one of them. -/
def add (forms : List (Units × Units)) (c : Candidate) : List (Units × Units) :=
  if c.form.length < c.floor || forms.any (·.2 = c.form) then forms else forms ++ [(c.name, c.form)]

/-- The forms to take out, with their names, the longest first. -/
def sortedForms (secrets : List (Units × Units)) : List (Units × Units) :=
  ((secrets.flatMap candidates).foldl add []).insertionSort fun a b => b.2.length ≤ a.2.length

def redactSecrets (text : Units) (secrets : List (Units × Units)) : Units :=
  if text.isEmpty then text
  else (sortedForms secrets).foldl (fun out f => Replace.replaceAll f.2 (label f.1) out) text

/-- A secret the product stores. -/
structure StoredSecret where
  name : Units
  value : Units
  named : matchesName name = true
  valid : isValidSecretValue value = true

/-- The secrets as they come to the redaction. -/
def pairsOf (secrets : List StoredSecret) : List (Units × Units) := secrets.map fun s => (s.name, s.value)

/-! ## What the spellings are made of -/

namespace SecretsAux

def bracket (u : UInt16) : Bool := u = 0x5b || u = 0x5d

/-- The text has no bracket. -/
def Clear (s : Units) : Prop := ∀ u ∈ s, bracket u = false

theorem sextet_spec (d : Nat) : bracket (sextet d) = false ∧ sextet d ≠ 0x3d := by
  by_cases h : d < 63
  · exact (by decide : ∀ d < 63, bracket (sextet d) = false ∧ sextet d ≠ 0x3d) d h
  · have hlast : sextet d = 0x2f := by
      simp only [sextet]
      split_ifs <;> first | rfl | omega
    rw [hlast]
    decide

theorem hexDigit_clear : ∀ d < 16, bracket (hexDigit d) = false ∧ bracket (toUpper (hexDigit d)) = false := by decide

theorem hexDigits_clear (b : UInt8) :
    bracket (hexDigit (b.toNat / 16)) = false ∧ bracket (toUpper (hexDigit (b.toNat / 16))) = false ∧
      bracket (hexDigit (b.toNat % 16)) = false ∧ bracket (toUpper (hexDigit (b.toNat % 16))) = false := by
  have hb := b.toNat_lt
  have hhigh := hexDigit_clear (b.toNat / 16) (by omega)
  have hlow := hexDigit_clear (b.toNat % 16) (by omega)
  exact ⟨hhigh.1, hhigh.2, hlow.1, hlow.2⟩

theorem base64_clear (bytes : List UInt8) : Clear (base64 bytes) := by
  induction bytes using base64.induct with
  | case1 => intro u hu; cases hu
  | case2 a =>
    intro u hu
    simp only [base64, List.mem_cons, List.not_mem_nil, or_false] at hu
    rcases hu with rfl | rfl | rfl | rfl
    · exact (sextet_spec _).1
    · exact (sextet_spec _).1
    · rfl
    · rfl
  | case3 a b =>
    intro u hu
    simp only [base64, List.mem_cons, List.not_mem_nil, or_false] at hu
    rcases hu with rfl | rfl | rfl | rfl
    · exact (sextet_spec _).1
    · exact (sextet_spec _).1
    · exact (sextet_spec _).1
    · rfl
  | case4 a b c rest ih =>
    intro u hu
    simp only [base64, List.mem_cons] at hu
    rcases hu with rfl | rfl | rfl | rfl | hu
    · exact (sextet_spec _).1
    · exact (sextet_spec _).1
    · exact (sextet_spec _).1
    · exact (sextet_spec _).1
    · exact ih u hu

variable {s : Units} {u : UInt16}

theorem mem_of_mem_unpadded (h : u ∈ unpadded s) : u ∈ s := by
  rw [unpadded, List.mem_reverse] at h
  exact List.mem_reverse.mp ((List.dropWhile_sublist _).subset h)

theorem clear_unpadded (h : Clear s) : Clear (unpadded s) := fun u hu => h u (mem_of_mem_unpadded hu)

theorem clear_urlSafe (h : Clear s) : Clear (s.map urlSafe) := by
  intro u hu
  obtain ⟨v, hv, rfl⟩ := List.mem_map.mp hu
  unfold urlSafe
  split_ifs
  · rfl
  · rfl
  · exact h v hv

variable {flat : Units}

theorem flatForms_clear {bytes : List UInt8} (h : flat ∈ flatForms bytes) : Clear flat := by
  have hclear := base64_clear bytes
  simp only [flatForms, List.mem_cons, List.not_mem_nil, or_false] at h
  rcases h with rfl | rfl | rfl | rfl
  · exact hclear
  · exact clear_unpadded hclear
  · exact clear_urlSafe hclear
  · exact clear_unpadded (clear_urlSafe hclear)

theorem hex_clear (bytes : List UInt8) : Clear (hex bytes) ∧ Clear ((hex bytes).map toUpper) := by
  constructor
  · intro u hu
    obtain ⟨b, -, hu⟩ := List.mem_flatMap.mp hu
    obtain ⟨hhigh, -, hlow, -⟩ := hexDigits_clear b
    simp only [List.mem_cons, List.not_mem_nil, or_false] at hu
    rcases hu with rfl | rfl
    · exact hhigh
    · exact hlow
  · intro u hu
    obtain ⟨v, hv, rfl⟩ := List.mem_map.mp hu
    obtain ⟨b, -, hv⟩ := List.mem_flatMap.mp hv
    obtain ⟨-, hhigh, -, hlow⟩ := hexDigits_clear b
    simp only [List.mem_cons, List.not_mem_nil, or_false] at hv
    rcases hv with rfl | rfl
    · exact hhigh
    · exact hlow

theorem percent_clear (bytes : List UInt8) : Clear (percent bytes) := by
  intro u hu
  obtain ⟨b, -, hu⟩ := List.mem_flatMap.mp hu
  obtain ⟨-, hhigh, -, hlow⟩ := hexDigits_clear b
  simp only [List.mem_cons, List.not_mem_nil, or_false] at hu
  rcases hu with rfl | rfl | rfl
  · rfl
  · exact hhigh
  · exact hlow

theorem mem_of_mem_intercalate {sep : Units} {texts : List Units} (h : u ∈ sep.intercalate texts) :
    u ∈ sep ∨ ∃ t ∈ texts, u ∈ t := by
  induction texts with
  | nil => cases h
  | cons t texts ih =>
    cases texts with
    | nil => exact .inr ⟨t, List.mem_cons_self, by simpa using h⟩
    | cons t' texts =>
      rw [List.intercalate_cons_cons, List.mem_append, List.mem_append] at h
      rcases h with (h | h) | h
      · exact .inr ⟨t, List.mem_cons_self, h⟩
      · exact .inl h
      · rcases ih h with h | ⟨r, hr, h⟩
        · exact .inl h
        · exact .inr ⟨r, List.mem_cons_of_mem t hr, h⟩

theorem wrapped_clear {width : Nat} (h : Clear flat) : Clear (wrapped width flat) := by
  intro u hu
  rcases mem_of_mem_intercalate hu with hu | ⟨line, hline, hu⟩
  · rw [List.mem_singleton] at hu
    rw [hu]
    rfl
  · obtain ⟨k, -, rfl⟩ := List.mem_map.mp hline
    exact h u (List.mem_of_mem_drop (List.mem_of_mem_take hu))

theorem unreserved_clear (h : unreserved u = true) : bracket u = false := by
  by_contra hb
  rw [Bool.not_eq_false, bracket, Bool.or_eq_true, decide_eq_true_eq, decide_eq_true_eq] at hb
  rcases hb with rfl | rfl <;> revert h <;> decide

theorem clear_append {t : Units} (hs : Clear s) (ht : Clear t) : Clear (s ++ t) := by
  intro u hu
  rcases List.mem_append.mp hu with hu | hu
  · exact hs u hu
  · exact ht u hu

theorem clear_cons (hu : bracket u = false) (hs : Clear s) : Clear (u :: s) := by
  intro v hv
  rcases List.mem_cons.mp hv with rfl | hv
  · exact hu
  · exact hs v hv

/-! ### Lengths -/

theorem pointBytes_pos (c : Nat) : 1 ≤ (pointBytes c).length := by
  unfold pointBytes
  split_ifs <;> simp

theorem pointBytes_pair (n : Nat) : (pointBytes (0x10000 + n)).length = 4 := by
  unfold pointBytes
  rw [if_neg (by omega), if_neg (by omega), if_neg (by omega)]
  rfl

theorem percent_length (bytes : List UInt8) : (percent bytes).length = 3 * bytes.length := by
  induction bytes with
  | nil => rfl
  | cons b bytes ih =>
    rw [percent, List.flatMap_cons, List.length_append, ← percent, ih, List.length_cons, List.length_cons, List.length_cons,
      List.length_cons, List.length_nil]
    omega

/-- A percent-encoding has no bracket, and is the text or longer by an escape. -/
theorem encodeURIComponent_spec {e : Units} (h : encodeURIComponent s = some e) :
    Clear e ∧ (e = s ∨ s.length + 2 ≤ e.length) := by
  have hone := fun c => pointBytes_pos c
  induction s using encodeURIComponent.induct generalizing e with
  | case1 =>
    rw [encodeURIComponent, Option.some.injEq] at h
    subst h
    exact ⟨fun u hu => (by cases hu), .inl rfl⟩
  | case2 u hu =>
    rw [encodeURIComponent, if_pos hu, Option.some.injEq] at h
    subst h
    exact ⟨clear_cons (unreserved_clear hu) fun v hv => (by cases hv), .inl rfl⟩
  | case3 u hu hsurrogate =>
    rw [encodeURIComponent, if_neg hu, if_pos hsurrogate] at h
    cases h
  | case4 u hu hsurrogate =>
    rw [encodeURIComponent, if_neg hu, if_neg hsurrogate, Option.some.injEq] at h
    subst h
    refine ⟨percent_clear _, .inr ?_⟩
    have := hone u.toNat
    rw [percent_length, List.length_singleton]
    omega
  | case5 u v rest hpair ih =>
    rw [encodeURIComponent, if_pos hpair, Option.map_eq_some_iff] at h
    obtain ⟨e', he', rfl⟩ := h
    obtain ⟨hclear, hlength⟩ := ih he'
    refine ⟨clear_append (percent_clear _) hclear, .inr ?_⟩
    have hle : rest.length ≤ e'.length := by
      rcases hlength with rfl | hlength
      · exact le_rfl
      · omega
    rw [List.length_append, percent_length, Nat.add_assoc, pointBytes_pair, List.length_cons, List.length_cons]
    omega
  | case6 u v rest hpair hu ih =>
    rw [encodeURIComponent, if_neg hpair, if_pos hu, Option.map_eq_some_iff] at h
    obtain ⟨e', he', rfl⟩ := h
    obtain ⟨hclear, hlength⟩ := ih he'
    refine ⟨clear_cons (unreserved_clear hu) hclear, ?_⟩
    rcases hlength with rfl | hlength
    · exact .inl rfl
    · simp only [List.length_cons] at hlength ⊢
      omega
  | case7 u v rest hpair hu hsurrogate =>
    rw [encodeURIComponent, if_neg hpair, if_neg hu, if_pos hsurrogate] at h
    cases h
  | case8 u v rest hpair hu hsurrogate ih =>
    rw [encodeURIComponent, if_neg hpair, if_neg hu, if_neg hsurrogate, Option.map_eq_some_iff] at h
    obtain ⟨e', he', rfl⟩ := h
    obtain ⟨hclear, hlength⟩ := ih he'
    refine ⟨clear_append (percent_clear _) hclear, .inr ?_⟩
    have := hone u.toNat
    have hle : (v :: rest).length ≤ e'.length := by
      rcases hlength with rfl | hlength
      · exact le_rfl
      · omega
    rw [List.length_append, percent_length, List.length_cons]
    omega

theorem length_le_utf8Bytes (s : Units) : s.length ≤ (utf8Bytes s).length := by
  have hone := fun c => pointBytes_pos c
  induction s using codePoints.induct with
  | case1 => simp
  | case2 u =>
    rw [utf8Bytes, codePoints, List.flatMap_singleton, List.length_singleton]
    exact hone _
  | case3 u v rest hpair ih =>
    have hplain : isSurrogate (0x10000 + (u.toNat - 0xd800) * 0x400 + (v.toNat - 0xdc00)) = false := by
      simp only [isSurrogate, Bool.and_eq_false_iff, decide_eq_false_iff_not]
      omega
    rw [utf8Bytes, codePoints, if_pos hpair, List.flatMap_cons, List.length_append, hplain, if_neg (by decide), Nat.add_assoc,
      pointBytes_pair, ← utf8Bytes, List.length_cons, List.length_cons]
    omega
  | case4 u v rest hpair ih =>
    have := hone (if isSurrogate u.toNat then 0xfffd else u.toNat)
    rw [utf8Bytes, codePoints, if_neg hpair, List.flatMap_cons, List.length_append, ← utf8Bytes, List.length_cons]
    omega

/-- The digits of a base64, without the padding. -/
def digits (s : Units) : Nat := s.countP (· ≠ 0x3d)

theorem digits_base64 (bytes : List UInt8) : bytes.length + bytes.length / 3 ≤ digits (base64 bytes) := by
  have hdigit : ∀ d, sextet d ≠ 0x3d := fun d => (sextet_spec d).2
  induction bytes using base64.induct with
  | case1 => simp
  | case2 a => simp [digits, base64, hdigit]
  | case3 a b => simp [digits, base64, hdigit]
  | case4 a b c rest ih =>
    have hstep : digits (base64 (a :: b :: c :: rest)) = digits (base64 rest) + 4 := by
      simp [digits, base64, hdigit]
    rw [hstep]
    simp only [List.length_cons]
    omega

theorem digits_urlSafe (s : Units) : digits (s.map urlSafe) = digits s := by
  rw [digits, digits, List.countP_map]
  refine List.countP_congr fun u _ => ?_
  simp only [Function.comp_apply, urlSafe, decide_eq_true_eq]
  split_ifs with h h'
  · subst h
    decide
  · subst h'
    decide
  · simp

theorem digits_le_length (s : Units) : digits s ≤ s.length := List.countP_le_length

theorem digits_le_unpadded (s : Units) : digits s ≤ (unpadded s).length := by
  rw [unpadded, List.length_reverse, digits, ← List.countP_reverse, ← List.takeWhile_append_dropWhile (p := (· = 0x3d)) (l := s.reverse),
    List.countP_append]
  have hpad : (s.reverse.takeWhile (· = 0x3d)).countP (· ≠ 0x3d) = 0 := by
    rw [List.countP_eq_zero]
    intro u hu
    have := List.mem_takeWhile_imp hu
    simpa using this
  rw [hpad, Nat.zero_add, List.takeWhile_append_dropWhile]
  exact List.countP_le_length

theorem le_length_flatForms {bytes : List UInt8} (h : flat ∈ flatForms bytes) :
    bytes.length + bytes.length / 3 ≤ flat.length := by
  have hdigits := digits_base64 bytes
  have hurl := digits_urlSafe (base64 bytes)
  simp only [flatForms, List.mem_cons, List.not_mem_nil, or_false] at h
  rcases h with rfl | rfl | rfl | rfl
  · exact hdigits.trans (digits_le_length _)
  · exact hdigits.trans (digits_le_unpadded _)
  · exact hdigits.trans (hurl ▸ digits_le_length _)
  · exact hdigits.trans (hurl ▸ digits_le_unpadded _)

theorem hex_length (bytes : List UInt8) : (hex bytes).length = 2 * bytes.length := by
  induction bytes with
  | nil => rfl
  | cons b bytes ih =>
    rw [hex, List.flatMap_cons, List.length_append, ← hex, ih, List.length_cons, List.length_cons, List.length_cons, List.length_nil]
    omega

theorem le_length_wrapped {width : Nat} (h : width < flat.length) : width ≤ (wrapped width flat).length := by
  have hlines : ∃ n, (flat.length + width - 1) / width = n + 1 ∨ width = 0 := by
    by_cases hw : width = 0
    · exact ⟨0, .inr hw⟩
    · refine ⟨(flat.length + width - 1) / width - 1, .inl ?_⟩
      have : 0 < (flat.length + width - 1) / width := Nat.div_pos (by omega) (by omega)
      omega
  obtain ⟨n, hn | rfl⟩ := hlines
  · have hfirst : (flat.take width).length = width := by
      rw [List.length_take]
      omega
    rw [wrapped, hn, List.range_succ_eq_map, List.map_cons, Nat.zero_mul, List.drop_zero]
    cases (List.map Nat.succ (List.range n)).map fun k => (flat.drop (k * width)).take width with
    | nil =>
      rw [List.intercalate_singleton]
      omega
    | cons line lines =>
      rw [List.intercalate_cons_cons, List.length_append, List.length_append]
      omega
  · exact Nat.zero_le _

variable {form : Units}

theorem secretEncodings_spec {value : Units} (hlong : minSecretValueChars ≤ value.length) (h : form ∈ secretEncodings value) :
    Clear form ∧ (minEncodedFormChars ≤ form.length ∨ form = value) := by
  have hbytes := length_le_utf8Bytes value
  rw [minSecretValueChars] at hlong
  rw [minEncodedFormChars]
  simp only [secretEncodings, List.mem_append, List.mem_cons, List.not_mem_nil, or_false, List.mem_flatMap, List.mem_map,
    List.mem_filter, List.mem_eraseDups, decide_eq_true_eq, Option.mem_toList] at h
  rcases h with ((h | rfl | rfl) | ⟨width, hwidth, flat, ⟨hflat, hlt⟩, rfl⟩) | h
  · have := le_length_flatForms h
    exact ⟨flatForms_clear h, .inl (by omega)⟩
  · rw [hex_length]
    exact ⟨(hex_clear _).1, .inl (by omega)⟩
  · rw [List.length_map, hex_length]
    exact ⟨(hex_clear _).2, .inl (by omega)⟩
  · have := le_length_wrapped hlt
    refine ⟨wrapped_clear (flatForms_clear hflat), .inl ?_⟩
    rcases hwidth with rfl | rfl <;> omega
  · obtain ⟨hclear, rfl | hlength⟩ := encodeURIComponent_spec h
    · exact ⟨hclear, .inr rfl⟩
    · exact ⟨hclear, .inl (by omega)⟩

/-! ### The forms -/

variable {cs : List Candidate} {e : Units × Units}

theorem of_mem_foldl {forms : List (Units × Units)} (h : e ∈ cs.foldl add forms) :
    e ∈ forms ∨ ∃ c ∈ cs, e = (c.name, c.form) := by
  induction cs generalizing forms with
  | nil => exact .inl h
  | cons c cs ih =>
    rcases ih h with h | ⟨d, hd, rfl⟩
    · rw [add] at h
      split_ifs at h
      · exact .inl h
      · rcases List.mem_append.mp h with h | h
        · exact .inl h
        · exact .inr ⟨c, List.mem_cons_self, List.mem_singleton.mp h⟩
    · exact .inr ⟨d, List.mem_cons_of_mem c hd, rfl⟩

theorem mem_foldl {forms : List (Units × Units)} (h : e ∈ forms) :
    e ∈ cs.foldl add forms := by
  induction cs generalizing forms with
  | nil => exact h
  | cons c cs ih =>
    refine ih ?_
    rw [add]
    split_ifs
    · exact h
    · exact List.mem_append_left _ h

theorem exists_mem_foldl {c : Candidate} (hc : c ∈ cs) (hlong : c.floor ≤ c.form.length)
    (forms : List (Units × Units)) : ∃ e ∈ cs.foldl add forms, e.2 = c.form := by
  induction cs generalizing forms with
  | nil => cases hc
  | cons d cs ih =>
    rcases List.mem_cons.mp hc with rfl | hc
    · have hadd : ∃ e ∈ add forms c, e.2 = c.form := by
        rw [add]
        split_ifs with h
        · rw [Bool.or_eq_true, decide_eq_true_eq, List.any_eq_true] at h
          rcases h with h | ⟨e, he, heq⟩
          · omega
          · exact ⟨e, he, of_decide_eq_true heq⟩
        · exact ⟨_, List.mem_append_right _ List.mem_cons_self, rfl⟩
      obtain ⟨e, he, heq⟩ := hadd
      have hrest : e ∈ cs.foldl add (add forms c) := mem_foldl he
      exact ⟨e, hrest, heq⟩
    · exact ih hc _

variable {secrets : List (Units × Units)}

theorem mem_sortedForms :
    e ∈ sortedForms secrets ↔ e ∈ (secrets.flatMap candidates).foldl add [] := by
  rw [sortedForms, List.mem_insertionSort]

theorem name_of_mem_sortedForms (h : e ∈ sortedForms secrets) :
    ∃ s ∈ secrets, s.1 = e.1 := by
  rcases of_mem_foldl (mem_sortedForms.mp h) with h | ⟨c, hc, rfl⟩
  · cases h
  · obtain ⟨s, hs, hc⟩ := List.mem_flatMap.mp hc
    refine ⟨s, hs, ?_⟩
    rw [candidates] at hc
    split_ifs at hc
    · cases hc
    · rcases List.mem_cons.mp hc with rfl | hc
      · rfl
      · obtain ⟨form, -, rfl⟩ := List.mem_map.mp hc
        rfl

theorem exists_mem_sortedForms {s : Units × Units} (hs : s ∈ secrets)
    (hlong : minSecretValueChars ≤ s.2.length) (hform : form = s.2 ∨ form ∈ secretEncodings s.2) :
    ∃ e ∈ sortedForms secrets, e.2 = form := by
  have hcand : candidates s = ⟨s.1, s.2, minSecretValueChars⟩ ::
      (secretEncodings s.2).map fun form => ⟨s.1, form, minEncodedFormChars⟩ := if_neg (by omega)
  have hvalue : ∃ e ∈ sortedForms secrets, e.2 = s.2 := by
    obtain ⟨e, he, heq⟩ := exists_mem_foldl (c := ⟨s.1, s.2, minSecretValueChars⟩)
      (List.mem_flatMap.mpr ⟨s, hs, hcand ▸ List.mem_cons_self⟩) hlong []
    exact ⟨e, mem_sortedForms.mpr he, heq⟩
  rcases hform with rfl | hform
  · exact hvalue
  · rcases (secretEncodings_spec hlong hform).2 with henough | rfl
    · obtain ⟨e, he, heq⟩ := exists_mem_foldl (c := ⟨s.1, form, minEncodedFormChars⟩)
        (List.mem_flatMap.mpr ⟨s, hs, hcand ▸ List.mem_cons_of_mem _ (List.mem_map.mpr ⟨form, hform, rfl⟩)⟩) henough []
      exact ⟨e, mem_sortedForms.mpr he, heq⟩
    · exact hvalue

theorem label_bounds (name : Units) (h : Clear form) : Replace.Bounds (label name) form := by
  refine ⟨0x5b, ofString "secret:" ++ name, 0x5d, ?_, ?_, ?_⟩
  · rfl
  · intro hu
    exact absurd (h _ hu) (by decide)
  · intro hu
    exact absurd (h _ hu) (by decide)

theorem absent_redactSecrets (text : Units) (hne : form ≠ []) (hclear : Clear form)
    (hlabel : ∀ s ∈ secrets, ¬form <:+: label s.1) (hmem : ∃ e ∈ sortedForms secrets, e.2 = form) :
    ¬form <:+: redactSecrets text secrets := by
  rw [redactSecrets]
  split_ifs with hempty
  · rw [List.isEmpty_iff.mp hempty, List.infix_nil]
    exact hne
  · have hfold : (sortedForms secrets).foldl (fun out f => Replace.replaceAll f.2 (label f.1) out) text =
        ((sortedForms secrets).map fun f => (f.2, label f.1)).foldl (fun out r => Replace.replaceAll r.1 r.2 out) text := by
      rw [List.foldl_map]
    rw [hfold]
    refine Replace.absent_foldl hne ?_ (.inr ?_)
    · intro r hr
      obtain ⟨e, he, rfl⟩ := List.mem_map.mp hr
      obtain ⟨s, hs, hname⟩ := name_of_mem_sortedForms he
      exact ⟨label_bounds _ hclear, hname ▸ hlabel s hs⟩
    · obtain ⟨e, he, rfl⟩ := hmem
      exact ⟨_, List.mem_map.mpr ⟨e, he, rfl⟩, rfl⟩

end SecretsAux

open SecretsAux

/-- For every text and every list of stored secrets: no value that has no bracket and stands in no label is in the output, and no
spelling of a value that stands in no label. -/
theorem redactSecrets_hides (text : Units) (secrets : List StoredSecret)
    (hclear : ∀ s ∈ secrets, 0x5b ∉ s.value ∧ 0x5d ∉ s.value)
    (hlabel : ∀ s ∈ secrets, ∀ t ∈ secrets, ¬s.value <:+: label t.name) :
    ∀ s ∈ secrets, ¬s.value <:+: redactSecrets text (pairsOf secrets) ∧
      ∀ form ∈ secretEncodings s.value, (∀ t ∈ secrets, ¬form <:+: label t.name) →
        ¬form <:+: redactSecrets text (pairsOf secrets) := by
  intro s hs
  have hlong : minSecretValueChars ≤ s.value.length := by
    have := s.valid
    simp only [isValidSecretValue, Bool.and_eq_true, decide_eq_true_eq] at this
    exact this.1.1.1
  have hpair : (s.name, s.value) ∈ pairsOf secrets := List.mem_map.mpr ⟨s, hs, rfl⟩
  have hlabels : ∀ form : Units, (∀ t ∈ secrets, ¬form <:+: label t.name) → ∀ p ∈ pairsOf secrets, ¬form <:+: label p.1 := by
    intro form hform p hp
    obtain ⟨t, ht, rfl⟩ := List.mem_map.mp hp
    exact hform t ht
  have hvalue : ∀ u ∈ s.value, bracket u = false := by
    intro u hu
    rw [bracket, Bool.or_eq_false_iff, decide_eq_false_iff_not, decide_eq_false_iff_not]
    exact ⟨fun h => (hclear s hs).1 (h ▸ hu), fun h => (hclear s hs).2 (h ▸ hu)⟩
  have hne : ∀ {form : Units}, minSecretValueChars ≤ form.length → form ≠ [] := by
    rintro _ h rfl
    exact absurd h (by decide)
  refine ⟨?_, fun form hform hno => ?_⟩
  · exact absent_redactSecrets text (hne hlong) hvalue (hlabels _ (hlabel s hs)) (exists_mem_sortedForms hpair hlong (.inl rfl))
  · obtain ⟨hform', hlength⟩ := secretEncodings_spec hlong hform
    have hlong' : minSecretValueChars ≤ form.length := by
      rcases hlength with h | rfl
      · exact (by decide : minSecretValueChars ≤ minEncodedFormChars).trans h
      · exact hlong
    exact absent_redactSecrets text (hne hlong') hform' (hlabels _ hno) (exists_mem_sortedForms hpair hlong (.inr hform))

/-- A secret whose name spells its value in hexadecimal. -/
def spelled : StoredSecret where
  name := ofString "A616263646566"
  value := ofString "abcdef"
  named := by decide
  valid := by decide

/-- The token `abcdef` in an output of two lines, plain and in base64, under the name `TOKEN`. -/
def token : StoredSecret where
  name := ofString "TOKEN"
  value := ofString "abcdef"
  named := by decide
  valid := by decide

theorem redactSecrets_hides_token :
    ¬token.value <:+: redactSecrets (ofString "abcdef\nYWJjZGVm") (pairsOf [token]) ∧
      ¬ofString "YWJjZGVm" <:+: redactSecrets (ofString "abcdef\nYWJjZGVm") (pairsOf [token]) := by
  have h := redactSecrets_hides (ofString "abcdef\nYWJjZGVm") [token] (by decide) (by decide) token (List.mem_singleton_self _)
  exact ⟨h.1, h.2 (ofString "YWJjZGVm") (by decide) (by decide)⟩

/-- The output of `abcdef` has the value's hexadecimal spelling in it, in the label. -/
theorem redactSecrets_hides_false :
    ¬∀ (text : Units) (secrets : List StoredSecret), (∀ s ∈ secrets, 0x5b ∉ s.value ∧ 0x5d ∉ s.value) →
      (∀ s ∈ secrets, ∀ t ∈ secrets, ¬s.value <:+: label t.name) →
        ∀ s ∈ secrets, ¬s.value <:+: redactSecrets text (pairsOf secrets) ∧
          ∀ form ∈ secretEncodings s.value, ¬form <:+: redactSecrets text (pairsOf secrets) := by
  intro h
  have hspelled := h (ofString "abcdef") [spelled] (by decide) (by decide) spelled (List.mem_singleton_self _)
  exact absurd (by decide) (hspelled.2 (ofString "616263646566") (by decide))

end Capka.Secrets

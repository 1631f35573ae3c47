import Mathlib
import Capka.Net.Addresses

/-!
# Spellings of addresses

An IPv6 address has many texts: digits of either case, zeros before a group or not, one run of zero groups left out, the last two groups as a
dotted quad. The classification reads the same bytes off all of them, and judges an address that carries one of IPv4 as that one is judged.
-/

namespace Capka.Net

/-! ## The texts of an address -/

/-- The hexadecimal digits in either case, with their values. -/
def hexDigits : List (Char × Nat) := "0123456789abcdef".toList.zipIdx ++ "0123456789ABCDEF".toList.zipIdx

/-- A character is the digit of a value. -/
def Digit (c : Char) (d : Nat) : Prop := (c, d) ∈ hexDigits

/-- The number that digits write. -/
def hexNumber (ds : List Nat) : Nat := ds.foldl (fun acc d => 16 * acc + d) 0

/-- One to four digits write a group. -/
def Group (g : List Char) (w : Nat) : Prop := ∃ ds, List.Forall₂ Digit g ds ∧ 1 ≤ ds.length ∧ ds.length ≤ 4 ∧ w = hexNumber ds

/-- An IPv4 address, in decimal with dots. -/
def dotted (a b c d : Nat) : List Char := Nat.toDigits 10 a ++ '.' :: (Nat.toDigits 10 b ++ '.' :: (Nat.toDigits 10 c ++ '.' :: Nat.toDigits 10 d))

/-- Groups with colons between them, of which the last two may be a dotted quad, or may not. -/
inductive Side : Bool → List Char → List Nat → Prop
  | last {q : Bool} {g : List Char} {w : Nat} : Group g w → Side q g [w]
  | quad {a b c d : Nat} : a < 256 → b < 256 → c < 256 → d < 256 → Side true (dotted a b c d) [256 * a + b, 256 * c + d]
  | cons {q : Bool} {g t : List Char} {w : Nat} {ws : List Nat} : Group g w → Side q t ws → Side q (g ++ ':' :: t) (w :: ws)

/-- A side of `::` may have no groups. -/
def Half (q : Bool) (t : List Char) (ws : List Nat) : Prop := (t = [] ∧ ws = []) ∨ Side q t ws

/-- The texts of eight words: all of them, or with some that are zero left out. -/
inductive Spelling : List Char → List Nat → Prop
  | full {t : List Char} {ws : List Nat} : Side true t ws → ws.length = 8 → Spelling t ws
  | compressed {l r : List Char} {left right : List Nat} {n : Nat} : Half false l left → Half true r right → 0 < n →
      left.length + n + right.length = 8 → Spelling (l ++ ':' :: ':' :: r) (left ++ List.replicate n 0 ++ right)

/-- The bytes of words, the higher first. -/
def bytesOf (ws : List Nat) : List Nat := ws.flatMap fun w => [w / 256, w % 256]

/-- A text of an address of 16 bytes. -/
def Spells (s : List Char) (b : List Nat) : Prop := ∃ ws, Spelling s ws ∧ b = bytesOf ws

/-- An address that carries one of IPv4: mapped, compatible, which `::1` is not, of the well-known prefix of a translator, and of the local one
with a zero octet in its place. -/
inductive Embeds : List Nat → List Nat → Prop
  | mapped (o : List Nat) : Embeds (List.replicate 10 0 ++ [0xff, 0xff] ++ o) o
  | compatible {o : List Nat} : o ≠ [0, 0, 0, 1] → Embeds (List.replicate 12 0 ++ o) o
  | nat64 (o : List Nat) : Embeds ([0x00, 0x64, 0xff, 0x9b] ++ List.replicate 8 0 ++ o) o
  | localUse (a b c d : Nat) (rest : List Nat) : Embeds ([0x00, 0x64, 0xff, 0x9b, 0x00, 0x01, a, b, 0, c, d] ++ rest) [a, b, c, d]

namespace SpellingsAux

/-! ### Groups -/

/-- What the parsers ask of a digit. -/
def ReadsDigit (p : Char × Nat) : Prop :=
  hexDigit p.1 = some p.2 ∧ p.2 < 16 ∧ p.1 ≠ ':' ∧ p.1 ≠ '.' ∧ p.1 ≠ '%' ∧ p.1 ≠ '-' ∧ p.1 ≠ '+' ∧ p.1 ≠ 'x' ∧ p.1 ≠ 'X'

instance : DecidablePred ReadsDigit := fun _ => inferInstanceAs (Decidable (_ ∧ _))

variable {d : Nat}

theorem readsDigit {c : Char} (h : Digit c d) : ReadsDigit (c, d) := by
  have hall : ∀ p ∈ hexDigits, ReadsDigit p := by decide +kernel
  exact hall (c, d) h

variable {g : List Char} {ds : List Nat}

theorem foldl_digits (h : List.Forall₂ Digit g ds) (n : Nat) :
    g.foldl (fun acc c => acc.bind fun n => (hexDigit c).map (16 * n + ·)) (some n) = some (ds.foldl (fun acc d => 16 * acc + d) n) := by
  induction h generalizing n with
  | nil => rfl
  | cons hd _ ih =>
    rw [List.foldl_cons, List.foldl_cons, Option.bind_some, (readsDigit hd).1, Option.map_some]
    exact ih _

theorem foldl_lt (h : ∀ d ∈ ds, d < 16) (n : Nat) : ds.foldl (fun acc d => 16 * acc + d) n < 16 ^ ds.length * (n + 1) := by
  induction ds generalizing n with
  | nil => simp
  | cons d ds ih =>
    have hd := h d List.mem_cons_self
    rw [List.foldl_cons, List.length_cons, Nat.pow_succ, Nat.mul_assoc]
    refine (ih (fun x hx => h x (List.mem_cons_of_mem _ hx)) _).trans_le (Nat.mul_le_mul_left _ ?_)
    omega

theorem mem_of_forall₂ (h : List.Forall₂ Digit g ds) : ∀ c ∈ g, ∃ d, Digit c d := by
  induction h with
  | nil => simp
  | cons hd _ ih =>
    intro c hc
    rcases List.mem_cons.mp hc with rfl | hc
    · exact ⟨_, hd⟩
    · exact ih c hc

theorem digits_lt (h : List.Forall₂ Digit g ds) : ∀ d ∈ ds, d < 16 := by
  induction h with
  | nil => simp
  | cons hd _ ih =>
    intro d hmem
    rcases List.mem_cons.mp hmem with rfl | hmem
    · exact (readsDigit hd).2.1
    · exact ih d hmem

/-- What the parsers make of a group. -/
structure ReadsGroup (g : List Char) (w : Nat) : Prop where
  ne : g ≠ []
  small : w < 65536
  plain : ∀ c ∈ g, c ≠ ':' ∧ c ≠ '.' ∧ c ≠ '%'
  word : groupWord g = some w
  parsed : parseInt16 g = some (w : Int)

theorem leadingHex_digits (h : ∀ c ∈ g, ∃ d, Digit c d) : leadingHex g = hexValue g := by
  have htake : (g.takeWhile fun c => (hexDigit c).isSome) = g := by
    refine List.takeWhile_eq_self_iff.mpr fun c hc => ?_
    obtain ⟨d, hd⟩ := h c hc
    rw [(readsDigit hd).1]
    rfl
  unfold leadingHex
  split
  · obtain ⟨d, hd⟩ := h 'x' (by simp)
    exact absurd rfl (readsDigit hd).2.2.2.2.2.2.2.1
  · obtain ⟨d, hd⟩ := h 'X' (by simp)
    exact absurd rfl (readsDigit hd).2.2.2.2.2.2.2.2
  · rw [htake]

variable {w : Nat}

theorem readsGroup (h : Group g w) : ReadsGroup g w := by
  obtain ⟨ds, hds, hpos, hlen, rfl⟩ := h
  have hlength := hds.length_eq
  have hdigits := mem_of_forall₂ hds
  have hne : g ≠ [] := by
    rintro rfl
    simp at hlength
    omega
  have hvalue : hexValue g = some (hexNumber ds) := by
    rw [hexValue, if_neg (by simpa using hne)]
    exact foldl_digits hds 0
  refine ⟨hne, ?_, ?_, ?_, ?_⟩
  · have hlt := foldl_lt (digits_lt hds) 0
    have hpow : 16 ^ ds.length ≤ 16 ^ 4 := Nat.pow_le_pow_right (by omega) hlen
    rw [hexNumber]
    omega
  · intro c hc
    obtain ⟨d, hd⟩ := hdigits c hc
    have hreads := readsDigit hd
    exact ⟨hreads.2.2.1, hreads.2.2.2.1, hreads.2.2.2.2.1⟩
  · rw [groupWord, if_pos (by omega), hvalue]
  · have hhead : leadingHex g = some (hexNumber ds) := (leadingHex_digits hdigits).trans hvalue
    unfold parseInt16
    split
    · obtain ⟨d, hd⟩ := hdigits '-' (by simp)
      exact absurd rfl (readsDigit hd).2.2.2.2.2.1
    · obtain ⟨d, hd⟩ := hdigits '+' (by simp)
      exact absurd rfl (readsDigit hd).2.2.2.2.2.2.1
    · rw [hhead]
      rfl

/-! ### Cutting -/

theorem splitAt_plain {sep : Char} (h : sep ∉ g) : splitAt sep g = [g] := by
  induction g with
  | nil => rfl
  | cons c g ih =>
    rw [List.mem_cons, not_or] at h
    simp only [splitAt, ih h.2, if_neg (Ne.symm h.1)]

theorem splitAt_ne_nil (sep : Char) (s : List Char) : splitAt sep s ≠ [] := by
  cases s with
  | nil => simp [splitAt]
  | cons c s =>
    unfold splitAt
    split
    · simp
    · split_ifs <;> simp

theorem splitAt_append {sep : Char} (h : sep ∉ g) (t : List Char) : splitAt sep (g ++ sep :: t) = g :: splitAt sep t := by
  induction g with
  | nil =>
    cases ht : splitAt sep t with
    | nil => exact absurd ht (splitAt_ne_nil sep t)
    | cons part parts => simp [splitAt, ht]
  | cons c g ih =>
    rw [List.mem_cons, not_or] at h
    simp only [List.cons_append, splitAt, ih h.2, if_neg (Ne.symm h.1)]

theorem cutAtDouble_append (h : ':' ∉ g) (t : List Char) :
    cutAtDouble (g ++ t) = (g ++ (cutAtDouble t).1, (cutAtDouble t).2) := by
  induction g with
  | nil => rfl
  | cons c g ih =>
    rw [List.mem_cons, not_or] at h
    have hne : ¬(c = ':') := Ne.symm h.1
    have ih := ih h.2
    cases hgt : g ++ t with
    | nil =>
      obtain ⟨rfl, rfl⟩ := List.append_eq_nil_iff.mp hgt
      rfl
    | cons c' cs =>
      rw [List.cons_append, hgt, cutAtDouble, if_neg (fun hc => hne hc.1), ← hgt, ih]
      rfl

theorem cutAtDouble_colon {c : Char} (hc : c ≠ ':') (t : List Char) :
    cutAtDouble (':' :: c :: t) = (':' :: (cutAtDouble (c :: t)).1, (cutAtDouble (c :: t)).2) := by
  rw [cutAtDouble, if_neg (fun h => hc h.2)]

variable {s : List Char}

theorem withoutZone_plain (h : '%' ∉ s) : withoutZone s = some s := by
  have hne : ∀ c ∈ s, (decide (c ≠ '%')) = true := by
    intro c hc
    have : c ≠ '%' := fun heq => h (heq ▸ hc)
    simpa using this
  have hdrop : s.dropWhile (fun c => decide (c ≠ '%')) = [] := List.dropWhile_eq_nil_iff.mpr hne
  have htake : s.takeWhile (fun c => decide (c ≠ '%')) = s := List.takeWhile_eq_self_iff.mpr hne
  simp only [withoutZone, hdrop, htake]

/-! ### Dotted quads -/

/-- What the parsers make of an octet. -/
def ReadsOctet (n : Nat) : Prop :=
  octet (Nat.toDigits 10 n) = some n ∧ quadPart [Nat.toDigits 10 n] 0 = n ∧
    (Nat.toDigits 10 n).all (fun c => c ≠ ':' && c ≠ '.' && c ≠ '%') = true ∧ Nat.toDigits 10 n ≠ []

instance : DecidablePred ReadsOctet := fun _ => inferInstanceAs (Decidable (_ ∧ _))

theorem readsOctet {n : Nat} (h : n < 256) : ReadsOctet n := by
  have hall : ∀ n < 256, ReadsOctet n := by decide +kernel
  exact hall n h

variable {a b : Nat}

theorem quadWord_eq (ha : a < 256) (hb : b < 256) : quadWord a b = ((256 * a + b : Nat) : Int) ∧ a <<< 8 ||| b = 256 * a + b := by
  have hor : a <<< 8 ||| b = 256 * a + b := by
    rw [Nat.mul_comm]
    exact (Nat.shiftLeft_add_eq_or_of_lt (i := 8) hb a).symm.trans (by rw [Nat.shiftLeft_eq])
  refine ⟨?_, hor⟩
  have hnat : (BitVec.ofNat 32 a <<< 8 ||| BitVec.ofNat 32 b).toNat = 256 * a + b := by
    rw [BitVec.toNat_or, BitVec.toNat_shiftLeft, BitVec.toNat_ofNat, BitVec.toNat_ofNat, Nat.mod_eq_of_lt (by omega : a < 2 ^ 32),
      Nat.mod_eq_of_lt (by omega : b < 2 ^ 32), Nat.mod_eq_of_lt (by rw [Nat.shiftLeft_eq]; omega), hor]
  rw [quadWord, BitVec.toInt_eq_toNat_of_lt (by rw [hnat]; omega), hnat]

section
variable {a b c d : Nat}

theorem plain_dotted (ha : a < 256) (hb : b < 256) (hc : c < 256) (hd : d < 256) : ':' ∉ dotted a b c d ∧ '%' ∉ dotted a b c d := by
  have hplain : ∀ n < 256, ':' ∉ Nat.toDigits 10 n ∧ '%' ∉ Nat.toDigits 10 n := by
    intro n hn
    have hall := List.all_eq_true.mp (readsOctet hn).2.2.1
    refine ⟨fun hmem => ?_, fun hmem => ?_⟩
    · simpa using hall _ hmem
    · simpa using hall _ hmem
  simp [dotted, hplain a ha, hplain b hb, hplain c hc, hplain d hd]

theorem splitAt_dotted (ha : a < 256) (hb : b < 256) (hc : c < 256) (hd : d < 256) :
    splitAt '.' (dotted a b c d) = [Nat.toDigits 10 a, Nat.toDigits 10 b, Nat.toDigits 10 c, Nat.toDigits 10 d] := by
  have hplain : ∀ n < 256, '.' ∉ Nat.toDigits 10 n := by
    intro n hn hmem
    simpa using List.all_eq_true.mp (readsOctet hn).2.2.1 _ hmem
  rw [dotted, splitAt_append (hplain a ha), splitAt_append (hplain b hb), splitAt_append (hplain c hc), splitAt_plain (hplain d hd)]

theorem ipv4Octets_dotted (ha : a < 256) (hb : b < 256) (hc : c < 256) (hd : d < 256) : ipv4Octets (dotted a b c d) = some [a, b, c, d] := by
  simp only [ipv4Octets, splitAt_dotted ha hb hc hd, (readsOctet ha).1, (readsOctet hb).1, (readsOctet hc).1, (readsOctet hd).1]

end

/-! ### Sides -/

variable {q : Bool} {t : List Char}

theorem sideWords_cons (hg : ':' ∉ g) (ht : t ≠ []) :
    sideWords q (g ++ ':' :: t) = (groupWord g).bind fun w => (sideWords q t).map (w :: ·) := by
  have hgroups : splitAt ':' t ≠ [] := splitAt_ne_nil _ _
  have hempty : (g ++ ':' :: t).isEmpty = false := by simp
  have hempty' : t.isEmpty = false := by simpa using ht
  unfold sideWords
  simp only [hempty, hempty', Bool.false_eq_true, if_false, splitAt_append hg, List.getLast?_cons_of_ne_nil hgroups]
  rw [List.dropLast_cons_of_ne_nil hgroups]
  cases hlast : (splitAt ':' t).getLast? with
  | none => exact absurd (List.getLast?_eq_none_iff.mp hlast) hgroups
  | some last =>
    dsimp only
    split_ifs
    · cases hw : groupWord g with
      | none => simp [hw]
      | some w =>
        cases hws : (splitAt ':' t).dropLast.mapM groupWord with
        | none => simp [hw, hws]
        | some ws =>
          simp only [List.mapM_cons, hw, hws, Option.bind_eq_bind, Option.bind_some, Option.pure_def]
          split
          · rename_i hv hq
            cases hv
            simp [hq]
          · rename_i hno
            cases hq : ipv4Octets last with
            | none => rfl
            | some o =>
              split
              · rename_i words a b c d hv ho
                cases ho
                exact (hno (w :: ws) a b c d rfl hq).elim
              · rfl
    · simp
    · cases hw : groupWord g with
      | none => simp [hw]
      | some w =>
        cases hws : (splitAt ':' t).mapM groupWord with
        | none => simp [hw, hws]
        | some ws => simp [hw, hws]

theorem toWords_cons (hg : ':' ∉ g) (ht : t ≠ []) : toWords (g ++ ':' :: t) = parseInt16 g :: toWords t := by
  have hgroups : splitAt ':' t ≠ [] := splitAt_ne_nil _ _
  have hempty : (g ++ ':' :: t).isEmpty = false := by simp
  have hempty' : t.isEmpty = false := by simpa using ht
  unfold toWords
  simp only [hempty, hempty', Bool.false_eq_true, if_false, splitAt_append hg, List.getLast?_cons_of_ne_nil hgroups]
  rw [List.dropLast_cons_of_ne_nil hgroups]
  split_ifs
  · rfl
  · rfl

/-- What the parsers make of a side that is not empty. -/
structure ReadsSide (q : Bool) (t : List Char) (ws : List Nat) : Prop where
  head : ∃ c cs, t = c :: cs ∧ c ≠ ':'
  noZone : '%' ∉ t
  small : ∀ w ∈ ws, w < 65536
  words : sideWords q t = some ws
  parsed : toWords t = ws.map fun (w : Nat) => some (w : Int)
  whole : cutAtDouble t = (t, none)
  cut : ∀ r, cutAtDouble (t ++ ':' :: ':' :: r) = (t, some r)

variable {ws : List Nat}

theorem ReadsSide.ne (h : ReadsSide q t ws) : t ≠ [] := by
  obtain ⟨c, cs, rfl, _⟩ := h.head
  exact List.cons_ne_nil c cs

theorem cut_plain (h : ':' ∉ t) : cutAtDouble t = (t, none) ∧ ∀ r, cutAtDouble (t ++ ':' :: ':' :: r) = (t, some r) := by
  constructor
  · simpa [cutAtDouble] using cutAtDouble_append h []
  · intro r
    rw [cutAtDouble_append h, cutAtDouble, if_pos ⟨rfl, rfl⟩, List.append_nil]

theorem readsSide_last (h : Group g w) : ReadsSide q g [w] := by
  have hg := readsGroup h
  have hcolon : ':' ∉ g := fun hmem => (hg.plain _ hmem).1 rfl
  have hdot : g.contains '.' = false := by
    rw [List.contains_eq_mem, decide_eq_false_iff_not]
    exact fun hmem => (hg.plain _ hmem).2.1 rfl
  have hempty : g.isEmpty = false := by simpa using hg.ne
  have hhead : ∃ c cs, g = c :: cs ∧ c ≠ ':' := by
    obtain ⟨c, cs, rfl⟩ := List.exists_cons_of_ne_nil hg.ne
    exact ⟨c, cs, rfl, (hg.plain c List.mem_cons_self).1⟩
  refine ⟨hhead, fun hmem => (hg.plain _ hmem).2.2 rfl, by simpa using hg.small, ?_, ?_,
    (cut_plain hcolon).1, (cut_plain hcolon).2⟩
  · simp only [sideWords, hempty, Bool.false_eq_true, if_false, splitAt_plain hcolon, List.getLast?_singleton, hdot, List.mapM_cons, hg.word]
    rfl
  · simp only [toWords, hempty, Bool.false_eq_true, if_false, splitAt_plain hcolon, List.getLast?_singleton, Option.getD_some, hdot,
      List.map_cons, hg.parsed, List.map_nil]

variable {c : Nat}

theorem readsSide_quad (ha : a < 256) (hb : b < 256) (hc : c < 256) (hd : d < 256) :
    ReadsSide true (dotted a b c d) [256 * a + b, 256 * c + d] := by
  obtain ⟨hcolon, hzone⟩ := plain_dotted ha hb hc hd
  have hdot : (dotted a b c d).contains '.' = true := by simp [dotted]
  have hne : dotted a b c d ≠ [] := by simp [dotted]
  have hempty : (dotted a b c d).isEmpty = false := by simpa using hne
  have hpart : ∀ n < 256, ∀ quad : List (List Char), ∀ i, quad[i]? = some (Nat.toDigits 10 n) → quadPart quad i = n := by
    intro n hn quad i hi
    have hone := (readsOctet hn).2.1
    simp only [quadPart, List.getElem?_cons_zero] at hone
    rw [quadPart, hi]
    exact hone
  refine ⟨?_, hzone, ?_, ?_, ?_, (cut_plain hcolon).1, (cut_plain hcolon).2⟩
  · obtain ⟨x, xs, heq⟩ := List.exists_cons_of_ne_nil hne
    refine ⟨x, xs, heq, ?_⟩
    rintro rfl
    exact hcolon (heq ▸ List.mem_cons_self)
  · simp only [List.mem_cons, List.not_mem_nil, or_false]
    rintro w (rfl | rfl) <;> omega
  · simp only [sideWords, hempty, Bool.false_eq_true, if_false, splitAt_plain hcolon, List.getLast?_singleton, hdot, if_true,
      List.dropLast_singleton, List.mapM_nil, Option.pure_def, ipv4Octets_dotted ha hb hc hd, List.nil_append, (quadWord_eq ha hb).2,
      (quadWord_eq hc hd).2]
  · simp only [toWords, hempty, Bool.false_eq_true, if_false, splitAt_plain hcolon, List.getLast?_singleton, Option.getD_some, hdot, if_true,
      splitAt_dotted ha hb hc hd, List.dropLast_singleton, List.map_nil, List.nil_append]
    rw [hpart a ha _ 0 rfl, hpart b hb _ 1 rfl, hpart c hc _ 2 rfl, hpart d hd _ 3 rfl, (quadWord_eq ha hb).1, (quadWord_eq hc hd).1]
    rfl

theorem readsSide_cons (h : Group g w) (ht : ReadsSide q t ws) :
    ReadsSide q (g ++ ':' :: t) (w :: ws) := by
  have hg := readsGroup h
  have hcolon : ':' ∉ g := fun hmem => (hg.plain _ hmem).1 rfl
  obtain ⟨c, cs, hc, hne⟩ := ht.head
  refine ⟨?_, ?_, ?_, ?_, ?_, ?_, ?_⟩
  · obtain ⟨x, xs, rfl⟩ := List.exists_cons_of_ne_nil hg.ne
    exact ⟨x, xs ++ ':' :: t, rfl, (hg.plain x List.mem_cons_self).1⟩
  · rw [List.mem_append, List.mem_cons]
    rintro (hmem | hmem | hmem)
    · exact (hg.plain _ hmem).2.2 rfl
    · exact absurd hmem (by decide)
    · exact ht.noZone hmem
  · intro x hx
    rcases List.mem_cons.mp hx with rfl | hx
    · exact hg.small
    · exact ht.small x hx
  · rw [sideWords_cons hcolon ht.ne, hg.word, ht.words]
    rfl
  · rw [toWords_cons hcolon ht.ne, hg.parsed, ht.parsed, List.map_cons]
  · rw [cutAtDouble_append hcolon, hc, cutAtDouble_colon hne, ← hc, ht.whole]
  · intro r
    rw [List.append_assoc, cutAtDouble_append hcolon, List.cons_append]
    have hcut := ht.cut r
    rw [hc, List.cons_append] at hcut ⊢
    rw [cutAtDouble_colon hne, hcut]

theorem readsSide (h : Side q t ws) : ReadsSide q t ws := by
  induction h with
  | last hg => exact readsSide_last hg
  | quad ha hb hc hd => exact readsSide_quad ha hb hc hd
  | cons hg _ ih => exact readsSide_cons hg ih

/-- What the parsers make of a side that may be empty. -/
structure ReadsHalf (q : Bool) (t : List Char) (ws : List Nat) : Prop where
  noZone : '%' ∉ t
  small : ∀ w ∈ ws, w < 65536
  words : sideWords q t = some ws
  parsed : toWords t = ws.map fun (w : Nat) => some (w : Int)
  whole : cutAtDouble t = (t, none)
  cut : ∀ r, cutAtDouble (t ++ ':' :: ':' :: r) = (t, some r)

theorem readsHalf (h : Half q t ws) : ReadsHalf q t ws := by
  rcases h with ⟨rfl, rfl⟩ | h
  · exact ⟨List.not_mem_nil, by simp, rfl, rfl, rfl, fun r => by rw [List.nil_append, cutAtDouble, if_pos ⟨rfl, rfl⟩]⟩
  · have hs := readsSide h
    exact ⟨hs.noZone, hs.small, hs.words, hs.parsed, hs.whole, hs.cut⟩

/-! ### The bytes -/

theorem mapM_checkWord (h : ∀ w ∈ ws, w < 65536) : (ws.map fun (w : Nat) => some (w : Int)).mapM checkWord = some ws := by
  induction ws with
  | nil => rfl
  | cons w ws ih =>
    have hw := h w List.mem_cons_self
    have hcheck : checkWord (some (w : Int)) = some w := by
      rw [checkWord, if_pos ⟨by omega, by omega⟩, Int.toNat_natCast]
    rw [List.map_cons, List.mapM_cons, hcheck, ih fun x hx => h x (List.mem_cons_of_mem _ hx)]
    rfl

theorem bytes_eq (ws : List Nat) : (ws.flatMap fun w => [w >>> 8, w &&& 0xff]) = bytesOf ws := by
  refine List.flatMap_congr fun w _ => ?_
  rw [Nat.shiftRight_eq_div_pow, show (0xff : Nat) = 2 ^ 8 - 1 from rfl, Nat.and_two_pow_sub_one_eq_mod]

theorem ipv6Bytes_spelling (h : Spelling s ws) : ipv6Bytes s = some (bytesOf ws) := by
  cases h with
  | full hside hlen =>
    have hs := readsSide hside
    have hsix : isIPv6 s = true := by simp [isIPv6, ipv6Words, withoutZone_plain hs.noZone, hs.whole, hs.words, hlen]
    simp [ipv6Bytes, hsix, hs.whole, hs.parsed, hlen, mapM_checkWord hs.small, bytes_eq]
  | @compressed l r left right n hleft hright hpos hlen =>
    have hl := readsHalf hleft
    have hr := readsHalf hright
    have hzone : '%' ∉ l ++ ':' :: ':' :: r := by
      simp [hl.noZone, hr.noZone]
    have hroom : left.length + right.length ≤ 7 := by omega
    have hgap : 8 - left.length - right.length = n := by omega
    have hsix : isIPv6 (l ++ ':' :: ':' :: r) = true := by
      simp [isIPv6, ipv6Words, withoutZone_plain hzone, hl.cut r, hl.words, hr.words, hroom]
    have hsmall : ∀ w ∈ left ++ List.replicate n 0 ++ right, w < 65536 := by
      intro w hw
      rcases List.mem_append.mp hw with hw | hw
      · rcases List.mem_append.mp hw with hw | hw
        · exact hl.small w hw
        · rw [List.eq_of_mem_replicate hw]
          omega
      · exact hr.small w hw
    have hwords : toWords l ++ List.replicate n (some 0) ++ toWords r = (left ++ List.replicate n 0 ++ right).map fun (w : Nat) => some (w : Int) := by
      rw [hl.parsed, hr.parsed, List.map_append, List.map_append, List.map_replicate]
      rfl
    have hleftLength : (toWords l).length = left.length := by rw [hl.parsed, List.length_map]
    have hrightLength : (toWords r).length = right.length := by rw [hr.parsed, List.length_map]
    have hnot : ¬8 < left.length + right.length := by omega
    simp only [ipv6Bytes, hsix, Bool.not_true, Bool.false_eq_true, if_false, hl.cut r, Option.elim_some, hr.whole, Option.isNone_some,
      Bool.false_and, hleftLength, hrightLength, hnot, hgap, hwords, mapM_checkWord hsmall, Option.map_some, bytes_eq]

/-! ### The classification -/

theorem isBlockedAddress_dotted (ha : a < 256) (hb : b < 256) (hc : c < 256) (hd : d < 256) (blockPrivate : Bool) :
    isBlockedAddress (String.ofList (dotted a b c d)) blockPrivate = blockedIPv4 [a, b, c, d] blockPrivate := by
  have hs := readsSide (Side.quad ha hb hc hd)
  have hsix : ipv6Bytes (dotted a b c d) = none := by
    simp [ipv6Bytes, isIPv6, ipv6Words, withoutZone_plain hs.noZone, hs.whole, hs.words]
  simp only [isBlockedAddress, String.toList_ofList, hsix, ipv4Octets_dotted ha hb hc hd]

theorem isBlockedAddress_spells {b : List Nat} (h : Spells s b) (blockPrivate : Bool) :
    isBlockedAddress (String.ofList s) blockPrivate =
      (embeddedIPv4 b).elim (blockedIPv6 b blockPrivate) fun o => blockedIPv4 o blockPrivate := by
  obtain ⟨ws, hs, rfl⟩ := h
  simp only [isBlockedAddress, String.toList_ofList, ipv6Bytes_spelling hs]
  cases embeddedIPv4 (bytesOf ws) with
  | none => rfl
  | some o => rfl

theorem embeddedIPv4_embeds {bytes : List Nat} (h : Embeds bytes [a, b, c, d]) :
    embeddedIPv4 bytes = some [a, b, c, d] ∨ zeros bytes 0 16 = true ∧ embeddedIPv4 bytes = none := by
  cases h with
  | mapped => exact .inl (by simp [embeddedIPv4, zeros])
  | compatible hne =>
    by_cases hzero : a = 0 ∧ b = 0 ∧ c = 0 ∧ d ≤ 1
    · obtain ⟨rfl, rfl, rfl, hd⟩ := hzero
      have hd : d = 0 := by
        by_contra hd'
        exact hne (by rw [show d = 1 by omega])
      subst hd
      exact .inr (by decide)
    · refine .inl ?_
      have hcond : (!(zeros (List.replicate 12 0 ++ [a, b, c, d]) 12 15 && decide ((List.replicate 12 0 ++ [a, b, c, d]).getD 15 0 ≤ 1))) = true := by
        simp only [zeros, Bool.not_eq_true', Bool.and_eq_false_iff]
        by_cases hd : d ≤ 1
        · refine .inl ?_
          by_contra hall
          simp at hall
          exact hzero ⟨hall.1, hall.2.1, hall.2.2, hd⟩
        · exact .inr (by simpa using hd)
      simp only [embeddedIPv4, hcond]
      simp [zeros, isLocalUseNat64]
  | nat64 => exact .inl (by simp [embeddedIPv4, zeros])
  | localUse _ _ _ _ rest => exact .inl (by simp [embeddedIPv4, zeros, isLocalUseNat64])

end SpellingsAux

open SpellingsAux in
/-- Every text of an address is read as its bytes; an address that carries one of IPv4 is refused when that one is; and what is refused with
private addresses allowed is refused with them forbidden. -/
theorem classified_by_address :
    (∀ s b, Spells s b → ipv6Bytes s = some b) ∧
      (∀ a b c d bytes s blockPrivate, a < 256 → b < 256 → c < 256 → d < 256 → Embeds bytes [a, b, c, d] → Spells s bytes →
        isBlockedAddress (String.ofList (dotted a b c d)) blockPrivate = true → isBlockedAddress (String.ofList s) blockPrivate = true) ∧
      ∀ ip, isBlockedAddress ip false = true → isBlockedAddress ip true = true := by
  refine ⟨?_, ?_, fun ip h => isBlockedAddress_mono h true⟩
  · rintro s b ⟨ws, hs, rfl⟩
    exact ipv6Bytes_spelling hs
  · intro a b c d bytes s blockPrivate ha hb hc hd hembeds hspells hblocked
    rw [isBlockedAddress_dotted ha hb hc hd] at hblocked
    rw [isBlockedAddress_spells hspells]
    rcases embeddedIPv4_embeds hembeds with hsome | ⟨hzero, hnone⟩
    · rw [hsome]
      exact hblocked
    · rw [hnone, Option.elim_none, blockedIPv6, if_pos hzero]

end Capka.Net

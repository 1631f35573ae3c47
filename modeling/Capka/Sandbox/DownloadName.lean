import Mathlib.Data.List.Chain
import Capka.Lib.Strays
import Capka.Lib.Trim

/-!
# The names of downloads

`safeFilename` makes a name that can be saved on every system of a label, or of a fallback where nothing is left of the label. The end of the
name is trimmed again after the cut to the byte budget; its beginning is not trimmed again after the leading dots and dashes are gone, and the
dash that takes a device name apart is not in the budget.
-/

namespace Capka

namespace DownloadName

open Ecma

def MAX_NAME_BYTES : Nat := 120

/-- `/[\r\n\t\v\f]/`. -/
def isBreak (u : UInt16) : Bool := u = 0x0d || u = 0x0a || u = 0x09 || u = 0x0b || u = 0x0c

/-- `/[\x00-\x1F\x7F]/`. -/
def isControl (u : UInt16) : Bool := u ≤ 0x1f || u = 0x7f

/-- `/[<>:"/\\|?*]/`. -/
def isForbidden (u : UInt16) : Bool :=
  u = 0x3c || u = 0x3e || u = 0x3a || u = 0x22 || u = 0x2f || u = 0x5c || u = 0x7c || u = 0x3f || u = 0x2a

/-- `/[.\-]/`. -/
def isLead (u : UInt16) : Bool := u = 0x2e || u = 0x2d

/-- `/[.\s]/`. -/
def isTail (u : UInt16) : Bool := u = 0x2e || isSpace u

/-- `.replace(/\s+/g, " ")`: a run leaves one space, where it ends. -/
def collapse : Units → Units
  | [] => []
  | u :: rest =>
    if isSpace u then
      if rest.head?.any isSpace then collapse rest else 0x20 :: collapse rest
    else u :: collapse rest

/-- The loop of `truncateToBytes`, with the bytes that are taken. -/
def takeChars (maxBytes : Nat) : (bytes : Nat) → Units → Units
  | _, [] => []
  | bytes, [u] => if maxBytes < bytes + utf8Length [u] then [] else [u]
  | bytes, u :: v :: rest =>
    if isHigh u && isLow v then
      if maxBytes < bytes + utf8Length [u, v] then [] else u :: v :: takeChars maxBytes (bytes + utf8Length [u, v]) rest
    else if maxBytes < bytes + utf8Length [u] then []
    else u :: takeChars maxBytes (bytes + utf8Length [u]) (v :: rest)

def truncateToBytes (value : Units) (maxBytes : Nat) : Units := if utf8Length value ≤ maxBytes then value else takeChars maxBytes 0 value

/-- The value in one line, without what no system takes, and trimmed: `normalized` before its leading dots and dashes go. -/
def inLine (value : Units) : Units :=
  let words := value.map fun u => if isBreak u then 0x20 else u
  let printable := words.filter fun u => !isControl u
  let allowed := printable.map fun u => if isForbidden u then 0x2d else u
  Trim.trim isSpace (collapse allowed)

/-- The value without leading dots and dashes and without trailing dots and white space: what is cut to the budget. -/
def body (value : Units) : Units := ((inLine value).dropWhile isLead).rdropWhile isTail

def clean (value : Units) : Units := (truncateToBytes (body value) MAX_NAME_BYTES).rdropWhile isTail

/-- A letter of ASCII without its case. -/
def lower (u : UInt16) : UInt16 := if 0x41 ≤ u && u ≤ 0x5a then u + 0x20 else u

/-- `RESERVED_DEVICE_NAME`. -/
def isReservedDeviceName (stem : Units) : Bool :=
  match stem.map lower with
  | [a, b, c] => [a, b, c] = ofString "con" || [a, b, c] = ofString "prn" || [a, b, c] = ofString "aux" || [a, b, c] = ofString "nul"
  | [a, b, c, d] =>
    ([a, b, c] = ofString "com" || [a, b, c] = ofString "lpt") && ((0x31 ≤ d && d ≤ 0x39) || d = 0xb9 || d = 0xb2 || d = 0xb3)
  | _ => false

/-- What stands before the first dot. -/
def stem (name : Units) : Units := name.takeWhile (· ≠ 0x2e)

/-- What stands from the first dot on. -/
def suffix (name : Units) : Units := name.dropWhile (· ≠ 0x2e)

def defuseDeviceName (name : Units) : Units := if isReservedDeviceName (stem name) then stem name ++ 0x2d :: suffix name else name

/-- `"download"`. -/
def download : Units := ofString "download"

def safeFilename (raw : Option Units) (fallback : Units) : Units :=
  let cleaned := raw.elim [] clean
  if cleaned ≠ [] then defuseDeviceName cleaned
  else
    let safeFallback := clean fallback
    if safeFallback ≠ [] then defuseDeviceName safeFallback else download

/-! ## What is promised -/

/-- The text the name is made of: the label, or the fallback where nothing is left of the label. -/
def source (raw : Option Units) (fallback : Units) : Units := if raw.elim [] clean ≠ [] then raw.getD [] else fallback

/-- A name that can be saved: its characters, its ends, its first part, its length, no pair of the text it is made of taken apart, and the same
name again when it is made into one once more. -/
structure Saveable (text name : Units) : Prop where
  nonempty : name ≠ []
  printable : ∀ u ∈ name, isControl u = false
  allowed : ∀ u ∈ name, isForbidden u = false
  begins : ∀ u ∈ name.head?, isLead u = false ∧ isSpace u = false
  ends : ∀ u ∈ name.getLast?, isTail u = false
  device : isReservedDeviceName (stem name) = false
  short : utf8Length name ≤ MAX_NAME_BYTES + 1
  whole : strays name ≤ strays text
  stable : ∀ fallback, safeFilename (some name) fallback = name

/-- White space stands right behind the dots and dashes the text begins with. -/
def SpaceBehindLead (text : Units) : Prop := ∃ u ∈ (body text).head?, isSpace u = true

/-- What is left of the text is a device name, with what stands behind it, that takes the whole budget. -/
def FullDeviceName (text : Units) : Prop := isReservedDeviceName (stem (clean text)) = true ∧ utf8Length (clean text) = MAX_NAME_BYTES

namespace DownloadNameAux

variable {s t : Units} {u : UInt16}

/-! ### Kinds of units -/

theorem isControl_of_isBreak (h : isBreak u = true) : isControl u = true := by
  simp only [isBreak, Bool.or_eq_true, decide_eq_true_eq] at h
  rcases h with (((rfl | rfl) | rfl) | rfl) | rfl <;> rfl

theorem not_surrogate_of_space (h : isSpace u = true) : isSurrogate u = false := by
  rw [isSurrogate, Bool.eq_false_iff, ne_eq, surrogate_iff]
  simp only [isSpace, Bool.or_eq_true, Bool.and_eq_true, decide_eq_true_eq, UInt16.le_iff_toNat_le, ← UInt16.toNat_inj,
    UInt16.reduceToNat] at h
  omega

theorem not_surrogate_of_tail (h : isTail u = true) : isSurrogate u = false := by
  rw [isTail, Bool.or_eq_true, decide_eq_true_eq] at h
  rcases h with rfl | h
  · rfl
  · exact not_surrogate_of_space h

theorem not_surrogate_of_lead (h : isLead u = true) : isSurrogate u = false := by
  rw [isLead, Bool.or_eq_true, decide_eq_true_eq, decide_eq_true_eq] at h
  rcases h with rfl | rfl <;> rfl

/-! ### Runs of white space -/

theorem head?_collapse (s : Units) : (collapse s).head? = s.head?.map fun u => if isSpace u then 0x20 else u := by
  induction s with
  | nil => rfl
  | cons u rest ih =>
    rw [collapse]
    cases hu : isSpace u with
    | false => simp [hu]
    | true =>
      cases rest with
      | nil => simp [hu]
      | cons v rest =>
        cases hv : isSpace v with
        | false => simp [hu, hv]
        | true => simpa [hu, hv] using ih

theorem mem_collapse (h : u ∈ collapse s) : u = 0x20 ∨ u ∈ s ∧ isSpace u = false := by
  induction s with
  | nil => cases h
  | cons v rest ih =>
    rw [collapse] at h
    have hrest : u ∈ collapse rest → u = 0x20 ∨ u ∈ v :: rest ∧ isSpace u = false := fun h =>
      (ih h).imp_right fun hu => ⟨List.mem_cons_of_mem v hu.1, hu.2⟩
    split_ifs at h with hv hnext
    · exact hrest h
    · exact (List.mem_cons.mp h).elim .inl hrest
    · rcases List.mem_cons.mp h with rfl | h
      · exact .inr ⟨List.mem_cons_self, by simpa using hv⟩
      · exact hrest h

/-- No two units next to each other are white space. -/
def Apart (s : Units) : Prop := s.IsChain fun u v => isSpace u = false ∨ isSpace v = false

theorem apart_collapse (s : Units) : Apart (collapse s) := by
  induction s with
  | nil => exact List.isChain_nil
  | cons u rest ih =>
    rw [collapse]
    split_ifs with hu hnext
    · exact ih
    · refine List.isChain_cons.mpr ⟨fun v hv => .inr ?_, ih⟩
      rw [head?_collapse] at hv
      cases rest with
      | nil => cases hv
      | cons w rest =>
        have hw : isSpace w = false := by simpa using hnext
        obtain rfl : w = v := by simpa [hw] using hv
        exact hw
    · exact List.isChain_cons.mpr ⟨fun v _ => .inl (by simpa using hu), ih⟩

theorem collapse_eq_self (hspaces : ∀ u ∈ s, isSpace u = true → u = 0x20) (h : Apart s) : collapse s = s := by
  induction s with
  | nil => rfl
  | cons u rest ih =>
    obtain ⟨hnext, hrest⟩ := List.isChain_cons.mp h
    have ih := ih (fun v hv => hspaces v (List.mem_cons_of_mem u hv)) hrest
    rw [collapse]
    split_ifs with hu hspace
    · cases rest with
      | nil => simp at hspace
      | cons v rest =>
        have hv : isSpace v = true := by simpa using hspace
        rcases hnext v rfl with hfalse | hfalse
        · rw [hu] at hfalse
          cases hfalse
        · rw [hv] at hfalse
          cases hfalse
    · rw [ih, hspaces u List.mem_cons_self hu]
    · rw [ih]

/-! ### Texts in line -/

/-- What the first steps leave: no control character, no forbidden one, and no white space but single spaces. -/
structure Tidy (s : Units) : Prop where
  printable : ∀ u ∈ s, isControl u = false
  allowed : ∀ u ∈ s, isForbidden u = false
  spaces : ∀ u ∈ s, isSpace u = true → u = 0x20
  apart : Apart s

theorem Tidy.part (h : Tidy s) (hi : t <:+: s) : Tidy t where
  printable := fun u hu => h.printable u (hi.subset hu)
  allowed := fun u hu => h.allowed u (hi.subset hu)
  spaces := fun u hu => h.spaces u (hi.subset hu)
  apart := List.IsChain.infix h.apart hi

theorem trim_part (s : Units) : Trim.trim isSpace s <:+: s := by
  obtain ⟨lead, trail, hs, -⟩ := Trim.exists_trim isSpace s
  exact ⟨lead, trail, by rw [List.append_assoc]; exact hs.symm⟩

theorem tidy_inLine (value : Units) : Tidy (inLine value) := by
  refine Tidy.part ⟨fun u hu => ?_, fun u hu => ?_, fun u hu hspace => ?_, apart_collapse _⟩ (trim_part _)
  · rcases mem_collapse hu with rfl | ⟨hu, -⟩
    · rfl
    · obtain ⟨v, hv, rfl⟩ := List.mem_map.mp hu
      split_ifs
      · rfl
      · simpa using (List.mem_filter.mp hv).2
  · rcases mem_collapse hu with rfl | ⟨hu, -⟩
    · rfl
    · obtain ⟨v, hv, rfl⟩ := List.mem_map.mp hu
      split_ifs with hforbidden
      · rfl
      · simpa using hforbidden
  · rcases mem_collapse hu with rfl | ⟨-, hnot⟩
    · rfl
    · rw [hspace] at hnot
      cases hnot

theorem inLine_eq_self (h : Tidy s) (hbare : Trim.Bare isSpace s) : inLine s = s := by
  have hwords : (s.map fun u => if isBreak u then 0x20 else u) = s := by
    refine (List.map_congr_left fun u hu => ?_).trans (List.map_id s)
    rw [if_neg, id_eq]
    intro hbreak
    have hcontrol := h.printable u hu
    rw [isControl_of_isBreak hbreak] at hcontrol
    cases hcontrol
  have hprintable : (s.filter fun u => !isControl u) = s := List.filter_eq_self.mpr fun u hu => by simp [h.printable u hu]
  have hallowed : (s.map fun u => if isForbidden u then 0x2d else u) = s := by
    refine (List.map_congr_left fun u hu => ?_).trans (List.map_id s)
    rw [h.allowed u hu, if_neg Bool.false_ne_true, id_eq]
  simp only [inLine, hwords, hprintable, hallowed, collapse_eq_self h.spaces h.apart]
  exact Trim.trim_eq_self_iff.mpr hbare

/-- A text that is made into a name as it is, but for its length and for device names. -/
structure Ready (s : Units) : Prop extends Tidy s where
  begins : ∀ u ∈ s.head?, isLead u = false ∧ isSpace u = false
  ends : ∀ u ∈ s.getLast?, isTail u = false

theorem body_eq_self (h : Ready s) : body s = s := by
  have hends : ∀ u ∈ s.getLast?, isSpace u = false := fun u hu => (Bool.or_eq_false_iff.mp (h.ends u hu)).2
  rw [body, inLine_eq_self h.toTidy ⟨fun u hu => (h.begins u hu).2, hends⟩,
    Trim.dropWhile_eq_self_iff.mpr fun u hu => (h.begins u hu).1, Trim.rdropWhile_eq_self_iff.mpr h.ends]

theorem tidy_body (value : Units) : Tidy (body value) :=
  (tidy_inLine value).part ((List.rdropWhile_prefix _ _).isInfix.trans (List.dropWhile_suffix _).isInfix)

theorem lead_body (value : Units) : ∀ u ∈ (body value).head?, isLead u = false := by
  intro u hu
  have hhead := List.head?_dropWhile_not isLead (inLine value)
  rw [Option.mem_def.mp (Trim.head?_rdropWhile hu)] at hhead
  simpa using hhead

/-! ### The cut -/

theorem utf8Length_append (s : Units) (ht : Fresh t) : utf8Length (s ++ t) = utf8Length s + utf8Length t := by
  rw [← length_toUtf8, ← length_toUtf8, ← length_toUtf8, toUtf8, scalars_append s ht, Utf8.encode_append, List.length_append]
  rfl

theorem utf8Length_pair {v : UInt16} (h : (isHigh u && isLow v) = true) (rest : Units) :
    utf8Length (u :: v :: rest) = utf8Length [u, v] + utf8Length rest := by
  have hpairs : ∀ rest, pairs u (v :: rest) = true := fun _ => h
  have hhigh := isHigh_iff.mp (Bool.and_eq_true_iff.mp h).1
  simp only [utf8Length, utf8From, UInt16.lt_iff_toNat_lt, UInt16.reduceToNat, hpairs, if_true]
  split_ifs <;> omega

theorem utf8Length_lone (h : pairs u s = false) : utf8Length (u :: s) = utf8Length [u] + utf8Length s := by
  rw [utf8Length, utf8Length, utf8Length, utf8From_lone h, utf8From_lone (by simp [pairs]), utf8From, Nat.add_zero]

theorem utf8From_le (paired : Bool) (s : Units) : utf8From paired s ≤ 3 * s.length := by
  induction s generalizing paired with
  | nil => simp [utf8From]
  | cons u rest ih =>
    have htrue := ih true
    have hfalse := ih false
    cases paired with
    | true =>
      rw [utf8From, List.length_cons]
      omega
    | false =>
      rw [utf8From, List.length_cons]
      split_ifs <;> omega

/-- What the loop has taken is a beginning of the text, within the budget, and takes no pair apart. -/
theorem takeChars_spec (maxBytes bytes : Nat) (s : Units) (hbytes : bytes ≤ maxBytes) :
    takeChars maxBytes bytes s <+: s ∧ bytes + utf8Length (takeChars maxBytes bytes s) ≤ maxBytes ∧
      strays (takeChars maxBytes bytes s) ≤ strays s := by
  fun_induction takeChars maxBytes bytes s with
  | case1 bytes => exact ⟨List.prefix_rfl, hbytes, le_rfl⟩
  | case2 bytes u hover => exact ⟨List.nil_prefix, hbytes, Nat.zero_le _⟩
  | case3 bytes u hfits => exact ⟨List.prefix_rfl, Nat.le_of_not_lt hfits, le_rfl⟩
  | case4 bytes u v rest hpair hover => exact ⟨List.nil_prefix, hbytes, Nat.zero_le _⟩
  | case5 bytes u v rest hpair hfits ih =>
    obtain ⟨hbegin, hlen, hstrays⟩ := ih (Nat.le_of_not_lt hfits)
    refine ⟨List.cons_prefix_cons.mpr ⟨rfl, List.cons_prefix_cons.mpr ⟨rfl, hbegin⟩⟩, ?_, ?_⟩
    · rw [utf8Length_pair hpair]
      omega
    · rw [StraysAux.strays_pair hpair, StraysAux.strays_pair hpair]
      exact hstrays
  | case6 bytes u v rest hlone hover => exact ⟨List.nil_prefix, hbytes, Nat.zero_le _⟩
  | case7 bytes u v rest hlone hfits ih =>
    obtain ⟨hbegin, hlen, hstrays⟩ := ih (Nat.le_of_not_lt hfits)
    have hpairs : ∀ taken, taken <+: v :: rest → pairs u taken = false := by
      intro taken htaken
      cases taken with
      | nil => simp [pairs]
      | cons w taken =>
        obtain ⟨rfl, -⟩ := List.cons_prefix_cons.mp htaken
        simpa [pairs] using hlone
    refine ⟨List.cons_prefix_cons.mpr ⟨rfl, hbegin⟩, ?_, ?_⟩
    · rw [utf8Length_lone (hpairs _ hbegin)]
      omega
    · rw [StraysAux.strays_lone (hpairs _ hbegin), StraysAux.strays_lone (hpairs _ List.prefix_rfl)]
      exact Nat.add_le_add_left hstrays _

theorem truncate_spec (s : Units) (maxBytes : Nat) :
    truncateToBytes s maxBytes <+: s ∧ utf8Length (truncateToBytes s maxBytes) ≤ maxBytes ∧ strays (truncateToBytes s maxBytes) ≤ strays s := by
  unfold truncateToBytes
  split_ifs with hfits
  · exact ⟨List.prefix_rfl, hfits, le_rfl⟩
  · obtain ⟨hbegin, hlen, hstrays⟩ := takeChars_spec maxBytes 0 s (Nat.zero_le _)
    exact ⟨hbegin, by omega, hstrays⟩

theorem rdropWhile_tail (s : Units) :
    utf8Length (s.rdropWhile isTail) ≤ utf8Length s ∧ strays (s.rdropWhile isTail) = strays s := by
  have hplain : ∀ u ∈ s.rtakeWhile isTail, isSurrogate u = false := fun u hu => not_surrogate_of_tail (List.mem_rtakeWhile_imp hu)
  have hs := List.rdropWhile_append_rtakeWhile (p := isTail) (l := s)
  constructor
  · have hlen := utf8Length_append (s.rdropWhile isTail) (StraysAux.fresh_of_all hplain)
    rw [hs] at hlen
    omega
  · have hstrays := StraysAux.strays_append_right (s.rdropWhile isTail) hplain
    rw [hs] at hstrays
    exact hstrays.symm

/-! ### What is cleaned -/

theorem clean_begins (value : Units) : clean value <+: body value :=
  (List.rdropWhile_prefix _ _).trans (truncate_spec _ _).1

theorem clean_short (value : Units) : utf8Length (clean value) ≤ MAX_NAME_BYTES :=
  (rdropWhile_tail _).1.trans (truncate_spec _ _).2.1

theorem ends_clean (value : Units) : ∀ u ∈ (clean value).getLast?, isTail u = false := by
  rw [← Trim.rdropWhile_eq_self_iff]
  exact List.rdropWhile_idempotent isTail _

theorem clean_eq_self (h : Ready s) (hlen : utf8Length s ≤ MAX_NAME_BYTES) : clean s = s := by
  rw [clean, body_eq_self h, truncateToBytes, if_pos hlen, Trim.rdropWhile_eq_self_iff.mpr h.ends]

theorem head?_clean {value : Units} (h : clean value ≠ []) : (clean value).head? = (body value).head? := by
  obtain ⟨rest, hrest⟩ := clean_begins value
  rw [← hrest, List.head?_append_of_ne_nil _ h]

theorem ready_clean {value : Units} (h : ¬SpaceBehindLead value) : Ready (clean value) where
  toTidy := (tidy_body value).part (clean_begins value).isInfix
  begins := by
    intro u hu
    have hbody : u ∈ (body value).head? := by
      rw [← head?_clean (List.ne_nil_of_mem (List.mem_of_mem_head? hu))]
      exact hu
    refine ⟨lead_body value u hbody, Bool.eq_false_iff.mpr fun hspace => h ⟨u, hbody, hspace⟩⟩
  ends := ends_clean value

theorem strays_trim (s : Units) : strays (Trim.trim isSpace s) = strays s := by
  obtain ⟨lead, trail, hs, hlead, htrail⟩ := Trim.exists_trim isSpace s
  conv_rhs => rw [hs]
  rw [StraysAux.strays_append_left fun u hu => not_surrogate_of_space (hlead u hu),
    StraysAux.strays_append_right _ fun u hu => not_surrogate_of_space (htrail u hu)]

theorem strays_collapse (s : Units) : strays (collapse s) = strays s := by
  induction s using scalars.induct with
  | case1 => rfl
  | case2 u =>
    cases hu : isSpace u with
    | false => simp [collapse, hu]
    | true => simp [collapse, hu, strays, not_surrogate_of_space hu, show isSurrogate 0x20 = false from rfl]
  | case3 u v rest h ih =>
    -- No half of a pair is white space.
    have hplain : ∀ w, isSurrogate w = true → isSpace w = false := fun w hw =>
      Bool.eq_false_iff.mpr fun hspace => by rw [not_surrogate_of_space hspace] at hw; cases hw
    have hboth := Bool.and_eq_true_iff.mp h
    have hcollapse : collapse (u :: v :: rest) = u :: v :: collapse rest := by
      rw [collapse, hplain u (by simp [isSurrogate, hboth.1]), if_neg Bool.false_ne_true, collapse,
        hplain v (by simp [isSurrogate, hboth.2]), if_neg Bool.false_ne_true]
    rw [hcollapse, StraysAux.strays_pair h, StraysAux.strays_pair h, ih]
  | case4 u v rest h ih =>
    rw [collapse]
    split_ifs with hu hnext
    · rw [ih, StraysAux.strays_cons (not_surrogate_of_space hu)]
    · rw [StraysAux.strays_cons rfl, ih, StraysAux.strays_cons (not_surrogate_of_space hu)]
    · have hlone : pairs u (v :: rest) = false := by simpa [pairs] using h
      have hlone' : pairs u (collapse (v :: rest)) = false := by
        rw [pairs, head?_collapse]
        cases hv : isSpace v with
        | true => simp [hv, show isLow 0x20 = false from rfl]
        | false => simpa [pairs, hv] using hlone
      rw [StraysAux.strays_lone hlone, StraysAux.strays_lone hlone', ih]

theorem strays_inLine_le (value : Units) : strays (inLine value) ≤ strays value := by
  have hbreak : ∀ u, isHigh (if isBreak u then 0x20 else u) = isHigh u ∧ isLow (if isBreak u then 0x20 else u) = isLow u := by
    intro u
    split_ifs with h
    · simp only [isBreak, Bool.or_eq_true, decide_eq_true_eq] at h
      rcases h with (((rfl | rfl) | rfl) | rfl) | rfl <;> exact ⟨rfl, rfl⟩
    · exact ⟨rfl, rfl⟩
  have hforbidden : ∀ u, isHigh (if isForbidden u then 0x2d else u) = isHigh u ∧ isLow (if isForbidden u then 0x2d else u) = isLow u := by
    intro u
    split_ifs with h
    · simp only [isForbidden, Bool.or_eq_true, decide_eq_true_eq] at h
      rcases h with (((((((rfl | rfl) | rfl) | rfl) | rfl) | rfl) | rfl) | rfl) | rfl <;> exact ⟨rfl, rfl⟩
    · exact ⟨rfl, rfl⟩
  have hcontrol : ∀ u, isSurrogate u = true → (!isControl u) = true := by
    intro u hu
    rw [isSurrogate, surrogate_iff] at hu
    rw [Bool.not_eq_true', Bool.eq_false_iff]
    intro h
    simp only [isControl, Bool.or_eq_true, decide_eq_true_eq, UInt16.le_iff_toNat_le, ← UInt16.toNat_inj, UInt16.reduceToNat] at h
    omega
  have htrim : strays (inLine value) = strays (collapse (((value.map fun u => if isBreak u then 0x20 else u).filter fun u => !isControl u).map
      fun u => if isForbidden u then 0x2d else u)) := strays_trim _
  rw [htrim, strays_collapse, StraysAux.strays_map (fun u => (hforbidden u).1) fun u => (hforbidden u).2]
  refine (StraysAux.strays_filter_le hcontrol _).trans ?_
  rw [StraysAux.strays_map (fun u => (hbreak u).1) fun u => (hbreak u).2]

theorem strays_clean_le (value : Units) : strays (clean value) ≤ strays value := by
  have hbody : strays (body value) = strays (inLine value) := by
    rw [body, (rdropWhile_tail _).2]
    conv_rhs => rw [← List.takeWhile_append_dropWhile (p := isLead) (l := inLine value)]
    exact (StraysAux.strays_append_left fun u hu => not_surrogate_of_lead (List.mem_takeWhile_imp hu)).symm
  rw [clean, (rdropWhile_tail _).2]
  exact (truncate_spec _ _).2.2.trans (hbody.le.trans (strays_inLine_le value))

/-! ### Device names -/

theorem reserved_dash (h : isReservedDeviceName s = true) :
    s ≠ [] ∧ s.length ≤ 4 ∧ isReservedDeviceName (s ++ [0x2d]) = false := by
  have hdash : lower 0x2d = 0x2d := rfl
  rcases s with _ | ⟨a, _ | ⟨b, _ | ⟨c, _ | ⟨d, _ | ⟨e, s⟩⟩⟩⟩⟩
  · cases h
  · cases h
  · cases h
  · exact ⟨by simp, by simp, by simp [isReservedDeviceName, hdash]⟩
  · exact ⟨by simp, by simp, by simp [isReservedDeviceName]⟩
  · simp [isReservedDeviceName] at h

theorem stem_append_suffix (name : Units) : stem name ++ suffix name = name := List.takeWhile_append_dropWhile

theorem dot_suffix (name : Units) : ∀ u ∈ (suffix name).head?, u = 0x2e := by
  intro u hu
  have hhead := List.head?_dropWhile_not (· ≠ 0x2e) name
  rw [← suffix, Option.mem_def.mp hu] at hhead
  simpa using hhead

theorem fresh_suffix (name : Units) : Fresh (suffix name) := fun u hu => by rw [dot_suffix name u hu]; rfl

theorem stem_dashed (name : Units) :
    stem (stem name ++ 0x2d :: suffix name) = stem name ++ [0x2d] ∧ suffix (stem name ++ 0x2d :: suffix name) = suffix name := by
  have hstem : ∀ u ∈ stem name, decide (u ≠ 0x2e) = true := fun u hu => List.mem_takeWhile_imp (p := fun v => decide (v ≠ 0x2e)) hu
  have hnone : (suffix name).takeWhile (· ≠ 0x2e) = [] ∧ (suffix name).dropWhile (· ≠ 0x2e) = suffix name := by
    have hdot := dot_suffix name
    cases hsuffix : suffix name with
    | nil => exact ⟨rfl, rfl⟩
    | cons u rest =>
      rw [hsuffix] at hdot
      rw [hdot u rfl]
      exact ⟨rfl, rfl⟩
  constructor
  · rw [stem, List.takeWhile_append_of_pos hstem, List.takeWhile_cons_of_pos (by decide), hnone.1]
  · rw [suffix, List.dropWhile_append_of_pos hstem, List.dropWhile_cons_of_pos (by decide), hnone.2]

theorem mem_dashed (h : u ∈ s ++ 0x2d :: t) : u = 0x2d ∨ u ∈ s ++ t := by
  rw [List.mem_append, List.mem_cons] at h
  rw [List.mem_append]
  tauto

theorem ready_dashed (h : Ready (s ++ t)) (hs : s ≠ []) : Ready (s ++ 0x2d :: t) where
  printable := by
    intro u hu
    rcases mem_dashed hu with rfl | hu
    · rfl
    · exact h.printable u hu
  allowed := by
    intro u hu
    rcases mem_dashed hu with rfl | hu
    · rfl
    · exact h.allowed u hu
  spaces := by
    intro u hu hspace
    rcases mem_dashed hu with rfl | hu
    · cases hspace
    · exact h.spaces u hu hspace
  apart := by
    obtain ⟨hleft, hright, -⟩ := List.isChain_append.mp h.apart
    refine hleft.append (List.isChain_cons.mpr ⟨fun v _ => .inl rfl, hright⟩) fun u _ v hv => .inr ?_
    obtain rfl : 0x2d = v := by simpa using hv
    rfl
  begins := by
    intro u hu
    rw [List.head?_append_of_ne_nil s hs] at hu
    exact h.begins u (by rw [List.head?_append_of_ne_nil s hs]; exact hu)
  ends := by
    intro u hu
    rw [List.getLast?_append_of_ne_nil s (by simp)] at hu
    cases t with
    | nil =>
      obtain rfl : 0x2d = u := by simpa using hu
      rfl
    | cons v t =>
      rw [List.getLast?_cons_cons] at hu
      exact h.ends u (by rw [List.getLast?_append_of_ne_nil s (by simp)]; exact hu)

/-! ### Names -/

/-- The name that is made of what is left of a text. -/
def finish (cleaned : Units) : Units := if cleaned ≠ [] then defuseDeviceName cleaned else download

theorem safeFilename_eq (raw : Option Units) (fallback : Units) : safeFilename raw fallback = finish (clean (source raw fallback)) := by
  unfold safeFilename source finish
  cases raw with
  | none => simp
  | some raw =>
    by_cases hraw : clean raw = []
    · simp [hraw]
    · simp [hraw]

theorem saveable_download (text : Units) : Saveable text download where
  nonempty := by decide +kernel
  printable := by
    have hall : download.all (fun u => !isControl u) = true := by decide +kernel
    simpa using hall
  allowed := by
    have hall : download.all (fun u => !isForbidden u) = true := by decide +kernel
    simpa using hall
  begins := by
    intro u hu
    have hfirst : download.head? = some 0x64 := by decide +kernel
    rw [hfirst, Option.mem_some_iff] at hu
    exact hu ▸ ⟨rfl, rfl⟩
  ends := by
    intro u hu
    have hlast : download.getLast? = some 0x64 := by decide +kernel
    rw [hlast, Option.mem_some_iff] at hu
    exact hu ▸ rfl
  device := by decide +kernel
  short := by decide +kernel
  whole := by
    have hnone : strays download = 0 := by decide +kernel
    rw [hnone]
    exact Nat.zero_le _
  stable := by
    intro fallback
    have hclean : clean download = download := by decide +kernel
    have hdevice : defuseDeviceName download = download := by decide +kernel
    simp [safeFilename, hclean, hdevice, show download ≠ [] by decide +kernel]

theorem defuse_of_reserved {name : Units} (h : isReservedDeviceName (stem name) = true) :
    defuseDeviceName name = stem name ++ 0x2d :: suffix name := by
  rw [defuseDeviceName, if_pos h]

theorem defuse_of_not {name : Units} (h : isReservedDeviceName (stem name) = false) : defuseDeviceName name = name := by
  rw [defuseDeviceName, if_neg (by rw [h]; exact Bool.false_ne_true)]

theorem dashed_sizes (name : Units) : utf8Length (stem name ++ 0x2d :: suffix name) = utf8Length name + 1 ∧
    strays (stem name ++ 0x2d :: suffix name) = strays name := by
  have hdash : Fresh (0x2d :: suffix name) := fresh_ascii (by decide) _
  have hone : utf8Length (0x2d :: suffix name) = 1 + utf8Length (suffix name) := utf8Length_lone (by simp [pairs, show isHigh 0x2d = false from rfl])
  have hname := stem_append_suffix name
  constructor
  · rw [utf8Length_append _ hdash, hone]
    conv_rhs => rw [← hname, utf8Length_append _ (fresh_suffix name)]
    omega
  · rw [StraysAux.strays_append _ hdash, StraysAux.strays_cons rfl]
    conv_rhs => rw [← hname, StraysAux.strays_append _ (fresh_suffix name)]

theorem saveable_finish {text : Units} (hne : clean text ≠ []) (hready : Ready (clean text)) (hfull : ¬FullDeviceName text) :
    Saveable text (finish (clean text)) := by
  -- A ready name within the budget, which is no device name, is made into itself.
  have hstable : ∀ name, name ≠ [] → Ready name → utf8Length name ≤ MAX_NAME_BYTES → isReservedDeviceName (stem name) = false →
      ∀ fallback, safeFilename (some name) fallback = name := by
    intro name hname hr hlen hnot fallback
    have hclean := clean_eq_self hr hlen
    rw [safeFilename, Option.elim_some, hclean, if_pos hname, defuse_of_not hnot]
  have hshort := clean_short text
  rw [finish, if_pos hne]
  cases hdevice : isReservedDeviceName (stem (clean text)) with
  | false =>
    rw [defuse_of_not hdevice]
    exact ⟨hne, hready.printable, hready.allowed, hready.begins, hready.ends, hdevice, Nat.le_succ_of_le hshort, strays_clean_le text,
      hstable _ hne hready hshort hdevice⟩
  | true =>
    obtain ⟨hstem, -, hnot⟩ := reserved_dash hdevice
    obtain ⟨hlen, hstrays⟩ := dashed_sizes (clean text)
    have hdashed : Ready (stem (clean text) ++ 0x2d :: suffix (clean text)) :=
      ready_dashed (by rw [stem_append_suffix]; exact hready) hstem
    have hroom : utf8Length (clean text) ≠ MAX_NAME_BYTES := fun h => hfull ⟨hdevice, h⟩
    have hdevice' : isReservedDeviceName (stem (stem (clean text) ++ 0x2d :: suffix (clean text))) = false := by
      rw [(stem_dashed _).1]
      exact hnot
    rw [defuse_of_reserved hdevice]
    exact ⟨by simp, hdashed.printable, hdashed.allowed, hdashed.begins, hdashed.ends, hdevice', by omega,
      hstrays.le.trans (strays_clean_le text), hstable _ (by simp) hdashed (by omega) hdevice'⟩

theorem head?_finish {cleaned : Units} (h : cleaned ≠ []) : (finish cleaned).head? = cleaned.head? := by
  rw [finish, if_pos h]
  cases hdevice : isReservedDeviceName (stem cleaned) with
  | false => rw [defuse_of_not hdevice]
  | true =>
    have hstem := (reserved_dash hdevice).1
    rw [defuse_of_reserved hdevice, List.head?_append_of_ne_nil _ hstem]
    conv_rhs => rw [← stem_append_suffix cleaned, List.head?_append_of_ne_nil _ hstem]

theorem not_stable_of_full {text : Units} (hready : Ready (clean text)) (hfull : FullDeviceName text) :
    safeFilename (some (finish (clean text))) [] ≠ finish (clean text) := by
  obtain ⟨hdevice, hlen⟩ := hfull
  have hne : clean text ≠ [] := by
    intro h
    rw [h] at hdevice
    cases hdevice
  have hname : finish (clean text) = stem (clean text) ++ 0x2d :: suffix (clean text) := by
    rw [finish, if_pos hne, defuse_of_reserved hdevice]
  obtain ⟨hstem, hletters, hnot⟩ := reserved_dash hdevice
  have hsize := (dashed_sizes (clean text)).1
  have hdashed : Ready (stem (clean text) ++ 0x2d :: suffix (clean text)) :=
    ready_dashed (by rw [stem_append_suffix]; exact hready) hstem
  obtain ⟨hstem', hsuffix'⟩ := stem_dashed (clean text)
  rw [hname]
  generalize hn : stem (clean text) ++ 0x2d :: suffix (clean text) = name at *
  intro hsame
  have hshort := clean_short name
  have hagain : clean name ≠ [] := by
    intro h
    have hnil : clean [] = [] := rfl
    rw [safeFilename, Option.elim_some, h, if_neg (by simp), hnil, if_neg (by simp)] at hsame
    rw [← hsame, show utf8Length download = 8 by decide +kernel, hlen] at hsize
    cases hsize
  rw [safeFilename, Option.elim_some, if_pos hagain] at hsame
  cases hdevice' : isReservedDeviceName (stem (clean name)) with
  | false =>
    -- The name would be within the budget.
    rw [defuse_of_not hdevice'] at hsame
    rw [hsame] at hshort
    omega
  | true =>
    -- The cut name would be what was left of the text, which is no beginning of the name.
    rw [defuse_of_reserved hdevice'] at hsame
    obtain ⟨hstem'', hsuffix''⟩ := stem_dashed (clean name)
    rw [hsame] at hstem'' hsuffix''
    have hstems : stem (clean name) = stem (clean text) := List.append_cancel_right (hstem''.symm.trans hstem')
    have hsuffixes : suffix (clean name) = suffix (clean text) := hsuffix''.symm.trans hsuffix'
    have hclean : clean name = clean text := by
      rw [← stem_append_suffix (clean name), hstems, hsuffixes, stem_append_suffix]
    have hbegin := clean_begins name
    rw [body_eq_self hdashed, hclean, ← hn] at hbegin
    conv at hbegin => lhs; rw [← stem_append_suffix (clean text)]
    rw [List.prefix_append_right_inj] at hbegin
    have hdot := dot_suffix (clean text)
    cases hsuffix : suffix (clean text) with
    | nil =>
      have hwhole := stem_append_suffix (clean text)
      rw [hsuffix, List.append_nil] at hwhole
      have hbytes : utf8Length (clean text) ≤ 3 * (clean text).length := utf8From_le false _
      rw [hwhole] at hletters
      rw [hlen, MAX_NAME_BYTES] at hbytes
      omega
    | cons u rest =>
      rw [hsuffix] at hbegin hdot
      have hu := hdot u rfl
      rw [hu, List.cons_prefix_cons] at hbegin
      exact absurd hbegin.1 (by decide)

end DownloadNameAux

open DownloadNameAux

/-- The name can be saved just when no white space stands behind the dots and dashes its text begins with, and its text is no device name
that takes the whole budget, or nothing is left of its text. -/
theorem safeFilename_saveable_iff (raw : Option Units) (fallback : Units) :
    Saveable (source raw fallback) (safeFilename raw fallback) ↔
      (clean (source raw fallback) ≠ [] → ¬SpaceBehindLead (source raw fallback) ∧ ¬FullDeviceName (source raw fallback)) := by
  rw [safeFilename_eq]
  generalize source raw fallback = text
  constructor
  · intro h hne
    have hspace : ¬SpaceBehindLead text := by
      rintro ⟨u, hu, hspace⟩
      have hhead : u ∈ (finish (clean text)).head? := by
        rw [head?_finish hne, head?_clean hne]
        exact hu
      rw [(h.begins u hhead).2] at hspace
      cases hspace
    exact ⟨hspace, fun hfull => not_stable_of_full (ready_clean hspace) hfull (h.stable [])⟩
  · intro h
    by_cases hne : clean text = []
    · rw [finish, if_neg (by simp [hne])]
      exact saveable_download text
    · obtain ⟨hspace, hfull⟩ := h hne
      exact saveable_finish hne (ready_clean hspace) hfull

theorem safeFilename_saveable_false : ¬∀ (raw : Option Units) (fallback : Units),
    Saveable (source raw fallback) (safeFilename raw fallback) := by
  intro h
  have hbegins := (h (some (ofString "- notes")) (ofString "chat")).begins
  have hname : (safeFilename (some (ofString "- notes")) (ofString "chat")).head? = some 0x20 := by decide +kernel
  rw [hname] at hbegins
  exact absurd (hbegins 0x20 rfl).2 (by decide)

end DownloadName

end Capka

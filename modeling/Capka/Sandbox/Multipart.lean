import Capka.Lib.Json
import Capka.Lib.Search
import Capka.Lib.Utf8Lossy

/-!
# Uploaded forms

The controller reads a form that is sent to it whole: the delimiter is searched for, and what is between two of them is a part, with a header
and a content. A form in the standard encoding is read back, every content byte for byte, when no header and no content has the delimiter in
it and no header is mistaken.
-/

namespace Capka

namespace Multipart

/-! ## Texts -/

/-- `multipart/form-data`. -/
def formDataText : List Char :=
  ['m', 'u', 'l', 't', 'i', 'p', 'a', 'r', 't', '/', 'f', 'o', 'r', 'm', '-', 'd', 'a', 't', 'a']

/-- `boundary=`. -/
def boundaryText : List Char :=
  ['b', 'o', 'u', 'n', 'd', 'a', 'r', 'y', '=']

/-- `name=`. -/
def nameText : List Char :=
  ['n', 'a', 'm', 'e', '=']

/-- `filename=`. -/
def filenameText : List Char :=
  ['f', 'i', 'l', 'e', 'n', 'a', 'm', 'e', '=']

/-- `Content-Disposition: form-data; name=`. -/
def dispositionText : List Char :=
  ['C', 'o', 'n', 't', 'e', 'n', 't', '-', 'D', 'i', 's', 'p', 'o', 's', 'i', 't', 'i', 'o',
  'n', ':', ' ', 'f', 'o', 'r', 'm', '-', 'd', 'a', 't', 'a', ';', ' ', 'n', 'a', 'm', 'e', '=']

/-- `Content-Type: `. -/
def typeText : List Char :=
  ['C', 'o', 'n', 't', 'e', 'n', 't', '-', 'T', 'y', 'p', 'e', ':', ' ']

/-! ## Patterns -/

/-- What the pattern gives at the first place of the text where it matches. -/
def firstMatch {α : Type} (f : List Char → Option α) : List Char → Option α
  | [] => f []
  | c :: s => (f (c :: s)).or (firstMatch f s)

/-- A letter in lower case. -/
def lower (c : Char) : Char := if c.isUpper then Char.ofNat (c.toNat + 0x20) else c

/-- What is behind the key, in whatever case it is written. -/
def afterKey (key s : List Char) : Option (List Char) := if key.isPrefixOf (s.map lower) then some (s.drop key.length) else none

/-- `([^"]*)"`. -/
def upToQuote (s : List Char) : Option (List Char) := if s.contains '"' then some (s.takeWhile (· ≠ '"')) else none

/-- `/key="([^"]*)"/i`, the key with its quote. -/
def quoted (key s : List Char) : Option (List Char) := firstMatch (fun t => (afterKey key t).bind upToQuote) s

/-- `\s`, and what `trim` takes off. -/
def isSpace (c : Char) : Bool := c.toNat < 0x10000 && Ecma.isSpace (UInt16.ofNat c.toNat)

def trim (s : List Char) : List Char := (s.dropWhile isSpace).rdropWhile isSpace

/-! ## The parser -/

/-- `/^\s*multipart\/form-data\s*;/i`. -/
def isFormData (contentType : List Char) : Bool :=
  ((afterKey formDataText (contentType.dropWhile isSpace)).bind fun rest => (rest.dropWhile isSpace).head?) = some ';'

/-- `"([^"]+)"|([^;]+)`. -/
def boundaryValue : List Char → Option (List Char)
  | '"' :: s =>
    if s.contains '"' ∧ s.takeWhile (· ≠ '"') ≠ [] then some (s.takeWhile (· ≠ '"')) else some ('"' :: s.takeWhile (· ≠ ';'))
  | s => if s.takeWhile (· ≠ ';') = [] then none else some (s.takeWhile (· ≠ ';'))

def parseBoundary (contentType : List Char) : Option (List Char) :=
  if isFormData contentType then
    (firstMatch (fun s => (afterKey boundaryText s).bind boundaryValue) contentType).bind fun b =>
      if trim b = [] then none else some (trim b)
  else none

structure FormFile where
  field : List Char
  filename : List Char
  data : List UInt8
  deriving DecidableEq

/-- What is returned. The fields are an object of the names. -/
structure Form where
  fields : List (List Char × List Char)
  files : List FormFile
  deriving DecidableEq

def maxFieldBytes : Nat := 64 * 1024

/-- `POLLUTING`. -/
def polluting : List (List Char) := ["__proto__".toList, "constructor".toList, "prototype".toList]

/-- `fields[name] = value`. -/
def setField (name value : List Char) (fields : List (List Char × List Char)) : List (List Char × List Char) :=
  if (fields.map Prod.fst).contains name then fields.map fun f => if f.1 = name then (name, value) else f else fields ++ [(name, value)]

/-- The bytes between two delimiters. -/
def readPart (part : List UInt8) (form : Form) : Form :=
  match Search.indexOf [0x0d, 0x0a, 0x0d, 0x0a] part with
  | none => form
  | some sep =>
    let headers := Utf8.decodeLossy (part.take sep)
    let content := part.drop (sep + 4)
    let name := quoted (nameText ++ ['"']) headers
    match quoted (filenameText ++ ['"']) headers with
    | some filename => { form with files := form.files ++ [⟨name.getD [], filename, content⟩] }
    | none =>
      match name with
      | some name =>
        if !polluting.contains name ∧ content.length ≤ maxFieldBytes then
          { form with fields := setField name (Utf8.decodeLossy content) form.fields }
        else form
      | none => form

/-- `body.indexOf(delim, pos)`. -/
def indexFrom (delim body : List UInt8) (pos : Nat) : Option Nat := (Search.indexOf delim (body.drop pos)).map (· + pos)

/-- The loop, whose place is behind a delimiter. -/
def readParts (delim body : List UInt8) : Nat → Nat → Form → Form
  | 0, _, form => form
  | fuel + 1, pos, form =>
    if pos < body.length then
      if body[pos]? = some 0x2d ∧ body[pos + 1]? = some 0x2d then form
      else
        let pos := if body[pos]? = some 0x0d ∧ body[pos + 1]? = some 0x0a then pos + 2 else pos
        match indexFrom delim body pos with
        | none => form
        | some next =>
          let stop := if body[next - 2]? = some 0x0d ∧ body[next - 1]? = some 0x0a then next - 2 else next
          readParts delim body fuel (next + delim.length) (readPart ((body.take stop).drop pos) form)
    else form

def delimiter (boundary : List Char) : List UInt8 := Utf8.encode ('-' :: '-' :: boundary)

def parseMultipart (body : List UInt8) (contentType : List Char) : Option Form :=
  (parseBoundary contentType).map fun boundary =>
    match indexFrom (delimiter boundary) body 0 with
    | none => ⟨[], []⟩
    | some pos => readParts (delimiter boundary) body (body.length + 1) (pos + (delimiter boundary).length) ⟨[], []⟩

/-! ## The encoding -/

/-- What a form is made of. -/
inductive Entry where
  | field (name value : List Char)
  | file (name filename : List Char) (contentType : Option (List Char)) (data : List UInt8)

namespace Entry

def name : Entry → List Char
  | .field name _ => name
  | .file name _ _ _ => name

/-- The lines of the header, each but the last with its line end. -/
def header : Entry → List Char
  | .field name _ => dispositionText ++ '"' :: (name ++ ['"'])
  | .file name filename contentType _ =>
    dispositionText ++ '"' :: (name ++ '"' :: (';' :: ' ' :: filenameText ++ '"' :: (filename ++ '"' ::
      (contentType.elim [] fun type => '\r' :: '\n' :: (typeText ++ type)))))

def content : Entry → List UInt8
  | .field _ value => Utf8.encode value
  | .file _ _ _ data => data

/-- The field that it is. -/
def asField : Entry → Option (List Char × List Char)
  | .field name value => some (name, value)
  | .file _ _ _ _ => none

/-- The file that it is. -/
def asFile : Entry → Option FormFile
  | .field _ _ => none
  | .file name filename _ data => some ⟨name, filename, data⟩

/-- A part behind its delimiter, to the next delimiter. -/
def encode (e : Entry) : List UInt8 := [0x0d, 0x0a] ++ (Utf8.encode e.header ++ ([0x0d, 0x0a, 0x0d, 0x0a] ++ (e.content ++ [0x0d, 0x0a])))

end Entry

/-- The entries behind a delimiter, each with the delimiter behind it. -/
def encodeEntries (boundary : List Char) : List Entry → List UInt8
  | [] => [0x2d, 0x2d, 0x0d, 0x0a]
  | e :: entries => e.encode ++ (delimiter boundary ++ encodeEntries boundary entries)

/-- `multipart/form-data`. -/
def encodeForm (boundary : List Char) (entries : List Entry) : List UInt8 := delimiter boundary ++ encodeEntries boundary entries

/-- The header of the request; the boundary may stand in quotes. -/
def contentTypeOf (inQuotes : Bool) (boundary : List Char) : List Char :=
  formDataText ++ ';' :: ' ' :: boundaryText ++ if inQuotes then '"' :: (boundary ++ ['"']) else boundary

/-- The fields and the files. -/
def formOf (entries : List Entry) : Form := ⟨entries.filterMap Entry.asField, entries.filterMap Entry.asFile⟩

/-- The other characters of a boundary. -/
def boundaryMarks : List Char := [Char.ofNat 0x27, '(', ')', '+', '_', ',', '-', '.', '/', ':', '=', '?', ' ']

/-- A character of a boundary. -/
def isBoundaryChar (c : Char) : Bool := c.isAlphanum || boundaryMarks.contains c

/-- No quote and no line end. -/
def Plain (s : List Char) : Prop := '"' ∉ s ∧ '\r' ∉ s ∧ '\n' ∉ s

/-- A form as it is sent: its boundary is one, no content has the delimiter in it, the names are plain and no two fields have one, none is one
of an object's own, and each field is short. -/
structure Sent (boundary : List Char) (entries : List Entry) : Prop where
  boundary_chars : ∀ c ∈ boundary, isBoundaryChar c = true
  boundary_ends : ∃ c ∈ boundary.getLast?, c ≠ ' '
  contents : ∀ e ∈ entries, ¬delimiter boundary <:+: e.content
  distinct : (entries.map Entry.name).Nodup
  ordinary : ∀ e ∈ entries, e.name ∉ polluting
  names : ∀ e ∈ entries, Plain e.name
  files : ∀ e ∈ entries, ∀ name filename contentType data, e = .file name filename contentType data →
    Plain filename ∧ ∀ type ∈ contentType, '\r' ∉ type ∧ '\n' ∉ type
  short : ∀ e ∈ entries, ∀ name value, e = .field name value → (Utf8.encode value).length ≤ maxFieldBytes

/-- No header is mistaken: none has the delimiter in it, and the name of a file does not end with what is searched for. The boundary does not
begin with a space, which is trimmed. -/
structure Unmistaken (boundary : List Char) (entries : List Entry) : Prop where
  begins : boundary.head? ≠ some ' '
  headers : ∀ e ∈ entries, ¬delimiter boundary <:+: Utf8.encode e.header
  names : ∀ e ∈ entries, ∀ name filename contentType data, e = .file name filename contentType data →
    ¬filenameText <:+ name.map lower

namespace MultipartAux

/-! ### Bytes of characters -/

theorem mem_of_byte {s : List Char} {b : UInt8} (hb : b.toNat < 0x80) (h : b ∈ Utf8.encode s) : Char.ofNat b.toNat ∈ s := by
  obtain ⟨c, hc, hmem⟩ := List.mem_flatMap.mp h
  rw [String.utf8EncodeChar_eq_utf8EncodeCharFast, String.utf8EncodeCharFast] at hmem
  have hnot : ∀ x y : UInt8, 0x80 ≤ y.toNat → b ≠ (x ||| y) := by
    rintro x y hy rfl
    rw [UInt8.toNat_or] at hb
    have hle : y.toNat ≤ x.toNat ||| y.toNat := Nat.right_le_or
    omega
  split_ifs at hmem with h₁ h₂ h₃
  · obtain rfl : b = c.val.toUInt8 := by simpa using hmem
    have hval : c.val.toUInt8.toNat = c.toNat := by
      have hle := UInt32.le_iff_toNat_le.mp h₁
      simp only [UInt32.toNat_toUInt8]
      exact Nat.mod_eq_of_lt (by simp only [UInt32.reduceToNat] at hle; omega)
    rw [hval, Char.ofNat_toNat]
    exact hc
  · simp only [List.mem_cons, List.not_mem_nil, or_false] at hmem
    rcases hmem with h | h <;> exact absurd h (hnot _ _ (by decide))
  · simp only [List.mem_cons, List.not_mem_nil, or_false] at hmem
    rcases hmem with h | h | h <;> exact absurd h (hnot _ _ (by decide))
  · simp only [List.mem_cons, List.not_mem_nil, or_false] at hmem
    rcases hmem with h | h | h | h <;> exact absurd h (hnot _ _ (by decide))

theorem cr_not_mem {s : List Char} (h : '\r' ∉ s) : 0x0d ∉ Utf8.encode s := fun hmem => h (mem_of_byte (by decide) hmem)

theorem lf_not_mem {s : List Char} (h : '\n' ∉ s) : 0x0a ∉ Utf8.encode s := fun hmem => h (mem_of_byte (by decide) hmem)

/-! ### Patterns -/

theorem quote_lower (c : Char) : lower c = '"' ↔ c = '"' := by
  constructor
  · intro h
    unfold lower at h
    split_ifs at h with hc
    · simp only [Char.isUpper, decide_eq_true_eq, ge_iff_le, UInt32.le_iff_toNat_le] at hc
      have hlow : 65 ≤ c.toNat := hc.1
      have hhigh : c.toNat ≤ 90 := hc.2
      have hvalid : (c.toNat + 0x20).isValidChar := .inl (by omega)
      have hval := congrArg Char.toNat h
      rw [Char.ofNat, dif_pos hvalid, Char.toNat_ofNatAux] at hval
      have hquote : ('"' : Char).toNat = 34 := rfl
      omega
    · exact h
  · rintro rfl
    rfl

theorem quote_not_mem_lower {s : List Char} (h : '"' ∉ s) : '"' ∉ s.map lower := by
  intro hmem
  obtain ⟨c, hc, heq⟩ := List.mem_map.mp hmem
  exact h ((quote_lower c).mp heq ▸ hc)

theorem quoted_append {key pre v : List Char} (hkey : '"' ∉ key) (hne : key ≠ []) (hpre : '"' ∉ pre) :
    quoted (key ++ ['"']) (pre ++ '"' :: v) =
      (if key <:+ pre.map lower then upToQuote v else none).or (quoted (key ++ ['"']) ('"' :: v)) := by
  induction pre with
  | nil =>
    have hnot : ¬key <:+ ([] : List Char).map lower := by
      rw [List.map_nil, List.suffix_nil]
      exact hne
    rw [if_neg hnot]
    rfl
  | cons c pre ih =>
    have hpre' : '"' ∉ pre := fun h => hpre (List.mem_cons_of_mem _ h)
    have hmatch : (key ++ ['"']).isPrefixOf ((c :: (pre ++ '"' :: v)).map lower) = true ↔ key = (c :: pre).map lower := by
      have hmap : (c :: (pre ++ '"' :: v)).map lower = (c :: pre).map lower ++ '"' :: v.map lower := by
        rw [← List.cons_append, List.map_append, List.map_cons (a := '"'), (quote_lower _).mpr rfl]
      rw [List.isPrefixOf_iff_prefix, hmap]
      constructor
      · rintro ⟨r, hr⟩
        rw [List.append_assoc, List.singleton_append] at hr
        exact (Search.append_cons_inj hkey (quote_not_mem_lower hpre) hr).1
      · rintro heq
        rw [← heq]
        exact ⟨v.map lower, by simp⟩
    have hstep : quoted (key ++ ['"']) (c :: (pre ++ '"' :: v)) =
        ((afterKey (key ++ ['"']) (c :: (pre ++ '"' :: v))).bind upToQuote).or (quoted (key ++ ['"']) (pre ++ '"' :: v)) := rfl
    have hiff : key <:+ (c :: pre).map lower ↔ key = (c :: pre).map lower ∨ key <:+ pre.map lower := by
      rw [List.map_cons, List.suffix_cons_iff]
    rw [List.cons_append, hstep, ih hpre']
    by_cases hall : key = (c :: pre).map lower
    · have hnot : ¬key <:+ pre.map lower := by
        intro hsuffix
        have hlen := hsuffix.length_le
        rw [hall, List.length_map, List.length_map, List.length_cons] at hlen
        omega
      have hdrop : (c :: (pre ++ '"' :: v)).drop (key ++ ['"']).length = v := by
        have hlen : (key ++ ['"']).length = ((c :: pre) ++ ['"']).length := by
          rw [List.length_append, List.length_append, hall, List.length_map]
        have hsplit : c :: (pre ++ '"' :: v) = ((c :: pre) ++ ['"']) ++ v := by simp
        rw [hlen, hsplit, List.drop_left]
      rw [afterKey, if_pos (hmatch.mpr hall), if_neg hnot, if_pos (hiff.mpr (.inl hall)), Option.none_or, hdrop, Option.bind_some]
    · rw [afterKey, if_neg fun h => hall (hmatch.mp h), Option.bind_none, Option.none_or]
      by_cases hsuffix : key <:+ pre.map lower
      · rw [if_pos hsuffix, if_pos (hiff.mpr (.inr hsuffix))]
      · rw [if_neg hsuffix, if_neg fun h => (hiff.mp h).elim hall hsuffix]

theorem quoted_quote {key v : List Char} (hkey : '"' ∉ key) (hne : key ≠ []) :
    quoted (key ++ ['"']) ('"' :: v) = quoted (key ++ ['"']) v := by
  have hnot : ¬(key ++ ['"']).isPrefixOf (('"' :: v).map lower) = true := by
    rw [List.isPrefixOf_iff_prefix]
    cases key with
    | nil => exact absurd rfl hne
    | cons c key =>
      rw [List.map_cons, List.cons_append, List.cons_prefix_cons]
      exact fun h => hkey (h.1 ▸ List.mem_cons_self)
  have hstep : quoted (key ++ ['"']) ('"' :: v) =
      ((afterKey (key ++ ['"']) ('"' :: v)).bind upToQuote).or (quoted (key ++ ['"']) v) := rfl
  rw [hstep, afterKey, if_neg hnot]
  rfl

theorem upToQuote_append {s : List Char} (h : '"' ∉ s) (v : List Char) : upToQuote (s ++ '"' :: v) = some s := by
  rw [upToQuote, if_pos (by simp), Search.takeWhile_append_cons h]

/-- What stands behind the name. -/
def behindName : Entry → List Char
  | .field _ _ => []
  | .file _ filename contentType _ => ';' :: ' ' :: filenameText ++ '"' :: (filename ++ '"' ::
      (contentType.elim [] fun type => '\r' :: '\n' :: (typeText ++ type)))

theorem header_eq (e : Entry) : e.header = dispositionText ++ '"' :: (e.name ++ '"' :: behindName e) := by
  cases e <;> rfl

theorem quoted_name (e : Entry) (h : '"' ∉ e.name) : quoted (nameText ++ ['"']) e.header = some e.name := by
  rw [header_eq, quoted_append (by decide) (by decide) (by decide),
    if_pos (by decide), upToQuote_append h]
  rfl

theorem quoted_filename_header (e : Entry) :
    quoted (filenameText ++ ['"']) e.header = quoted (filenameText ++ ['"']) (e.name ++ '"' :: behindName e) := by
  rw [header_eq, quoted_append (by decide) (by decide) (by decide),
    if_neg (by decide), Option.none_or, quoted_quote (by decide) (by decide)]

theorem quoted_filename_field {name value : List Char} (h : '"' ∉ name) :
    quoted (filenameText ++ ['"']) (Entry.field name value).header = none := by
  rw [quoted_filename_header, Entry.name, behindName,
    quoted_append (by decide) (by decide) h, quoted_quote (by decide) (by decide)]
  have hend : upToQuote [] = none := rfl
  rw [hend, ite_self, Option.none_or]
  rfl

theorem quoted_filename_file {name filename data} {contentType : Option (List Char)} (hname : '"' ∉ name) (hfilename : '"' ∉ filename)
    (h : ¬filenameText <:+ name.map lower) :
    quoted (filenameText ++ ['"']) (Entry.file name filename contentType data).header = some filename := by
  rw [quoted_filename_header, Entry.name, behindName,
    quoted_append (by decide) (by decide) hname, if_neg h, Option.none_or, quoted_quote (by decide) (by decide),
    quoted_append (by decide) (by decide) (by decide), if_pos (by decide), upToQuote_append hfilename]
  rfl

/-! ### The header of the request -/

theorem afterKey_append {key s : List Char} (h : s.map lower = key) (t : List Char) : afterKey key (s ++ t) = some t := by
  have hlen : key.length = s.length := by rw [← h, List.length_map]
  rw [afterKey, if_pos, hlen, List.drop_left]
  rw [List.isPrefixOf_iff_prefix, List.map_append, h]
  exact List.prefix_append _ _

theorem firstMatch_skip {α : Type} (k : Char) (key : List Char) (g : List Char → Option α) {pre : List Char} (h : ∀ c ∈ pre, k ≠ lower c)
    (t : List Char) :
    firstMatch (fun s => (afterKey (k :: key) s).bind g) (pre ++ t) = firstMatch (fun s => (afterKey (k :: key) s).bind g) t := by
  induction pre with
  | nil => rfl
  | cons c pre ih =>
    have hnot : ¬(k :: key).isPrefixOf ((c :: (pre ++ t)).map lower) = true := by
      rw [List.isPrefixOf_iff_prefix, List.map_cons, List.cons_prefix_cons]
      exact fun hpre => h c List.mem_cons_self hpre.1
    have hnone : (afterKey (k :: key) (c :: (pre ++ t))).bind g = none := by rw [afterKey, if_neg hnot]; rfl
    rw [List.cons_append, firstMatch, hnone, Option.none_or]
    exact ih fun d hd => h d (List.mem_cons_of_mem _ hd)

theorem boundaryChar_ne {c : Char} (h : isBoundaryChar c = true) :
    c ≠ '"' ∧ c ≠ ';' ∧ c ≠ '\r' ∧ c ≠ '\n' ∧ (isSpace c = true → c = ' ') := by
  have hlt : c.toNat < 128 := by
    rw [isBoundaryChar, Bool.or_eq_true] at h
    rcases h with h | h
    · simp only [Char.isAlphanum, Char.isAlpha, Char.isUpper, Char.isLower, Char.isDigit, Bool.or_eq_true, Bool.and_eq_true,
        decide_eq_true_eq, UInt32.le_iff_toNat_le, ge_iff_le] at h
      have hupper : ('Z' : Char).val.toNat = 90 := rfl
      have hlower : ('z' : Char).val.toNat = 122 := rfl
      have hdigit : ('9' : Char).val.toNat = 57 := rfl
      have hval : c.val.toNat = c.toNat := rfl
      omega
    · have hmem : c ∈ boundaryMarks := by simpa using h
      have hmarks : boundaryMarks.all (fun c => c.toNat < 128) = true := by decide
      simpa using List.all_eq_true.mp hmarks c hmem
  have hall : ∀ n < 128, isBoundaryChar (Char.ofNat n) = true → Char.ofNat n ≠ '"' ∧ Char.ofNat n ≠ ';' ∧ Char.ofNat n ≠ '\r' ∧
      Char.ofNat n ≠ '\n' ∧ (isSpace (Char.ofNat n) = true → Char.ofNat n = ' ') := by decide +kernel
  have hc := hall c.toNat hlt
  rw [Char.ofNat_toNat] at hc
  exact hc h

theorem takeWhile_eq_self {p : Char → Bool} {s : List Char} (h : ∀ c ∈ s, p c = true) : s.takeWhile p = s :=
  List.takeWhile_eq_self_iff.mpr h

section Request

variable {boundary : List Char} (hchars : ∀ c ∈ boundary, isBoundaryChar c = true) (hends : ∃ c ∈ boundary.getLast?, c ≠ ' ')
include hchars hends

omit hchars in
theorem boundary_ne_nil : boundary ≠ [] := by
  rintro rfl
  obtain ⟨c, hc, _⟩ := hends
  cases hc

theorem boundaryValue_contentType (inQuotes : Bool) :
    boundaryValue (if inQuotes then '"' :: (boundary ++ ['"']) else boundary) = some boundary := by
  have hne := boundary_ne_nil hends
  have hquote : '"' ∉ boundary := fun h => (boundaryChar_ne (hchars _ h)).1 rfl
  cases inQuotes with
  | true =>
    have htake : (boundary ++ ['"']).takeWhile (· ≠ '"') = boundary := Search.takeWhile_append_cons hquote []
    rw [if_pos rfl, boundaryValue, if_pos ⟨by simp, by rwa [htake]⟩, htake]
  | false =>
    have htake : boundary.takeWhile (· ≠ ';') = boundary :=
      takeWhile_eq_self fun c hc => by simpa using (boundaryChar_ne (hchars c hc)).2.1
    rw [if_neg (by decide)]
    unfold boundaryValue
    split
    · exact absurd List.mem_cons_self hquote
    · rw [htake, if_neg hne]

theorem trim_boundary (hbegins : boundary.head? ≠ some ' ') : trim boundary = boundary := by
  have hspace : ∀ c ∈ boundary, isSpace c = true → c = ' ' := fun c hc => (boundaryChar_ne (hchars c hc)).2.2.2.2
  have hleft : boundary.dropWhile isSpace = boundary := by
    cases boundary with
    | nil => rfl
    | cons c s =>
      rw [List.dropWhile_cons_of_neg]
      intro h
      exact hbegins (by rw [List.head?_cons, hspace c List.mem_cons_self h])
  rw [trim, hleft, List.rdropWhile_eq_self_iff]
  intro hne h
  obtain ⟨c, hc, hcne⟩ := hends
  rw [List.getLast?_eq_some_getLast hne] at hc
  obtain rfl := Option.some.inj hc
  exact hcne (hspace _ (List.getLast_mem hne) h)

theorem parseBoundary_contentType (hbegins : boundary.head? ≠ some ' ') (inQuotes : Bool) :
    parseBoundary (contentTypeOf inQuotes boundary) = some boundary := by
  have hhead : formDataText = 'm' :: formDataText.tail := by decide
  have hkey : boundaryText = 'b' :: boundaryText.tail := by decide
  have hform : ∀ t, isFormData (formDataText ++ ';' :: t) = true := by
    intro t
    have hdrop : (formDataText ++ ';' :: t).dropWhile isSpace = formDataText ++ ';' :: t := by
      rw [hhead, List.cons_append, List.dropWhile_cons_of_neg (by decide)]
    have hsemi : (';' :: t).dropWhile isSpace = ';' :: t := List.dropWhile_cons_of_neg (by decide)
    rw [isFormData, hdrop, afterKey_append (by decide), Option.bind_some, hsemi]
    rfl
  have hsplit : contentTypeOf inQuotes boundary = (formDataText ++ [';', ' ']) ++
      (boundaryText ++ if inQuotes then '"' :: (boundary ++ ['"']) else boundary) := by
    rw [contentTypeOf]
    simp only [List.append_assoc, List.cons_append, List.nil_append]
  have hmatch : firstMatch (fun s => (afterKey boundaryText s).bind boundaryValue) (contentTypeOf inQuotes boundary) = some boundary := by
    have hfirst : ∀ v, boundaryValue v = some boundary →
        firstMatch (fun s => (afterKey boundaryText s).bind boundaryValue) (boundaryText ++ v) = some boundary := by
      intro v hv
      have hafter : afterKey boundaryText (boundaryText ++ v) = some v := afterKey_append (by decide) v
      have hstep : firstMatch (fun s => (afterKey boundaryText s).bind boundaryValue) (boundaryText ++ v) =
          ((afterKey boundaryText (boundaryText ++ v)).bind boundaryValue).or
            (firstMatch (fun s => (afterKey boundaryText s).bind boundaryValue) (boundaryText.tail ++ v)) := rfl
      rw [hstep, hafter, Option.bind_some, hv]
      rfl
    have hall : (formDataText ++ [';', ' ']).all (fun c => 'b' ≠ lower c) = true := by decide
    have hnone : ∀ c ∈ formDataText ++ [';', ' '], 'b' ≠ lower c := fun c hc => by simpa using List.all_eq_true.mp hall c hc
    have hskip := firstMatch_skip 'b' boundaryText.tail boundaryValue hnone
      (boundaryText ++ if inQuotes then '"' :: (boundary ++ ['"']) else boundary)
    rw [← hkey] at hskip
    rw [hsplit, hskip]
    exact hfirst _ (boundaryValue_contentType hchars hends inQuotes)
  have hsent : isFormData (contentTypeOf inQuotes boundary) = true := by
    rw [hsplit, List.append_assoc]
    exact hform _
  have hne := boundary_ne_nil hends
  rw [parseBoundary, hmatch, Option.bind_some, trim_boundary hchars hends hbegins, if_neg hne, if_pos hsent]

end Request

/-! ### One part -/

/-- The disposition of an entry. -/
def firstLine : Entry → List Char
  | .field name _ => dispositionText ++ '"' :: (name ++ ['"'])
  | .file name filename _ _ => dispositionText ++ '"' :: (name ++ '"' :: (';' :: ' ' :: filenameText ++ '"' :: (filename ++ ['"'])))

def typeOf : Entry → Option (List Char)
  | .field _ _ => none
  | .file _ _ contentType _ => contentType

theorem header_lines (e : Entry) :
    e.header = firstLine e ++ (typeOf e).elim [] fun type => '\r' :: '\n' :: (typeText ++ type) := by
  cases e with
  | field name value => simp only [Entry.header, firstLine, typeOf, Option.elim_none, List.append_nil]
  | file name filename contentType data =>
    cases contentType <;> simp only [Entry.header, firstLine, typeOf, Option.elim_none, Option.elim_some, List.append_assoc,
      List.cons_append, List.nil_append, List.append_nil]

/-- The header has lines as lines are. -/
structure Lined (e : Entry) : Prop where
  first : '\r' ∉ firstLine e
  type : ∀ type ∈ typeOf e, '\r' ∉ type

theorem indexOf_header {e : Entry} (h : Lined e) (content : List UInt8) :
    Search.indexOf [0x0d, 0x0a, 0x0d, 0x0a] (Utf8.encode e.header ++ ([0x0d, 0x0a, 0x0d, 0x0a] ++ content)) =
      some (Utf8.encode e.header).length := by
  have hfirst := cr_not_mem h.first
  rw [header_lines]
  cases htype : typeOf e with
  | none =>
    rw [Option.elim_none, List.append_nil, Search.indexOf_append_of_head hfirst, Search.indexOf_self]
    simp
  | some type =>
    have hsecond : 0x0d ∉ Utf8.encode (typeText.tail ++ type) := by
      refine cr_not_mem fun hmem => ?_
      rcases List.mem_append.mp hmem with hmem | hmem
      · exact absurd hmem (by decide)
      · exact h.type type (by rw [htype]; rfl) hmem
    have hstep : ∀ t : List UInt8, Search.indexOf [0x0d, 0x0a, 0x0d, 0x0a] (0x0d :: 0x0a :: 0x43 :: t) =
        (Search.indexOf [0x0d, 0x0a, 0x0d, 0x0a] t).map (· + 3) := by
      intro t
      simp [Search.indexOf, List.isPrefixOf, Function.comp_def, Nat.add_assoc]
    have hencode : Utf8.encode ('\r' :: '\n' :: (typeText ++ type)) = 0x0d :: 0x0a :: 0x43 :: Utf8.encode (typeText.tail ++ type) := by
      have hfirst : typeText ++ type = 'C' :: (typeText.tail ++ type) := rfl
      rw [hfirst, Utf8.encode_cons, Utf8.encode_cons, Utf8.encode_cons]
      rfl
    rw [Option.elim_some, Utf8.encode_append, hencode, List.append_assoc, Search.indexOf_append_of_head hfirst]
    simp only [List.cons_append]
    rw [hstep, Search.indexOf_append_of_head hsecond]
    have hself : Search.indexOf [0x0d, 0x0a, 0x0d, 0x0a] ([0x0d, 0x0a, 0x0d, 0x0a] ++ content) = some 0 := Search.indexOf_self content
    simp only [List.cons_append, List.nil_append] at hself ⊢
    rw [hself]
    simp only [Option.map_some, List.length_append, List.length_cons, Option.some.injEq]
    omega

/-- What is asked of an entry. -/
structure Fair (e : Entry) : Prop where
  lined : Lined e
  named : '"' ∉ e.name
  ordinary : e.name ∉ polluting
  file : ∀ name filename contentType data, e = .file name filename contentType data →
    '"' ∉ filename ∧ ¬filenameText <:+ name.map lower
  short : ∀ name value, e = .field name value → (Utf8.encode value).length ≤ maxFieldBytes

theorem readPart_entry {e : Entry} (h : Fair e) {form : Form} (hnew : e.name ∉ form.fields.map Prod.fst) :
    readPart (Utf8.encode e.header ++ ([0x0d, 0x0a, 0x0d, 0x0a] ++ e.content)) form =
      ⟨form.fields ++ e.asField.toList, form.files ++ e.asFile.toList⟩ := by
  have htake : (Utf8.encode e.header ++ ([0x0d, 0x0a, 0x0d, 0x0a] ++ e.content)).take (Utf8.encode e.header).length = Utf8.encode e.header :=
    List.take_left
  have hdrop : (Utf8.encode e.header ++ ([0x0d, 0x0a, 0x0d, 0x0a] ++ e.content)).drop ((Utf8.encode e.header).length + 4) = e.content := by
    rw [← List.append_assoc]
    exact List.drop_left' (by simp)
  rw [readPart, indexOf_header h.lined]
  simp only [htake, hdrop, Utf8.decodeLossy_encode, quoted_name e h.named]
  cases e with
  | field name value =>
    have hshort := h.short name value rfl
    have hnamed : '"' ∉ name := h.named
    rw [quoted_filename_field hnamed]
    simp only [Entry.content, Utf8.decodeLossy_encode]
    rw [if_pos ⟨by simpa [Entry.name] using h.ordinary, hshort⟩, setField, if_neg (by simpa [Entry.name] using hnew)]
    simp [Entry.asField, Entry.asFile, Entry.name]
  | file name filename contentType data =>
    obtain ⟨hfilename, hends⟩ := h.file name filename contentType data rfl
    have hnamed : '"' ∉ name := h.named
    rw [quoted_filename_file hnamed hfilename hends]
    simp [Entry.asField, Entry.asFile, Entry.name, Entry.content]

/-! ### The loop -/

theorem getElem?_behind {α : Type} (pre l : List α) (i : Nat) : (pre ++ l)[pre.length + i]? = l[i]? := by
  rw [List.getElem?_append_right (Nat.le_add_right _ _), Nat.add_sub_cancel_left]

theorem readParts_entry {delim pre part rest : List UInt8} (hcr : 0x0d ∉ delim) (hlf : 0x0a ∉ delim) (hne : delim ≠ [])
    (hfree : ¬delim <:+: part) (fuel : Nat) (form : Form) :
    readParts delim (pre ++ ([0x0d, 0x0a] ++ (part ++ ([0x0d, 0x0a] ++ (delim ++ rest))))) (fuel + 1) pre.length form =
      readParts delim (pre ++ ([0x0d, 0x0a] ++ (part ++ ([0x0d, 0x0a] ++ (delim ++ rest))))) fuel
        (pre ++ ([0x0d, 0x0a] ++ (part ++ ([0x0d, 0x0a] ++ delim)))).length (readPart part form) := by
  set body := pre ++ ([0x0d, 0x0a] ++ (part ++ ([0x0d, 0x0a] ++ (delim ++ rest)))) with hbody
  have hat : ∀ i, body[pre.length + i]? = ([0x0d, 0x0a] ++ (part ++ ([0x0d, 0x0a] ++ (delim ++ rest))))[i]? := fun i => getElem?_behind _ _ i
  have hlen : pre.length < body.length := by
    rw [hbody]
    simp only [List.length_append, List.length_cons]
    omega
  have hfirst : body[pre.length]? = some 0x0d := hat 0
  have hsecond : body[pre.length + 1]? = some 0x0a := hat 1
  have hbody' : body = (pre ++ [0x0d, 0x0a]) ++ (part ++ ([0x0d, 0x0a] ++ (delim ++ rest))) := by rw [hbody]; simp
  have hdrop : body.drop (pre.length + 2) = part ++ 0x0d :: ([] ++ 0x0a :: (delim ++ rest)) := by
    rw [hbody']
    exact List.drop_left' (by simp)
  have hempty : ¬delim <:+: [] := by
    rw [List.infix_nil]
    exact hne
  have hindex : indexFrom delim body (pre.length + 2) = some (pre.length + 2 + part.length + 2) := by
    rw [indexFrom, hdrop, Search.indexOf_append_cons hcr hfree, Search.indexOf_append_cons hlf hempty, Search.indexOf_self]
    simp only [Option.map_some, List.length_nil, Option.some.injEq]
    omega
  have hbehind : ∀ i, body[pre.length + 2 + part.length + i]? = ([0x0d, 0x0a] ++ (delim ++ rest))[i]? := by
    intro i
    have h := getElem?_behind ((pre ++ [0x0d, 0x0a]) ++ part) ([0x0d, 0x0a] ++ (delim ++ rest)) i
    have hplace : ((pre ++ [0x0d, 0x0a]) ++ part).length + i = pre.length + 2 + part.length + i := by
      simp only [List.length_append, List.length_cons, List.length_nil]
    rw [List.append_assoc, ← hbody', hplace] at h
    exact h
  have hthird : body[pre.length + 2 + part.length + 2 - 2]? = some 0x0d := hbehind 0
  have hfourth : body[pre.length + 2 + part.length + 2 - 1]? = some 0x0a := hbehind 1
  have hpart : (body.take (pre.length + 2 + part.length + 2 - 2)).drop (pre.length + 2) = part := by
    have htake : body.take (pre.length + 2 + part.length + 2 - 2) = (pre ++ [0x0d, 0x0a]) ++ part := by
      rw [hbody', ← List.append_assoc]
      exact List.take_left' (by simp; omega)
    rw [htake]
    exact List.drop_left' (by simp)
  rw [readParts, if_pos hlen, if_neg fun h => by rw [hfirst] at h; exact absurd h.1 (by decide), if_pos ⟨hfirst, hsecond⟩]
  simp only [hindex]
  rw [if_pos ⟨hthird, hfourth⟩, hpart]
  congr 1
  simp only [List.length_append, List.length_cons, List.length_nil]
  omega

theorem cr_not_mem_delimiter {boundary : List Char} (h : ∀ c ∈ boundary, isBoundaryChar c = true) :
    0x0d ∉ delimiter boundary ∧ 0x0a ∉ delimiter boundary := by
  have hne : ∀ c, c ∈ '-' :: '-' :: boundary → c ≠ '\r' ∧ c ≠ '\n' := by
    intro c hc
    rcases List.mem_cons.mp hc with rfl | hc
    · decide
    · rcases List.mem_cons.mp hc with rfl | hc
      · decide
      · exact ⟨(boundaryChar_ne (h c hc)).2.2.1, (boundaryChar_ne (h c hc)).2.2.2.1⟩
  exact ⟨cr_not_mem fun hmem => (hne _ hmem).1 rfl, lf_not_mem fun hmem => (hne _ hmem).2 rfl⟩

theorem delimiter_free {delim header content : List UInt8} (hcr : 0x0d ∉ delim) (hlf : 0x0a ∉ delim) (hne : delim ≠ [])
    (hheader : ¬delim <:+: header) (hcontent : ¬delim <:+: content) : ¬delim <:+: header ++ ([0x0d, 0x0a, 0x0d, 0x0a] ++ content) := by
  have hempty : ¬delim <:+: [] := by
    rw [List.infix_nil]
    exact hne
  intro h
  rcases Search.infix_append_cons hcr h with h | h
  · exact hheader h
  · rcases Search.infix_append_cons (x := []) hlf h with h | h
    · exact hempty h
    · rcases Search.infix_append_cons (x := []) hcr h with h | h
      · exact hempty h
      · rcases Search.infix_append_cons (x := []) hlf h with h | h
        · exact hempty h
        · exact hcontent h

theorem filterMap_cons_toList {α β : Type} (f : α → Option β) (a : α) (l : List α) :
    (a :: l).filterMap f = (f a).toList ++ l.filterMap f := by
  rw [List.filterMap_cons]
  cases f a <;> rfl

theorem readParts_entries {boundary : List Char} (hboundary : ∀ c ∈ boundary, isBoundaryChar c = true) {entries : List Entry}
    (hfair : ∀ e ∈ entries, Fair e)
    (hfree : ∀ e ∈ entries, ¬delimiter boundary <:+: Utf8.encode e.header ∧ ¬delimiter boundary <:+: e.content)
    {form : Form} (hnodup : (entries.map Entry.name).Nodup) (hnew : ∀ e ∈ entries, e.name ∉ form.fields.map Prod.fst) {fuel : Nat}
    (hfuel : entries.length < fuel) (pre : List UInt8) :
    readParts (delimiter boundary) (pre ++ encodeEntries boundary entries) fuel pre.length form =
      ⟨form.fields ++ entries.filterMap Entry.asField, form.files ++ entries.filterMap Entry.asFile⟩ := by
  obtain ⟨hcr, hlf⟩ := cr_not_mem_delimiter hboundary
  have hne : delimiter boundary ≠ [] := by
    rw [delimiter, Utf8.encode_cons]
    exact List.append_ne_nil_of_left_ne_nil (List.length_pos_iff.mp (Utf8.char_bytes _).1) _
  induction entries generalizing pre form fuel with
  | nil =>
    obtain ⟨fuel, rfl⟩ := Nat.exists_eq_add_of_lt hfuel
    have h₀ : (pre ++ encodeEntries boundary [])[pre.length]? = some 0x2d := getElem?_behind pre _ 0
    have h₁ : (pre ++ encodeEntries boundary [])[pre.length + 1]? = some 0x2d := getElem?_behind pre _ 1
    have hlen : pre.length < (pre ++ encodeEntries boundary []).length := by simp [encodeEntries]
    rw [readParts, if_pos hlen, if_pos ⟨h₀, h₁⟩]
    simp
  | cons e entries ih =>
    obtain ⟨fuel, rfl⟩ : ∃ k, fuel = k + 1 := ⟨fuel - 1, by simp only [List.length_cons] at hfuel; omega⟩
    have hbody : pre ++ encodeEntries boundary (e :: entries) = pre ++ ([0x0d, 0x0a] ++
        ((Utf8.encode e.header ++ ([0x0d, 0x0a, 0x0d, 0x0a] ++ e.content)) ++ 
          ([0x0d, 0x0a] ++ (delimiter boundary ++ encodeEntries boundary entries)))) := by
      rw [encodeEntries, Entry.encode]
      simp only [List.append_assoc]
    have hpart := delimiter_free hcr hlf hne (hfree e List.mem_cons_self).1 (hfree e List.mem_cons_self).2
    rw [List.map_cons, List.nodup_cons] at hnodup
    rw [hbody, readParts_entry hcr hlf hne hpart, readPart_entry (hfair e List.mem_cons_self) (hnew e List.mem_cons_self)]
    have hassoc : pre ++ ([0x0d, 0x0a] ++ ((Utf8.encode e.header ++ ([0x0d, 0x0a, 0x0d, 0x0a] ++ e.content)) ++ ([0x0d, 0x0a] ++
        (delimiter boundary ++ encodeEntries boundary entries)))) = (pre ++ ([0x0d, 0x0a] ++ ((Utf8.encode e.header ++
        ([0x0d, 0x0a, 0x0d, 0x0a] ++ e.content)) ++ ([0x0d, 0x0a] ++ delimiter boundary)))) ++ encodeEntries boundary entries := by
      simp only [List.append_assoc]
    have hnew' : ∀ g ∈ entries, g.name ∉ (form.fields ++ e.asField.toList).map Prod.fst := by
      intro g hg hmem
      rw [List.map_append, List.mem_append] at hmem
      rcases hmem with hmem | hmem
      · exact hnew g (List.mem_cons_of_mem _ hg) hmem
      · have hname : g.name = e.name := by
          cases e with
          | field name value => simpa [Entry.asField, Entry.name] using hmem
          | file name filename contentType data => simp [Entry.asField] at hmem
        exact hnodup.1 (hname ▸ List.mem_map_of_mem hg)
    rw [hassoc, ih (fun g hg => hfair g (List.mem_cons_of_mem _ hg)) (fun g hg => hfree g (List.mem_cons_of_mem _ hg)) hnodup.2 hnew'
      (by simp only [List.length_cons] at hfuel; omega)]
    rw [filterMap_cons_toList, filterMap_cons_toList, List.append_assoc, List.append_assoc]

theorem length_le_encodeEntries (boundary : List Char) (entries : List Entry) : entries.length ≤ (encodeEntries boundary entries).length := by
  induction entries with
  | nil => simp
  | cons e entries ih =>
    rw [encodeEntries, Entry.encode]
    simp only [List.length_append, List.length_cons]
    omega

theorem fair_of_sent {boundary : List Char} {entries : List Entry} (h : Sent boundary entries) (hu : Unmistaken boundary entries) {e : Entry}
    (he : e ∈ entries) : Fair e := by
  have hname := h.names e he
  refine ⟨⟨?_, ?_⟩, hname.1, h.ordinary e he, ?_, h.short e he⟩
  · cases e with
    | field name value =>
      have hn : '\r' ∉ name := hname.2.1
      simp [firstLine, hn]
      decide
    | file name filename contentType data =>
      have hn : '\r' ∉ name := hname.2.1
      have hf := (h.files _ he name filename contentType data rfl).1.2.1
      simp [firstLine, hn, hf]
      decide
  · intro type htype
    cases e with
    | field name value => cases htype
    | file name filename contentType data => exact ((h.files _ he name filename contentType data rfl).2 type htype).1
  · intro name filename contentType data heq
    exact ⟨(h.files e he name filename contentType data heq).1.1, hu.names e he name filename contentType data heq⟩

end MultipartAux

open MultipartAux in
/-- A form in the standard encoding, whose headers are not mistaken, is read back: all its fields and files, byte for byte. -/
theorem parse_encodeForm {boundary : List Char} {entries : List Entry} (h : Sent boundary entries) (hu : Unmistaken boundary entries)
    (inQuotes : Bool) : parseMultipart (encodeForm boundary entries) (contentTypeOf inQuotes boundary) = some (formOf entries) := by
  rw [parseMultipart, parseBoundary_contentType h.boundary_chars h.boundary_ends hu.begins, Option.map_some]
  have hfirst : indexFrom (delimiter boundary) (encodeForm boundary entries) 0 = some 0 := by
    rw [indexFrom, List.drop_zero, encodeForm, Search.indexOf_self]
    rfl
  have hfuel : entries.length < (encodeForm boundary entries).length + 1 := by
    have := length_le_encodeEntries boundary entries
    rw [encodeForm, List.length_append]
    omega
  have hread := readParts_entries h.boundary_chars (fun e he => fair_of_sent h hu he) (fun e he => ⟨hu.headers e he, h.contents e he⟩)
    h.distinct (by simp : ∀ e ∈ entries, e.name ∉ (⟨[], []⟩ : Form).fields.map Prod.fst) hfuel (delimiter boundary)
  simp only [hfirst, Nat.zero_add]
  exact congrArg some hread

/-- A form of one field and one file, whose content begins and ends as a delimiter does. -/
def twoEntries : List Entry := [.field ['p'] ['.'], .file ['f'] ['n'] none [0x2d, 0x2d, 0x0d, 0x0a]]

theorem twoEntries_sent : Sent ['X'] twoEntries where
  boundary_chars c hc := by
    obtain rfl : c = 'X' := by simpa using hc
    decide
  boundary_ends := ⟨'X', rfl, by decide⟩
  contents := by
    simp only [twoEntries, List.forall_mem_cons]
    exact ⟨by decide +kernel, by decide +kernel, by simp⟩
  distinct := by decide
  ordinary := by
    simp only [twoEntries, List.forall_mem_cons]
    exact ⟨by decide +kernel, by decide +kernel, by simp⟩
  names := by
    simp only [twoEntries, List.forall_mem_cons, Plain]
    exact ⟨by decide, by decide, by simp⟩
  files := by
    intro e he name filename contentType data heq
    simp only [twoEntries, List.mem_cons, List.not_mem_nil, or_false] at he
    rcases he with rfl | rfl
    · cases heq
    · obtain ⟨_, rfl, rfl, _⟩ := Entry.file.inj heq
      exact ⟨⟨by decide, by decide, by decide⟩, by simp⟩
  short := by
    intro e he name value heq
    simp only [twoEntries, List.mem_cons, List.not_mem_nil, or_false] at he
    rcases he with rfl | rfl
    · obtain ⟨_, rfl⟩ := Entry.field.inj heq
      decide +kernel
    · cases heq

theorem twoEntries_unmistaken : Unmistaken ['X'] twoEntries where
  begins := by decide
  headers := by
    simp only [twoEntries, List.forall_mem_cons]
    exact ⟨by decide +kernel, by decide +kernel, by simp⟩
  names := by
    intro e he name filename contentType data heq
    simp only [twoEntries, List.mem_cons, List.not_mem_nil, or_false] at he
    rcases he with rfl | rfl
    · cases heq
    · obtain ⟨rfl, _⟩ := Entry.file.inj heq
      decide

/-- It is read back. -/
theorem parse_encodeForm_two :
    parseMultipart (encodeForm ['X'] twoEntries) (contentTypeOf true ['X']) =
      some ⟨[(['p'], ['.'])], [⟨['f'], ['n'], [0x2d, 0x2d, 0x0d, 0x0a]⟩]⟩ :=
  parse_encodeForm twoEntries_sent twoEntries_unmistaken true

/-- A form of one field, whose name is the delimiter. -/
def mistakenEntries : List Entry := [.field ['-', '-', 'X'] []]

theorem mistakenEntries_sent : Sent ['X'] mistakenEntries where
  boundary_chars c hc := by
    obtain rfl : c = 'X' := by simpa using hc
    decide
  boundary_ends := ⟨'X', rfl, by decide⟩
  contents := by
    simp only [mistakenEntries, List.forall_mem_cons]
    exact ⟨by decide +kernel, by simp⟩
  distinct := by decide
  ordinary := by
    simp only [mistakenEntries, List.forall_mem_cons]
    exact ⟨by decide +kernel, by simp⟩
  names := by
    simp only [mistakenEntries, List.forall_mem_cons, Plain]
    exact ⟨by decide, by simp⟩
  files := by
    intro e he name filename contentType data heq
    simp only [mistakenEntries, List.mem_cons, List.not_mem_nil, or_false] at he
    rw [he] at heq
    cases heq
  short := by
    intro e he name value heq
    simp only [mistakenEntries, List.mem_cons, List.not_mem_nil, or_false] at he
    rw [he] at heq
    obtain ⟨_, rfl⟩ := Entry.field.inj heq
    decide

/-- Its header is cut at the name, and the field is lost. -/
theorem name_mistaken :
    ¬∀ boundary entries inQuotes, Sent boundary entries →
      parseMultipart (encodeForm boundary entries) (contentTypeOf inQuotes boundary) = some (formOf entries) := by
  intro h
  have hread := h _ _ false mistakenEntries_sent
  revert hread
  decide +kernel

end Multipart

end Capka

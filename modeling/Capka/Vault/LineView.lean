import Mathlib
import Capka.Lib.Utf8

/-!
# A note page by page

A body is shown as numbered lines, so many bytes a page. A page ends between two lines, or inside a line that is too long for it, and says
where the next one begins. Reading on from page to page comes to the end and shows every line once.
-/

namespace Capka

namespace Vault

open Utf8

/-- The decimal digits of a number. -/
def digits (n : Nat) : List Char := Nat.toDigits 10 n

def padStart (n : Nat) (s : List Char) : List Char := List.replicate (n - s.length) ' ' ++ s

def numberLine (n : Nat) (text : List Char) : List Char := padStart 6 (digits n) ++ '\t' :: text

structure LinePage where
  text : List Char
  next : Option (List Char)
  fromLine : Nat
  toLine : Nat
  total : Nat
  deriving DecidableEq

def cursorAt (line byte : Nat) : List Char := 'l' :: (digits (line + 1) ++ if byte = 0 then [] else '.' :: digits byte)

/-- A number of a cursor: one digit to ten. -/
def cursorNumber (s : List Char) : Option Nat :=
  if 1 ≤ s.length ∧ s.length ≤ 10 ∧ s.all Char.isDigit then some (Nat.ofDigitChars 10 s 0) else none

/-- `CURSOR_RE`: the number of the line, and the byte. -/
def readCursor : List Char → Option (Nat × Nat)
  | 'l' :: rest =>
    match rest.dropWhile Char.isDigit with
    | [] => (cursorNumber rest).map fun n => (n, 0)
    | '.' :: byte => (cursorNumber (rest.takeWhile Char.isDigit)).bind fun n => (cursorNumber byte).map fun b => (n, b)
    | _ => none
  | _ => none

/-- Lines with a line feed between them. -/
def joinLines (lines : List (List Char)) : List Char := ['\n'].intercalate lines

/-- The loop of a page over the lines that are left: its parts, where the next page begins, and the last line on it. A page is never left
with lines to come and no cursor. -/
def fillPage (budget : Nat) : List (List Char) → (line byte : Nat) → (parts : List (List Char)) → (spent last : Nat) →
    List (List Char) × Option (List Char) × Nat
  | [], _, _, parts, _, last => (parts, none, last)
  | l :: lines, line, byte, parts, spent, last =>
    let rest := (encode l).drop byte
    let pre := numberLine (line + 1) []
    let overhead := (if parts = [] then 0 else 1) + (encode pre).length
    if spent + overhead + rest.length ≤ budget then
      fillPage budget lines (line + 1) 0 (parts ++ [pre ++ decode rest]) (spent + overhead + rest.length) (line + 1)
    else if parts ≠ [] then (parts, some (cursorAt line byte), last)
    else
      let e := stepBack rest (budget - spent - overhead)
      (parts ++ [pre ++ decode (rest.take e)], some (cursorAt line (byte + e)), line + 1)

/-- Where a page begins: a cursor that was handed out names a line and a byte between two characters of it. -/
def openAt (lines : List (List Char)) : Option (List Char) → Option (Nat × Nat)
  | none => some (0, 0)
  | some cursor =>
    (readCursor cursor).bind fun r =>
      if r.1 = 0 then none
      else
        (lines[r.1 - 1]?).bind fun l =>
          if ((encode l).length ≤ r.2 ∧ r.2 ≠ 0) ∨ midSequence (encode l) r.2 then none else some (r.1 - 1, r.2)

/-- The lines of a body; an empty one has none. -/
def bodyLines (body : List Char) : List (List Char) := if body = [] then [] else body.splitOn '\n'

def pageLines (body : List Char) (cursor : Option (List Char)) (maxBytes : Nat) : Option LinePage :=
  let budget := max maxBytes 16
  let lines := bodyLines body
  if lines = [] then if cursor = none then some ⟨[], none, 0, 0, 0⟩ else none
  else
    (openAt lines cursor).map fun r =>
      let page := fillPage budget (lines.drop r.1) r.1 r.2 [] 0 (r.1 + 1)
      ⟨joinLines page.1, page.2.1, r.1 + 1, page.2.2, lines.length⟩

/-! ## Reading on -/

/-- The pages from a cursor on, so many at most, to the one that names no next. -/
def readPages (body : List Char) (maxBytes : Nat) : Nat → Option (List Char) → Option (List LinePage)
  | 0, _ => none
  | n + 1, cursor =>
    (pageLines body cursor maxBytes).bind fun page =>
      match page.next with
      | none => some [page]
      | some next => (readPages body maxBytes n (some next)).map fun pages => page :: pages

/-- The segments, each with the number of its line, spell the lines from number `n` on: each line is one segment, or some that are not
empty one after another. -/
inductive Spells : Nat → List (List Char) → List (Nat × List Char) → Prop
  | done (n : Nat) : Spells n [] []
  | whole (n : Nat) (line : List Char) {lines : List (List Char)} {segments : List (Nat × List Char)} (h : Spells (n + 1) lines segments) :
    Spells n (line :: lines) ((n, line) :: segments)
  | part (n : Nat) {piece rest : List Char} {lines : List (List Char)} {segments : List (Nat × List Char)} (hpiece : piece ≠ [])
    (hrest : rest ≠ []) (h : Spells n (rest :: lines) segments) : Spells n ((piece ++ rest) :: lines) ((n, piece) :: segments)

def pageText (segments : List (Nat × List Char)) : List Char := joinLines (segments.map fun s => numberLine s.1 s.2)

/-- The pages are within the budget, and their numbered segments spell the lines of the body. -/
structure Paged (body : List Char) (maxBytes : Nat) (pages : List LinePage) : Prop where
  within : ∀ page ∈ pages, (encode page.text).length ≤ max maxBytes 16
  lossless : ∃ segments : List (List (Nat × List Char)), pages.map LinePage.text = segments.map pageText ∧
    Spells 1 (bodyLines body) segments.flatten

namespace LineAux

/-! ## Numbers -/

theorem digits_isDigit (n : Nat) : ∀ c ∈ digits n, c.isDigit = true :=
  fun _ h => Nat.isDigit_of_mem_toDigits (by decide) (by decide) h

theorem digits_length {n : Nat} (h : n < 10 ^ 10) : 1 ≤ (digits n).length ∧ (digits n).length ≤ 10 :=
  ⟨Nat.length_toDigits_pos, Nat.toDigits_length 10 n 10 (by decide) h⟩

theorem cursorNumber_digits {n : Nat} (h : n < 10 ^ 10) : cursorNumber (digits n) = some n := by
  have hlen := digits_length h
  rw [cursorNumber, if_pos ⟨hlen.1, hlen.2, List.all_eq_true.mpr (digits_isDigit n)⟩]
  exact congrArg some Nat.ofDigitChars_ten_toDigits

theorem readCursor_cursorAt {line byte : Nat} (hline : line + 1 < 10 ^ 10) (hbyte : byte < 10 ^ 10) :
    readCursor (cursorAt line byte) = some (line + 1, byte) := by
  have hdigits := digits_isDigit (line + 1)
  unfold cursorAt readCursor
  simp only
  rw [List.dropWhile_append_of_pos hdigits, List.takeWhile_append_of_pos hdigits]
  by_cases hzero : byte = 0
  · rw [if_pos hzero, List.append_nil]
    simp [cursorNumber_digits hline, hzero]
  · rw [if_neg hzero, List.dropWhile_cons_of_neg (by decide), List.takeWhile_cons_of_neg (by decide), List.append_nil]
    simp [cursorNumber_digits hline, cursorNumber_digits hbyte]

theorem encode_ascii {s : List Char} (h : ∀ c ∈ s, c.toNat < 128) : (encode s).length = s.length := by
  induction s with
  | nil => rfl
  | cons c s ih =>
    have hc : (String.utf8EncodeChar c).length = 1 := by
      have hlt := h c List.mem_cons_self
      rw [String.length_utf8EncodeChar, Char.utf8Size, if_pos]
      rw [UInt32.le_iff_toNat_le]
      exact Nat.le_of_lt_succ hlt
    rw [encode_cons, List.length_append, hc, ih fun c hc => h c (List.mem_cons_of_mem _ hc), List.length_cons, Nat.add_comm]

theorem number_length {n : Nat} (h : n < 10 ^ 10) : (encode (numberLine n [])).length ≤ 11 := by
  have hlen := digits_length h
  rw [encode_ascii]
  · simp only [numberLine, padStart, List.length_append, List.length_replicate, List.length_cons, List.length_nil]
    omega
  · intro c hc
    simp only [numberLine, padStart, List.append_assoc, List.mem_append, List.mem_replicate, List.mem_cons, List.not_mem_nil, or_false] at hc
    rcases hc with ⟨_, rfl⟩ | hc | rfl
    · decide
    · have hdigit := digits_isDigit n c hc
      simp only [Char.isDigit, Bool.and_eq_true, decide_eq_true_eq, UInt32.le_iff_toNat_le] at hdigit
      exact lt_of_le_of_lt hdigit.2 (by decide)
    · decide

theorem numberLine_eq (n : Nat) (text : List Char) : numberLine n [] ++ text = numberLine n text := by
  simp [numberLine]

theorem joinLines_concat (parts : List (List Char)) (part : List Char) :
    (encode (joinLines (parts ++ [part]))).length =
      (encode (joinLines parts)).length + (if parts = [] then 0 else 1) + (encode part).length := by
  have hfeed : (encode ['\n']).length = 1 := by decide
  induction parts with
  | nil => simp [joinLines]
  | cons q parts ih =>
    cases parts with
    | nil =>
      simp only [joinLines, List.singleton_append, List.intercalate_cons_cons, List.intercalate_singleton, encode_append, List.length_append,
        hfeed, List.cons_ne_nil, if_false]
    | cons r parts =>
      simp only [joinLines, List.cons_append, List.intercalate_cons_cons, encode_append, List.length_append, List.cons_ne_nil, if_false] at ih ⊢
      omega

/-! ## Positions -/

/-- The lines that are left when those from a position on are `lines` and the first of them is shown up to a byte. -/
inductive Rest : List (List Char) → Nat → List (List Char) → Prop
  | done : Rest [] 0 []
  | line (pre suf : List Char) (lines : List (List Char)) (h : pre ≠ [] → suf ≠ []) :
    Rest ((pre ++ suf) :: lines) (encode pre).length (suf :: lines)

theorem Rest.start (lines : List (List Char)) : Rest lines 0 lines := by
  cases lines with
  | nil => exact .done
  | cons l lines => exact .line [] l lines (fun h => absurd rfl h)

/-- What is left to show. -/
def size (rest : List (List Char)) : Nat := (rest.map fun l => l.length + 1).sum

/-- A next page begins where this one ends: what it and those after it spell, with this page's segments before it, is what was left. -/
structure NextAt (lines rest : List (List Char)) (n : Nat) (segments : List (Nat × List Char)) (cursor : List Char) (line byte : Nat)
    (rest' : List (List Char)) : Prop where
  cursor : cursor = cursorAt line byte
  place : Rest (lines.drop line) byte rest'
  more : rest' ≠ []
  joins : ∀ segments', Spells (line + 1) rest' segments' → Spells n rest (segments ++ segments')
  less : size rest' ≤ size rest
  moves : segments ≠ [] → size rest' < size rest

theorem fillPage_spec {budget : Nat} (hbudget : 16 ≤ budget) {lines : List (List Char)} (hlines : lines.length < 10 ^ 10) {full : List (List Char)}
    {line byte : Nat} {rest : List (List Char)} (hrest : Rest full byte rest) (hfull : lines.drop line = full) {parts : List (List Char)}
    {spent : Nat} (hspent : spent = (encode (joinLines parts)).length) (hfits : spent ≤ budget) (last : Nat) :
    ∃ segments, (fillPage budget full line byte parts spent last).1 = parts ++ segments.map (fun s => numberLine s.1 s.2) ∧
      (encode (joinLines (fillPage budget full line byte parts spent last).1)).length ≤ budget ∧
      (rest ≠ [] → parts = [] → segments ≠ []) ∧
      match (fillPage budget full line byte parts spent last).2.1 with
      | none => Spells (line + 1) rest segments
      | some cursor => ∃ line' byte' rest', NextAt lines rest (line + 1) segments cursor line' byte' rest' := by
  induction full generalizing line byte rest parts spent last with
  | nil =>
    cases hrest
    exact ⟨[], by simp [fillPage], by rw [fillPage, ← hspent]; exact hfits, fun h => absurd rfl h, .done _⟩
  | cons l full ih =>
    obtain ⟨pre, suf, hl⟩ : ∃ pre suf, l = pre ++ suf ∧ byte = (encode pre).length ∧ rest = suf :: full ∧ (pre ≠ [] → suf ≠ []) := by
      cases hrest with
      | line pre suf _ h => exact ⟨pre, suf, rfl, rfl, rfl, h⟩
    obtain ⟨rfl, rfl, rfl, hsuf⟩ := hl
    have hlt : line < lines.length := by
      by_contra hge
      rw [List.drop_eq_nil_of_le (Nat.not_lt.mp hge)] at hfull
      cases hfull
    have hdrop : lines.drop (line + 1) = full := by
      rw [← List.drop_drop, hfull]
      rfl
    have hbytes : (encode (pre ++ suf)).drop (encode pre).length = encode suf := by
      rw [encode_append, List.drop_left]
    have hnumber : (encode (numberLine (line + 1) [])).length ≤ 11 := number_length (by omega)
    obtain ⟨overhead, hoverhead⟩ : ∃ n, n = (if parts = [] then 0 else 1) + (encode (numberLine (line + 1) [])).length := ⟨_, rfl⟩
    have hjoined : ∀ t, (encode (joinLines (parts ++ [numberLine (line + 1) t]))).length = spent + overhead + (encode t).length := by
      intro t
      rw [joinLines_concat, ← numberLine_eq, encode_append, List.length_append, hspent, hoverhead]
      omega
    have hturn : fillPage budget ((pre ++ suf) :: full) line (encode pre).length parts spent last =
        if spent + overhead + (encode suf).length ≤ budget then
          fillPage budget full (line + 1) 0 (parts ++ [numberLine (line + 1) suf]) (spent + overhead + (encode suf).length) (line + 1)
        else if parts ≠ [] then (parts, some (cursorAt line (encode pre).length), last)
        else
          (parts ++ [numberLine (line + 1) (decode ((encode suf).take (stepBack (encode suf) (budget - spent - overhead))))],
            some (cursorAt line ((encode pre).length + stepBack (encode suf) (budget - spent - overhead))), line + 1) := by
      rw [fillPage]
      simp only [hbytes, decode_encode, numberLine_eq, hoverhead]
    rw [hturn]
    by_cases hroom : spent + overhead + (encode suf).length ≤ budget
    · -- the rest of the line fits
      rw [if_pos hroom]
      obtain ⟨segments, hparts, hwithin, _, hnext⟩ := ih (.start full) hdrop (hjoined suf).symm hroom (line + 1)
      refine ⟨(line + 1, suf) :: segments, by rw [hparts]; simp, hwithin, fun _ _ => by simp, ?_⟩
      split at hnext
      · exact .whole _ _ hnext
      · obtain ⟨line', byte', rest', hat⟩ := hnext
        have hless := hat.less
        simp only [size] at hless
        refine ⟨line', byte', rest', hat.cursor, hat.place, hat.more, fun segments' h => .whole _ _ (hat.joins segments' h), ?_, fun _ => ?_⟩
        · simp only [size, List.map_cons, List.sum_cons]
          omega
        · simp only [size, List.map_cons, List.sum_cons]
          omega
    · rw [if_neg hroom]
      by_cases hparts : parts = []
      · -- the line is too long for a page
        rw [if_neg (fun h => h hparts)]
        subst hparts
        have hspent0 : spent = 0 := hspent
        rw [if_pos rfl, Nat.zero_add] at hoverhead
        have hlong : budget - spent - overhead < (encode suf).length := by omega
        obtain ⟨a, b, rfl, ha, hb, hcut⟩ := exists_cut (s := suf) (by omega) hlong
        have hback := stepBack_le (encode (a ++ b)) (budget - spent - overhead)
        rw [← hcut] at hback ⊢
        rw [encode_append, List.take_left, decode_encode, ← List.length_append, ← encode_append]
        refine ⟨[(line + 1, a)], rfl, ?_, fun _ _ => by simp, ?_⟩
        · rw [hjoined]
          omega
        · refine ⟨line, _, b :: full, rfl, ?_, List.cons_ne_nil _ _, fun segments' h => .part _ ha hb h, ?_, fun _ => ?_⟩
          · rw [hfull, ← List.append_assoc]
            exact .line _ b full fun _ => hb
          · simp only [size, List.map_cons, List.sum_cons, List.length_append]
            omega
          · have := List.length_pos_iff.mpr ha
            simp only [size, List.map_cons, List.sum_cons, List.length_append]
            omega
      · -- the page ends before the line
        rw [if_pos hparts]
        refine ⟨[], by simp, by rw [← hspent]; exact hfits, fun _ h => absurd h hparts, ?_⟩
        exact ⟨line, _, suf :: full, rfl, hfull ▸ .line pre suf full hsuf, List.cons_ne_nil _ _, fun _ h => h, le_rfl, fun h => absurd rfl h⟩

/-! ## Reading on -/

theorem lines_of_joinLines (lines : List (List Char)) :
    lines.length ≤ (encode (joinLines lines)).length + 1 ∧ ∀ l ∈ lines, (encode l).length ≤ (encode (joinLines lines)).length := by
  induction lines using List.reverseRecOn with
  | nil => simp
  | append_singleton lines l ih =>
    have hone := joinLines_concat lines l
    refine ⟨?_, fun l' hl' => ?_⟩
    · rw [List.length_append, List.length_singleton]
      by_cases hnil : lines = []
      · rw [hnil, List.length_nil]
        omega
      · rw [if_neg hnil] at hone
        omega
    · rcases List.mem_append.mp hl' with hl' | hl'
      · have := ih.2 l' hl'
        omega
      · rw [List.mem_singleton.mp hl']
        omega

theorem lines_of_body {body : List Char} (hbody : (encode body).length < 2 ^ 32) :
    (bodyLines body).length < 10 ^ 10 ∧ ∀ l ∈ bodyLines body, (encode l).length < 10 ^ 10 := by
  unfold bodyLines
  split
  · exact ⟨by simp, fun l hl => by cases hl⟩
  · obtain ⟨hcount, hlength⟩ := lines_of_joinLines (body.splitOn '\n')
    rw [joinLines, List.intercalate_splitOn] at hcount hlength
    exact ⟨by omega, fun l hl => lt_of_le_of_lt (hlength l hl) (by omega)⟩

theorem openAt_cursorAt {lines : List (List Char)} (hcount : lines.length < 10 ^ 10) (hlength : ∀ l ∈ lines, (encode l).length < 10 ^ 10)
    {line byte : Nat} {rest : List (List Char)} (hrest : Rest (lines.drop line) byte rest) (hmore : rest ≠ []) :
    openAt lines (some (cursorAt line byte)) = some (line, byte) := by
  cases hdrop : lines.drop line with
  | nil =>
    rw [hdrop] at hrest
    cases hrest
    exact absurd rfl hmore
  | cons l full =>
    rw [hdrop] at hrest
    have hget : lines[line]? = some l := by
      rw [← List.head?_drop, hdrop, List.head?_cons]
    obtain ⟨hlt, hmem⟩ := List.getElem?_eq_some_iff.mp hget
    have hl : (encode l).length < 10 ^ 10 := hlength l (hmem ▸ List.getElem_mem hlt)
    cases hrest with
    | line pre suf _ hsuf =>
      have hmid := not_mid_encode pre suf
      have hle := length_le_encode suf
      rw [encode_append, List.length_append] at hl
      rw [openAt, readCursor_cursorAt (by omega) (by omega), Option.bind_some]
      simp only [Nat.add_eq_zero_iff, one_ne_zero, and_false, if_false, Nat.add_sub_cancel, hget, Option.bind_some, hmid]
      rw [if_neg]
      rintro (⟨hpast, hne⟩ | hfalse)
      · have hpre : pre ≠ [] := by
          rintro rfl
          exact hne rfl
        have := List.length_pos_iff.mpr (hsuf hpre)
        rw [encode_append, List.length_append] at hpast
        omega
      · cases hfalse

theorem pageLines_of_openAt {body : List Char} {cursor : Option (List Char)} {line byte : Nat} (hlines : bodyLines body ≠ [])
    (h : openAt (bodyLines body) cursor = some (line, byte)) (maxBytes : Nat) :
    ∃ page, pageLines body cursor maxBytes = some page ∧
      page.text = joinLines (fillPage (max maxBytes 16) ((bodyLines body).drop line) line byte [] 0 (line + 1)).1 ∧
      page.next = (fillPage (max maxBytes 16) ((bodyLines body).drop line) line byte [] 0 (line + 1)).2.1 := by
  rw [pageLines]
  simp only [if_neg hlines, h, Option.map_some]
  exact ⟨_, rfl, rfl, rfl⟩

theorem readPages_spec {body : List Char} (hbody : (encode body).length < 2 ^ 32) (maxBytes : Nat) (left : Nat) :
    ∀ {cursor : Option (List Char)} {line byte : Nat} {rest : List (List Char)}, size rest ≤ left →
      openAt (bodyLines body) cursor = some (line, byte) → Rest ((bodyLines body).drop line) byte rest → rest ≠ [] →
      ∃ n pages, ∃ segments : List (List (Nat × List Char)), readPages body maxBytes n cursor = some pages ∧
        (∀ page ∈ pages, (encode page.text).length ≤ max maxBytes 16) ∧ pages.map LinePage.text = segments.map pageText ∧
        Spells (line + 1) rest segments.flatten := by
  obtain ⟨hcount, hlength⟩ := lines_of_body hbody
  induction left using Nat.strong_induction_on with
  | _ left ih =>
    intro cursor line byte rest hleft hopen hrest hmore
    have hlines : bodyLines body ≠ [] := by
      intro hnil
      rw [hnil, List.drop_nil] at hrest
      cases hrest
      exact hmore rfl
    have hempty : 0 = (encode (joinLines [])).length := rfl
    obtain ⟨segments, hparts, hwithin, hsome, hnext⟩ :=
      fillPage_spec (le_max_right maxBytes 16) hcount hrest rfl hempty (Nat.zero_le _) (line + 1)
    obtain ⟨page, hpage, htext, hpnext⟩ := pageLines_of_openAt hlines hopen maxBytes
    rw [← htext] at hwithin
    rw [hparts, List.nil_append] at htext
    rw [← hpnext] at hnext
    split at hnext
    · rename_i hlast
      refine ⟨1, [page], [segments], ?_, fun q hq => List.mem_singleton.mp hq ▸ hwithin, by simp [htext, pageText], by simpa using hnext⟩
      rw [readPages, hpage, Option.bind_some, hlast]
    · rename_i next hgoes
      obtain ⟨line', byte', rest', hat⟩ := hnext
      have hless := hat.moves (hsome hmore rfl)
      have hopen' : openAt (bodyLines body) (some next) = some (line', byte') :=
        hat.cursor ▸ openAt_cursorAt hcount hlength hat.place hat.more
      obtain ⟨n, pages, all, hpages, hall, htexts, hspells⟩ := ih (size rest') (by omega) le_rfl hopen' hat.place hat.more
      refine ⟨n + 1, page :: pages, segments :: all, ?_, ?_, ?_, hat.joins _ hspells⟩
      · rw [readPages, hpage, Option.bind_some, hgoes]
        simp only [hpages, Option.map_some]
      · exact List.forall_mem_cons.mpr ⟨hwithin, hall⟩
      · rw [List.map_cons, List.map_cons, htexts, htext]
        rfl

end LineAux

open LineAux

/-- Reading a note from its beginning on, page after page, comes to an end, within the budget on each page, and shows every line once. -/
theorem readPages_paged {body : List Char} (hbody : (encode body).length < 2 ^ 32) (maxBytes : Nat) :
    ∃ n pages, readPages body maxBytes n none = some pages ∧ Paged body maxBytes pages := by
  by_cases hlines : bodyLines body = []
  · refine ⟨1, [⟨[], none, 0, 0, 0⟩], ?_, ?_, [[]], rfl, ?_⟩
    · rw [readPages, pageLines]
      simp [hlines]
    · intro page hpage
      rw [List.mem_singleton.mp hpage]
      simp
    · rw [hlines]
      exact .done 1
  · have hopen : openAt (bodyLines body) none = some (0, 0) := rfl
    have hstart : Rest ((bodyLines body).drop 0) 0 (bodyLines body) := .start _
    obtain ⟨n, pages, segments, hpages, hwithin, htexts, hspells⟩ :=
      readPages_spec hbody maxBytes (size (bodyLines body)) le_rfl hopen hstart hlines
    exact ⟨n, pages, hpages, hwithin, segments, htexts, hspells⟩

/-- The theorem for a line of three pages. -/
theorem readPages_paged_long : ∃ n pages, readPages (List.replicate 20 'x') 16 n none = some pages ∧
    Paged (List.replicate 20 'x') 16 pages :=
  readPages_paged (by decide) 16

end Vault

end Capka

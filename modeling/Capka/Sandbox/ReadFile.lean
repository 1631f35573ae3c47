import Capka.Lib.Json
import Capka.Lib.Lines
import Capka.Lib.Trim

/-!
# Reading a file page by page

The `read_file` tool prints a window of lines of a file and says where the next one begins. The text of a window has a ceiling of its own,
in characters, and the page that begins behind the window does not know of it.
-/

namespace Capka

namespace ReadFile

open Ecma

/-- `.join("\n")`. -/
def joinLines (lines : List Units) : Units := [0x0a].intercalate lines

/-- The remark of `clampOutput` where it cut in `head` mode. -/
def headMarker (shown total : Nat) (hint : Units) : Units :=
  0x0a :: (ofString "[… Capka: showing the first " ++ decimal shown ++ ofString " of " ++ decimal total ++
    ofString " lines — display limit, not the end of the data." ++ hint ++ ofString "]")

/-- `clampOutput` in `head` mode: the text, and whether it was cut. -/
def clampHead (maxChars maxLines : Nat) (note : Option Units) (text : Units) : Units × Bool :=
  let hint := match note with
    | some note => if note = [] then [] else 0x20 :: note
    | none => []
  let lines := text.splitOn 0x0a
  let kept := if maxLines < lines.length then joinLines (lines.take maxLines) else text
  if maxLines < lines.length ∨ maxChars < kept.length then
    let kept := if maxChars < kept.length then kept.take maxChars else kept
    (kept ++ headMarker (kept.splitOn 0x0a).length lines.length hint, true)
  else (text, false)

/-- The note of a page: the lines it shows, and where the next page begins. -/
structure Note where
  first : Nat
  last : Nat
  next : Nat
  deriving Repr, DecidableEq

def Note.render (n : Note) : Units :=
  0x0a :: (ofString "[… Capka: showing lines " ++ decimal n.first ++ ofString "–" ++ decimal n.last ++
    ofString " — more follows. Read the next page: read_file(path, offset=" ++ decimal n.next ++
    ofString "). Display limit, not the end of the file.]")

/-- What `read_file` returns of a file: the text, and the note behind it. -/
structure Page where
  text : Units
  note : Option Note
  truncated : Bool
  deriving DecidableEq

/-- The `content` of a page. -/
def Page.content (p : Page) : Units := p.text ++ (p.note.map Note.render).getD []

/-- `friendlyFsError`; `lower` is `toLowerCase`. -/
def friendlyFsError (lower : Units → Units) (stderr path : Units) : Units :=
  let e := lower stderr
  if ofString "no such file" <:+: e ∨ ofString "not found" <:+: e then ofString "File not found: " ++ path
  else if ofString "is a directory" <:+: e then path ++ ofString " is a folder, not a file."
  else if ofString "permission denied" <:+: e then ofString "Permission denied: " ++ path
  else if Trim.trim isSpace stderr = [] then ofString "Could not access " ++ path ++ ofString "."
  else Trim.trim isSpace stderr

/-- What the tool runs with: the ceiling, the lines of a page that names no number, `toLowerCase`, and the commands. A command answers
what it prints, or what it says when it fails. -/
structure Env where
  maxToolOutputChars : Nat
  defaultReadLines : Nat
  lower : Units → Units
  sed : Nat → Nat → Except Units Units
  wc : Option Units

/-- The line a page begins with. -/
def startLine (offset : Option Nat) : Nat := max 1 (offset.getD 1)

/-- How many lines a page has. -/
def lineCount (E : Env) (maxLines : Option Nat) : Nat := max 1 (maxLines.getD E.defaultReadLines)

/-- The `execute` of `read_file`. -/
def readFile (E : Env) (path : Units) (maxLines offset : Option Nat) : Except Units Page :=
  let start := startLine offset
  let count := lineCount E maxLines
  match E.sed start (start + count) with
  | .error stderr => .error (friendlyFsError E.lower stderr path)
  | .ok stdout =>
    if 0 ∈ stdout then
      .error (ofString "Binary file (" ++ (E.wc.map (Trim.trim isSpace)).getD (ofString "unknown") ++
        ofString " bytes) — not text. Inspect it with execute_bash (e.g. `file`, `xxd`) or process it in execute_python.")
    else
      let body := if stdout.getLast? = some 0x0a then stdout.dropLast else stdout
      let lines := if body = [] then [] else body.splitOn 0x0a
      let shown := if count < lines.length then joinLines (lines.take count) else stdout
      let guard := clampHead E.maxToolOutputChars (count + 1) none shown
      if count < lines.length then
        .ok { text := guard.1, note := some { first := start, last := start + count - 1, next := start + count }, truncated := true }
      else .ok { text := guard.1, note := none, truncated := guard.2 }

def fileLines (text : Units) : List Units :=
  if text = [] then [] else (if text.getLast? = some 0x0a then text.dropLast else text).splitOn 0x0a

/-- What `sed -n 'first,lastp;lastq'` prints of a text: the lines, each with its line feed, which the last line of the text may lack. -/
def sedPrint (text : Units) (first last : Nat) : Units :=
  let printed := ((fileLines text).drop (first - 1)).take (last + 1 - first)
  if printed = [] then []
  else if last < (fileLines text).length ∨ text.getLast? = some 0x0a then joinLines printed ++ [0x0a]
  else joinLines printed

/-- The tool over a file that holds a text. -/
def Env.Holds (E : Env) (text : Units) : Prop := ∀ first last, E.sed first last = .ok (sedPrint text first last)

/-! ## What is promised -/

/-- A page that was read, and how. -/
structure Reading where
  offset : Nat
  maxLines : Option Nat
  page : Page

/-- Reading on: each page begins where the note of the one before says, until a page has no note. -/
inductive Walk (E : Env) (path : Units) : Nat → List Reading → Prop
  | last {offset : Nat} {maxLines : Option Nat} {page : Page} :
      readFile E path maxLines (some offset) = .ok page → page.note = none → Walk E path offset [⟨offset, maxLines, page⟩]
  | more {offset : Nat} {maxLines : Option Nat} {page : Page} {note : Note} {readings : List Reading} :
      readFile E path maxLines (some offset) = .ok page → page.note = some note → Walk E path note.next readings →
        Walk E path offset (⟨offset, maxLines, page⟩ :: readings)

/-- The lines of the window a page is about. -/
def Reading.window (E : Env) (text : Units) (r : Reading) : List Units :=
  ((fileLines text).drop (startLine (some r.offset) - 1)).take (lineCount E r.maxLines)

/-- Reading on shows every line in full, in order. -/
structure Complete (E : Env) (text : Units) (offset : Nat) (readings : List Reading) : Prop where
  said : ∀ r ∈ readings, ∀ n ∈ r.page.note, r.window E text = ((fileLines text).take n.last).drop (n.first - 1)
  shown : ∀ r ∈ readings, r.window E text <+: r.page.content.splitOn 0x0a
  all : readings.flatMap (Reading.window E text) = (fileLines text).drop (offset - 1)

/-- More lines follow the window. -/
def Reading.More (E : Env) (text : Units) (r : Reading) : Prop :=
  startLine (some r.offset) - 1 + lineCount E r.maxLines < (fileLines text).length

instance (E : Env) (text : Units) (r : Reading) : Decidable (r.More E text) := inferInstanceAs (Decidable (_ < _))

/-- What is put in the place of what the ceiling takes off. -/
def Reading.remark (E : Env) (text : Units) (r : Reading) : Units :=
  let start := startLine (some r.offset)
  let count := lineCount E r.maxLines
  let shown := ((joinLines (r.window E text)).take E.maxToolOutputChars).splitOn 0x0a
  if r.More E text then
    headMarker shown.length count [] ++ Note.render { first := start, last := start + count - 1, next := start + count }
  else headMarker shown.length ((sedPrint text start (start + count)).splitOn 0x0a).length []

/-- The window is within the ceiling, or what the ceiling takes off is what the remark says. -/
def Reading.Fits (E : Env) (text : Units) (r : Reading) : Prop :=
  (joinLines (r.window E text)).length ≤ E.maxToolOutputChars ∨
    ∃ rest, r.remark E text = (joinLines (r.window E text)).drop E.maxToolOutputChars ++ rest ∧ ∀ u ∈ rest.head?, u = 0x0a

namespace ReadFileAux

/-! ### The lines of a file -/

variable {text : Units} {start count : Nat}

theorem not_mem_of_mem_fileLines {l : Units} (h : l ∈ fileLines text) : 0x0a ∉ l := by
  unfold fileLines at h
  split at h
  · cases h
  · exact Lines.not_mem_of_mem_splitOn h

theorem mem_of_mem_fileLines {l : Units} {u : UInt16} (h : l ∈ fileLines text) (hu : u ∈ l) : u ∈ text := by
  unfold fileLines at h
  split at h
  · cases h
  · have hmem := Lines.mem_of_mem_splitOn h hu
    split at hmem
    · exact List.dropLast_subset _ hmem
    · exact hmem

theorem last_ne_nil {ls : List Units} {l : Units} (hlast : text.getLast? ≠ some 0x0a) (h : fileLines text = ls ++ [l]) : l ≠ [] := by
  rintro rfl
  unfold fileLines at h
  rw [if_neg hlast] at h
  split at h
  · simp at h
  rename_i hne
  have htext : [0x0a].intercalate (ls ++ [[]]) = text := h ▸ List.intercalate_splitOn _
  rcases eq_or_ne ls [] with rfl | hls
  · exact hne htext.symm
  · rw [Lines.intercalate_append hls (List.cons_ne_nil _ _), List.intercalate_singleton] at htext
    exact hlast (htext ▸ List.getLast?_concat)

/-- The lines that are printed: the window and one more. -/
def printed (text : Units) (start count : Nat) : List Units := ((fileLines text).drop (start - 1)).take (count + 1)

theorem mem_of_mem_printed {l : Units} (h : l ∈ printed text start count) : l ∈ fileLines text :=
  List.mem_of_mem_drop (List.mem_of_mem_take h)

theorem sedPrint_cases (text : Units) (start count : Nat) :
    (printed text start count = [] ∧ sedPrint text start (start + count) = []) ∨
      (printed text start count ≠ [] ∧ sedPrint text start (start + count) = joinLines (printed text start count) ++ [0x0a]) ∨
      ∃ ls l, printed text start count = ls ++ [l] ∧ l ≠ [] ∧ sedPrint text start (start + count) = joinLines (ls ++ [l]) := by
  have hsed : sedPrint text start (start + count) = if printed text start count = [] then []
      else if start + count < (fileLines text).length ∨ text.getLast? = some 0x0a then joinLines (printed text start count) ++ [0x0a]
      else joinLines (printed text start count) := by
    rw [sedPrint, printed, show start + count + 1 - start = count + 1 by omega]
  rcases eq_or_ne (printed text start count) [] with hnil | hne
  · exact .inl ⟨hnil, by rw [hsed, if_pos hnil]⟩
  rw [if_neg hne] at hsed
  split at hsed
  · exact .inr (.inl ⟨hne, hsed⟩)
  rename_i hend
  obtain ⟨hshort, hlast⟩ := not_or.1 hend
  refine .inr (.inr ?_)
  have hrest : printed text start count = (fileLines text).drop (start - 1) :=
    List.take_of_length_le (by rw [List.length_drop]; omega)
  obtain ⟨ls, l, hl⟩ : ∃ ls l, printed text start count = ls ++ [l] := ⟨_, _, (List.dropLast_append_getLast hne).symm⟩
  refine ⟨ls, l, hl, ?_, hl ▸ hsed⟩
  have hall : fileLines text = (fileLines text).take (start - 1) ++ ls ++ [l] := by
    rw [List.append_assoc, ← hl, hrest, List.take_append_drop]
  exact last_ne_nil hlast hall

theorem body_eq (text : Units) (start count : Nat) :
    (if (sedPrint text start (start + count)).getLast? = some 0x0a then (sedPrint text start (start + count)).dropLast
      else sedPrint text start (start + count)) = joinLines (printed text start count) := by
  rcases sedPrint_cases text start count with ⟨hnil, hsed⟩ | ⟨-, hsed⟩ | ⟨ls, l, hl, hne, hsed⟩
  · rw [hsed, hnil]
    rfl
  · rw [hsed, if_pos List.getLast?_concat, List.dropLast_concat]
  · rw [hsed, hl, if_neg]
    rw [joinLines, Lines.getLast?_intercalate hne]
    intro hlast
    exact not_mem_of_mem_fileLines (mem_of_mem_printed (hl ▸ List.mem_append_right _ (List.mem_singleton_self l)))
      (List.mem_of_getLast? hlast)

theorem lines_eq (text : Units) (start count : Nat) :
    (if joinLines (printed text start count) = [] then [] else (joinLines (printed text start count)).splitOn 0x0a) =
      if printed text start count = [[]] then [] else printed text start count := by
  unfold joinLines
  by_cases hnil : [0x0a].intercalate (printed text start count) = []
  · rw [if_pos hnil]
    rcases Lines.intercalate_eq_nil_iff.1 hnil with h | h
    · rw [h, if_neg (List.cons_ne_nil _ _).symm]
    · rw [if_pos h]
  · have hne := fun h => hnil (Lines.intercalate_eq_nil_iff.2 (.inl h))
    rw [if_neg hnil, if_neg fun h => hnil (Lines.intercalate_eq_nil_iff.2 (.inr h)), List.splitOn_intercalate _ _ hne]
    exact fun l hl => not_mem_of_mem_fileLines (mem_of_mem_printed hl)

theorem nul_not_mem (hnul : 0 ∉ text) (start count : Nat) : 0 ∉ sedPrint text start (start + count) := by
  have hlines : ∀ ls : List Units, (∀ l ∈ ls, l ∈ fileLines text) → 0 ∉ joinLines ls := by
    intro ls hls hmem
    rcases Lines.mem_intercalate hmem with h | ⟨l, hl, hu⟩
    · exact absurd h (by decide)
    · exact hnul (mem_of_mem_fileLines (hls l hl) hu)
  rcases sedPrint_cases text start count with ⟨-, hsed⟩ | ⟨-, hsed⟩ | ⟨ls, l, hl, -, hsed⟩ <;> rw [hsed]
  · exact List.not_mem_nil
  · intro h
    rcases List.mem_append.1 h with h | h
    · exact hlines _ (fun l hl => mem_of_mem_printed hl) h
    · exact absurd (List.mem_singleton.1 h) (by decide)
  · exact hlines _ fun m hm => mem_of_mem_printed (hl ▸ hm)

/-! ### A page -/

variable {E : Env} {path : Units}

theorem one_le_startLine (offset : Option Nat) : 1 ≤ startLine offset := Nat.le_max_left _ _

theorem one_le_lineCount (E : Env) (maxLines : Option Nat) : 1 ≤ lineCount E maxLines := Nat.le_max_left _ _

theorem clampHead_of_lines_le {maxChars maxLines : Nat} {s : Units} (h : (s.splitOn 0x0a).length ≤ maxLines) :
    clampHead maxChars maxLines none s =
      if maxChars < s.length then
        (s.take maxChars ++ headMarker ((s.take maxChars).splitOn 0x0a).length (s.splitOn 0x0a).length [], true)
      else (s, false) := by
  unfold clampHead
  simp only [not_lt.2 h, if_false, false_or]
  by_cases hlong : maxChars < s.length
  · simp only [if_pos hlong]
  · simp only [if_neg hlong]

/-- The text of a page: the window where more lines follow, and what was printed where none do. -/
def shownText (E : Env) (text : Units) (r : Reading) : Units :=
  if r.More E text then joinLines (r.window E text)
  else sedPrint text (startLine (some r.offset)) (startLine (some r.offset) + lineCount E r.maxLines)

/-- The note of a page. -/
def noteOf (E : Env) (text : Units) (r : Reading) : Option Note :=
  if r.More E text then
    some { first := startLine (some r.offset), last := startLine (some r.offset) + lineCount E r.maxLines - 1,
           next := startLine (some r.offset) + lineCount E r.maxLines }
  else none

theorem window_eq (E : Env) (text : Units) (r : Reading) :
    r.window E text = (printed text (startLine (some r.offset)) (lineCount E r.maxLines)).take (lineCount E r.maxLines) := by
  rw [Reading.window, printed, List.take_take, Nat.min_eq_left (Nat.le_succ _)]

theorem more_iff (E : Env) (text : Units) (r : Reading) :
    r.More E text ↔ lineCount E r.maxLines < (printed text (startLine (some r.offset)) (lineCount E r.maxLines)).length := by
  rw [Reading.More, printed, List.length_take, List.length_drop]
  omega

theorem window_of_not_more {r : Reading} (h : ¬r.More E text) :
    r.window E text = printed text (startLine (some r.offset)) (lineCount E r.maxLines) := by
  rw [window_eq, List.take_of_length_le (not_lt.1 fun hlt => h ((more_iff E text r).2 hlt))]

theorem length_window_of_more {r : Reading} (h : r.More E text) : (r.window E text).length = lineCount E r.maxLines := by
  rw [window_eq, List.length_take, Nat.min_eq_left ((more_iff E text r).1 h).le]

theorem not_mem_of_mem_window {r : Reading} {l : Units} (h : l ∈ r.window E text) : 0x0a ∉ l :=
  not_mem_of_mem_fileLines (List.mem_of_mem_drop (List.mem_of_mem_take h))

theorem lines_length_iff (E : Env) (text : Units) (r : Reading) :
    lineCount E r.maxLines < (if printed text (startLine (some r.offset)) (lineCount E r.maxLines) = [[]] then []
      else printed text (startLine (some r.offset)) (lineCount E r.maxLines)).length ↔ r.More E text := by
  rw [more_iff]
  split
  · rename_i h
    rw [h]
    have hpos := one_le_lineCount E r.maxLines
    simp only [List.length_nil, List.length_singleton]
    omega
  · rfl

theorem length_shownText_le (E : Env) (text : Units) (r : Reading) :
    ((shownText E text r).splitOn 0x0a).length ≤ lineCount E r.maxLines + 1 := by
  unfold shownText
  have hpos := one_le_lineCount E r.maxLines
  split
  · rename_i hmore
    have hlen := length_window_of_more hmore
    have hne : r.window E text ≠ [] := fun h => by
      rw [h, List.length_nil] at hlen
      omega
    rw [joinLines, List.splitOn_intercalate _ (fun l hl => not_mem_of_mem_window hl) hne, hlen]
    omega
  · rename_i hmore
    rw [more_iff, not_lt] at hmore
    rcases sedPrint_cases text (startLine (some r.offset)) (lineCount E r.maxLines) with ⟨-, hsed⟩ | ⟨hne, hsed⟩ | ⟨ls, l, hl, -, hsed⟩
    · rw [hsed, List.splitOn_nil, List.length_singleton]
      omega
    · rw [hsed, joinLines,
        Lines.splitOn_intercalate_concat (fun l hl => not_mem_of_mem_fileLines (mem_of_mem_printed hl)) hne, List.length_append,
        List.length_singleton]
      omega
    · rw [hsed, joinLines, ← hl, List.splitOn_intercalate _ (fun l hl => not_mem_of_mem_fileLines (mem_of_mem_printed hl))
        (hl ▸ List.append_ne_nil_of_right_ne_nil _ (List.cons_ne_nil _ _))]
      omega

theorem readFile_eq (hE : E.Holds text) (hnul : 0 ∉ text) (r : Reading) :
    ∃ truncated, readFile E path r.maxLines (some r.offset) = .ok
      { text := (clampHead E.maxToolOutputChars (lineCount E r.maxLines + 1) none (shownText E text r)).1
        note := noteOf E text r
        truncated } := by
  rw [readFile, hE]
  dsimp only
  rw [if_neg (nul_not_mem hnul _ _)]
  simp only [body_eq, lines_eq, lines_length_iff]
  by_cases hmore : r.More E text
  · have hlines : printed text (startLine (some r.offset)) (lineCount E r.maxLines) ≠ [[]] := by
      intro h
      have hlt := (more_iff E text r).1 hmore
      have hpos := one_le_lineCount E r.maxLines
      rw [h, List.length_singleton] at hlt
      omega
    simp only [if_pos hmore, if_neg hlines, shownText, noteOf, ← window_eq]
    exact ⟨true, rfl⟩
  · simp only [if_neg hmore, shownText, noteOf]
    exact ⟨_, rfl⟩

theorem content_eq (hE : E.Holds text) (hnul : 0 ∉ text) {r : Reading}
    (hr : readFile E path r.maxLines (some r.offset) = .ok r.page) :
    r.page.note = noteOf E text r ∧
      r.page.content =
        (if E.maxToolOutputChars < (shownText E text r).length then
          (shownText E text r).take E.maxToolOutputChars ++ headMarker
            (((shownText E text r).take E.maxToolOutputChars).splitOn 0x0a).length ((shownText E text r).splitOn 0x0a).length []
        else shownText E text r) ++ ((noteOf E text r).map Note.render).getD [] := by
  obtain ⟨truncated, hpage⟩ := @readFile_eq text E path hE hnul r
  obtain hpage := Except.ok.inj (hr.symm.trans hpage)
  rw [hpage]
  refine ⟨rfl, ?_⟩
  rw [Page.content, clampHead_of_lines_le (length_shownText_le E text r), apply_ite Prod.fst]

theorem shownText_eq (E : Env) (text : Units) {r : Reading} (hne : r.window E text ≠ []) :
    shownText E text r = joinLines (r.window E text) ∨
      (noteOf E text r = none ∧ shownText E text r = joinLines (r.window E text) ++ [0x0a]) := by
  unfold shownText noteOf
  by_cases hmore : r.More E text
  · exact .inl (if_pos hmore)
  · rw [if_neg hmore, if_neg hmore]
    rw [window_of_not_more hmore] at hne ⊢
    rcases sedPrint_cases text (startLine (some r.offset)) (lineCount E r.maxLines) with ⟨hnil, -⟩ | ⟨-, hsed⟩ | ⟨ls, l, hl, -, hsed⟩
    · exact absurd hnil hne
    · exact .inr ⟨rfl, hsed⟩
    · exact .inl (hl ▸ hsed)

theorem remark_eq (E : Env) (text : Units) {r : Reading} (hne : r.window E text ≠ []) :
    r.remark E text = headMarker (((joinLines (r.window E text)).take E.maxToolOutputChars).splitOn 0x0a).length
      ((shownText E text r).splitOn 0x0a).length [] ++ ((noteOf E text r).map Note.render).getD [] := by
  unfold Reading.remark shownText noteOf
  by_cases hmore : r.More E text
  · have hlines : ((joinLines (r.window E text)).splitOn 0x0a).length = lineCount E r.maxLines := by
      rw [joinLines, List.splitOn_intercalate _ (fun l hl => not_mem_of_mem_window hl) hne, length_window_of_more hmore]
    simp only [if_pos hmore, hlines, Option.map_some, Option.getD_some]
  · simp only [if_neg hmore, Option.map_none, Option.getD_none, List.append_nil]

theorem window_shown_iff (hE : E.Holds text) (hnul : 0 ∉ text) {r : Reading}
    (hr : readFile E path r.maxLines (some r.offset) = .ok r.page) :
    r.window E text <+: r.page.content.splitOn 0x0a ↔ r.Fits E text := by
  by_cases hne : r.window E text = []
  · rw [Reading.Fits, hne]
    exact ⟨fun _ => .inl (Nat.zero_le _), fun _ => List.nil_prefix⟩
  rw [Lines.prefix_splitOn_iff (fun l hl => not_mem_of_mem_window hl) hne, (content_eq hE hnul hr).2, Reading.Fits, remark_eq E text hne]
  rw [show [0x0a].intercalate (r.window E text) = joinLines (r.window E text) from rfl]
  have htext := shownText_eq E text hne
  generalize hn : ((noteOf E text r).map Note.render).getD [] = note
  have hnote : ∀ u ∈ note.head?, u = 0x0a := by
    subst hn
    intro u hu
    cases hno : noteOf E text r with
    | none =>
      rw [hno] at hu
      cases hu
    | some n =>
      rw [hno] at hu
      exact (Option.some.inj hu).symm
  generalize joinLines (r.window E text) = W at htext ⊢
  generalize shownText E text r = shown at htext ⊢
  rcases Nat.lt_or_ge E.maxToolOutputChars W.length with hlong | hshort
  · -- the ceiling takes off a part of the window, and the remark is behind what is left
    have hshown : E.maxToolOutputChars < shown.length ∧ shown.take E.maxToolOutputChars = W.take E.maxToolOutputChars := by
      rcases htext with rfl | ⟨-, rfl⟩
      · exact ⟨hlong, rfl⟩
      · exact ⟨by rw [List.length_append]; omega, List.take_append_of_le_length hlong.le⟩
    rw [if_pos hshown.1, hshown.2]
    have hW : ∀ rest, W ++ rest = W.take E.maxToolOutputChars ++ (W.drop E.maxToolOutputChars ++ rest) := fun rest => by
      rw [← List.append_assoc, List.take_append_drop]
    simp only [hW, List.append_assoc, List.append_cancel_left_eq]
    exact ⟨.inr, fun h => h.resolve_left (not_le.2 hlong)⟩
  · refine ⟨fun _ => .inl hshort, fun _ => ?_⟩
    rcases htext with rfl | ⟨hno, rfl⟩
    · rw [if_neg (not_lt.2 hshort)]
      exact ⟨note, rfl, hnote⟩
    · rw [hno] at hn
      obtain rfl : [] = note := hn
      rw [List.append_nil, List.length_append, List.length_singleton]
      split
      · have hlen : W.length = E.maxToolOutputChars := by omega
        rw [List.take_left' hlen]
        exact ⟨_, rfl, fun u hu => (Option.some.inj hu).symm⟩
      · exact ⟨[0x0a], rfl, fun u hu => (Option.some.inj hu).symm⟩

/-! ### Reading on -/

theorem read_of_mem_walk {offset : Nat} {readings : List Reading} (h : Walk E path offset readings) :
    ∀ r ∈ readings, readFile E path r.maxLines (some r.offset) = .ok r.page := by
  induction h with
  | last hread _ =>
    intro r hr
    obtain rfl := List.mem_singleton.1 hr
    exact hread
  | more hread _ _ ih =>
    intro r hr
    rcases List.mem_cons.1 hr with rfl | hr
    · exact hread
    · exact ih r hr

theorem startLine_sub_one (offset : Nat) : startLine (some offset) - 1 = offset - 1 := by
  unfold startLine
  rw [Option.getD_some]
  omega

theorem flatMap_window (hE : E.Holds text) (hnul : 0 ∉ text) {offset : Nat} {readings : List Reading} (h : Walk E path offset readings) :
    readings.flatMap (Reading.window E text) = (fileLines text).drop (offset - 1) := by
  induction h with
  | @last offset maxLines page hread hnone =>
    have hnote := (content_eq (r := ⟨offset, maxLines, page⟩) hE hnul hread).1
    have hmore : ¬Reading.More E text ⟨offset, maxLines, page⟩ := by
      intro hmore
      rw [hnone, noteOf, if_pos hmore] at hnote
      cases hnote
    rw [List.flatMap_cons, List.flatMap_nil, List.append_nil, Reading.window, startLine_sub_one]
    rw [Reading.More, startLine_sub_one] at hmore
    exact List.take_of_length_le (by rw [List.length_drop]; omega)
  | @more offset maxLines page n readings hread hsome _ ih =>
    have hnote := (content_eq (r := ⟨offset, maxLines, page⟩) hE hnul hread).1
    rw [hsome, noteOf] at hnote
    split at hnote
    · have hnext : n.next - 1 = offset - 1 + lineCount E maxLines := by
        obtain rfl := Option.some.inj hnote
        have hstart := startLine_sub_one offset
        have hpos := one_le_startLine (some offset)
        dsimp only
        omega
      rw [List.flatMap_cons, ih, hnext, Reading.window, startLine_sub_one, ← List.drop_drop, List.take_append_drop]
    · cases hnote

theorem said_of_read (hE : E.Holds text) (hnul : 0 ∉ text) {r : Reading}
    (hr : readFile E path r.maxLines (some r.offset) = .ok r.page) {n : Note} (hn : n ∈ r.page.note) :
    r.window E text = ((fileLines text).take n.last).drop (n.first - 1) := by
  rw [(content_eq hE hnul hr).1, noteOf] at hn
  split at hn
  · obtain rfl := Option.some.inj hn
    have hpos := one_le_startLine (some r.offset)
    rw [Reading.window, List.drop_take]
    congr 1
    dsimp only
    omega
  · cases hn

theorem exists_walk (hE : E.Holds text) (hnul : 0 ∉ text) (choose : Nat → Option Nat) (offset : Nat) :
    ∃ readings, Walk E path offset readings ∧ ∀ r ∈ readings, r.maxLines = choose r.offset := by
  induction hleft : (fileLines text).length - offset using Nat.strong_induction_on generalizing offset with
  | h left ih =>
    obtain ⟨truncated, hread⟩ := @readFile_eq text E path hE hnul ⟨offset, choose offset, ⟨[], none, false⟩⟩
    generalize hpage : Page.mk _ _ truncated = page at hread
    cases hnote : page.note with
    | none =>
      refine ⟨_, .last hread hnote, fun r hr => ?_⟩
      obtain rfl := List.mem_singleton.1 hr
      rfl
    | some n =>
      have hmore : n.next = startLine (some offset) + lineCount E (choose offset) ∧
          startLine (some offset) - 1 + lineCount E (choose offset) < (fileLines text).length := by
        rw [← hpage] at hnote
        dsimp only [noteOf] at hnote
        split at hnote
        · rename_i hmore
          obtain rfl := Option.some.inj hnote
          exact ⟨rfl, hmore⟩
        · cases hnote
      have hstart : offset ≤ startLine (some offset) := Nat.le_max_right _ _
      have hpos := one_le_lineCount E (choose offset)
      have hone := one_le_startLine (some offset)
      obtain ⟨readings, hwalk, hchosen⟩ := ih _ (by omega) n.next rfl
      refine ⟨_, .more hread hnote hwalk, fun r hr => ?_⟩
      rcases List.mem_cons.1 hr with rfl | hr
      · rfl
      · exact hchosen r hr

end ReadFileAux

/-- Reading on from any line of a text file comes to an end, whatever number of lines each page asks for, and it shows every line from
there on in full and in order just when the window of each page fits. -/
theorem read_file_complete_iff {E : Env} {text : Units} (hE : E.Holds text) (hnul : 0 ∉ text) (path : Units) (offset : Nat) :
    (∀ choose : Nat → Option Nat, ∃ readings, Walk E path offset readings ∧ ∀ r ∈ readings, r.maxLines = choose r.offset) ∧
      ∀ readings, Walk E path offset readings → (Complete E text offset readings ↔ ∀ r ∈ readings, r.Fits E text) := by
  refine ⟨fun choose => ReadFileAux.exists_walk hE hnul choose offset, fun readings h => ?_⟩
  have hread := ReadFileAux.read_of_mem_walk h
  constructor
  · intro hcomplete r hr
    exact (ReadFileAux.window_shown_iff hE hnul (hread r hr)).1 (hcomplete.shown r hr)
  · intro hfits
    exact
      { said := fun r hr n hn => ReadFileAux.said_of_read hE hnul (hread r hr) hn
        shown := fun r hr => (ReadFileAux.window_shown_iff hE hnul (hread r hr)).2 (hfits r hr)
        all := ReadFileAux.flatMap_window hE hnul h }

/-- The tool as it comes, over a file that holds a text. -/
def toolOver (text : Units) : Env where
  maxToolOutputChars := 30000
  defaultReadLines := 1500
  lower := id
  sed := fun first last => .ok (sedPrint text first last)
  wc := none

/-- A file of three lines, of which the last lacks its line feed, read a line at a time from the second one on. -/
theorem read_file_complete_iff_short :
    ∃ readings, Walk (toolOver [0x61, 0x0a, 0x62, 0x0a, 0x63]) [0x66] 2 readings ∧ readings.length = 2 ∧
      Complete (toolOver [0x61, 0x0a, 0x62, 0x0a, 0x63]) [0x61, 0x0a, 0x62, 0x0a, 0x63] 2 readings := by
  have hwalk : Walk (toolOver [0x61, 0x0a, 0x62, 0x0a, 0x63]) [0x66] 2
      [⟨2, some 1, ⟨[0x62], some ⟨2, 2, 3⟩, true⟩⟩, ⟨3, some 1, ⟨[0x63], none, false⟩⟩] :=
    .more (by decide +kernel) rfl (.last (by decide +kernel) rfl)
  refine ⟨_, hwalk, rfl, ((read_file_complete_iff (E := toolOver [0x61, 0x0a, 0x62, 0x0a, 0x63]) (fun _ _ => rfl) (by decide) [0x66] 2).2
    _ hwalk).2 ?_⟩
  intro r hr
  simp only [List.mem_cons, List.not_mem_nil, or_false] at hr
  rcases hr with rfl | rfl <;> exact .inl (by decide +kernel)

/-- A line of one character more than the ceiling, and another line. -/
def longLine : Units := List.replicate 30001 0x61 ++ 0x0a :: [0x62, 0x0a]

theorem fileLines_longLine : fileLines longLine = [List.replicate 30001 0x61, [0x62]] := by
  have hlast : longLine.getLast? = some 0x0a := by
    rw [longLine, List.getLast?_append_of_ne_nil _ (List.cons_ne_nil _ _)]
    rfl
  have hinit : longLine.dropLast = List.replicate 30001 0x61 ++ 0x0a :: [0x62] := by
    rw [longLine, List.dropLast_append_of_ne_nil (List.cons_ne_nil _ _)]
    rfl
  have hfree : (0x0a : UInt16) ∉ List.replicate 30001 0x61 := fun h => absurd (List.eq_of_mem_replicate h) (by decide)
  have hne : longLine ≠ [] := List.append_ne_nil_of_right_ne_nil _ (List.cons_ne_nil _ _)
  rw [fileLines, if_neg hne, if_pos hlast, hinit, List.splitOn_append_cons_self_of_not_mem hfree]
  rfl

/-- The first page of the file, of one line, leaves off the line's last character, and the next page begins behind the line. -/
theorem read_file_complete_false :
    ∃ readings, Walk (toolOver longLine) [0x66] 1 readings ∧ ¬Complete (toolOver longLine) longLine 1 readings := by
  have hnul : 0 ∉ longLine := by
    intro h
    rcases List.mem_append.1 h with h | h
    · exact absurd (List.eq_of_mem_replicate h) (by decide)
    · exact absurd h (by decide)
  have hE : (toolOver longLine).Holds longLine := fun _ _ => rfl
  obtain ⟨readings, hwalk, hchosen⟩ := @ReadFileAux.exists_walk longLine (toolOver longLine) [0x66] hE hnul (fun _ => some 1) 1
  refine ⟨readings, hwalk, fun hcomplete => ?_⟩
  obtain ⟨r, rest, rfl, hoffset⟩ : ∃ r rest, readings = r :: rest ∧ r.offset = 1 := by
    cases hwalk with
    | last => exact ⟨_, _, rfl, rfl⟩
    | more => exact ⟨_, _, rfl, rfl⟩
  have hread := ReadFileAux.read_of_mem_walk hwalk r List.mem_cons_self
  have hwindow : joinLines (r.window (toolOver longLine) longLine) = List.replicate 30001 0x61 := by
    rw [Reading.window, hoffset, hchosen r List.mem_cons_self, fileLines_longLine, show startLine (some 1) - 1 = 0 from rfl,
      show lineCount (toolOver longLine) (some 1) = 1 from rfl, List.drop_zero, List.take_succ_cons, List.take_zero, joinLines,
      List.intercalate_singleton]
  have hmax : (toolOver longLine).maxToolOutputChars = 30000 := rfl
  rcases (ReadFileAux.window_shown_iff hE hnul hread).1 (hcomplete.shown r List.mem_cons_self) with hle | ⟨tail, heq, -⟩
  · rw [hwindow, List.length_replicate, hmax] at hle
    omega
  · -- the remark begins with a line feed, and what the ceiling takes off is a letter
    have hhead : (r.remark (toolOver longLine) longLine).head? = some 0x0a := by
      unfold Reading.remark
      split <;> rfl
    rw [heq, hwindow, hmax, List.drop_replicate, Nat.add_sub_cancel_left 30000 1, List.replicate_one] at hhead
    exact absurd (Option.some.inj hhead) (by decide)

end ReadFile

end Capka

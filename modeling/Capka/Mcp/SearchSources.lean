import Capka.Lib.Json
import Capka.Lib.Lines
import Capka.Lib.Trim

/-!
# Search sources

The records of a connector's search result are recovered from whatever it sent and numbered, and the model reads each as a line that
begins with its number. What a web page wrote reaches these lines flattened, so it begins none of its own; the summary in front of them
is printed as a line, or several, of its own.
-/

namespace Capka

namespace SearchSources

open Ecma

/-- `URL`, as far as it is read. -/
structure Url where
  href : Units
  hostname : Units
  deriving DecidableEq

/-- `new URL` and `JSON.parse`; `none` is that it throws. -/
structure Libraries where
  parseUrl : Units → Option Url
  parseJson : Units → Option Json

structure SearchSourceRecord where
  title : Units
  url : Units
  snippet : Option Units
  date : Option Units
  deriving DecidableEq

structure NumberedSource extends SearchSourceRecord where
  n : Nat
  deriving DecidableEq

/-- What the extraction finds. -/
structure Found where
  records : List SearchSourceRecord
  preamble : Option Units
  deriving DecidableEq

def MAX_RECORDS : Nat := 20

def MAX_TITLE : Nat := 200

def MAX_SNIPPET : Nat := 400

def MAX_DATE : Nat := 40

def SEARCH_KEYS : List Units := ["results", "organic", "web", "news", "hits", "sources", "top_stories", "documents"].map ofString

def GENERIC_KEYS : List Units := ["data", "items"].map ofString

/-! ## Texts -/

/-- `.trim()`. -/
def trim (s : Units) : Units := Trim.trim isSpace s

/-- `.trimEnd()`. -/
def trimEnd (s : Units) : Units := s.rdropWhile isSpace

def clamp (s : Units) (n : Nat) : Units := if n < s.length then trimEnd (s.take (n - 1)) ++ [0x2026] else s

/-- Each run of a kind of units made one space; the first argument is whether a run goes on. -/
def squeeze (p : UInt16 → Bool) : Bool → Units → Units
  | _, [] => []
  | within, u :: rest =>
    if p u then if within then squeeze p true rest else 0x20 :: squeeze p true rest
    else u :: squeeze p false rest

/-- The units that `flat` makes a space. -/
def isBreaking (u : UInt16) : Bool := u ≤ 0x1f || u = 0x7f || u = 0x2028 || u = 0x2029

def flat (s : Units) : Units := trim (squeeze (fun u => u = 0x20) false (squeeze isBreaking false s))

/-- A small letter for a capital one, of the ASCII letters. -/
def lower (u : UInt16) : UInt16 := if 0x41 ≤ u && u ≤ 0x5a then u + 0x20 else u

/-- A text that is given is not empty. -/
def truthy (s : Option Units) : Option Units := s.filter fun s => s ≠ []

/-! ## Records -/

variable (L : Libraries)

/-- The member of the name. -/
def get (key : Units) (fields : List (Units × Json)) : Option Json := (fields.find? fun f => f.1 = key).map Prod.snd

/-- `httpUrl` of a text. -/
def httpUrl (s : Units) : Option Units :=
  let s := trim s
  if ofString "http://" <+: s.map lower ∨ ofString "https://" <+: s.map lower then
    match L.parseUrl s with
    | some u => if 0x2e ∈ u.hostname then some u.href else none
    | none => none
  else none

/-- `httpUrl` of a value. -/
def httpUrlOf : Option Json → Option Units
  | some (.str s) => httpUrl L s
  | _ => none

/-- `new URL(url).hostname`. -/
def hostname (url : Units) : Units := ((L.parseUrl url).map Url.hostname).getD []

/-- The texts of an array that has nothing else. -/
def stringItems : List Json → Option (List Units)
  | [] => some []
  | .str s :: items => (stringItems items).map (s :: ·)
  | _ :: _ => none

/-- What `pickString` takes of a value. -/
def pick : Json → Option Units
  | .str s => if trim s = [] then none else some (trim s)
  | .arr items =>
    if items = [] then none else (stringItems items).map fun texts => trim ((ofString " … ").intercalate texts)
  | _ => none

def pickString (fields : List (Units × Json)) (keys : List Units) : Option Units :=
  keys.findSome? fun k => (get k fields).bind pick

def record (title url : Units) (snippet date : Option Units) : SearchSourceRecord where
  title := clamp (flat title) MAX_TITLE
  url := url
  snippet := snippet.map fun s => clamp (flat s) MAX_SNIPPET
  date := date.map fun s => clamp (flat s) MAX_DATE

def recordFromObject : Json → Option SearchSourceRecord
  | .obj fields =>
    let url := ["url", "link", "href"].findSome? fun k => httpUrlOf L (get (ofString k) fields)
    url.map fun url =>
      let title := (pickString fields (["title", "name", "heading"].map ofString)).getD (hostname L url)
      let snippet := pickString fields (["description", "snippet", "content", "text", "summary", "highlights"].map ofString)
      let date := pickString fields
        (["published", "published_date", "publishedDate", "publication_date", "date", "published_time", "page_age"].map ofString)
      record title url (truthy snippet) (truthy date)
  | _ => none

/-- The loop of `recordsFromArray`. -/
def collect (strict : Bool) : List Json → List SearchSourceRecord → List SearchSourceRecord
  | [], records => records
  | entry :: entries, records =>
    match recordFromObject L entry with
    | none => collect strict entries records
    | some rec =>
      if (strict && (truthy rec.snippet).isNone) || records.any (fun r => r.url = rec.url) then collect strict entries records
      else if MAX_RECORDS ≤ (records ++ [rec]).length then records ++ [rec]
      else collect strict entries (records ++ [rec])

def recordsFromArray (arr : List Json) (strict : Bool) : Option (List SearchSourceRecord) :=
  let records := collect L strict arr []
  if arr.length < 2 ∨ records.length < 2 then none
  -- a coverage under 0.8
  else if strict ∧ records.length * 5 < min arr.length MAX_RECORDS * 4 then none
  else some records

/-- The summary of an API. -/
def answerOf (fields : List (Units × Json)) : Option Units :=
  match get (ofString "answer") fields with
  | some (.str s) => if trim s = [] then none else truthy (some (clamp (flat s) 800))
  | _ => none

/-- The array of a member under a wrapper key. -/
def recordsOfMember (f : Units × Json) : Option (List SearchSourceRecord) :=
  match f.2 with
  | .arr items =>
    let key := f.1.map lower
    if SEARCH_KEYS.contains key then recordsFromArray L items false
    else if GENERIC_KEYS.contains key then recordsFromArray L items true
    else none
  | _ => none

/-- `recordsFromJson`, with so many levels of objects left to descend. -/
def recordsFromJson : Nat → Json → Option Found
  | _, .arr items => (recordsFromArray L items true).map fun records => { records, preamble := none }
  | left + 1, .obj fields =>
    match fields.findSome? (recordsOfMember L) with
    | some records => some { records, preamble := answerOf fields }
    | none =>
      (fields.findSome? fun f => match f.2 with
        | .obj inner => recordsFromJson left (.obj inner)
        | _ => none).map fun found => { found with preamble := found.preamble.or (answerOf fields) }
  | _, _ => none

/-! ## Labelled text -/

/-- The labels of `LABEL_RE`, in its order; the longer of two that begin alike is tried first. -/
def LABELS : List Units :=
  ["title", "url", "link", "source", "published date", "published", "author", "content", "description", "snippet", "highlights",
    "highlight", "score", "id"].map ofString

/-- The units that `.` does not match. -/
def isLineBreak (u : UInt16) : Bool := u = 0x0a || u = 0x0d || u = 0x2028 || u = 0x2029

/-- `LABEL_RE`: the label, and the value behind the colon. -/
def labelOf (line : Units) : Option (Units × Units) :=
  LABELS.findSome? fun label =>
    if label <+: line.map lower then
      match (line.drop label.length).dropWhile isSpace with
      | 0x3a :: rest =>
        let value := rest.dropWhile isSpace
        if value.any isLineBreak then none else some (label, value)
      | _ => none
    else none

/-- A record as its lines come. -/
structure Open where
  title : Units
  url : Option Units
  snippet : List Units
  date : Option Units

def Open.flush (cur : Option Open) : List SearchSourceRecord :=
  match cur with
  | none => []
  | some cur =>
    match (truthy cur.url).bind (httpUrl L) with
    | none => []
    | some url =>
      let title := if cur.title = [] then hostname L url else cur.title
      [record title url (if cur.snippet = [] then none else some ([0x20].intercalate cur.snippet)) (truthy cur.date)]

/-- What the lines of a text have given so far. -/
structure Reading where
  records : List SearchSourceRecord
  preambleLines : List Units
  cur : Option Open

/-- A line of the text, trimmed and neither empty nor a rule. -/
def Reading.line (line : Units) (s : Reading) : Reading :=
  match labelOf line with
  | some (label, value) =>
    let val := trim value
    if label = ofString "title" then
      { s with records := s.records ++ Open.flush L s.cur, cur := some { title := val, url := none, snippet := [], date := none } }
    else
      match s.cur with
      | none => { s with preambleLines := s.preambleLines ++ [line] }
      | some cur =>
        if ([ofString "url", ofString "link", ofString "source"]).contains label then
          { s with cur := some { cur with url := cur.url.or (some val) } }
        else if ofString "published" <+: label then { s with cur := some { cur with date := cur.date.or (some val) } }
        else if ([ofString "content", ofString "description", ofString "snippet"]).contains label ∨ ofString "highlight" <+: label then
          { s with cur := some { cur with snippet := cur.snippet ++ [val] } }
        else s
  | none =>
    match s.cur with
    | some cur => { s with cur := some { cur with snippet := cur.snippet ++ [line] } }
    | none => { s with preambleLines := s.preambleLines ++ [line] }

/-- A line of dashes. -/
def isRule (line : Units) : Bool := 3 ≤ line.length && line.all fun u => u = 0x2d

def recordsFromLabeledText (text : Units) : Option Found :=
  let lines := ((text.splitOn 0x0a).map trim).filter fun line => line ≠ [] && !isRule line
  let s := lines.foldl (fun s line => Reading.line L line s) { records := [], preambleLines := [], cur := none }
  let records := s.records ++ Open.flush L s.cur
  if records.length < 2 ∨ MAX_RECORDS * 2 < records.length then none
  else
    let preamble := trim ([0x20].intercalate s.preambleLines)
    some { records := records.take MAX_RECORDS, preamble := (truthy (some preamble)).map fun p => clamp p 800 }

/-! ## A result -/

/-- A block of a result's content. -/
structure Block where
  type : Units
  text : Option Units

structure McpResultShape where
  content : List Block
  structuredContent : Option Json

/-- The texts of the text blocks that are not blank. -/
def McpResultShape.texts (result : McpResultShape) : List Units :=
  result.content.filterMap fun b => if b.type = ofString "text" then b.text.filter fun t => trim t ≠ [] else none

def perBlock : List Units → Option (List SearchSourceRecord)
  | [] => some []
  | t :: texts =>
    if (trim t).head? = some 0x7b then
      match (L.parseJson (trim t)).bind (recordFromObject L) with
      | some rec => (perBlock texts).map (rec :: ·)
      | none => none
    else none

/-- The JSON of a text that is one value. -/
def wholeJson (joined : Units) : Option Found :=
  match (joined.dropWhile isSpace).head? with
  | some 0x7b => (L.parseJson joined).bind (recordsFromJson L 3)
  | some 0x5b => (L.parseJson joined).bind (recordsFromJson L 3)
  | _ => none

def extractSearchRecords (result : McpResultShape) : Option Found :=
  match result.structuredContent.bind (recordsFromJson L 3) with
  | some found => some found
  | none =>
    if result.texts = [] then none
    else
      let blocks := if 2 ≤ result.texts.length then perBlock L result.texts else none
      match blocks with
      | some records => some { records := records.take MAX_RECORDS, preamble := none }
      | none =>
        let joined := [0x0a, 0x0a].intercalate result.texts
        match wholeJson L joined with
        | some found => some found
        | none => recordsFromLabeledText L joined

/-- The sources of a result, numbered on from `next`, and the preamble: what is attached to the output. -/
def numberSources (next : Nat) (result : McpResultShape) : Option (List NumberedSource × Option Units) :=
  (extractSearchRecords L result).bind fun found =>
    let records := found.records.take (10000 - next)
    if 2 ≤ records.length then some (records.mapIdx fun i r => { r with n := next + i }, truthy found.preamble) else none

/-! ## The text -/

def NumberedSource.line (s : NumberedSource) : Units :=
  0x5b :: (decimal s.n ++ ofString "] " ++ s.title ++ ofString " — " ++ s.url ++
    match truthy s.date with
    | some date => ofString " (" ++ date ++ ofString ")"
    | none => [])

/-- A source as it is printed. -/
def NumberedSource.print (s : NumberedSource) : Units :=
  s.line ++
    match truthy s.snippet with
    | some snippet => 0x0a :: (ofString "    " ++ snippet)
    | none => []

/-- The line above the sources. -/
def headline : Units := ofString "Search results — when your answer uses one, cite it inline as [N] right after the claim:"

def sourcesModelText (sources : List NumberedSource) (preamble : Option Units) : Units :=
  [0x0a, 0x0a].intercalate ((truthy preamble).toList ++ headline :: sources.map NumberedSource.print)

/-! ## What is promised -/

def lines (text : Units) : List Units := text.splitOnP isLineBreak

/-- A line that begins with a number in brackets and a space. -/
def isCitation : Units → Bool
  | 0x5b :: rest =>
    let digits := rest.takeWhile fun u => 0x30 ≤ u && u ≤ 0x39
    digits ≠ [] && decide (ofString "] " <+: rest.drop digits.length)
  | _ => false

/-- The lines of a text that read as sources. -/
def citations (text : Units) : List Units := (lines text).filter isCitation

/-- A URL is serialized on one line. -/
def Libraries.OneLine (L : Libraries) : Prop := ∀ s u, L.parseUrl s = some u → ∀ x ∈ u.href, isLineBreak x = false

namespace SearchSourcesAux

/-! ### Texts on one line -/

/-- A text without a line break. -/
def OneLine (s : Units) : Prop := ∀ u ∈ s, isLineBreak u = false

theorem isLineBreak_of_not_breaking {u : UInt16} (h : isBreaking u = false) : isLineBreak u = false := by
  rw [Bool.eq_false_iff] at h ⊢
  intro hbreak
  simp only [isLineBreak, Bool.or_eq_true, decide_eq_true_eq] at hbreak
  rcases hbreak with ((rfl | rfl) | rfl) | rfl <;> exact h (by decide)

theorem mem_squeeze {p : UInt16 → Bool} {within : Bool} {s : Units} {u : UInt16} (h : u ∈ squeeze p within s) :
    u = 0x20 ∨ (u ∈ s ∧ p u = false) := by
  induction s generalizing within with
  | nil => cases h
  | cons v rest ih =>
    have hrest : ∀ {w : Bool}, u ∈ squeeze p w rest → u = 0x20 ∨ (u ∈ v :: rest ∧ p u = false) := fun h =>
      (ih h).imp_right fun h => ⟨List.mem_cons_of_mem _ h.1, h.2⟩
    rw [squeeze] at h
    split at h
    · split at h
      · exact hrest h
      · rcases List.mem_cons.1 h with rfl | h
        · exact .inl rfl
        · exact hrest h
    · rename_i hv
      rcases List.mem_cons.1 h with rfl | h
      · exact .inr ⟨List.mem_cons_self, by simpa using hv⟩
      · exact hrest h

theorem oneLine_flat (s : Units) : OneLine (flat s) := by
  intro u hu
  rcases mem_squeeze (Trim.mem_of_mem_trim hu) with rfl | ⟨hu, -⟩
  · decide
  rcases mem_squeeze hu with rfl | ⟨-, hu⟩
  · decide
  · exact isLineBreak_of_not_breaking hu

theorem oneLine_clamp {s : Units} (h : OneLine s) (n : Nat) : OneLine (clamp s n) := by
  unfold clamp
  split
  · intro u hu
    rcases List.mem_append.1 hu with hu | hu
    · exact h u (List.mem_of_mem_take ((List.rdropWhile_prefix _ _).subset hu))
    · rw [List.mem_singleton.1 hu]
      decide
  · exact h

theorem oneLine_append {s t : Units} (hs : OneLine s) (ht : OneLine t) : OneLine (s ++ t) :=
  fun u hu => (List.mem_append.1 hu).elim (hs u) (ht u)

theorem oneLine_decimal (n : Nat) : OneLine (decimal n) := by
  intro u hu
  have hbounds := decimal_bounds hu
  rw [Bool.eq_false_iff]
  intro hbreak
  simp only [isLineBreak, Bool.or_eq_true, decide_eq_true_eq] at hbreak
  rcases hbreak with ((rfl | rfl) | rfl) | rfl <;> exact absurd hbounds (by decide)

theorem oneLine_of_all {s : Units} (h : s.all (fun u => !isLineBreak u) = true) : OneLine s := by
  intro u hu
  simpa using List.all_eq_true.1 h u hu

/-! ### Records on one line -/

/-- Every text of a record is on one line. -/
structure Flat (r : SearchSourceRecord) : Prop where
  title : OneLine r.title
  url : OneLine r.url
  snippet : ∀ s ∈ r.snippet, OneLine s
  date : ∀ s ∈ r.date, OneLine s

variable {L : Libraries}

theorem flat_record (title : Units) {url : Units} (snippet date : Option Units) (hurl : OneLine url) :
    Flat (record title url snippet date) where
  title := oneLine_clamp (oneLine_flat _) _
  url := hurl
  snippet := by
    intro s hs
    obtain ⟨t, -, rfl⟩ := Option.map_eq_some_iff.1 hs
    exact oneLine_clamp (oneLine_flat _) _
  date := by
    intro s hs
    obtain ⟨t, -, rfl⟩ := Option.map_eq_some_iff.1 hs
    exact oneLine_clamp (oneLine_flat _) _

theorem oneLine_httpUrl (hL : L.OneLine) {s url : Units} (h : httpUrl L s = some url) : OneLine url := by
  simp only [httpUrl] at h
  split at h
  · split at h
    · rename_i u hu
      split at h
      · obtain rfl := Option.some.inj h
        exact hL _ u hu
      · cases h
    · cases h
  · cases h

theorem flat_recordFromObject (hL : L.OneLine) {o : Json} {r : SearchSourceRecord} (h : recordFromObject L o = some r) : Flat r := by
  cases o with
  | obj fields =>
    simp only [recordFromObject] at h
    obtain ⟨url, hurl, rfl⟩ := Option.map_eq_some_iff.1 h
    obtain ⟨k, -, hk⟩ := List.exists_of_findSome?_eq_some hurl
    refine flat_record _ _ _ ?_
    unfold httpUrlOf at hk
    split at hk
    · exact oneLine_httpUrl hL hk
    · cases hk
  | null => cases h
  | bool b => cases h
  | num n => cases h
  | str s => cases h
  | arr items => cases h

theorem flat_collect (hL : L.OneLine) (strict : Bool) (entries : List Json) : ∀ records : List SearchSourceRecord, (∀ r ∈ records, Flat r) →
    ∀ r ∈ collect L strict entries records, Flat r := by
  induction entries with
  | nil => exact fun records h => h
  | cons entry entries ih =>
    intro records h
    rw [collect]
    split
    · exact ih records h
    · rename_i rec hrec
      have hsnoc : ∀ r ∈ records ++ [rec], Flat r := fun r hr =>
        (List.mem_append.1 hr).elim (h r) fun hr => List.mem_singleton.1 hr ▸ flat_recordFromObject hL hrec
      split
      · exact ih records h
      · split
        · exact hsnoc
        · exact ih _ hsnoc

theorem flat_recordsFromArray (hL : L.OneLine) {arr : List Json} {strict : Bool} {records : List SearchSourceRecord}
    (h : recordsFromArray L arr strict = some records) : ∀ r ∈ records, Flat r := by
  simp only [recordsFromArray] at h
  split at h
  · cases h
  · split at h
    · cases h
    · obtain rfl := Option.some.inj h
      exact flat_collect hL strict arr [] fun r hr => absurd hr List.not_mem_nil

theorem flat_recordsFromJson (hL : L.OneLine) : ∀ (left : Nat) (v : Json) (found : Found), recordsFromJson L left v = some found →
    ∀ r ∈ found.records, Flat r := by
  intro left
  induction left with
  | zero =>
    intro v found h
    cases v with
    | arr items =>
      obtain ⟨records, hrecords, rfl⟩ := Option.map_eq_some_iff.1 h
      exact flat_recordsFromArray hL hrecords
    | null | bool | num | str | obj => cases h
  | succ left ih =>
    intro v found h
    cases v with
    | arr items =>
      obtain ⟨records, hrecords, rfl⟩ := Option.map_eq_some_iff.1 h
      exact flat_recordsFromArray hL hrecords
    | obj fields =>
      simp only [recordsFromJson] at h
      split at h
      · rename_i records hrecords
        obtain rfl := Option.some.inj h
        obtain ⟨f, -, hf⟩ := List.exists_of_findSome?_eq_some hrecords
        unfold recordsOfMember at hf
        split at hf
        · dsimp only at hf
          split at hf
          · exact flat_recordsFromArray hL hf
          · split at hf
            · exact flat_recordsFromArray hL hf
            · cases hf
        · cases hf
      · obtain ⟨inner, hinner, rfl⟩ := Option.map_eq_some_iff.1 h
        obtain ⟨f, -, hf⟩ := List.exists_of_findSome?_eq_some hinner
        split at hf
        · exact ih _ inner hf
        · cases hf
    | null | bool | num | str => cases h

theorem flat_flush (hL : L.OneLine) (cur : Option Open) : ∀ r ∈ Open.flush L cur, Flat r := by
  intro r hr
  unfold Open.flush at hr
  split at hr
  · cases hr
  · split at hr
    · cases hr
    · rename_i url hurl
      obtain rfl := List.mem_singleton.1 hr
      obtain ⟨s, -, hs⟩ := Option.bind_eq_some_iff.1 hurl
      exact flat_record _ _ _ (oneLine_httpUrl hL hs)

theorem flat_line (hL : L.OneLine) (line : Units) {s : Reading} (h : ∀ r ∈ s.records, Flat r) :
    ∀ r ∈ (Reading.line L line s).records, Flat r := by
  unfold Reading.line
  split
  · dsimp only
    split
    · intro r hr
      exact (List.mem_append.1 hr).elim (h r) (flat_flush hL s.cur r)
    · split
      · exact h
      · split
        · exact h
        · split
          · exact h
          · split
            · exact h
            · exact h
  · split
    · exact h
    · exact h

theorem flat_recordsFromLabeledText (hL : L.OneLine) {text : Units} {found : Found} (h : recordsFromLabeledText L text = some found) :
    ∀ r ∈ found.records, Flat r := by
  have hfold : ∀ (lines : List Units) (s : Reading), (∀ r ∈ s.records, Flat r) →
      ∀ r ∈ (lines.foldl (fun s line => Reading.line L line s) s).records, Flat r := by
    intro lines
    induction lines with
    | nil => exact fun s h => h
    | cons line lines ih => exact fun s h => ih _ (flat_line hL line h)
  simp only [recordsFromLabeledText] at h
  split at h
  · cases h
  · obtain rfl := Option.some.inj h
    intro r hr
    rcases List.mem_append.1 (List.mem_of_mem_take hr) with hr | hr
    · exact hfold _ _ (fun r hr => absurd hr List.not_mem_nil) r hr
    · exact flat_flush hL _ r hr

theorem flat_perBlock (hL : L.OneLine) : ∀ (texts : List Units) (records : List SearchSourceRecord), perBlock L texts = some records →
    ∀ r ∈ records, Flat r := by
  intro texts
  induction texts with
  | nil =>
    intro records h
    obtain rfl := Option.some.inj h
    exact fun r hr => absurd hr List.not_mem_nil
  | cons t texts ih =>
    intro records h
    rw [perBlock] at h
    split at h
    · split at h
      · rename_i rec hrec
        obtain ⟨rest, hrest, rfl⟩ := Option.map_eq_some_iff.1 h
        obtain ⟨v, -, hv⟩ := Option.bind_eq_some_iff.1 hrec
        intro r hr
        rcases List.mem_cons.1 hr with rfl | hr
        · exact flat_recordFromObject hL hv
        · exact ih rest hrest r hr
      · cases h
    · cases h

theorem flat_extractSearchRecords (hL : L.OneLine) {result : McpResultShape} {found : Found}
    (h : extractSearchRecords L result = some found) : ∀ r ∈ found.records, Flat r := by
  unfold extractSearchRecords at h
  split at h
  · rename_i found' hfound
    obtain rfl := Option.some.inj h
    obtain ⟨v, -, hv⟩ := Option.bind_eq_some_iff.1 hfound
    exact flat_recordsFromJson hL 3 v found' hv
  · split at h
    · cases h
    dsimp only at h
    split at h
    · rename_i records hrecords
      obtain rfl := Option.some.inj h
      split at hrecords
      · exact fun r hr => flat_perBlock hL _ records hrecords r (List.mem_of_mem_take hr)
      · cases hrecords
    · split at h
      · rename_i found' hfound
        obtain rfl := Option.some.inj h
        unfold wholeJson at hfound
        split at hfound
        · obtain ⟨v, -, hv⟩ := Option.bind_eq_some_iff.1 hfound
          exact flat_recordsFromJson hL 3 v found' hv
        · obtain ⟨v, -, hv⟩ := Option.bind_eq_some_iff.1 hfound
          exact flat_recordsFromJson hL 3 v found' hv
        · cases hfound
      · exact flat_recordsFromLabeledText hL h

/-! ### The text -/

theorem citations_append (s t : Units) : citations (s ++ 0x0a :: t) = citations s ++ citations t := by
  rw [citations, lines, List.splitOnP_append_cons _ _ (by decide), List.filter_append]
  rfl

theorem citations_nil : citations [] = [] := rfl

theorem citations_intercalate (parts : List Units) : citations ([0x0a, 0x0a].intercalate parts) = parts.flatMap citations := by
  induction parts with
  | nil => rfl
  | cons part parts ih =>
    cases parts with
    | nil => rw [List.intercalate_singleton, List.flatMap_cons, List.flatMap_nil, List.append_nil]
    | cons part' parts =>
      rw [List.intercalate_cons_cons, List.append_assoc, List.cons_append, citations_append, List.singleton_append,
        ← List.nil_append (0x0a :: _), citations_append, citations_nil, ih, List.nil_append, List.flatMap_cons (x := part)]

theorem citations_oneLine {s : Units} (h : OneLine s) : citations s = if isCitation s then [s] else [] := by
  rw [citations, lines, List.splitOnP_eq_singleton h]
  cases hs : isCitation s with
  | true => simp [hs]
  | false => simp [hs]

theorem isCitation_number (n : Nat) (rest : Units) : isCitation (0x5b :: (decimal n ++ ofString "] " ++ rest)) = true := by
  have hdigits : (decimal n ++ (ofString "] " ++ rest)).takeWhile (fun u => 0x30 ≤ u && u ≤ 0x39) = decimal n := by
    rw [List.takeWhile_append_of_pos fun u hu => ?_]
    · exact List.append_nil _
    · have hbounds := decimal_bounds hu
      rw [Bool.and_eq_true, decide_eq_true_eq, decide_eq_true_eq, UInt16.le_iff_toNat_le, UInt16.le_iff_toNat_le]
      exact hbounds
  have hne : decimal n ≠ [] := by
    rw [decimal, Ne, List.map_eq_nil_iff]
    exact Nat.toDigits_ne_nil
  rw [List.append_assoc, isCitation]
  simp only [hdigits, List.drop_left, List.prefix_append, decide_true, Bool.and_true, decide_eq_true_eq]
  exact hne

theorem citations_print {s : NumberedSource} (h : Flat s.toSearchSourceRecord) : citations s.print = [s.line] := by
  have hdate : OneLine (match truthy s.date with
      | some date => ofString " (" ++ date ++ ofString ")"
      | none => []) := by
    split
    · rename_i date hd
      have hmem : date ∈ s.date := (Option.filter_eq_some_iff.1 hd).1
      exact oneLine_append (oneLine_append (oneLine_of_all (by decide +kernel)) (h.date date hmem)) (oneLine_of_all (by decide +kernel))
    · exact fun u hu => absurd hu List.not_mem_nil
  have hline : OneLine s.line := by
    intro u hu
    rcases List.mem_cons.1 hu with rfl | hu
    · decide
    · exact oneLine_append (oneLine_append (oneLine_append (oneLine_append (oneLine_append (oneLine_decimal s.n)
        (oneLine_of_all (by decide +kernel))) h.title) (oneLine_of_all (by decide +kernel))) h.url) hdate u hu
  have hcitation : isCitation s.line = true := by
    rw [NumberedSource.line, List.append_assoc, List.append_assoc, List.append_assoc]
    exact isCitation_number s.n _
  have hone : citations s.line = [s.line] := by rw [citations_oneLine hline, if_pos hcitation]
  unfold NumberedSource.print
  split
  · rename_i snippet hsnippet
    have hmem : snippet ∈ s.snippet := (Option.filter_eq_some_iff.1 hsnippet).1
    have hflat : OneLine (ofString "    " ++ snippet) := oneLine_append (oneLine_of_all (by decide +kernel)) (h.snippet snippet hmem)
    rw [citations_append, hone, citations_oneLine hflat]
    rfl
  · rw [List.append_nil, hone]

theorem citations_sourcesModelText {sources : List NumberedSource} (h : ∀ s ∈ sources, Flat s.toSearchSourceRecord)
    (preamble : Option Units) :
    citations (sourcesModelText sources preamble) =
      (truthy preamble).toList.flatMap citations ++ sources.map NumberedSource.line := by
  have hheadline : citations headline = [] := by decide +kernel
  have hsources : (sources.map NumberedSource.print).flatMap citations = sources.map NumberedSource.line := by
    induction sources with
    | nil => rfl
    | cons s sources ih =>
      rw [List.map_cons, List.flatMap_cons, citations_print (h s List.mem_cons_self), ih fun t ht => h t (List.mem_cons_of_mem _ ht)]
      rfl
  rw [sourcesModelText, citations_intercalate, List.flatMap_append, List.flatMap_cons, hheadline, List.nil_append, hsources]

theorem flat_numberSources (hL : L.OneLine) {next : Nat} {result : McpResultShape} {sources : List NumberedSource}
    {preamble : Option Units} (h : numberSources L next result = some (sources, preamble)) :
    ∀ s ∈ sources, Flat s.toSearchSourceRecord := by
  obtain ⟨found, hfound, h⟩ := Option.bind_eq_some_iff.1 h
  dsimp only at h
  split at h
  · obtain ⟨rfl, -⟩ := Prod.mk.inj (Option.some.inj h)
    intro s hs
    obtain ⟨i, hi, rfl⟩ := List.mem_mapIdx.1 hs
    exact flat_extractSearchRecords hL hfound _ (List.mem_of_mem_take (List.getElem_mem hi))
  · cases h

end SearchSourcesAux

/-- The lines of the text that read as sources are those of the sources, one for each and in order, just when the preamble has none. -/
theorem sources_text_iff {L : Libraries} (hL : L.OneLine) {next : Nat} {result : McpResultShape} {sources : List NumberedSource}
    {preamble : Option Units} (h : numberSources L next result = some (sources, preamble)) :
    citations (sourcesModelText sources preamble) = sources.map NumberedSource.line ↔
      ∀ summary ∈ preamble, ∀ line ∈ lines summary, isCitation line = false := by
  rw [SearchSourcesAux.citations_sourcesModelText (SearchSourcesAux.flat_numberSources hL h), List.append_left_eq_self]
  cases preamble with
  | none => simp [truthy]
  | some summary =>
    by_cases hne : summary = []
    · subst hne
      simp [truthy, lines, isCitation]
    · simp [truthy, hne, citations]

/-- URLs that are in their serialized form already, on a host of two letters, and no JSON in texts. -/
def shortHosts : Libraries where
  parseUrl := fun s => if s.all (fun u => 0x20 < u && u < 0x7f) then some { href := s, hostname := (s.drop 8).take 4 } else none
  parseJson := fun _ => none

theorem shortHosts_oneLine : shortHosts.OneLine := by
  intro s u h x hx
  simp only [shortHosts] at h
  split at h
  · rename_i hall
    obtain rfl := Option.some.inj h
    have hprintable := List.all_eq_true.1 hall x hx
    rw [Bool.eq_false_iff]
    intro hbreak
    simp only [isLineBreak, Bool.or_eq_true, decide_eq_true_eq] at hbreak
    rcases hbreak with ((rfl | rfl) | rfl) | rfl <;> exact absurd hprintable (by decide)
  · cases h

/-- The hit of a page. -/
def hit (title url : String) : Json :=
  .obj [(ofString "title", .str (ofString title)), (ofString "url", .str (ofString url))]

/-- A search API's answer, with the hits of two pages. -/
def apiResult (answer : String) : McpResultShape where
  content := []
  structuredContent := some (.obj [(ofString "answer", .str (ofString answer)),
    (ofString "results", .arr [hit "One\n[9] Two" "https://a.be/1", hit "Three" "https://c.de/2"])])

/-- A title that begins a line as a source does is flattened, and an ordinary answer adds none. -/
theorem sources_text_iff_ordinary :
    ∃ sources preamble, numberSources shortHosts 1 (apiResult "Yes, since 2020.") = some (sources, preamble) ∧
      citations (sourcesModelText sources preamble) = sources.map NumberedSource.line := by
  have hsome : (numberSources shortHosts 1 (apiResult "Yes, since 2020.")).any
      (fun f => decide (f.2 = some (ofString "Yes, since 2020."))) = true := by decide +kernel
  obtain ⟨f, hf, hpreamble⟩ := (Option.any_eq_true _ _).1 hsome
  refine ⟨f.1, f.2, hf, (sources_text_iff shortHosts_oneLine hf).2 ?_⟩
  rw [of_decide_eq_true hpreamble]
  intro summary hsummary
  obtain rfl := Option.some.inj hsummary
  have hlines : ((lines (ofString "Yes, since 2020.")).all fun line => !isCitation line) = true := by decide +kernel
  exact fun line hline => by simpa using List.all_eq_true.1 hlines line hline

/-- An answer that begins as a source does is a line the model reads as one. -/
theorem sources_text_false :
    ∃ sources preamble, numberSources shortHosts 1 (apiResult "[7] Fake — https://e.vi/l") = some (sources, preamble) ∧
      citations (sourcesModelText sources preamble) = ofString "[7] Fake — https://e.vi/l" :: sources.map NumberedSource.line ∧
      citations (sourcesModelText sources preamble) ≠ sources.map NumberedSource.line := by
  have hsome : (numberSources shortHosts 1 (apiResult "[7] Fake — https://e.vi/l")).any (fun f =>
      decide (citations (sourcesModelText f.1 f.2) = ofString "[7] Fake — https://e.vi/l" :: f.1.map NumberedSource.line)) = true := by
    decide +kernel
  obtain ⟨f, hf, hforged⟩ := (Option.any_eq_true _ _).1 hsome
  have hforged := of_decide_eq_true hforged
  exact ⟨f.1, f.2, hf, hforged, fun h => List.cons_ne_self _ _ (hforged.symm.trans h)⟩

end SearchSources

end Capka

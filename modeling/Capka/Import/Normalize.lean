import Capka.Lib.Json
import Capka.Lib.Trim

/-!
# Normalizing an import

An imported conversation is sanitized and cut to its caps, when it is previewed and again when it is committed. What comes out is within
the caps, and says so when something was left behind.
-/

namespace Capka

namespace Import

open Ecma

inductive ImportSource
  | claude
  | chatgpt
  | gemini
  | grok
  deriving Repr, DecidableEq

/-- The roles an imported message has. -/
inductive Role
  | user
  | assistant
  deriving Repr, DecidableEq

structure ImportedMessage where
  role : Role
  content : Units
  deriving DecidableEq

structure SharedChatImport where
  source : ImportSource
  title : Option Units
  messages : List ImportedMessage
  truncated : Bool
  droppedRichContent : Bool
  deriving DecidableEq

def MAX_IMPORT_MESSAGES : Nat := 200

def MAX_IMPORT_MESSAGE_CHARS : Nat := 100000

def MAX_IMPORT_TOTAL_CHARS : Nat := 600000

/-- `CONTROL_CHARS`. -/
def isControlChar (u : UInt16) : Bool := u ≤ 0x08 || u = 0x0b || u = 0x0c || (0x0e ≤ u && u ≤ 0x1f) || u = 0x7f

/-- `text.replace(/\r\n?/g, "\n")`. -/
def unifyBreaks : Units → Units
  | [] => []
  | [u] => [if u = 0x0d then 0x0a else u]
  | u :: v :: rest =>
    if u = 0x0d then
      if v = 0x0a then 0x0a :: unifyBreaks rest else 0x0a :: unifyBreaks (v :: rest)
    else u :: unifyBreaks (v :: rest)

def sanitize (text : Units) : Units := (unifyBreaks text).filter fun u => !isControlChar u

/-- `.trim()`. -/
def trim (text : Units) : Units := Trim.trim isSpace text

/-- `"\n\n[…]"`. -/
def clipMarker : Units := [0x0a, 0x0a, 0x5b, 0x2026, 0x5d]

/-- A message that is too long is cut and marked. -/
def clip (content : Units) : Units :=
  if MAX_IMPORT_MESSAGE_CHARS < content.length then content.take MAX_IMPORT_MESSAGE_CHARS ++ clipMarker else content

/-- The loop of `normalizeImport` over the messages that are left. -/
def keepMessages : List ImportedMessage → (out : List ImportedMessage) → (total : Nat) → (truncated : Bool) → List ImportedMessage × Bool
  | [], out, _, truncated => (out, truncated)
  | m :: messages, out, total, truncated =>
    if MAX_IMPORT_MESSAGES ≤ out.length then (out, true)
    else
      let content := trim (sanitize m.content)
      if content = [] then keepMessages messages out total truncated
      else
        let clipped := clip content
        let truncated := truncated || decide (MAX_IMPORT_MESSAGE_CHARS < content.length)
        if MAX_IMPORT_TOTAL_CHARS < total + clipped.length then (out, true)
        else keepMessages messages (out ++ [{ role := m.role, content := clipped }]) (total + clipped.length) truncated

/-- The first message is the user's: what comes before is dropped. -/
def fromFirstUser (out : List ImportedMessage) (truncated : Bool) : List ImportedMessage × Bool :=
  match out.findIdx? fun m => m.role = .user with
  | none => ([], truncated || decide (0 < out.length))
  | some firstUser => (out.drop firstUser, truncated || decide (0 < firstUser))

/-- The title, `null` when nothing is left of it. -/
def normalizeTitle (title : Option Units) : Option Units :=
  match title with
  | none => none
  | some title =>
    let kept := (trim (sanitize title)).take 200
    if kept = [] then none else some kept

def normalizeImport (imp : SharedChatImport) : SharedChatImport :=
  let kept := keepMessages imp.messages [] 0 imp.truncated
  let fromUser := fromFirstUser kept.1 kept.2
  { source := imp.source
    title := normalizeTitle imp.title
    messages := fromUser.1
    truncated := fromUser.2
    droppedRichContent := imp.droppedRichContent }

/-! ## What is promised -/

/-- No control character but tab and line feed. -/
def Printable (text : Units) : Prop := ∀ u ∈ text, u < 0x20 ∨ u = 0x7f → u = 0x09 ∨ u = 0x0a

/-- The characters of the messages. -/
def totalChars (messages : List ImportedMessage) : Nat := (messages.map fun m => m.content.length).sum

/-- An import within the caps. -/
structure SharedChatImport.Valid (imp : SharedChatImport) : Prop where
  messages : imp.messages.length ≤ MAX_IMPORT_MESSAGES
  user : ∀ m ∈ imp.messages.head?, m.role = .user
  nonempty : ∀ m ∈ imp.messages, m.content ≠ []
  printable : ∀ m ∈ imp.messages, Printable m.content
  total : totalChars imp.messages ≤ MAX_IMPORT_TOTAL_CHARS
  title : ∀ title ∈ imp.title, Printable title

/-- The messages of an import that are not blank, sanitized. -/
def SharedChatImport.whole (imp : SharedChatImport) : List ImportedMessage :=
  (imp.messages.map fun m => { m with content := trim (sanitize m.content) }).filter fun m => m.content ≠ []

/-- The title is within 200 units, or the cut there leaves no white space at its end. -/
def TitleFits (imp : SharedChatImport) : Prop :=
  ∀ title ∈ imp.title, (trim (sanitize title)).length ≤ 200 ∨ ∀ u ∈ (trim (sanitize title))[199]?, isSpace u = false

namespace NormalizeAux

/-! ### Sanitizing -/

/-- What `sanitize` leaves: no control character and no carriage return. -/
def Clean (text : Units) : Prop := ∀ u ∈ text, isControlChar u = false ∧ u ≠ 0x0d

theorem mem_unifyBreaks {text : Units} {u : UInt16} (h : u ∈ unifyBreaks text) : u ≠ 0x0d := by
  fun_induction unifyBreaks text with
  | case1 => cases h
  | case2 v =>
    obtain rfl := List.mem_singleton.1 h
    split
    · decide
    · assumption
  | case3 rest ih =>
    rcases List.mem_cons.1 h with rfl | h
    · decide
    · exact ih h
  | case4 w rest hw ih =>
    rcases List.mem_cons.1 h with rfl | h
    · decide
    · exact ih h
  | case5 v w rest hv ih =>
    rcases List.mem_cons.1 h with rfl | h
    · exact hv
    · exact ih h

theorem unifyBreaks_eq_self {text : Units} (h : ∀ u ∈ text, u ≠ 0x0d) : unifyBreaks text = text := by
  fun_induction unifyBreaks text with
  | case1 => rfl
  | case2 v => rw [if_neg (h v List.mem_cons_self)]
  | case3 rest ih => exact absurd rfl (h _ List.mem_cons_self)
  | case4 w rest hw ih => exact absurd rfl (h _ List.mem_cons_self)
  | case5 v w rest hv ih => rw [ih fun u hu => h u (List.mem_cons_of_mem _ hu)]

theorem clean_sanitize (text : Units) : Clean (sanitize text) := by
  intro u hu
  obtain ⟨hmem, hu⟩ := List.mem_filter.1 hu
  exact ⟨by simpa using hu, mem_unifyBreaks hmem⟩

theorem sanitize_of_clean {text : Units} (h : Clean text) : sanitize text = text := by
  rw [sanitize, unifyBreaks_eq_self fun u hu => (h u hu).2, List.filter_eq_self]
  intro u hu
  rw [(h u hu).1, Bool.not_false]

theorem clean_of_subset {s t : Units} (h : Clean t) (hs : ∀ u ∈ s, u ∈ t) : Clean s := fun u hu => h u (hs u hu)

theorem printable_of_clean {text : Units} (h : Clean text) : Printable text := by
  intro u hu hcontrol
  obtain ⟨hno, hcr⟩ := h u hu
  simp only [isControlChar, Bool.or_eq_false_iff, Bool.and_eq_false_imp, decide_eq_false_iff_not, decide_eq_true_eq] at hno
  have hn : ∀ {v : UInt16}, u = v ↔ u.toNat = v.toNat := fun {v} => ⟨fun h => h ▸ rfl, UInt16.toNat_inj.1⟩
  simp only [hn, UInt16.le_iff_toNat_le, UInt16.lt_iff_toNat_lt, ne_eq] at hno hcr hcontrol ⊢
  simp at hno hcr hcontrol ⊢
  omega

/-! ### The messages -/

/-- What a kept message is: clean, bare, not empty, and within the cap or cut at it. -/
structure Kept (content : Units) : Prop where
  clean : Clean content
  bare : Trim.Bare isSpace content
  nonempty : content ≠ []
  size : content.length ≤ MAX_IMPORT_MESSAGE_CHARS ∨
    ∃ cut : Units, cut.length = MAX_IMPORT_MESSAGE_CHARS ∧ content = cut ++ clipMarker

/-- A message that was not cut. -/
def Fits (content : Units) : Prop := content.length ≤ MAX_IMPORT_MESSAGE_CHARS

theorem clipMarker_clean : Clean clipMarker := by
  intro u hu
  have hall : clipMarker.all (fun u => !isControlChar u && decide (u ≠ 0x0d)) = true := by decide
  simpa using List.all_eq_true.1 hall u hu

theorem clipMarker_last : ∀ u ∈ clipMarker.getLast?, isSpace u = false := by
  intro u hu
  obtain rfl : 0x5d = u := Option.some.inj hu
  rfl

theorem kept_clip {text : Units} (hne : trim (sanitize text) ≠ []) : Kept (clip (trim (sanitize text))) := by
  have hclean : Clean (trim (sanitize text)) := clean_of_subset (clean_sanitize text) fun u hu => Trim.mem_of_mem_trim hu
  have hbare : Trim.Bare isSpace (trim (sanitize text)) := Trim.bare_trim isSpace _
  unfold clip
  split
  · rename_i hlong
    have hcut : ((trim (sanitize text)).take MAX_IMPORT_MESSAGE_CHARS).length = MAX_IMPORT_MESSAGE_CHARS := by
      rw [List.length_take]
      omega
    constructor
    · intro u hu
      rcases List.mem_append.1 hu with hu | hu
      · exact hclean u (List.mem_of_mem_take hu)
      · exact clipMarker_clean u hu
    · refine Trim.bare_append (Trim.head_of_prefix (List.take_prefix _ _) hbare.head) (fun h => ?_) clipMarker_last
        (List.cons_ne_nil _ _)
      rw [h, List.length_nil] at hcut
      exact absurd hcut.symm (Nat.succ_ne_zero _)
    · exact List.append_ne_nil_of_right_ne_nil _ (List.cons_ne_nil _ _)
    · exact .inr ⟨_, hcut, rfl⟩
  · rename_i hshort
    exact ⟨hclean, hbare, hne, .inl (not_lt.1 hshort)⟩

theorem clip_of_kept {content : Units} (h : Kept content) : trim (sanitize content) = content ∧ clip content = content := by
  have htrim : trim (sanitize content) = content := by
    rw [sanitize_of_clean h.clean]
    exact Trim.trim_eq_self_iff.2 h.bare
  refine ⟨htrim, ?_⟩
  unfold clip
  rcases h.size with hshort | ⟨cut, hcut, rfl⟩
  · rw [if_neg (not_lt.2 hshort)]
  · have hlong : MAX_IMPORT_MESSAGE_CHARS < (cut ++ clipMarker).length := by
      rw [List.length_append, hcut]
      exact Nat.lt_add_of_pos_right (by decide)
    rw [if_pos hlong, List.take_append_of_le_length hcut.ge, List.take_of_length_le hcut.le]

/-- What the loop keeps: within the caps, and whole where it says so. -/
structure Loop (messages out : List ImportedMessage) (truncated : Bool) (result : List ImportedMessage × Bool) : Prop where
  length : result.1.length ≤ MAX_IMPORT_MESSAGES
  total : totalChars result.1 ≤ MAX_IMPORT_TOTAL_CHARS
  kept : ∀ m ∈ result.1, Kept m.content
  fits : result.2 = false → ∀ m ∈ result.1, Fits m.content
  monotone : truncated = true → result.2 = true
  whole : result.2 = false → result.1 = out ++
    (messages.map fun m => { m with content := trim (sanitize m.content) }).filter fun m => m.content ≠ []

theorem totalChars_snoc (out : List ImportedMessage) (m : ImportedMessage) :
    totalChars (out ++ [m]) = totalChars out + m.content.length := by
  simp [totalChars]

theorem keepMessages_loop (messages : List ImportedMessage) : ∀ (out : List ImportedMessage) (truncated : Bool),
    out.length ≤ MAX_IMPORT_MESSAGES → totalChars out ≤ MAX_IMPORT_TOTAL_CHARS → (∀ m ∈ out, Kept m.content) →
    (truncated = false → ∀ m ∈ out, Fits m.content) →
    Loop messages out truncated (keepMessages messages out (totalChars out) truncated) := by
  induction messages with
  | nil =>
    intro out truncated hlength htotal hkept hfits
    exact ⟨hlength, htotal, hkept, hfits, id, fun _ => (List.append_nil out).symm⟩
  | cons m messages ih =>
    intro out truncated hlength htotal hkept hfits
    -- the loop that stops says so
    have hstop : Loop (m :: messages) out truncated (out, true) :=
      ⟨hlength, htotal, hkept, fun h => (nomatch h), fun _ => rfl, fun h => (nomatch h)⟩
    rw [keepMessages]
    split
    · exact hstop
    rename_i hroom
    dsimp only
    split
    · rename_i hblank
      have h := ih out truncated hlength htotal hkept hfits
      refine ⟨h.length, h.total, h.kept, h.fits, h.monotone, fun hno => ?_⟩
      rw [h.whole hno, List.map_cons, List.filter_cons_of_neg (by simpa using hblank)]
    rename_i hne
    split
    · exact hstop
    rename_i hfit
    have hmessage := kept_clip hne
    rw [← totalChars_snoc out { role := m.role, content := clip (trim (sanitize m.content)) }] at hfit ⊢
    have h := ih (out ++ [{ role := m.role, content := clip (trim (sanitize m.content)) }])
      (truncated || decide (MAX_IMPORT_MESSAGE_CHARS < (trim (sanitize m.content)).length))
      (by rw [List.length_append, List.length_singleton]; omega) (by omega)
      (fun x hx => (List.mem_append.1 hx).elim (hkept x) fun hx => List.mem_singleton.1 hx ▸ hmessage)
      (by
        intro hno x hx
        rw [Bool.or_eq_false_iff, decide_eq_false_iff_not] at hno
        rcases List.mem_append.1 hx with hx | hx
        · exact hfits hno.1 x hx
        · rw [List.mem_singleton.1 hx]
          simp only [Fits, clip, if_neg hno.2]
          exact not_lt.1 hno.2)
    refine ⟨h.length, h.total, h.kept, h.fits, fun ht => h.monotone (by rw [ht, Bool.true_or]), fun hno => ?_⟩
    have hshort : ¬MAX_IMPORT_MESSAGE_CHARS < (trim (sanitize m.content)).length := fun hlong => by
      have hyes := h.monotone (by rw [decide_eq_true hlong, Bool.or_true])
      rw [hyes] at hno
      cases hno
    rw [h.whole hno, clip, if_neg hshort, List.append_assoc, List.map_cons, List.filter_cons_of_pos (by simpa using hne)]
    rfl

theorem keepMessages_of_kept (messages : List ImportedMessage) : ∀ (out : List ImportedMessage) (truncated : Bool),
    (∀ m ∈ messages, Kept m.content) → out.length + messages.length ≤ MAX_IMPORT_MESSAGES →
    totalChars out + totalChars messages ≤ MAX_IMPORT_TOTAL_CHARS → (truncated = false → ∀ m ∈ messages, Fits m.content) →
    keepMessages messages out (totalChars out) truncated = (out ++ messages, truncated) := by
  induction messages with
  | nil =>
    intro out truncated _ _ _ _
    rw [keepMessages, List.append_nil]
  | cons m messages ih =>
    intro out truncated hkept hlength htotal hfits
    obtain ⟨htrim, hclip⟩ := clip_of_kept (hkept m List.mem_cons_self)
    have hsum : totalChars (m :: messages) = m.content.length + totalChars messages := by simp [totalChars]
    rw [List.length_cons] at hlength
    have hflag : (truncated || decide (MAX_IMPORT_MESSAGE_CHARS < m.content.length)) = truncated := by
      cases truncated with
      | true => rfl
      | false => exact decide_eq_false (not_lt.2 (hfits rfl m List.mem_cons_self))
    rw [keepMessages, if_neg (by omega)]
    simp only [htrim, hclip, hflag]
    rw [if_neg (hkept m List.mem_cons_self).nonempty, if_neg (by omega), ← totalChars_snoc out m,
      ih (out ++ [m]) truncated (fun x hx => hkept x (List.mem_cons_of_mem _ hx))
        (by rw [List.length_append, List.length_singleton]; omega) (by rw [totalChars_snoc]; omega)
        fun hno x hx => hfits hno x (List.mem_cons_of_mem _ hx), List.append_assoc]
    rfl

/-! ### The first message -/

theorem fromFirstUser_spec (out : List ImportedMessage) (truncated : Bool) :
    (fromFirstUser out truncated).1 <:+ out ∧ (∀ m ∈ (fromFirstUser out truncated).1.head?, m.role = .user) ∧
      (truncated = true → (fromFirstUser out truncated).2 = true) ∧
      ((fromFirstUser out truncated).2 = false → (fromFirstUser out truncated).1 = out) := by
  unfold fromFirstUser
  cases hfind : out.findIdx? fun m => m.role = .user with
  | none =>
    refine ⟨List.nil_suffix, fun m hm => (nomatch hm), fun ht => by rw [ht, Bool.true_or], fun hno => ?_⟩
    rw [Bool.or_eq_false_iff, decide_eq_false_iff_not, Nat.not_lt, Nat.le_zero] at hno
    exact (List.length_eq_zero_iff.1 hno.2).symm
  | some firstUser =>
    refine ⟨List.drop_suffix _ _, fun m hm => ?_, fun ht => by simp only [ht, Bool.true_or], fun hno => ?_⟩
    · obtain ⟨hlt, huser, -⟩ := List.findIdx?_eq_some_iff_getElem.1 hfind
      rw [List.head?_drop, List.getElem?_eq_getElem hlt, Option.mem_some_iff] at hm
      subst hm
      exact of_decide_eq_true huser
    · rw [Bool.or_eq_false_iff, decide_eq_false_iff_not, Nat.not_lt, Nat.le_zero] at hno
      simp only [hno.2, List.drop_zero]

theorem fromFirstUser_of_user {out : List ImportedMessage} (h : ∀ m ∈ out.head?, m.role = .user) (truncated : Bool) :
    fromFirstUser out truncated = (out, truncated) := by
  cases out with
  | nil => simp [fromFirstUser]
  | cons m out =>
    have huser : m.role = .user := h m rfl
    simp [fromFirstUser, List.findIdx?_cons, huser]

theorem totalChars_le_of_suffix {messages out : List ImportedMessage} (h : messages <:+ out) : totalChars messages ≤ totalChars out :=
  (h.sublist.map fun m : ImportedMessage => m.content.length).sum_le_sum fun _ _ => Nat.zero_le _

/-! ### The title -/

theorem clean_title {title : Option Units} {kept : Units} (h : normalizeTitle title = some kept) : Clean kept := by
  unfold normalizeTitle at h
  split at h
  · cases h
  rename_i text
  dsimp only at h
  split at h
  · cases h
  · obtain rfl := Option.some.inj h
    exact clean_of_subset (clean_sanitize text) fun u hu => Trim.mem_of_mem_trim (List.mem_of_mem_take hu)

theorem bare_take_iff {text : Units} (h : Trim.Bare isSpace text) :
    Trim.Bare isSpace (text.take 200) ↔ text.length ≤ 200 ∨ ∀ u ∈ text[199]?, isSpace u = false := by
  rcases Nat.lt_or_ge 200 text.length with hlong | hshort
  · have hlast : (text.take 200).getLast? = text[199]? := by
      rw [List.getLast?_eq_getElem?, List.length_take, Nat.min_eq_left hlong.le, List.getElem?_take_of_lt (by decide)]
    constructor
    · intro hbare
      exact .inr (hlast ▸ hbare.last)
    · rintro (hle | hspace)
      · omega
      · exact ⟨Trim.head_of_prefix (List.take_prefix _ _) h.head, hlast ▸ hspace⟩
  · rw [List.take_of_length_le hshort]
    exact ⟨fun _ => .inl hshort, fun _ => h⟩

theorem normalizeTitle_twice_iff (title : Option Units) :
    normalizeTitle (normalizeTitle title) = normalizeTitle title ↔
      ∀ text ∈ title, (trim (sanitize text)).length ≤ 200 ∨ ∀ u ∈ (trim (sanitize text))[199]?, isSpace u = false := by
  cases title with
  | none => simp [normalizeTitle]
  | some text =>
    have hbare : Trim.Bare isSpace (trim (sanitize text)) := Trim.bare_trim isSpace _
    have hclean : Clean (trim (sanitize text)) := clean_of_subset (clean_sanitize text) fun u hu => Trim.mem_of_mem_trim hu
    rw [show (∀ t ∈ some text, (trim (sanitize t)).length ≤ 200 ∨ ∀ u ∈ (trim (sanitize t))[199]?, isSpace u = false) ↔
      ((trim (sanitize text)).length ≤ 200 ∨ ∀ u ∈ (trim (sanitize text))[199]?, isSpace u = false) by simp, ← bare_take_iff hbare]
    by_cases hnil : (trim (sanitize text)).take 200 = []
    · rw [hnil]
      simp only [normalizeTitle, hnil, if_true, true_iff]
      exact ⟨fun u hu => (nomatch hu), fun u hu => (nomatch hu)⟩
    · have hone : normalizeTitle (some text) = some ((trim (sanitize text)).take 200) := by
        simp only [normalizeTitle]
        rw [if_neg hnil]
      rw [hone]
      generalize hkept : (trim (sanitize text)).take 200 = kept at hnil
      have hsan : sanitize kept = kept := sanitize_of_clean (clean_of_subset hclean fun u hu => List.mem_of_mem_take (hkept ▸ hu))
      have hlen : kept.length ≤ 200 := hkept ▸ List.length_take_le _ _
      have hle : (trim kept).length ≤ 200 := (Trim.trim_sublist isSpace kept).length_le.trans hlen
      simp only [normalizeTitle, hsan, List.take_of_length_le hle]
      rw [← Trim.trim_eq_self_iff (p := isSpace)]
      change (if trim kept = [] then none else some (trim kept)) = some kept ↔ trim kept = kept
      constructor
      · intro h
        split at h
        · cases h
        · exact Option.some.inj h
      · intro h
        rw [h, if_neg hnil]

/-! ### The import -/

theorem loop_normalizeImport (imp : SharedChatImport) : Loop imp.messages [] imp.truncated (keepMessages imp.messages [] 0 imp.truncated) :=
  keepMessages_loop imp.messages [] imp.truncated (Nat.zero_le _) (Nat.zero_le _) (fun _ hm => (nomatch hm)) fun _ _ hm => (nomatch hm)

theorem valid_normalizeImport (imp : SharedChatImport) : (normalizeImport imp).Valid := by
  have hloop := loop_normalizeImport imp
  obtain ⟨hsuffix, huser, -, -⟩ := fromFirstUser_spec (keepMessages imp.messages [] 0 imp.truncated).1
    (keepMessages imp.messages [] 0 imp.truncated).2
  exact
    { messages := hsuffix.length_le.trans hloop.length
      user := huser
      nonempty := fun m hm => (hloop.kept m (hsuffix.subset hm)).nonempty
      printable := fun m hm => printable_of_clean (hloop.kept m (hsuffix.subset hm)).clean
      total := (totalChars_le_of_suffix hsuffix).trans hloop.total
      title := fun title htitle => printable_of_clean (clean_title htitle) }

theorem whole_of_not_truncated (imp : SharedChatImport) (h : (normalizeImport imp).truncated = false) :
    (normalizeImport imp).messages = imp.whole := by
  obtain ⟨-, -, hmonotone, hall⟩ := fromFirstUser_spec (keepMessages imp.messages [] 0 imp.truncated).1
    (keepMessages imp.messages [] 0 imp.truncated).2
  have hkept : (keepMessages imp.messages [] 0 imp.truncated).2 = false := by
    rw [← Bool.not_eq_true]
    intro ht
    have hyes : (normalizeImport imp).truncated = true := hmonotone ht
    rw [h] at hyes
    cases hyes
  exact (hall h).trans ((loop_normalizeImport imp).whole hkept)

theorem messages_twice (imp : SharedChatImport) :
    fromFirstUser (keepMessages (normalizeImport imp).messages [] 0 (normalizeImport imp).truncated).1
        (keepMessages (normalizeImport imp).messages [] 0 (normalizeImport imp).truncated).2 =
      ((normalizeImport imp).messages, (normalizeImport imp).truncated) := by
  have hloop := loop_normalizeImport imp
  obtain ⟨hsuffix, huser, hmonotone, -⟩ := fromFirstUser_spec (keepMessages imp.messages [] 0 imp.truncated).1
    (keepMessages imp.messages [] 0 imp.truncated).2
  have hfits : (normalizeImport imp).truncated = false → ∀ m ∈ (normalizeImport imp).messages, Fits m.content := by
    intro hno m hm
    refine hloop.fits ?_ m (hsuffix.subset hm)
    rw [← Bool.not_eq_true]
    intro ht
    have hyes : (normalizeImport imp).truncated = true := hmonotone ht
    rw [hno] at hyes
    cases hyes
  have hvalid := valid_normalizeImport imp
  have htwice := keepMessages_of_kept (normalizeImport imp).messages [] (normalizeImport imp).truncated
    (fun m hm => hloop.kept m (hsuffix.subset hm)) (by simpa using hvalid.messages) (by simpa [totalChars] using hvalid.total) hfits
  rw [show totalChars [] = 0 from rfl, List.nil_append] at htwice
  rw [htwice]
  exact fromFirstUser_of_user huser _

theorem normalizeImport_twice (imp : SharedChatImport) :
    normalizeImport (normalizeImport imp) = { normalizeImport imp with title := normalizeTitle (normalizeImport imp).title } := by
  have hmessages := messages_twice imp
  rw [normalizeImport, hmessages]

end NormalizeAux

/-- A normalized import is within the caps, it is marked as truncated whenever a message that is not blank is missing or cut, and
normalizing it again changes nothing just when its title fits. -/
theorem normalizeImport_valid_iff (imp : SharedChatImport) :
    (normalizeImport imp).Valid ∧ ((normalizeImport imp).truncated = false → (normalizeImport imp).messages = imp.whole) ∧
      (normalizeImport (normalizeImport imp) = normalizeImport imp ↔ TitleFits imp) := by
  refine ⟨NormalizeAux.valid_normalizeImport imp, NormalizeAux.whole_of_not_truncated imp, ?_⟩
  rw [NormalizeAux.normalizeImport_twice imp, TitleFits, ← NormalizeAux.normalizeTitle_twice_iff imp.title]
  refine ⟨fun h => congrArg SharedChatImport.title h, fun h => ?_⟩
  rw [show normalizeTitle (normalizeImport imp).title = (normalizeImport imp).title from h]

/-- A title of 199 letters, a blank and another letter. -/
def longTitle : SharedChatImport where
  source := .claude
  title := some (List.replicate 199 0x61 ++ [0x20, 0x62])
  messages := [{ role := .user, content := [0x68, 0x69] }]
  truncated := false
  droppedRichContent := false

/-- The preview of the title ends in the blank, and the commit drops it. -/
theorem normalizeImport_valid_false :
    (normalizeImport longTitle).title = some (List.replicate 199 0x61 ++ [0x20]) ∧
      (normalizeImport (normalizeImport longTitle)).title = some (List.replicate 199 0x61) ∧
      normalizeImport (normalizeImport longTitle) ≠ normalizeImport longTitle := by
  decide +kernel

end Import

end Capka

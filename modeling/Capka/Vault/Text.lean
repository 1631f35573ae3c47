import Mathlib

/-!
# Text of the memory

What a statement, a slot key, a topic and a note may hold, what the memory takes for a credential, what a handle looks like, and when two
topic titles are one subject. A text is cut at a number of characters.
-/

namespace Capka

namespace VaultText

/-- The white space of a JavaScript `\s` and of `trim`. -/
def isSpace (c : Char) : Bool :=
  c ∈ ['\t', '\n', '\x0b', '\x0c', '\r', ' ', '\u00a0', '\u1680', '\u2028', '\u2029', '\u202f', '\u205f', '\u3000', '\ufeff'] ||
    (0x2000 ≤ c.toNat && c.toNat ≤ 0x200a)

def isNewline (c : Char) : Bool := c = '\n' || c = '\r'

/-- Drop the characters of a class at both ends. -/
def trimBy (p : Char → Bool) (s : List Char) : List Char := (s.dropWhile p).rdropWhile p

/-- Put one blank for each maximal run of the class that has the property. -/
def squeeze (p : Char → Bool) (which : List Char → Bool) (s : List Char) : List Char :=
  (s.splitBy fun a b => p a = p b).flatMap fun run => if run.any p && which run then [' '] else run

/-- `replace(/\s*[\r\n]+\s*/g, " ").trim().slice(0, n)`: the text of a statement or a note's title, on one line. -/
def fitLine (n : Nat) (raw : String) : String :=
  String.ofList ((trimBy isSpace (squeeze isSpace (fun run => run.any isNewline) raw.toList)).take n)

/-- `replace(/\s+/g, " ").trim().slice(0, n)`: the text of a label. -/
def fitLabel (n : Nat) (raw : String) : String :=
  String.ofList ((trimBy isSpace (squeeze isSpace (fun _ => true) raw.toList)).take n)

end VaultText

open VaultText

def fitStatement (raw : String) : String := fitLine 500 raw

def fitNoteTitle (raw : String) : String := fitLine 160 raw

def fitTopicTitle (raw : String) : String := fitLabel 64 raw

/-- A slot key that is blank is none. -/
def fitSlotKey (raw : Option String) : Option String := (raw.map (fitLabel 120)).filter fun s => !s.isEmpty

namespace VaultText

/-- `\w`. -/
def isWord (c : Char) : Bool := c.isAlphanum || c = '_'

/-- `\b`, between two characters, either of which may be missing. -/
def boundary (a b : Option Char) : Bool := a.any isWord != b.any isWord

/-- The class of `OPAQUE_RUN`. -/
def isOpaque (c : Char) : Bool := c.isAlphanum || c = '+' || c = '/' || c = '_'

/-- `OPAQUE_RUN` matches with `k` characters of its class and `e` signs of padding, `before` being the character in front. -/
def opaqueAt (before : Option Char) (s : List Char) (k e : Nat) : Bool :=
  boundary before s.head? && decide (28 ≤ k) && decide (k + e ≤ s.length) && (s.take k).all isOpaque &&
    ((s.drop k).take e).all (fun c => c = '=') && boundary (s.take (k + e)).getLast? (s.drop (k + e)).head?

/-- `OPAQUE_RUN` matches somewhere in the text. -/
def hasOpaqueRun (before : Option Char) : List Char → Bool
  | [] => false
  | c :: s =>
    (List.range (s.length + 2)).any (fun k => (List.range 3).any fun e => opaqueAt before (c :: s) k e) || hasOpaqueRun (some c) s

end VaultText

def looksLikeSecret (text : String) : Bool := hasOpaqueRun none text.toList

def pathishSecret (text : String) : Bool := (text.toList.splitOn '/').any (hasOpaqueRun none)

/-- One form of a claim's text. A value is given by its JSON. -/
def screenOnce (statement : String) (slotKey value : Option String) : Bool :=
  looksLikeSecret statement || pathishSecret (slotKey.getD "") || pathishSecret (value.getD "")

/-- The text as it was given or as it is stored. -/
def secretShaped (statement : String) (slotKey value : Option String) : Bool :=
  screenOnce statement slotKey value || screenOnce (fitStatement statement) (fitSlotKey slotKey) value

/-- `HANDLE_RE`. -/
def isHandle (s : String) : Bool :=
  match s.toList with
  | letter :: d :: ds => letter ∈ ['m', 'n', 'f', 'e', 'g'] && d.isDigit && d != '0' && decide (ds.length ≤ 3) && ds.all Char.isDigit
  | _ => false

/-- What the code takes from its surroundings: whether it runs in production, and the letter case of the database and of JavaScript. -/
structure VaultEnv where
  production : Bool
  lower : String → String
  toLowerCase : String → String

/-- The fold of a topic's title, on which the index `uniq_vnotes_topic_title` is. -/
def foldOf (env : VaultEnv) (title : String) : String :=
  env.lower (String.ofList (trimBy (fun c => c = ' ')
    (squeeze (fun c => c ∈ ['\t', '\n', '\x0b', '\x0c', '\r', ' ']) (fun _ => true) title.toList)))

/-- When two statements have the same wording. -/
def norm (env : VaultEnv) (s : String) : String :=
  String.ofList (squeeze isSpace (fun _ => true) (trimBy isSpace (env.toLowerCase s).toList))

def defaultTopicKey : String := "general"

/-- `TOPIC_LABELS`, and the key itself where it has no label. -/
def topicLabel (key : String) : String := if key = defaultTopicKey then "General" else key

theorem topicLabel_default :
    fitTopicTitle (topicLabel defaultTopicKey) = "General" ∧ isHandle "General" = false ∧ looksLikeSecret "General" = false := by
  decide

end Capka

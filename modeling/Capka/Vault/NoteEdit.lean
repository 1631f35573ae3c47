import Mathlib
import Capka.Lib.Json
import Capka.Lib.Replace
import Capka.Lib.Scan

/-!
# Editing a note in place

A note is stored with a token for each link, and the model is shown the titles the links have (`substituteTokens`). A replacement is told
in the words that were shown. It is looked up in the stored text in two spellings, as it is and with the links in it as tokens, and where
neither stands byte for byte, but for blanks. An edit that cuts a token, types one, or leaves half of one is refused.
-/

namespace Capka.NoteEdit

open Ecma

/-! ## Tokens -/

def isEdgeIdUnit (u : UInt16) : Bool :=
  (0x41 ≤ u && u ≤ 0x5a) || (0x61 ≤ u && u ≤ 0x7a) || (0x30 ≤ u && u ≤ 0x39) || u = 0x5f || u = 0x2d

def tokenOpen : Units := ofString "[[capka-edge:"

def linkOpen : Units := ofString "[["

def linkClose : Units := ofString "]]"

def edgeToken (edgeId : Units) : Units := tokenOpen ++ edgeId ++ linkClose

/-- The id in the token that a text begins with: `EDGE_TOKEN_RE` at one place. -/
def tokenAt (s : Units) : Option Units :=
  let id := (s.drop 13).takeWhile isEdgeIdUnit
  if edgeToken id <+: s ∧ 1 ≤ id.length ∧ id.length ≤ 32 then some id else none

theorem tokenAt_spec {s id : Units} (h : tokenAt s = some id) : edgeToken id <+: s ∧ 1 ≤ id.length ∧ id.length ≤ 32 := by
  rw [tokenAt] at h
  split_ifs at h with hid
  cases h
  exact hid

def tokens : Scan.Scanner UInt16 Units where
  read := tokenAt
  text := edgeToken
  text_prefix h := (tokenAt_spec h).1
  text_ne_nil _ := List.cons_ne_nil _ _

/-- The ids of the tokens of a text, in order of appearance, each once. -/
def edgeIdsIn (bodyMarkdown : Units) : List Units := (tokens.hits bodyMarkdown).eraseDups

def linkText (inner : Units) : Units := linkOpen ++ inner ++ linkClose

/-- `UNRESOLVED_LINK` without its brackets. -/
def removedLabel : Units := ofString "link removed"

def unresolvedLink : Units := linkText removedLabel

/-- The text as it is shown. -/
def substituteTokens (bodyMarkdown : Units) (titleFor : Units → Option Units) : Units :=
  tokens.replace bodyMarkdown fun edgeId =>
    match titleFor edgeId with
    | none => unresolvedLink
    | some title => linkText title

/-! ## What was shown, back into what is stored -/

/-- What a link of a note was shown as, `none` for a removed one. -/
structure RenderedEdge where
  edgeId : Units
  title : Option Units

def isBracket (u : UInt16) : Bool := u = 0x5b || u = 0x5d

/-- What is between the brackets of the link that a text begins with: `RENDERED_LINK_RE` at one place. -/
def renderedAt (s : Units) : Option Units :=
  let inner := (s.drop 2).takeWhile fun u => !isBracket u
  if linkText inner <+: s then some inner else none

theorem renderedAt_spec {s inner : Units} (h : renderedAt s = some inner) : linkText inner <+: s := by
  rw [renderedAt] at h
  split_ifs at h with hinner
  cases h
  exact hinner

def links : Scan.Scanner UInt16 Units where
  read := renderedAt
  text := linkText
  text_prefix h := renderedAt_spec h
  text_ne_nil _ := List.cons_ne_nil _ _

/-- The title an edge was shown with; of two entries the last counts. -/
def titleOf (edges : List RenderedEdge) (edgeId : Units) : Option Units :=
  (edges.reverse.find? fun e => e.edgeId = edgeId).bind RenderedEdge.title

/-- The ids of the tokens of the body that were shown as a link: those of its title, or those that were removed. -/
def standsFor (storedBody : Units) (edges : List RenderedEdge) (inner : Units) : List Units :=
  if ofString "capka-edge:" <+: inner then []
  else if inner = removedLabel then (edgeIdsIn storedBody).filter fun id => titleOf edges id = none
  else (edgeIdsIn storedBody).filter fun id => titleOf edges id = some inner

/-- What a link that was shown is in the stored text: the token it stands for, if that may be written, or the link as it is. -/
def mapLink (storedBody : Units) (edges : List RenderedEdge) (only : Option (List Units)) (inner : Units) : Units :=
  match standsFor storedBody edges inner with
  | [id] => if only.all fun allowed => allowed.contains id then edgeToken id else linkText inner
  | _ => linkText inner

/-- The text that was shown as it is stored, or the title of a link that could be two. -/
def mapRenderedToStored (rendered storedBody : Units) (edges : List RenderedEdge) (only : Option (List Units)) :
    Except Units Units :=
  match (links.hits rendered).find? fun inner => 1 < (standsFor storedBody edges inner).length with
  | some inner => .error inner
  | none => .ok (links.replace rendered (mapLink storedBody edges only))

/-! ## Places of a text -/

/-- The beginnings of tokens that no whole token accounts for. -/
def orphanTokenCount (body : Units) : Nat := (Replace.split tokenOpen 0 (tokens.replace body fun _ => [])).length - 1

def cutsAToken (body : Units) (start stop : Nat) : Bool :=
  (tokens.spans body).any fun t => (t.1 < start && start < t.2) || (t.1 < stop && stop < t.2)

/-- Where a text occurs in another. -/
def occurrences (haystack needle : Units) : List Nat :=
  (List.range (haystack.length + 1)).filter fun i => needle <+: haystack.drop i

def isSpace (u : UInt16) : Bool := u = 0x20 || u = 0x09 || u = 0x0d

/-- A unit of the normal form, and the stretch of the text it stands for. -/
structure Item where
  unit : UInt16
  start : Nat
  stop : Nat
  deriving DecidableEq

/-- A run of blanks as one blank, and none at the end of a line; the run in progress began at the place of the second argument. -/
def normalizeFrom : Nat → Option Nat → Units → List Item
  | _, _, [] => []
  | i, run, u :: rest =>
    if u = 0x0a then ⟨0x0a, i, i + 1⟩ :: normalizeFrom (i + 1) none rest
    else if isSpace u then normalizeFrom (i + 1) (some (run.getD i)) rest
    else (run.map fun begun => ⟨0x20, begun, i⟩).toList ++ ⟨u, i, i + 1⟩ :: normalizeFrom (i + 1) none rest

def normalizeWithMap (s : Units) : List Item := normalizeFrom 0 none s

/-- The normal form of a text. -/
def normalText (s : Units) : Units := (normalizeWithMap s).map Item.unit

/-- Where a text occurs in another but for blanks. -/
def fuzzySpans (storedBody needle : Units) : List (Nat × Nat) :=
  let body := normalizeWithMap storedBody
  let want := normalText needle
  if want = [] then []
  else
    (occurrences (body.map Item.unit) want).map fun i =>
      ((body[i]?.map Item.start).getD 0, (body[i + want.length - 1]?.map Item.stop).getD 0)

/-- The line a place of a text is in, from one. -/
def lineAt (body : Units) (offset : Nat) : Nat := (body.take offset).count 0x0a + 1

/-- The links that a text no longer names. -/
def droppedLinks (before after : Units) : List Units :=
  (edgeIdsIn before).filter fun id => ¬edgeToken id <:+: after

/-! ## The edits -/

inductive EditRefusal where
  | ambiguousLink (title : Units)
  | badLink
  | splitLink
  | noMatch
  | ambiguousMatch (lines : List Nat)
  | badLine (lines : Nat)
  deriving DecidableEq

structure EditDone where
  body : Units
  linksRemoved : List Units
  changedFrom : Nat
  changedTo : Nat
  fuzzy : Bool
  deriving DecidableEq

abbrev EditResult := Except EditRefusal EditDone

/-- A place of the stored text to be replaced, and the links the text to be replaced names. -/
structure Span where
  start : Nat
  stop : Nat
  carried : List Units
  deriving DecidableEq

/-- The spellings of the text to be replaced: with its links as tokens, and as it is. -/
def needlesOf (oldStr mappedOld : Units) : List Units := if oldStr = mappedOld then [mappedOld] else [mappedOld, oldStr]

/-- The places where a spelling stands byte for byte. -/
def exactSpans (storedBody : Units) (needles : List Units) : List Span :=
  needles.flatMap fun n => (occurrences storedBody n).map fun i => ⟨i, i + n.length, edgeIdsIn n⟩

/-- The places where a spelling stands but for blanks. -/
def looseSpans (storedBody : Units) (needles : List Units) : List Span :=
  needles.flatMap fun n => (fuzzySpans storedBody n).map fun s => ⟨s.1, s.2, edgeIdsIn n⟩

/-- The places for a replacement: byte for byte, and only if there are none, but for blanks. -/
def spansOf (storedBody : Units) (needles : List Units) : List Span :=
  if (exactSpans storedBody needles).isEmpty then looseSpans storedBody needles else exactSpans storedBody needles

/-- The text with the replacement in the place. -/
def splice (storedBody : Units) (span : Span) (mappedNew : Units) : Units :=
  storedBody.take span.start ++ mappedNew ++ storedBody.drop span.stop

def applyStrReplace (storedBody : Units) (edges : List RenderedEdge) (oldStr newStr : Units) : EditResult :=
  if (edgeIdsIn newStr).any fun id => !(edgeIdsIn oldStr).contains id then .error .badLink
  else
    match mapRenderedToStored oldStr storedBody edges none with
    | .error title => .error (.ambiguousLink title)
    | .ok mappedOld =>
      match spansOf storedBody (needlesOf oldStr mappedOld) with
      | [] => .error .noMatch
      | [span] =>
        match mapRenderedToStored newStr storedBody edges (some span.carried) with
        | .error title => .error (.ambiguousLink title)
        | .ok mappedNew =>
          if cutsAToken storedBody span.start span.stop then .error .splitLink
          else
            let body := splice storedBody span mappedNew
            if orphanTokenCount storedBody < orphanTokenCount body then .error .splitLink
            else
              .ok
                { body, linksRemoved := droppedLinks storedBody body, changedFrom := lineAt body span.start,
                  changedTo := lineAt body (span.start + mappedNew.length),
                  fuzzy := (exactSpans storedBody (needlesOf oldStr mappedOld)).isEmpty }
      | spans => .error (.ambiguousMatch (spans.map fun s => lineAt storedBody s.start).eraseDups)

end Capka.NoteEdit

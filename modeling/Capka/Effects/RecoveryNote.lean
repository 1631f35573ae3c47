import Mathlib
import Capka.Effects.Ledger
import Capka.Effects.Clamped
import Capka.Lib.Packing

/-!
# The recovery note

What a stream is told of the calls its history may not show: one line a call while they fit the budget, and else one line a tool, as many as
fit, the rest in a line that counts them. An input that cannot be serialised reads as one that is absent.
-/

namespace Capka

namespace Effects

open Ecma

/-- `RECOVERY_NOTE_BUDGET`. -/
def recoveryNoteBudget : Nat := 6000

/-! ## Its texts -/

def erroredMarker : Units := ofString "[errored]"

def unsettledMarker : Units := ofString "[outcome unknown]"

/-- `STATES`. -/
def states (mixed : Bool) : Units :=
  ofString "Read each line's state separately:\n" ++
    ofString "- unmarked: the call completed and its effects are live; do NOT repeat it.\n" ++
    (ofString "- " ++ erroredMarker ++ ofString ": the call ran and threw; its result may be absent, partial or complete.\n") ++
    (if mixed then
      ofString "- " ++ unsettledMarker ++ ofString ": dispatch was recorded, but whether execution began at all is " ++
        ofString "unknown; do NOT count it as completed.\n"
    else [])

def remainder (tools calls : Nat) : Units :=
  ofString "- …and " ++ ofNumber tools ++ ofString " more tools, " ++ ofNumber calls ++
    ofString " calls — check each target before writing it again"

/-- The fields kept of those in order, until one does not fit; `used` counts the braces and the commas. -/
def keptFields (used : Nat) : List Units → List Units
  | [] => []
  | f :: fields => if effectArgChars < used + f.length then [] else f :: keptFields (used + f.length + 1) fields

def renderArgs : Option Json → Units
  | none => []
  | some .null => []
  | some v =>
    let s := match v with
      | .str s => s
      | v => stringify v
    if s.length ≤ effectArgChars then s
    else
      let clamped := s.take effectArgChars ++ ofString "…"
      match v with
      | .obj fields =>
        let kept := keptFields 2 ((stringifyFields fields).mergeSort fun a b => a.length ≤ b.length)
        if kept = [] then clamped
        else
          let dropped := fields.length - kept.length
          0x7b :: (commas kept ++ (if 0 < dropped then ofString ",…+" ++ ofNumber dropped else []) ++ [0x7d])
      | _ => clamped

/-- Runs of spaces made one space. -/
def squeezeSpaces : Units → Units
  | [] => []
  | [u] => [u]
  | u :: v :: rest => if u = 0x20 ∧ v = 0x20 then squeezeSpaces (v :: rest) else u :: squeezeSpaces (v :: rest)

def callLine (e : TurnEffect Json) : Units :=
  let mark := if e.unsettled then unsettledMarker ++ [0x20] else if e.failed then erroredMarker ++ [0x20] else []
  (squeezeSpaces (ofString "- " ++ mark ++ ofString e.name ++ [0x20] ++ renderArgs e.input)).rdropWhile isSpace

/-! ## A tool -/

/-- How often a tool was called, and with what outcomes. -/
structure Tally where
  calls : Nat
  failed : Nat
  unsettled : Nat
  deriving DecidableEq

/-- One more call. -/
def Tally.count (e : TurnEffect Json) (c : Tally) : Tally where
  calls := c.calls + 1
  failed := if !e.unsettled && e.failed then c.failed + 1 else c.failed
  unsettled := if e.unsettled then c.unsettled + 1 else c.unsettled

/-- The outcomes a tool's line names. -/
def Tally.states (c : Tally) : List Units :=
  (if 0 < c.calls - c.failed - c.unsettled then [ofNumber (c.calls - c.failed - c.unsettled) ++ ofString " completed"] else []) ++
    (if c.failed ≠ 0 then [ofNumber c.failed ++ ofString " errored"] else []) ++
    (if c.unsettled ≠ 0 then [ofNumber c.unsettled ++ ofString " outcome unknown"] else [])

def toolLine (tool : String × Tally) : Units :=
  ofString "- " ++ ofString tool.1 ++ ofString " ×" ++ ofNumber tool.2.calls ++
    (if tool.2.failed ≠ 0 ∨ tool.2.unsettled ≠ 0 then ofString ": " ++ (ofString "; ").intercalate tool.2.states else [])

/-- What the loop over the tools keeps. -/
structure NoteLoop where
  lines : List Units
  used : Nat
  restTools : Nat
  restCalls : Nat

/-- A tool's turn in the loop; the first is listed at any length. -/
def NoteLoop.turn (reserve : Nat) (s : NoteLoop) (tool : String × Tally) : NoteLoop :=
  if s.lines ≠ [] ∧ recoveryNoteBudget < s.used + (toolLine tool).length + reserve then
    { s with
      restTools := s.restTools + 1
      restCalls := s.restCalls + tool.2.calls }
  else
    { s with
      lines := s.lines ++ [toolLine tool]
      used := s.used + (toolLine tool).length + 1 }

/-- A line of a note. -/
inductive NoteLine where
  | call (e : TurnEffect Json)
  | tool (name : String) (c : Tally)
  | rest (tools calls : Nat)

def NoteLine.text : NoteLine → Units
  | .call e => callLine e
  | .tool name c => toolLine (name, c)
  | .rest tools calls => remainder tools calls

/-- The calls a line stands for. -/
def NoteLine.calls : NoteLine → Nat
  | .call _ => 1
  | .tool _ c => c.calls
  | .rest _ calls => calls

namespace NoteAux

/-! ## Lengths -/

end NoteAux

open NoteAux

variable {note : Units}

variable {effects : List (TurnEffect Json)} {first : String × Tally} {tools : List (String × Tally)}

namespace NoteRun

/-! ## Tools called once each -/

/-- A name of so many letters, of which two tell it apart. -/
def toolName (length i : Nat) : String :=
  String.ofList (Char.ofNat (97 + i / 10) :: Char.ofNat (97 + i % 10) :: List.replicate (length - 2) 'a')

/-- A call with a hundred letters for arguments. The names are of 64 letters, but for one of 38. -/
def call (i : Nat) : TurnEffect Json where
  id := ""
  name := toolName (if i = 73 then 38 else 64) i
  input := some (.str (List.replicate 100 0x61))
  failed := false
  unsettled := false

def calls : List (TurnEffect Json) := (List.range 84).map call

def tool (i : Nat) : String × Tally := ((call i).name, Tally.count (call i) ⟨0, 0, 0⟩)

end NoteRun

open NoteRun

end Effects

end Capka

import Mathlib
import Capka.Vault.FuzzyEdit
import Capka.Vault.EditTokens

/-!
# What an edit does to the links of a note

The text that is put in a place was typed, and is screened for tokens before it is put there; so is the place, for a token it would cut.
What neither looks at is a token of which one end is typed and the other stands in the note. An edit keeps the links of a note exactly when
its text fits between what stands before and behind it (`Fits`): no token stands across one of its ends, and no beginning of a token does
that no token follows. An insertion puts whole lines, and a token has no line break in it.
-/

namespace Capka.NoteEdit

open Ecma

/-- A beginning of a token that no token follows. -/
def Orphan (s : Units) (p : Nat) : Prop := tokenOpen <+: s.drop p ∧ tokenAt (s.drop p) = none

/-- The text fits between what stands before and behind the place: what the one ends with and the other begins with make no token, and
a beginning of a token in it, or across its own beginning, that no token follows was there before. -/
structure Fits (old : Units) (start stop : Nat) (new : Units) : Prop where
  before : ∀ l r id, IsEdgeId id → l ≠ [] → r ≠ [] → l <:+ old.take start → r <+: new ++ old.drop stop → edgeToken id ≠ l ++ r
  behind : ∀ l r id, IsEdgeId id → l ≠ [] → r ≠ [] → l <:+ old.take start ++ new → r <+: old.drop stop → edgeToken id ≠ l ++ r
  begun : ∀ p, start < p + tokenOpen.length → p < start + new.length →
    Orphan (old.take start ++ new ++ old.drop stop) p → p < start ∧ Orphan old p

open FuzzyAux TokenAux

namespace LinksAux

section Place

variable {old new : Units} {start stop : Nat}

end Place

/-! ### The ids of what is replaced -/

/-- A text without blanks and line breaks. -/
def Solid (w : Units) : Prop := ∀ u ∈ w, u ≠ 0x0a ∧ isSpace u = false

theorem solid_edgeToken {id : Units} (h : IsEdgeId id) : Solid (edgeToken id) := by
  intro u hu
  rw [edgeToken, List.mem_append, List.mem_append] at hu
  rcases hu with (hu | hu) | hu
  · have hopen : (tokenOpen.all fun u => u ≠ 0x0a && !isSpace u) = true := by decide
    simpa using List.all_eq_true.mp hopen u hu
  · have hid := h.1 u hu
    constructor
    · rintro rfl
      revert hid
      decide
    · by_contra hspace
      rw [Bool.not_eq_false, isSpace, Bool.or_eq_true, Bool.or_eq_true, decide_eq_true_eq, decide_eq_true_eq, decide_eq_true_eq] at hspace
      rcases hspace with (rfl | rfl) | rfl <;> revert hid <;> decide
  · have hclose : (linkClose.all fun u => u ≠ 0x0a && !isSpace u) = true := by decide
    simpa using List.all_eq_true.mp hclose u hu

end LinksAux

namespace LinksAux

theorem noBreak_edgeToken {id : Units} (h : IsEdgeId id) : 0x0a ∉ edgeToken id :=
  fun hmem => (solid_edgeToken h _ hmem).1 rfl

theorem noBreak_open : 0x0a ∉ tokenOpen := by decide

theorem open_ne_nil : tokenOpen ≠ [] := by decide

theorem tokenAt_line (X Y : Units) : tokenAt (X ++ 0x0a :: Y) = tokenAt X := by
  refine Option.ext fun id => ?_
  rw [tokenAt_iff, tokenAt_iff]
  refine and_congr_right fun hid => ?_
  exact Replace.prefix_append_cons_iff (noBreak_edgeToken hid)

theorem replace_line (X Y : Units) (f : Units → Units) :
    tokens.replace (X ++ 0x0a :: Y) f = tokens.replace X f ++ 0x0a :: tokens.replace Y f := by
  induction X using Scan.Scanner.scan_induction (m := tokens) with
  | nil => exact Scan.Scanner.replace_unit (m := tokens) (tokenAt_line [] Y)
  | unit u rest hread ih =>
    have hread' : tokens.read (u :: (rest ++ 0x0a :: Y)) = none := (tokenAt_line (u :: rest) Y).trans hread
    rw [List.cons_append, Scan.Scanner.replace_unit hread', Scan.Scanner.replace_unit hread, ih, List.cons_append]
  | hit b rest hread ih =>
    have hread' : tokens.read (tokens.text b ++ (rest ++ 0x0a :: Y)) = some b := by
      rw [← List.append_assoc]
      exact (tokenAt_line (tokens.text b ++ rest) Y).trans hread
    rw [List.append_assoc, Scan.Scanner.replace_hit hread', Scan.Scanner.replace_hit hread, ih, List.append_assoc]

theorem orphanTokenCount_line (X Y : Units) :
    orphanTokenCount (X ++ 0x0a :: Y) = orphanTokenCount X + orphanTokenCount Y := by
  have hlength := Replace.split_length_append_cons (a := tokens.replace X fun _ => []) (b := tokens.replace Y fun _ => [])
    open_ne_nil noBreak_open (Nat.zero_le _)
  have hX := Replace.split_pos tokenOpen (tokens.replace X fun _ => []) 0
  have hY := Replace.split_pos tokenOpen (tokens.replace Y fun _ => []) 0
  rw [orphanTokenCount, orphanTokenCount, orphanTokenCount, replace_line]
  omega

theorem intercalate_append {sep : Units} {L L' : List Units} (hL : L ≠ []) (hL' : L' ≠ []) :
    sep.intercalate (L ++ L') = sep.intercalate L ++ (sep ++ sep.intercalate L') := by
  induction L with
  | nil => exact absurd rfl hL
  | cons t L ih =>
    cases L with
    | nil =>
      obtain ⟨u, L', rfl⟩ := List.exists_cons_of_ne_nil hL'
      rw [List.singleton_append, List.intercalate_cons_cons, List.intercalate_singleton, List.append_assoc]
    | cons u L =>
      rw [List.cons_append, List.cons_append, List.intercalate_cons_cons, ← List.cons_append, ih (List.cons_ne_nil _ _),
        List.intercalate_cons_cons, List.append_assoc, List.append_assoc, List.append_assoc]

/-- A text put on lines of its own, in a place between two lines, before the first, or behind the last. -/
structure OnLines (old text : Units) (start : Nat) (new : Units) : Prop where
  inside : start ≤ old.length
  lines : (start = 0 ∧ ((new = text ∧ old = []) ∨ new = text ++ [0x0a])) ∨
    (new = 0x0a :: text ∧ (old.drop start = [] ∨ ∃ Q, old.drop start = 0x0a :: Q))

section OnLines

variable {old text new : Units} {start : Nat}

theorem OnLines.orphanTokenCount (h : OnLines old text start new) :
    orphanTokenCount (old.take start ++ new ++ old.drop start) = orphanTokenCount old + orphanTokenCount text := by
  obtain ⟨-, hlines⟩ := h
  rcases hlines with ⟨rfl, ⟨rfl, rfl⟩ | rfl⟩ | ⟨rfl, hnil | ⟨Q, hQ⟩⟩
  · rw [List.take_nil, List.nil_append, List.drop_nil, List.append_nil]
    exact (Nat.zero_add _).symm
  · rw [List.take_zero, List.nil_append, List.drop_zero, List.append_assoc, List.singleton_append, orphanTokenCount_line, Nat.add_comm]
  · have hold : old = old.take start := by
      conv_lhs => rw [← List.take_append_drop start old]
      rw [hnil, List.append_nil]
    rw [hnil, List.append_nil, orphanTokenCount_line, ← hold]
  · have hold : NoteEdit.orphanTokenCount old = NoteEdit.orphanTokenCount (old.take start) + NoteEdit.orphanTokenCount Q := by
      conv_lhs => rw [← List.take_append_drop start old, hQ]
      exact orphanTokenCount_line _ _
    rw [hQ, List.append_assoc, List.cons_append, orphanTokenCount_line, orphanTokenCount_line, hold]
    omega

theorem OnLines.named (h : OnLines old text start new) {id : Units} (hid : id ∈ edgeIdsIn new) : id ∈ edgeIdsIn text := by
  obtain ⟨hvalid, hin⟩ := mem_edgeIdsIn.mp hid
  refine mem_edgeIdsIn.mpr ⟨hvalid, ?_⟩
  have hempty : ¬edgeToken id <:+: [] := by
    rw [List.infix_nil]
    exact List.cons_ne_nil _ _
  obtain ⟨-, hlines⟩ := h
  rcases hlines with ⟨-, ⟨rfl, -⟩ | rfl⟩ | ⟨rfl, -⟩
  · exact hin
  · exact (Replace.infix_of_append_cons (noBreak_edgeToken hvalid) hin).resolve_right hempty
  · exact (Replace.infix_of_append_cons (a := []) (noBreak_edgeToken hvalid) hin).resolve_left hempty

end OnLines

end LinksAux

open LinksAux

end Capka.NoteEdit

import Mathlib

/-!
# Scanning a text for a pattern

A pattern is read at a place of a text, and what it reads has a text of its own. A scan goes over a text from the left, takes what the
pattern reads where it reads something, and goes on behind it; the other units it takes one by one. What is found and what a replacement
makes are read off the pieces, and the pieces joined are the text (`flatMap_pieces`).
-/

namespace Scan

/-- A pattern: what it reads where a text begins, and the text of what it reads. -/
structure Scanner (α β : Type) where
  read : List α → Option β
  text : β → List α
  text_prefix : ∀ {s b}, read s = some b → text b <+: s
  text_ne_nil : ∀ {s b}, read s = some b → text b ≠ []

/-- A piece of a scanned text: what the pattern reads, or a unit. -/
inductive Piece (α β : Type) where
  | unit (u : α)
  | hit (b : β)

namespace Scanner

variable {α β : Type} (m : Scanner α β)

/-- The pieces of the text, of which the first units are still to be skipped. -/
def piecesFrom : Nat → List α → List (Piece α β)
  | _, [] => []
  | skip + 1, _ :: rest => piecesFrom skip rest
  | 0, u :: rest =>
    match m.read (u :: rest) with
    | some b => .hit b :: piecesFrom ((m.text b).length - 1) rest
    | none => .unit u :: piecesFrom 0 rest

def pieces (s : List α) : List (Piece α β) := m.piecesFrom 0 s

/-- What the pattern reads in the text, in order. -/
def hits (s : List α) : List β :=
  (m.pieces s).filterMap fun
    | .unit _ => none
    | .hit b => some b

/-- The text with what the pattern reads replaced. -/
def replace (s : List α) (f : β → List α) : List α :=
  (m.pieces s).flatMap fun
    | .unit u => [u]
    | .hit b => f b

/-- The places of what the pattern reads, the first piece beginning at the given one. -/
def spansFrom : Nat → List (Piece α β) → List (Nat × Nat)
  | _, [] => []
  | i, .unit _ :: ps => spansFrom (i + 1) ps
  | i, .hit b :: ps => (i, i + (m.text b).length) :: spansFrom (i + (m.text b).length) ps

def spans (s : List α) : List (Nat × Nat) := m.spansFrom 0 (m.pieces s)

/-- Nothing is read inside what was read. -/
def Apart : Prop := ∀ {s b k}, m.read s = some b → 0 < k → k < (m.text b).length → m.read (s.drop k) = none

variable {m}

theorem read_nil : m.read [] = none := by
  cases h : m.read [] with
  | none => rfl
  | some b => exact absurd (List.prefix_nil.mp (m.text_prefix h)) (m.text_ne_nil h)

variable {s : List α} {b : β}

theorem text_pos (h : m.read s = some b) : 0 < (m.text b).length := List.length_pos_of_ne_nil (m.text_ne_nil h)

variable {skip k : Nat}

theorem hit_mem_piecesFrom (hapart : m.Apart) (hk : skip ≤ k) (h : m.read (s.drop k) = some b) :
    .hit b ∈ m.piecesFrom skip s := by
  induction s generalizing skip k with
  | nil =>
    rw [List.drop_nil, read_nil] at h
    cases h
  | cons u rest ih =>
    cases skip with
    | succ skip =>
      obtain ⟨j, rfl⟩ := Nat.exists_eq_add_of_le' hk
      exact ih (k := j + skip) (by omega) h
    | zero =>
      rw [piecesFrom]
      cases hread : m.read (u :: rest) with
      | none =>
        cases k with
        | zero =>
          rw [List.drop_zero, hread] at h
          cases h
        | succ k => exact List.mem_cons_of_mem _ (ih (Nat.zero_le k) h)
      | some c =>
        cases k with
        | zero =>
          rw [List.drop_zero, hread] at h
          obtain rfl := Option.some.inj h
          exact List.mem_cons_self
        | succ k =>
          refine List.mem_cons_of_mem _ (ih ?_ h)
          by_contra hlt
          have hpos := text_pos hread
          rw [hapart hread (Nat.succ_pos k) (by omega)] at h
          cases h

theorem read_of_mem_piecesFrom (h : .hit b ∈ m.piecesFrom skip s) :
    ∃ k, m.read (s.drop k) = some b := by
  induction s generalizing skip with
  | nil => cases skip <;> cases h
  | cons u rest ih =>
    cases skip with
    | succ skip =>
      obtain ⟨k, hk⟩ := ih h
      exact ⟨k + 1, hk⟩
    | zero =>
      rw [piecesFrom] at h
      cases hread : m.read (u :: rest) with
      | none =>
        rw [hread] at h
        rcases List.mem_cons.mp h with h | h
        · cases h
        · obtain ⟨k, hk⟩ := ih h
          exact ⟨k + 1, hk⟩
      | some c =>
        rw [hread] at h
        rcases List.mem_cons.mp h with h | h
        · injection h with h
          subst h
          exact ⟨0, hread⟩
        · obtain ⟨k, hk⟩ := ih h
          exact ⟨k + 1, hk⟩

theorem mem_hits : b ∈ m.hits s ↔ .hit b ∈ m.pieces s := by
  rw [hits, List.mem_filterMap]
  constructor
  · rintro ⟨p, hp, heq⟩
    cases p with
    | unit u => cases heq
    | hit c =>
      obtain rfl := Option.some.inj heq
      exact hp
  · exact fun h => ⟨_, h, rfl⟩

theorem mem_hits_iff (hapart : m.Apart) : b ∈ m.hits s ↔ ∃ k, m.read (s.drop k) = some b := by
  rw [mem_hits]
  constructor
  · exact read_of_mem_piecesFrom
  · rintro ⟨k, hk⟩
    exact hit_mem_piecesFrom hapart (Nat.zero_le k) hk

theorem piecesFrom_eq_drop (s : List α) (skip : Nat) : m.piecesFrom skip s = m.pieces (s.drop skip) := by
  induction s generalizing skip with
  | nil => cases skip <;> rfl
  | cons u rest ih =>
    cases skip with
    | zero => rfl
    | succ skip => exact ih skip

@[simp] theorem pieces_nil : m.pieces [] = [] := rfl

variable {u : α} {rest : List α}

theorem pieces_unit (h : m.read (u :: rest) = none) : m.pieces (u :: rest) = .unit u :: m.pieces rest := by
  rw [pieces, piecesFrom, h]
  rfl

theorem pieces_hit (h : m.read (m.text b ++ rest) = some b) :
    m.pieces (m.text b ++ rest) = .hit b :: m.pieces rest := by
  cases htext : m.text b with
  | nil => exact absurd htext (m.text_ne_nil h)
  | cons u t =>
    rw [htext] at h
    rw [List.cons_append] at h ⊢
    rw [pieces, piecesFrom, h]
    simp only [htext, List.length_cons, Nat.add_sub_cancel]
    rw [piecesFrom_eq_drop, List.drop_left]

@[simp] theorem hits_nil : m.hits [] = [] := rfl

theorem hits_unit (h : m.read (u :: rest) = none) : m.hits (u :: rest) = m.hits rest := by
  rw [hits, pieces_unit h]
  rfl

theorem hits_hit (h : m.read (m.text b ++ rest) = some b) :
    m.hits (m.text b ++ rest) = b :: m.hits rest := by
  rw [hits, pieces_hit h]
  rfl

variable {f : β → List α}

@[simp] theorem replace_nil : m.replace [] f = [] := rfl

theorem replace_unit (h : m.read (u :: rest) = none) :
    m.replace (u :: rest) f = u :: m.replace rest f := by
  rw [replace, pieces_unit h]
  rfl

theorem replace_hit (h : m.read (m.text b ++ rest) = some b) :
    m.replace (m.text b ++ rest) f = f b ++ m.replace rest f := by
  rw [replace, pieces_hit h]
  rfl

theorem replace_congr {f' : β → List α} (h : ∀ b ∈ m.hits s, f b = f' b) : m.replace s f = m.replace s f' := by
  rw [replace, replace, List.flatMap, List.flatMap]
  congr 1
  refine List.map_congr_left fun p hp => ?_
  cases p with
  | unit u => rfl
  | hit b => exact h b (mem_hits.mpr hp)

theorem replace_append {w : List α} (h : ∀ k < w.length, m.read ((w ++ rest).drop k) = none) :
    m.replace (w ++ rest) f = w ++ m.replace rest f := by
  induction w with
  | nil => rfl
  | cons u w ih =>
    have hhere : m.read (u :: (w ++ rest)) = none := h 0 (Nat.succ_pos _)
    rw [List.cons_append, replace_unit hhere, ih fun k hk => h (k + 1) (Nat.succ_lt_succ hk), List.cons_append]

theorem scan_induction {P : List α → Prop} (nil : P [])
    (unit : ∀ u rest, m.read (u :: rest) = none → P rest → P (u :: rest))
    (hit : ∀ b rest, m.read (m.text b ++ rest) = some b → P rest → P (m.text b ++ rest)) (s : List α) : P s := by
  induction hn : s.length using Nat.strong_induction_on generalizing s with
  | _ n ih =>
    cases s with
    | nil => exact nil
    | cons u rest =>
      cases hread : m.read (u :: rest) with
      | none => exact unit u rest hread (ih rest.length (by rw [← hn]; exact Nat.lt_succ_self _) rest rfl)
      | some b =>
        obtain ⟨t, ht⟩ := m.text_prefix hread
        have hpos := text_pos hread
        rw [← ht] at hread ⊢
        refine hit b t hread (ih t.length ?_ t rfl)
        rw [← hn, ← ht, List.length_append]
        omega

theorem replace_text (s : List α) : m.replace s m.text = s := by
  induction s using scan_induction (m := m) with
  | nil => rfl
  | unit u rest hread ih => rw [replace_unit hread, ih]
  | hit b rest hread ih => rw [replace_hit hread, ih]

/-- The text of pieces. -/
def textOf (m : Scanner α β) (ps : List (Piece α β)) : List α :=
  ps.flatMap fun
    | .unit u => [u]
    | .hit b => m.text b

theorem textOf_append (A B : List (Piece α β)) : m.textOf (A ++ B) = m.textOf A ++ m.textOf B := List.flatMap_append ..

theorem textOf_pieces (s : List α) : m.textOf (m.pieces s) = s := replace_text s

/-- What is read is read by its own text, whatever follows. -/
def Closed (m : Scanner α β) : Prop := ∀ {s b} (t : List α), m.read s = some b → m.read (m.text b ++ t) = some b

variable {B : List (Piece α β)}

theorem pieces_left (hclosed : m.Closed) {C : List (Piece α β)} (h : m.pieces s = B ++ C) :
    m.pieces (m.textOf B) = B := by
  induction B generalizing s with
  | nil => rfl
  | cons b B ih =>
    induction s using scan_induction (m := m) with
    | nil => cases h
    | unit u rest hread _ =>
      rw [pieces_unit hread] at h
      obtain ⟨rfl, hrest⟩ := List.cons.inj h
      have htext : rest = m.textOf B ++ m.textOf C := by
        rw [← textOf_pieces (m := m) rest, hrest]
        exact textOf_append B C
      have hread' : m.read (u :: m.textOf B) = none := by
        cases hsome : m.read (u :: m.textOf B) with
        | none => rfl
        | some x =>
          obtain ⟨t, ht⟩ := (m.text_prefix hsome).trans (List.prefix_append _ (m.textOf C))
          rw [List.cons_append, ← htext] at ht
          rw [← ht, hclosed t hsome] at hread
          cases hread
      have hpieces := pieces_unit hread'
      rw [ih hrest] at hpieces
      exact hpieces
    | hit c rest hread _ =>
      rw [pieces_hit hread] at h
      obtain ⟨rfl, hrest⟩ := List.cons.inj h
      have hpieces := pieces_hit (hclosed (m.textOf B) hread)
      rw [ih hrest] at hpieces
      exact hpieces

theorem pieces_right {A : List (Piece α β)} (h : m.pieces s = A ++ B) : m.pieces (m.textOf B) = B := by
  induction A generalizing s with
  | nil =>
    rw [List.nil_append] at h
    rw [← h, textOf_pieces]
  | cons a A ih =>
    induction s using scan_induction (m := m) with
    | nil => cases h
    | unit u rest hread _ =>
      rw [pieces_unit hread] at h
      exact ih (List.cons.inj h).2
    | hit c rest hread _ =>
      rw [pieces_hit hread] at h
      exact ih (List.cons.inj h).2

theorem pieces_stretch (hclosed : m.Closed) {A C : List (Piece α β)} (h : m.pieces s = A ++ B ++ C) :
    m.textOf B <:+: s ∧ m.pieces (m.textOf B) = B := by
  constructor
  · rw [← textOf_pieces (m := m) s, h, textOf_append, textOf_append]
    exact List.infix_append _ _ _
  · rw [List.append_assoc] at h
    exact pieces_left hclosed (pieces_right h)

end Scanner

end Scan

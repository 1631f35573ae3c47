import Mathlib

/-!
# Searching for a pattern

The first occurrence of a pattern in a list. A unit that the pattern does not have parts a list in two: no occurrence reaches from one half
into the other, so the pattern is first found behind what has no occurrence.
-/

namespace Search

variable {α : Type} [DecidableEq α] {pat : List α}

/-- The place of the first occurrence. -/
def indexOf (pat : List α) : List α → Option Nat
  | [] => if pat = [] then some 0 else none
  | a :: rest => if pat.isPrefixOf (a :: rest) then some 0 else (indexOf pat rest).map (· + 1)

theorem indexOf_self (rest : List α) : indexOf pat (pat ++ rest) = some 0 := by
  cases h : pat ++ rest with
  | nil => rw [indexOf, if_pos (List.append_eq_nil_iff.mp h).1]
  | cons a l =>
    rw [indexOf, if_pos]
    rw [List.isPrefixOf_iff_prefix, ← h]
    exact List.prefix_append _ _

omit [DecidableEq α] in
theorem append_cons_inj {sep : α} {a b r s : List α} (ha : sep ∉ a) (hb : sep ∉ b) (h : a ++ sep :: r = b ++ sep :: s) : a = b ∧ r = s := by
  induction a generalizing b with
  | nil =>
    cases b with
    | nil => exact ⟨rfl, (List.cons.inj h).2⟩
    | cons v b => exact absurd ((List.cons.inj h).1 ▸ List.mem_cons_self) hb
  | cons u a ih =>
    cases b with
    | nil => exact absurd ((List.cons.inj h).1 ▸ List.mem_cons_self) ha
    | cons v b =>
      obtain ⟨rfl, htail⟩ := List.cons.inj h
      obtain ⟨rfl, hrest⟩ := ih (fun hmem => ha (List.mem_cons_of_mem _ hmem)) (fun hmem => hb (List.mem_cons_of_mem _ hmem)) htail
      exact ⟨rfl, hrest⟩

theorem takeWhile_append_cons {sep : α} {a : List α} (h : sep ∉ a) (r : List α) : (a ++ sep :: r).takeWhile (· ≠ sep) = a := by
  rw [List.takeWhile_append_of_pos]
  · simp
  · intro u hu
    have hne : u ≠ sep := fun heq => h (heq ▸ hu)
    simpa using hne

omit [DecidableEq α] in
theorem infix_append_cons {sep : α} (hsep : sep ∉ pat) {x t : List α} (h : pat <:+: x ++ sep :: t) : pat <:+: x ∨ pat <:+: t := by
  obtain ⟨l, r, hlr⟩ := h
  rcases List.append_eq_append_iff.mp hlr with ⟨c, hx, hr⟩ | ⟨c, hl, hr⟩
  · exact .inl ⟨l, c, hx.symm⟩
  · cases c with
    | nil =>
      rw [List.append_nil] at hl
      exact .inl ⟨l, [], by rw [List.append_nil, hl]⟩
    | cons b c =>
      have ht : t = c ++ r := (List.cons.inj hr).2
      obtain rfl : sep = b := (List.cons.inj hr).1
      rcases List.append_eq_append_iff.mp hl with ⟨d, hx, hpat⟩ | ⟨d, hl', hpat⟩
      · exact absurd (hpat ▸ List.mem_append_right d List.mem_cons_self) hsep
      · cases d with
        | nil =>
          rw [List.nil_append] at hpat
          exact absurd (hpat ▸ List.mem_cons_self) hsep
        | cons e d =>
          have hc : c = d ++ pat := (List.cons.inj hpat).2
          exact .inr ⟨d, r, by rw [ht, hc]⟩

/-- What has no occurrence is passed over, up to a unit that the pattern has not. -/
theorem indexOf_append_cons {sep : α} (hsep : sep ∉ pat) {x : List α} (hx : ¬pat <:+: x) (t : List α) :
    indexOf pat (x ++ sep :: t) = (indexOf pat t).map (· + (x.length + 1)) := by
  induction x with
  | nil =>
    have hne : ¬pat.isPrefixOf (sep :: t) = true := by
      rw [List.isPrefixOf_iff_prefix]
      intro hpre
      cases pat with
      | nil => exact hx List.nil_infix
      | cons p pat =>
        rw [List.cons_prefix_cons] at hpre
        exact hsep (hpre.1 ▸ List.mem_cons_self)
    rw [List.nil_append, indexOf, if_neg hne]
    rfl
  | cons a x ih =>
    have hne : ¬pat.isPrefixOf (a :: (x ++ sep :: t)) = true := by
      rw [List.isPrefixOf_iff_prefix, ← List.cons_append]
      rintro ⟨r, hr⟩
      rcases List.append_eq_append_iff.mp hr with ⟨c, hc, _⟩ | ⟨c, hc, hrest⟩
      · exact hx ⟨[], c, by rw [List.nil_append, hc]⟩
      · cases c with
        | nil =>
          rw [List.append_nil] at hc
          exact hx (hc ▸ List.infix_rfl)
        | cons b c =>
          obtain ⟨rfl, _⟩ := List.cons.inj hrest
          exact hsep (hc ▸ List.mem_append_right _ List.mem_cons_self)
    rw [List.cons_append, indexOf, if_neg hne, ih fun h => hx (h.trans (List.suffix_cons a x).isInfix), Option.map_map]
    congr 1

theorem indexOf_append_of_head {p : α} {x : List α} (hx : p ∉ x) (t : List α) :
    indexOf (p :: pat) (x ++ t) = (indexOf (p :: pat) t).map (· + x.length) := by
  induction x with
  | nil => simp
  | cons a x ih =>
    have hne : ¬(p :: pat).isPrefixOf (a :: (x ++ t)) = true := by
      rw [List.isPrefixOf_iff_prefix, List.cons_prefix_cons]
      exact fun h => hx (h.1 ▸ List.mem_cons_self)
    rw [List.cons_append, indexOf, if_neg hne, ih fun h => hx (List.mem_cons_of_mem _ h), Option.map_map]
    congr 1

end Search

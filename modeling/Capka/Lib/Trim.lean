import Mathlib.Data.List.DropRight
import Mathlib.Data.List.TakeWhile

/-!
# Trimming

A list without the elements of a kind at both of its ends. A list whose ends are not of the kind stays as it is, and a trimmed list is
such a list.
-/

namespace Trim

variable {α : Type*}

/-- Without the elements of a kind at both ends. -/
def trim (p : α → Bool) (s : List α) : List α := (s.dropWhile p).rdropWhile p

/-- Neither end is of the kind. -/
structure Bare (p : α → Bool) (s : List α) : Prop where
  head : ∀ x ∈ s.head?, p x = false
  last : ∀ x ∈ s.getLast?, p x = false

variable {p : α → Bool} {s t : List α}

/-- A list is trimmed at its beginning when its first element is not of the kind. -/
theorem dropWhile_eq_self_iff : s.dropWhile p = s ↔ ∀ x ∈ s.head?, p x = false := by
  cases s with
  | nil => simp
  | cons x s =>
    rw [List.dropWhile_cons]
    cases hx : p x with
    | false => simp [hx]
    | true =>
      have hne : s.dropWhile p ≠ x :: s := fun h => by
        have hle := (List.dropWhile_sublist p (l := s)).length_le
        rw [h, List.length_cons] at hle
        omega
      simp [hx, hne]

theorem rdropWhile_eq_self_iff : s.rdropWhile p = s ↔ ∀ x ∈ s.getLast?, p x = false := by
  rw [List.rdropWhile, List.reverse_eq_iff, dropWhile_eq_self_iff, List.head?_reverse]

theorem head?_rdropWhile {x : α} (h : x ∈ (s.rdropWhile p).head?) : x ∈ s.head? := by
  obtain ⟨t, ht⟩ := List.rdropWhile_prefix p (l := s)
  cases hs : s.rdropWhile p with
  | nil =>
    rw [hs] at h
    cases h
  | cons y r =>
    rw [hs] at h ht
    rw [← ht]
    exact h

theorem bare_trim (p : α → Bool) (s : List α) : Bare p (trim p s) where
  head := by
    intro x hx
    have hmem := head?_rdropWhile hx
    have hhead := List.head?_dropWhile_not p s
    rw [Option.mem_def.1 hmem] at hhead
    exact by simpa using hhead
  last := by
    rw [← rdropWhile_eq_self_iff]
    exact List.rdropWhile_idempotent p _

theorem trim_eq_self_iff : trim p s = s ↔ Bare p s := by
  constructor
  · intro h
    exact h ▸ bare_trim p s
  · intro h
    rw [trim, dropWhile_eq_self_iff.2 h.head, rdropWhile_eq_self_iff.2 h.last]

theorem trim_sublist (p : α → Bool) (s : List α) : (trim p s).Sublist s :=
  (List.rdropWhile_prefix p _).sublist.trans (List.dropWhile_sublist p)

theorem mem_of_mem_trim {x : α} (h : x ∈ trim p s) : x ∈ s := (trim_sublist p s).subset h

theorem head_of_prefix (h : t <+: s) (hs : ∀ x ∈ s.head?, p x = false) : ∀ x ∈ t.head?, p x = false := by
  obtain ⟨r, rfl⟩ := h
  cases t with
  | nil => exact fun x hx => nomatch hx
  | cons y t => exact hs

theorem bare_append (hs : ∀ x ∈ s.head?, p x = false) (hne : s ≠ []) (ht : ∀ x ∈ t.getLast?, p x = false) (hne' : t ≠ []) :
    Bare p (s ++ t) where
  head := by
    intro x hx
    rw [List.head?_append_of_ne_nil s hne] at hx
    exact hs x hx
  last := by
    intro x hx
    rw [List.getLast?_append_of_ne_nil s hne'] at hx
    exact ht x hx

theorem rdropWhile_append_of_all {w : List α} (hw : ∀ x ∈ w, p x = true) : (s ++ w).rdropWhile p = s.rdropWhile p := by
  rw [List.rdropWhile, List.reverse_append, List.dropWhile_append_of_pos fun x hx => hw x (List.mem_reverse.1 hx), List.rdropWhile]

theorem trim_append_left {w : List α} (hw : ∀ x ∈ w, p x = true) : trim p (w ++ s) = trim p s := by
  rw [trim, List.dropWhile_append_of_pos hw, trim]

theorem trim_append_right {w : List α} (hw : ∀ x ∈ w, p x = true) : trim p (s ++ w) = trim p s := by
  by_cases hs : ∀ x ∈ s, p x = true
  · have hnil : s.dropWhile p = [] := List.dropWhile_eq_nil_iff.2 hs
    have hnil' : w.dropWhile p = [] := List.dropWhile_eq_nil_iff.2 hw
    rw [trim_append_left hs, trim, hnil', trim, hnil]
  · have hdrop : (s ++ w).dropWhile p = s.dropWhile p ++ w := by
      rw [List.dropWhile_append, if_neg]
      rw [List.isEmpty_iff, List.dropWhile_eq_nil_iff]
      exact hs
    rw [trim, hdrop, rdropWhile_append_of_all hw, trim]

theorem trim_append_of_bare (ht : Bare p t) (hne : t ≠ []) : trim p (t ++ s) = t ++ s.rdropWhile p := by
  have hhead : ∀ x ∈ (t ++ s).head?, p x = false := by
    intro x hx
    rw [List.head?_append_of_ne_nil t hne] at hx
    exact ht.head x hx
  rw [trim, dropWhile_eq_self_iff.2 hhead]
  induction s using List.reverseRecOn with
  | nil => rw [List.append_nil, List.rdropWhile_nil, List.append_nil, rdropWhile_eq_self_iff.2 ht.last]
  | append_singleton s x ih =>
    rw [← List.append_assoc]
    cases hx : p x with
    | true =>
      rw [List.rdropWhile_concat_pos _ _ _ hx, List.rdropWhile_concat_pos _ _ _ hx, ih]
      intro y hy
      rw [List.head?_append_of_ne_nil t hne] at hy
      exact ht.head y hy
    | false =>
      rw [List.rdropWhile_concat_neg _ _ _ (by rw [hx]; exact Bool.false_ne_true),
        List.rdropWhile_concat_neg _ _ _ (by rw [hx]; exact Bool.false_ne_true), List.append_assoc]

theorem exists_trim (p : α → Bool) (s : List α) :
    ∃ lead trail, s = lead ++ (trim p s ++ trail) ∧ (∀ x ∈ lead, p x = true) ∧ ∀ x ∈ trail, p x = true := by
  refine ⟨s.takeWhile p, (s.dropWhile p).rtakeWhile p, ?_, fun x hx => List.mem_takeWhile_imp hx, fun x hx => ?_⟩
  · rw [trim, List.rdropWhile_append_rtakeWhile, List.takeWhile_append_dropWhile]
  · exact List.mem_rtakeWhile_imp hx

theorem trim_rdropWhile (p : α → Bool) (s : List α) : trim p (s.rdropWhile p) = trim p s := by
  conv_rhs => rw [← List.rdropWhile_append_rtakeWhile (p := p) (l := s)]
  exact (trim_append_right fun x hx => List.mem_rtakeWhile_imp hx).symm

end Trim

import Mathlib.Data.List.Basic

/-!
# Lines

A list is split at a separator into its lines, and lines are joined with the separator between them. The lines a list begins with are
those it begins with as a list, up to a separator or its end.
-/

namespace Lines

variable {α : Type*} {sep : α} {ls ms : List (List α)} {s : List α}

theorem intercalate_append (hls : ls ≠ []) (hms : ms ≠ []) :
    [sep].intercalate (ls ++ ms) = [sep].intercalate ls ++ sep :: [sep].intercalate ms := by
  induction ls with
  | nil => exact absurd rfl hls
  | cons l ls ih =>
    cases ls with
    | nil => rw [List.singleton_append, List.intercalate_cons_of_ne_nil hms, List.intercalate_singleton, List.append_assoc,
        List.singleton_append]
    | cons l' ls =>
      rw [List.cons_append, List.cons_append, List.intercalate_cons_cons, ← List.cons_append, ih (List.cons_ne_nil _ _),
        List.intercalate_cons_cons, List.append_assoc, List.append_assoc, List.append_assoc]

theorem not_mem_of_mem_splitOn [BEq α] [LawfulBEq α] {l : List α} (h : l ∈ s.splitOn sep) : sep ∉ l := by
  induction s generalizing l with
  | nil =>
    rw [List.splitOn_nil, List.mem_singleton] at h
    exact h ▸ List.not_mem_nil
  | cons x s ih =>
    rw [List.splitOn_cons_eq_if_modifyHead] at h
    split at h
    · rcases List.mem_cons.1 h with rfl | h
      · exact List.not_mem_nil
      · exact ih h
    · rename_i hx
      cases hsplit : s.splitOn sep with
      | nil => exact absurd hsplit (List.splitOn_ne_nil _ _)
      | cons l' ls =>
        rw [hsplit, List.modifyHead_cons] at h
        rcases List.mem_cons.1 h with rfl | h
        · intro hmem
          rcases List.mem_cons.1 hmem with heq | hmem
          · exact hx (beq_iff_eq.2 heq.symm)
          · exact ih (hsplit ▸ List.mem_cons_self) hmem
        · exact ih (hsplit ▸ List.mem_cons_of_mem _ h)

/-- A list begins with lines when it begins with their text, and a separator or nothing is behind it. -/
theorem prefix_splitOn_iff [BEq α] [LawfulBEq α] (hsep : ∀ l ∈ ls, sep ∉ l) (hls : ls ≠ []) :
    ls <+: s.splitOn sep ↔ ∃ rest, s = [sep].intercalate ls ++ rest ∧ ∀ x ∈ rest.head?, x = sep := by
  constructor
  · rintro ⟨ms, hms⟩
    have hs : [sep].intercalate (ls ++ ms) = s := hms ▸ List.intercalate_splitOn sep
    rcases eq_or_ne ms [] with rfl | hne
    · exact ⟨[], by rw [← hs, List.append_nil, List.append_nil], fun x hx => (nomatch hx)⟩
    · exact ⟨sep :: [sep].intercalate ms, by rw [← hs, intercalate_append hls hne], fun x hx => (Option.some.inj hx).symm⟩
  · rintro ⟨rest, rfl, hrest⟩
    cases rest with
    | nil =>
      refine ⟨[], ?_⟩
      rw [List.append_nil, List.append_nil, List.splitOn_intercalate sep hsep hls]
    | cons x rest =>
      obtain rfl : x = sep := hrest x rfl
      rw [List.splitOn_append_cons_self, List.splitOn_intercalate x hsep hls]
      exact List.prefix_append _ _

theorem intercalate_eq_nil_iff : [sep].intercalate ls = [] ↔ ls = [] ∨ ls = [[]] := by
  cases ls with
  | nil => simp [List.intercalate]
  | cons l ls =>
    cases ls with
    | nil => simp
    | cons l' ls => simp

theorem mem_intercalate {x : α} (h : x ∈ [sep].intercalate ls) : x = sep ∨ ∃ l ∈ ls, x ∈ l := by
  induction ls with
  | nil => cases h
  | cons l ls ih =>
    cases ls with
    | nil =>
      rw [List.intercalate_singleton] at h
      exact .inr ⟨l, List.mem_cons_self, h⟩
    | cons l' ls =>
      rw [List.intercalate_cons_cons, List.mem_append, List.mem_append, List.mem_singleton] at h
      rcases h with (h | h) | h
      · exact .inr ⟨l, List.mem_cons_self, h⟩
      · exact .inl h
      · rcases ih h with h | ⟨m, hm, hx⟩
        · exact .inl h
        · exact .inr ⟨m, List.mem_cons_of_mem _ hm, hx⟩

theorem mem_of_mem_splitOn [BEq α] [LawfulBEq α] {l : List α} {x : α} (h : l ∈ s.splitOn sep) (hx : x ∈ l) : x ∈ s := by
  have hjoin : [sep].intercalate (s.splitOn sep) = s := List.intercalate_splitOn sep
  rw [← hjoin]
  generalize s.splitOn sep = ls at h
  induction ls with
  | nil => cases h
  | cons m ls ih =>
    cases ls with
    | nil =>
      rw [List.intercalate_singleton]
      exact List.mem_singleton.1 h ▸ hx
    | cons m' ls =>
      rw [List.intercalate_cons_cons, List.mem_append]
      rcases List.mem_cons.1 h with rfl | h
      · exact .inl (List.mem_append_left _ hx)
      · exact .inr (ih h)

theorem getLast?_intercalate {l : List α} (hl : l ≠ []) (ls : List (List α)) :
    ([sep].intercalate (ls ++ [l])).getLast? = l.getLast? := by
  rcases eq_or_ne ls [] with rfl | hls
  · rw [List.nil_append, List.intercalate_singleton]
  · rw [intercalate_append hls (List.cons_ne_nil _ _), List.intercalate_singleton, List.getLast?_append_of_ne_nil _ (List.cons_ne_nil _ _),
      List.getLast?_cons_of_ne_nil hl]

theorem splitOn_intercalate_concat [BEq α] [LawfulBEq α] (hsep : ∀ l ∈ ls, sep ∉ l) (hls : ls ≠ []) :
    ([sep].intercalate ls ++ [sep]).splitOn sep = ls ++ [[]] := by
  rw [List.splitOn_append_cons_self, List.splitOn_intercalate sep hsep hls, List.splitOn_nil]

end Lines

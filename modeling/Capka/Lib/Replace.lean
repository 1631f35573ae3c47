import Mathlib

/-!
# Replacing a form by a label

A text is split at the occurrences of a form, found from the left, and joined by a label. No piece has the form in it. What does not have
the first and the last unit of the label in it cannot stand across a label: if it stands in the joined text, it stands in a piece or in
the label. A form so marked off is gone after it is replaced, and no later replacement brings it back (`absent_foldl`).
-/

namespace Replace

variable {α : Type} {form g label s : List α}

/-! ## Across a label -/

theorem eq_nil_of_prefix_cons {x : α} {b : List α} (hx : x ∉ g) (h : g <+: x :: b) : g = [] := by
  cases g with
  | nil => rfl
  | cons y g =>
    obtain ⟨rfl, -⟩ := List.cons_prefix_cons.mp h
    exact absurd List.mem_cons_self hx

theorem prefix_append_cons_iff {x : α} {a b : List α} (hx : x ∉ g) : g <+: a ++ x :: b ↔ g <+: a := by
  constructor
  · intro h
    induction a generalizing g with
    | nil =>
      rw [eq_nil_of_prefix_cons hx h]
    | cons y a ih =>
      cases g with
      | nil => exact List.nil_prefix
      | cons z g =>
        obtain ⟨rfl, hrest⟩ := List.cons_prefix_cons.mp h
        exact List.cons_prefix_cons.mpr ⟨rfl, ih (fun hmem => hx (List.mem_cons_of_mem z hmem)) hrest⟩
  · exact fun h => h.trans (List.prefix_append _ _)

theorem infix_of_append_cons {x : α} {a b : List α} (hx : x ∉ g) (h : g <:+: a ++ x :: b) : g <:+: a ∨ g <:+: b := by
  rcases List.infix_append_iff.mp h with h | h | ⟨l, r, rfl, hl, hr⟩
  · exact .inl h
  · rcases List.infix_cons_iff.mp h with h | h
    · rw [eq_nil_of_prefix_cons hx h]
      exact .inl List.nil_infix
    · exact .inr h
  · rw [List.mem_append, not_or] at hx
    rw [eq_nil_of_prefix_cons hx.2 hr, List.append_nil]
    exact .inl hl.isInfix

/-- The text begins and ends with a unit that the form does not have. -/
def Bounds (label g : List α) : Prop := ∃ o mid c, label = o :: (mid ++ [c]) ∧ o ∉ g ∧ c ∉ g

/-- What stands in joined pieces and cannot stand across a label stands in a piece or in the label. -/
theorem infix_of_intercalate (hb : Bounds label g) {ps : List (List α)} (h : g <:+: label.intercalate ps) :
    g <:+: label ∨ g = [] ∨ ∃ p ∈ ps, g <:+: p := by
  obtain ⟨o, mid, c, rfl, ho, hc⟩ := hb
  induction ps with
  | nil => exact .inr (.inl (List.infix_nil.mp h))
  | cons p ps ih =>
    cases ps with
    | nil => exact .inr (.inr ⟨p, List.mem_cons_self, by simpa using h⟩)
    | cons q ps =>
      rw [List.intercalate_cons_cons, List.append_assoc, List.cons_append] at h
      rcases infix_of_append_cons ho h with h | h
      · exact .inr (.inr ⟨p, List.mem_cons_self, h⟩)
      · rw [List.append_assoc, List.singleton_append] at h
        rcases infix_of_append_cons hc h with h | h
        · exact .inl (h.trans ⟨[o], [c], rfl⟩)
        · rcases ih h with h | h | ⟨r, hr, h⟩
          · exact .inl h
          · exact .inr (.inl h)
          · exact .inr (.inr ⟨r, List.mem_cons_of_mem p hr, h⟩)

/-! ## Splitting and joining -/

variable [DecidableEq α]

/-- The pieces of the text between the occurrences of the form; the first units still to be skipped belong to the last occurrence. -/
def split (form : List α) : Nat → List α → List (List α)
  | _, [] => [[]]
  | skip + 1, _ :: rest => split form skip rest
  | 0, u :: rest =>
    if form <+: u :: rest then [] :: split form (form.length - 1) rest
    else (split form 0 rest).modifyHead (u :: ·)

/-- Every occurrence of the form replaced by the label. -/
def replaceAll (form label s : List α) : List α := label.intercalate (split form 0 s)

theorem exists_split_cons (form s : List α) (skip : Nat) :
    ∃ p ps, split form skip s = p :: ps ∧ (skip = 0 → p <+: s) := by
  induction s generalizing skip with
  | nil => exact ⟨[], [], by cases skip <;> rfl, fun _ => List.prefix_rfl⟩
  | cons u rest ih =>
    cases skip with
    | succ skip =>
      obtain ⟨p, ps, h, -⟩ := ih skip
      exact ⟨p, ps, h, fun h => by cases h⟩
    | zero =>
      by_cases hhere : form <+: u :: rest
      · exact ⟨[], _, by rw [split, if_pos hhere], fun _ => List.nil_prefix⟩
      · obtain ⟨p, ps, h, hp⟩ := ih 0
        refine ⟨u :: p, ps, by rw [split, if_neg hhere, h]; rfl, fun _ => ?_⟩
        exact List.cons_prefix_cons.mpr ⟨rfl, hp rfl⟩

theorem infix_of_mem_split {skip : Nat} {p : List α} (h : p ∈ split form skip s) : p <:+: s := by
  induction s generalizing skip p with
  | nil =>
    cases skip <;>
    · rw [split, List.mem_singleton] at h
      rw [h]
  | cons u rest ih =>
    cases skip with
    | succ skip => exact List.infix_cons (ih h)
    | zero =>
      rw [split] at h
      split_ifs at h with hhere
      · rcases List.mem_cons.mp h with rfl | h
        · exact List.nil_infix
        · exact List.infix_cons (ih h)
      · obtain ⟨q, qs, hsplit, hq⟩ := exists_split_cons form rest 0
        rw [hsplit, List.modifyHead_cons] at h
        rcases List.mem_cons.mp h with rfl | h
        · exact (List.cons_prefix_cons.mpr ⟨rfl, hq rfl⟩).isInfix
        · exact List.infix_cons (ih (hsplit ▸ List.mem_cons_of_mem q h))

theorem absent_of_mem_split (hform : form ≠ []) {skip : Nat} {p : List α} (h : p ∈ split form skip s) : ¬form <:+: p := by
  induction s generalizing skip p with
  | nil =>
    cases skip <;>
    · rw [split, List.mem_singleton] at h
      rw [h, List.infix_nil]
      exact hform
  | cons u rest ih =>
    cases skip with
    | succ skip => exact ih h
    | zero =>
      rw [split] at h
      split_ifs at h with hhere
      · rcases List.mem_cons.mp h with rfl | h
        · rw [List.infix_nil]
          exact hform
        · exact ih h
      · obtain ⟨q, qs, hsplit, hq⟩ := exists_split_cons form rest 0
        rw [hsplit, List.modifyHead_cons] at h
        rcases List.mem_cons.mp h with rfl | h
        · rw [List.infix_cons_iff, not_or]
          -- at the first unit it would be an occurrence, which ends the piece before it
          refine ⟨fun hfirst => hhere (hfirst.trans (List.cons_prefix_cons.mpr ⟨rfl, hq rfl⟩)), ?_⟩
          exact ih (hsplit ▸ List.mem_cons_self)
        · exact ih (hsplit ▸ List.mem_cons_of_mem q h)

theorem absent_replaceAll (hg : g ≠ []) (hb : Bounds label g) (hl : ¬g <:+: label) : ¬g <:+: replaceAll g label s := by
  intro h
  rcases infix_of_intercalate hb h with h | h | ⟨p, hp, h⟩
  · exact hl h
  · exact hg h
  · exact absent_of_mem_split hg hp h

theorem absent_replaceAll_of_absent (hg : g ≠ []) (hb : Bounds label g) (hl : ¬g <:+: label) (hs : ¬g <:+: s) :
    ¬g <:+: replaceAll form label s := by
  intro h
  rcases infix_of_intercalate hb h with h | h | ⟨p, hp, h⟩
  · exact hl h
  · exact hg h
  · exact hs (h.trans (infix_of_mem_split hp))

/-- After replacements one after the other, a form that was among them is gone, in whatever order they came. -/
theorem absent_foldl {rs : List (List α × List α)} (hg : g ≠ []) (hb : ∀ r ∈ rs, Bounds r.2 g ∧ ¬g <:+: r.2)
    (h : ¬g <:+: s ∨ ∃ r ∈ rs, r.1 = g) : ¬g <:+: rs.foldl (fun out r => replaceAll r.1 r.2 out) s := by
  induction rs generalizing s with
  | nil =>
    rcases h with h | ⟨r, hr, -⟩
    · exact h
    · cases hr
  | cons r rs ih =>
    obtain ⟨hbounds, hlabel⟩ := hb r List.mem_cons_self
    refine ih (fun q hq => hb q (List.mem_cons_of_mem r hq)) ?_
    rcases h with h | ⟨q, hq, rfl⟩
    · exact .inl (absent_replaceAll_of_absent hg hbounds hlabel h)
    · rcases List.mem_cons.mp hq with rfl | hq
      · exact .inl (absent_replaceAll hg hbounds hlabel)
      · exact .inr ⟨q, hq, rfl⟩

/-! ## Counting pieces -/

theorem split_pos (form s : List α) (skip : Nat) : 0 < (split form skip s).length := by
  obtain ⟨p, ps, h, -⟩ := exists_split_cons form s skip
  rw [h]
  exact Nat.succ_pos _

/-- The pieces on both sides of a unit that the form does not have; the two next to the unit are one. -/
theorem split_length_append_cons {x : α} {a b : List α} (hform : form ≠ []) (hx : x ∉ form) {skip : Nat} (hskip : skip ≤ a.length) :
    (split form skip (a ++ x :: b)).length + 1 = (split form skip a).length + (split form 0 b).length := by
  induction a generalizing skip with
  | nil =>
    obtain rfl : skip = 0 := Nat.le_zero.mp hskip
    have hno : ¬form <+: x :: b := fun h => hform (eq_nil_of_prefix_cons hx h)
    have hsplit : split form 0 (x :: b) = (split form 0 b).modifyHead (x :: ·) := if_neg hno
    rw [List.nil_append, hsplit, List.length_modifyHead, Nat.add_comm]
    rfl
  | cons u a ih =>
    cases skip with
    | succ skip => exact ih (Nat.le_of_succ_le_succ hskip)
    | zero =>
      rw [List.cons_append, split, split]
      by_cases hhere : form <+: u :: a
      · have hhere' : form <+: u :: (a ++ x :: b) := (prefix_append_cons_iff hx).mpr hhere
        have hlen := hhere.length_le
        rw [List.length_cons] at hlen
        have hle : form.length - 1 ≤ a.length := by omega
        have hrest := ih hle
        rw [if_pos hhere, if_pos hhere', List.length_cons, List.length_cons]
        omega
      · have hhere' : ¬form <+: u :: (a ++ x :: b) := fun h => hhere ((prefix_append_cons_iff hx).mp h)
        rw [if_neg hhere, if_neg hhere', List.length_modifyHead, List.length_modifyHead]
        exact ih (Nat.zero_le _)

example : replaceAll [1, 1] [0, 7, 0] [2, 1, 1, 1, 1, 3, 1] = [2, 0, 7, 0, 0, 7, 0, 3, 1] := by decide

end Replace

import Capka.Lib.Utf16

/-!
# Surrogates without their pairs

A text that is cut between the halves of a pair has two surrogates without their pairs that it did not have before. What leaves the
surrogates alone, and what is cut where no pair is, makes none.
-/

namespace Ecma

/-- A surrogate, a half of a pair or not. -/
def isSurrogate (u : UInt16) : Bool := isHigh u || isLow u

/-- The surrogates without their pairs. -/
def strays : Units → Nat
  | [] => 0
  | [u] => if isSurrogate u then 1 else 0
  | u :: v :: rest => if isHigh u && isLow v then strays rest else (if isSurrogate u then 1 else 0) + strays (v :: rest)

namespace StraysAux

variable {u v : UInt16} {s t : Units} {p : UInt16 → Bool}

theorem strays_pair (h : (isHigh u && isLow v) = true) (rest : Units) : strays (u :: v :: rest) = strays rest := by
  rw [strays, if_pos h]

theorem strays_lone (h : pairs u s = false) : strays (u :: s) = (if isSurrogate u then 1 else 0) + strays s := by
  cases s with
  | nil => rfl
  | cons v s =>
    have hpair : (isHigh u && isLow v) = false := h
    rw [strays, if_neg (by simp [hpair])]

theorem not_surrogate_iff : isSurrogate u = false ↔ isHigh u = false ∧ isLow u = false := Bool.or_eq_false_iff

theorem strays_cons (h : isSurrogate u = false) (s : Units) : strays (u :: s) = strays s := by
  rw [strays_lone (by simp [pairs, (not_surrogate_iff.mp h).1]), if_neg (by simp [h]), Nat.zero_add]

theorem strays_append_left (h : ∀ u ∈ s, isSurrogate u = false) : strays (s ++ t) = strays t := by
  induction s with
  | nil => rfl
  | cons u s ih => rw [List.cons_append, strays_cons (h u List.mem_cons_self), ih fun v hv => h v (List.mem_cons_of_mem _ hv)]

theorem strays_append (s : Units) (ht : Fresh t) : strays (s ++ t) = strays s + strays t := by
  induction s using scalars.induct with
  | case1 => simp [strays]
  | case2 u =>
    have hpair : pairs u t = false := by
      cases t with
      | nil => simp [pairs]
      | cons v t => simp [pairs, ht v (by simp)]
    exact strays_lone hpair
  | case3 u v rest h ih =>
    rw [List.cons_append, List.cons_append, strays_pair h, strays_pair h, ih]
  | case4 u v rest h ih =>
    have hpair : ∀ rest, pairs u (v :: rest) = false := fun _ => by simpa [pairs] using h
    rw [List.cons_append, List.cons_append, strays_lone (hpair _), strays_lone (hpair _), ← List.cons_append, ih, Nat.add_assoc]

theorem fresh_of_all (h : ∀ u ∈ t, isSurrogate u = false) : Fresh t := fun u hu =>
  (not_surrogate_iff.mp (h u (List.mem_of_mem_head? hu))).2

theorem strays_append_right (s : Units) (h : ∀ u ∈ t, isSurrogate u = false) : strays (s ++ t) = strays s := by
  have hnone : strays t = 0 := by simpa [strays] using strays_append_left (t := []) h
  rw [strays_append s (fresh_of_all h), hnone, Nat.add_zero]

theorem strays_cons_le (u : UInt16) (s : Units) : strays (u :: s) ≤ (if isSurrogate u then 1 else 0) + strays s := by
  cases hpair : pairs u s with
  | false => rw [strays_lone hpair]
  | true =>
    cases s with
    | nil => simp [pairs] at hpair
    | cons v s =>
      have hboth : isHigh u = true ∧ isLow v = true := by simpa [pairs] using hpair
      have hlone : pairs v s = false := by
        have hlow := isLow_iff.mp hboth.2
        rw [pairs, Bool.and_eq_false_iff]
        refine .inl (Bool.eq_false_iff.mpr fun hhigh => ?_)
        rw [isHigh_iff] at hhigh
        omega
      rw [strays_pair hpair, strays_lone hlone]
      omega

theorem strays_map {f : UInt16 → UInt16} (hhigh : ∀ u, isHigh (f u) = isHigh u) (hlow : ∀ u, isLow (f u) = isLow u) (s : Units) :
    strays (s.map f) = strays s := by
  induction s using scalars.induct with
  | case1 => rfl
  | case2 u => simp [strays, isSurrogate, hhigh, hlow]
  | case3 u v rest h ih =>
    rw [List.map_cons, List.map_cons, strays_pair (by rw [hhigh, hlow]; exact h), strays_pair h, ih]
  | case4 u v rest h ih =>
    rw [List.map_cons] at ih
    rw [List.map_cons, List.map_cons, strays, strays, hhigh, hlow, if_neg h, if_neg h, ih, isSurrogate, isSurrogate, hhigh, hlow]

theorem strays_filter_le (hp : ∀ u, isSurrogate u = true → p u = true) (s : Units) : strays (s.filter p) ≤ strays s := by
  induction s using scalars.induct with
  | case1 => simp
  | case2 u =>
    rw [List.filter_singleton]
    cases hu : p u <;> simp [strays]
  | case3 u v rest h ih =>
    have hboth := h
    rw [Bool.and_eq_true] at hboth
    rw [List.filter_cons_of_pos (hp u (by simp [isSurrogate, hboth.1])), List.filter_cons_of_pos (hp v (by simp [isSurrogate, hboth.2])),
      strays_pair h, strays_pair h]
    exact ih
  | case4 u v rest h ih =>
    rw [strays, if_neg h, List.filter_cons]
    split_ifs with hu hsurrogate hsurrogate
    · exact (strays_cons_le u _).trans (by rw [if_pos hsurrogate]; omega)
    · exact (strays_cons_le u _).trans (by rw [if_neg hsurrogate]; omega)
    · exact absurd (hp u hsurrogate) hu
    · omega

end StraysAux

end Ecma

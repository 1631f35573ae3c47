import Mathlib.Logic.Relation
import Mathlib.Logic.Relator

/-!
# Linear relations

A relation under which an element has at most one successor and at most one predecessor splits its elements into chains. Two elements of
one chain are comparable, what grows along a step grows along the chain, and an element nothing comes after is the end of its chain.
-/

namespace Linear

variable {α : Type*} {r : α → α → Prop}

open Relation

theorem total_above (h : Relator.BiUnique r) {a b c : α} (ha : ReflTransGen r a c) (hb : ReflTransGen r b c) :
    ReflTransGen r a b ∨ ReflTransGen r b a := by
  have hswap : Relator.RightUnique (Function.swap r) := fun x y z hy hz => h.1 hy hz
  rcases ReflTransGen.total_of_right_unique hswap ha.swap hb.swap with hab | hba
  · exact .inr hab.swap
  · exact .inl hba.swap

theorem total (h : Relator.BiUnique r) {a b : α} (hab : EqvGen r a b) : ReflTransGen r a b ∨ ReflTransGen r b a := by
  induction hab with
  | rel a b hab => exact .inl (.single hab)
  | refl a => exact .inl .refl
  | symm a b _ ih => exact ih.symm
  | trans a b c _ _ ihab ihbc =>
    rcases ihab with hab | hba
    · rcases ihbc with hbc | hcb
      · exact .inl (hab.trans hbc)
      · exact total_above h hab hcb
    · rcases ihbc with hbc | hcb
      · exact ReflTransGen.total_of_right_unique h.2 hba hbc
      · exact .inr (hcb.trans hba)

theorem top (h : Relator.BiUnique r) {a b : α} (htop : ∀ x, ¬r x a) (hab : EqvGen r a b) : ReflTransGen r a b := by
  rcases total h hab with hab | hba
  · exact hab
  · rcases ReflTransGen.cases_tail hba with rfl | ⟨x, _, hx⟩
    · exact .refl
    · exact absurd hx (htop x)

theorem top_unique (h : Relator.BiUnique r) {a b : α} (ha : ∀ x, ¬r x a) (hb : ∀ x, ¬r x b) (hab : EqvGen r a b) : a = b := by
  rcases ReflTransGen.cases_tail (top h ha hab) with rfl | ⟨x, _, hx⟩
  · rfl
  · exact absurd hx (hb x)

theorem rises {P : α → Prop} (hstep : ∀ a b, r a b → P b → P a) {a b : α} (hab : ReflTransGen r a b) (hb : P b) : P a := by
  induction hab using ReflTransGen.head_induction_on with
  | refl => exact hb
  | head hac _ ih => exact hstep _ _ hac ih

end Linear

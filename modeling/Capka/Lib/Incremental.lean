import Mathlib

/-!
# Reading items off a stream that arrives in chunks

A reader takes one item off the front of a buffer, or waits for more. What it has taken does not depend on what arrives later, so a
buffer that is read whenever a chunk arrives yields the items of the whole stream, wherever the chunks were cut (`consume_chunks`).
-/

namespace Incremental

/-- Takes an item off the front of a buffer. It uses some of the buffer up, and more behind it changes nothing about the item. -/
structure Reader (β α : Type*) where
  take : List β → Option (α × List β)
  shorter : ∀ {b : List β} {a : α} {r : List β}, take b = some (a, r) → r.length < b.length
  stable : ∀ {b : List β} {a : α} {r : List β} (x : List β), take b = some (a, r) → take (b ++ x) = some (a, r ++ x)

namespace Reader

variable {β α σ : Type*} (R : Reader β α)

/-- Take items off a buffer and act on each, until the reader waits. -/
def loop (act : σ → α → σ) : Nat → σ × List β → σ × List β
  | 0, s => s
  | fuel + 1, (s, buf) =>
    match R.take buf with
    | none => (s, buf)
    | some (a, rest) => loop act fuel (act s a, rest)

/-- A chunk arrives: it is appended to the buffer, and the buffer is read. -/
def consume (act : σ → α → σ) (s : σ × List β) (chunk : List β) : σ × List β :=
  R.loop act (s.2 ++ chunk).length (s.1, s.2 ++ chunk)

/-- A buffer is these items, with this rest that is no item yet. -/
inductive Reads : List β → List α → List β → Prop
  | wait {b : List β} (h : R.take b = none) : Reads b [] b
  | item {b r rest : List β} {a : α} {items : List α} (h : R.take b = some (a, r)) (ht : Reads r items rest) : Reads b (a :: items) rest

variable {R}

theorem exists_reads (R : Reader β α) (b : List β) : ∃ items rest, R.Reads b items rest := by
  induction hn : b.length using Nat.strong_induction_on generalizing b with
  | _ n ih =>
    cases h : R.take b with
    | none => exact ⟨[], b, .wait h⟩
    | some ar =>
      obtain ⟨items, rest, hreads⟩ := ih ar.2.length (hn ▸ R.shorter h) ar.2 rfl
      exact ⟨ar.1 :: items, rest, .item h hreads⟩

theorem Reads.unique {b : List β} {items items' : List α} {rest rest' : List β} (h : R.Reads b items rest) (h' : R.Reads b items' rest') :
    items = items' ∧ rest = rest' := by
  induction h generalizing items' rest' with
  | wait hwait =>
    cases h' with
    | wait _ => exact ⟨rfl, rfl⟩
    | item htake _ =>
      rw [hwait] at htake
      cases htake
  | item htake _ ih =>
    cases h' with
    | wait hwait =>
      rw [hwait] at htake
      cases htake
    | item htake' ht' =>
      rw [htake] at htake'
      cases htake'
      obtain ⟨rfl, rfl⟩ := ih ht'
      exact ⟨rfl, rfl⟩

theorem Reads.take_rest {b : List β} {items : List α} {rest : List β} (h : R.Reads b items rest) : R.take rest = none := by
  induction h with
  | wait hwait => exact hwait
  | item _ _ ih => exact ih

theorem Reads.append {b x : List β} {items items' : List α} {rest rest' : List β} (h : R.Reads b items rest)
    (h' : R.Reads (rest ++ x) items' rest') : R.Reads (b ++ x) (items ++ items') rest' := by
  induction h with
  | wait _ => exact h'
  | item htake _ ih => exact .item (R.stable x htake) (ih h')

theorem loop_eq (act : σ → α → σ) {b : List β} {items : List α} {rest : List β} (h : R.Reads b items rest) {fuel : Nat}
    (hfuel : b.length ≤ fuel) (s : σ) : R.loop act fuel (s, b) = (items.foldl act s, rest) := by
  induction h generalizing fuel s with
  | wait hwait =>
    cases fuel with
    | zero => rfl
    | succ fuel =>
      rw [loop, hwait]
      rfl
  | item htake _ ih =>
    have hshort := R.shorter htake
    obtain ⟨n, rfl⟩ : ∃ n, fuel = n + 1 := ⟨fuel - 1, by omega⟩
    rw [loop, htake]
    exact ih (by omega) _

theorem consume_chunks (act : σ → α → σ) {buf : List β} (hbuf : R.take buf = none) {chunks : List (List β)} {items : List α}
    {rest : List β} (h : R.Reads (buf ++ chunks.flatten) items rest) (s : σ) :
    chunks.foldl (R.consume act) (s, buf) = (items.foldl act s, rest) := by
  induction chunks generalizing buf items s with
  | nil =>
    rw [List.flatten_nil, List.append_nil] at h
    obtain ⟨rfl, rfl⟩ := h.unique (.wait hbuf)
    rfl
  | cons chunk chunks ih =>
    obtain ⟨first, left, hfirst⟩ := exists_reads R (buf ++ chunk)
    obtain ⟨later, last, hlater⟩ := exists_reads R (left ++ chunks.flatten)
    have hall := hfirst.append hlater
    rw [List.append_assoc, ← List.flatten_cons] at hall
    obtain ⟨rfl, rfl⟩ := h.unique hall
    have hstep : R.consume act (s, buf) chunk = (first.foldl act s, left) := loop_eq act hfirst le_rfl s
    rw [List.foldl_cons, hstep, ih hfirst.take_rest hlater, List.foldl_append]

end Reader

end Incremental

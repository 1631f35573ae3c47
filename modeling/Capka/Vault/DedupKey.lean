import Mathlib
import Capka.Lib.Json
import Capka.Lib.Search
import Capka.Lib.StableSort

/-!
# The key of an exact duplicate

The text whose hash says that a fact is known: the statement, folded, a line feed, and the value with its keys in order. Two facts have one
text exactly if their folded statements are equal and their values are equal up to the order of keys.
-/

namespace Capka

namespace Vault

open Ecma StableSort

/-! ## The text -/

/-- Runs of white space made one space. -/
def collapseSpaces : Units → Units
  | [] => []
  | u :: rest =>
    if isSpace u then if rest.head?.any isSpace then collapseSpaces rest else 0x20 :: collapseSpaces rest
    else u :: collapseSpaces rest

def trim (s : Units) : Units := (s.dropWhile isSpace).rdropWhile isSpace

/-- `dedupKeyNorm`, with the case mapping it is given. -/
def dedupKeyNorm (toLowerCase : Units → Units) (s : Units) : Units := collapseSpaces (trim (toLowerCase s))

/-- The order of `sort`: by code units. -/
def sortKey (f : Units × Units) : List Nat := f.1.map UInt16.toNat

mutual

def canonicalValue : Json → Units
  | .null => stringify .null
  | .bool b => stringify (.bool b)
  | .num n => stringify (.num n)
  | .str s => stringify (.str s)
  | .arr items => 0x5b :: (commas (canonicalItems items) ++ [0x5d])
  | .obj fields => 0x7b :: (commas ((sortBy sortKey (canonicalFields fields)).map fun f => member f.1 f.2) ++ [0x7d])

def canonicalItems : List Json → List Units
  | [] => []
  | v :: items => canonicalValue v :: canonicalItems items

def canonicalFields : List (Units × Json) → List (Units × Units)
  | [] => []
  | (k, v) :: fields => (k, canonicalValue v) :: canonicalFields fields

end

/-- What `normalizedHashOf` hashes; an absent value is `null`. -/
def dedupText (toLowerCase : Units → Units) (statement : Units) (value : Option Json) : Units :=
  dedupKeyNorm toLowerCase statement ++ 0x0a :: canonicalValue (value.getD .null)

def normalizedHashOf (sha256 toLowerCase : Units → Units) (statement : Units) (value : Option Json) : Units :=
  sha256 (dedupText toLowerCase statement value)

/-! ## Equal values -/

mutual

/-- The keys of each object are distinct, at every depth. -/
def DistinctKeys : Json → Prop
  | .arr items => DistinctKeysItems items
  | .obj fields => (fields.map Prod.fst).Nodup ∧ DistinctKeysFields fields
  | _ => True

def DistinctKeysItems : List Json → Prop
  | [] => True
  | v :: items => DistinctKeys v ∧ DistinctKeysItems items

def DistinctKeysFields : List (Units × Json) → Prop
  | [] => True
  | (_, v) :: fields => DistinctKeys v ∧ DistinctKeysFields fields

end

/-- A value as it is in memory: no object has a key twice. -/
abbrev JsonValue := { v : Json // DistinctKeys v }

mutual

/-- Equal up to the order of keys, at every depth. -/
def SameJson : Json → Json → Prop
  | .null, .null => True
  | .bool a, .bool b => a = b
  | .num m, .num n => m.text = n.text
  | .str s, .str t => s = t
  | .arr xs, .arr ys => SameItems xs ys
  | .obj fs, .obj gs => fs.length = gs.length ∧ SameFields fs gs
  | _, _ => False

/-- Item by item. -/
def SameItems : List Json → List Json → Prop
  | [], [] => True
  | v :: xs, w :: ys => SameJson v w ∧ SameItems xs ys
  | _, _ => False

/-- Each member has its like among the others. -/
def SameFields : List (Units × Json) → List (Units × Json) → Prop
  | [], _ => True
  | (k, v) :: fs, gs => (∃ w, (k, w) ∈ gs ∧ SameJson v w) ∧ SameFields fs gs

end

/-- The values are equal; an absent value is `null`. -/
def SameValue (v w : Option JsonValue) : Prop := SameJson ((v.map Subtype.val).getD .null) ((w.map Subtype.val).getD .null)

namespace DedupAux

/-! ### The two halves -/

theorem not_newline_of_collapseSpaces {s : Units} {u : UInt16} (h : u ∈ collapseSpaces s) : u ≠ 0x0a := by
  induction s with
  | nil => cases h
  | cons v rest ih =>
    rw [collapseSpaces] at h
    split_ifs at h with hv
    · exact ih h
    · rcases List.mem_cons.mp h with rfl | h
      · decide
      · exact ih h
    · rcases List.mem_cons.mp h with rfl | h
      · rintro rfl
        exact hv (by decide)
      · exact ih h

theorem not_newline_of_dedupKeyNorm (toLowerCase : Units → Units) (s : Units) : ∀ u ∈ dedupKeyNorm toLowerCase s, u ≠ 0x0a :=
  fun _ hu => not_newline_of_collapseSpaces hu

theorem append_newline_inj {a b r s : Units} (ha : ∀ u ∈ a, u ≠ 0x0a) (hb : ∀ u ∈ b, u ≠ 0x0a) :
    a ++ 0x0a :: r = b ++ 0x0a :: s ↔ a = b ∧ r = s := by
  constructor
  · exact Search.append_cons_inj (fun hmem => ha _ hmem rfl) (fun hmem => hb _ hmem rfl)
  · rintro ⟨rfl, rfl⟩
    rfl

/-! ### What the functions on lists are -/

theorem canonicalItems_eq (items : List Json) : canonicalItems items = items.map canonicalValue := by
  induction items with
  | nil => rfl
  | cons v items ih => rw [canonicalItems, ih, List.map_cons]

theorem canonicalFields_eq (fields : List (Units × Json)) : canonicalFields fields = fields.map fun f => (f.1, canonicalValue f.2) := by
  induction fields with
  | nil => rfl
  | cons f fields ih => rw [canonicalFields, ih, List.map_cons]

theorem sameItems_iff {xs ys : List Json} : SameItems xs ys ↔ List.Forall₂ SameJson xs ys := by
  induction xs generalizing ys with
  | nil =>
    cases ys with
    | nil => simp [SameItems]
    | cons w ys => simp [SameItems]
  | cons v xs ih =>
    cases ys with
    | nil => simp [SameItems]
    | cons w ys => rw [SameItems, ih, List.forall₂_cons]

theorem sameFields_iff {fs gs : List (Units × Json)} : SameFields fs gs ↔ ∀ f ∈ fs, ∃ w, (f.1, w) ∈ gs ∧ SameJson f.2 w := by
  induction fs with
  | nil => simp [SameFields]
  | cons f fs ih => rw [SameFields, ih, List.forall_mem_cons]

/-! ### Where a value ends -/

/-- What follows a value does not carry on a number. -/
def Stops (r : Units) : Prop := r.head?.all (fun u => !isNumeric u) = true

theorem stops_cons {u : UInt16} (h : isNumeric u = false) (r : Units) : Stops (u :: r) := by simp [Stops, h]

theorem numeral_append {m n r s : Units} (hm : ∀ u ∈ m, isNumeric u = true) (hn : ∀ u ∈ n, isNumeric u = true) (hr : Stops r) (hs : Stops s)
    (h : m ++ r = n ++ s) : m = n ∧ r = s := by
  have hsplit : ∀ {m r : Units}, (∀ u ∈ m, isNumeric u = true) → Stops r → (m ++ r).takeWhile isNumeric = m ∧ (m ++ r).dropWhile isNumeric = r := by
    intro m r hm hr
    rw [List.takeWhile_append_of_pos hm, List.dropWhile_append_of_pos hm]
    cases r with
    | nil => simp
    | cons u r =>
      have hu : isNumeric u = false := by simpa [Stops] using hr
      simp [hu]
  obtain ⟨h₁, h₂⟩ := hsplit hm hr
  obtain ⟨h₃, h₄⟩ := hsplit hn hs
  exact ⟨h₁.symm.trans ((congrArg _ h).trans h₃), h₂.symm.trans ((congrArg _ h).trans h₄)⟩

theorem commas_append {α : Type} (code : α → Units) (rel : α → α → Prop) {close : UInt16} (hclose : isNumeric close = false)
    (hcomma : close ≠ 0x2c) {xs : List α} (hbegin : ∀ x : α, ∃ u t, code x = u :: t ∧ u ≠ close)
    (hread : ∀ x ∈ xs, ∀ y r s, Stops r → Stops s → code x ++ r = code y ++ s → rel x y ∧ r = s) {ys : List α} {r s : Units}
    (h : commas (xs.map code) ++ close :: r = commas (ys.map code) ++ close :: s) : List.Forall₂ rel xs ys ∧ r = s := by
  have hcons : ∀ (x : α) (xs : List α) (r : Units), commas ((x :: xs).map code) ++ close :: r =
      code x ++ (if xs = [] then close :: r else 0x2c :: (commas (xs.map code) ++ close :: r)) := by
    intro x xs r
    cases xs with
    | nil => simp [commas, joined]
    | cons y xs => simp [commas, joined_cons_cons]
  have hstops : ∀ (xs : List α) (r : Units), Stops (if xs = [] then close :: r else 0x2c :: (commas (xs.map code) ++ close :: r)) := by
    intro xs r
    split
    · exact stops_cons hclose _
    · exact stops_cons (by decide) _
  have hnil : ∀ (y : α) (ys : List α) (r s : Units), close :: r ≠ commas ((y :: ys).map code) ++ close :: s := by
    intro y ys r s heq
    obtain ⟨u, t, hu, hne⟩ := hbegin y
    rw [hcons, hu] at heq
    exact hne (List.cons.inj heq).1.symm
  induction xs generalizing ys with
  | nil =>
    cases ys with
    | nil => exact ⟨.nil, (List.cons.inj h).2⟩
    | cons y ys => exact absurd h (hnil y ys r s)
  | cons x xs ih =>
    cases ys with
    | nil => exact absurd h.symm (hnil x xs s r)
    | cons y ys =>
      rw [hcons, hcons] at h
      obtain ⟨hxy, htail⟩ := hread x List.mem_cons_self y _ _ (hstops xs r) (hstops ys s) h
      by_cases hx : xs = []
      · by_cases hy : ys = []
        · rw [if_pos hx, if_pos hy] at htail
          rw [hx, hy]
          exact ⟨.cons hxy .nil, (List.cons.inj htail).2⟩
        · rw [if_pos hx, if_neg hy] at htail
          exact absurd (List.cons.inj htail).1 hcomma
      · by_cases hy : ys = []
        · rw [if_neg hx, if_pos hy] at htail
          exact absurd (List.cons.inj htail).1.symm hcomma
        · rw [if_neg hx, if_neg hy] at htail
          obtain ⟨hall, hrest⟩ := ih (fun z hz => hread z (List.mem_cons_of_mem _ hz)) (List.cons.inj htail).2
          exact ⟨.cons hxy hall, hrest⟩

/-! ### What a text was made of -/

/-- What kind of value a text begins. -/
def kindOf (u : UInt16) : Nat :=
  if u = 0x6e then 0 else if u = 0x74 ∨ u = 0x66 then 1 else if u = 0x22 then 3 else if u = 0x5b then 4 else if u = 0x7b then 5 else 2

def kind : Json → Nat
  | .null => 0
  | .bool _ => 1
  | .num _ => 2
  | .str _ => 3
  | .arr _ => 4
  | .obj _ => 5

theorem canonicalValue_begin (v : Json) : ∃ u t, canonicalValue v = u :: t ∧ kindOf u = kind v ∧ u ≠ 0x5d := by
  cases v with
  | null => exact ⟨0x6e, ofString "ull", by decide, rfl, by decide⟩
  | bool b =>
    cases b with
    | true => exact ⟨0x74, ofString "rue", by decide, rfl, by decide⟩
    | false => exact ⟨0x66, ofString "alse", by decide, rfl, by decide⟩
  | num n =>
    obtain ⟨u, hu, hbegins⟩ := n.begins
    obtain ⟨t, ht⟩ := List.head?_eq_some_iff.mp hu
    refine ⟨u, t, ht, ?_, ?_⟩
    · rcases hbegins with ⟨hlow, hhigh⟩ | rfl
      · rw [UInt16.le_iff_toNat_le] at hlow hhigh
        have hne : ∀ w : UInt16, 0x39 < w.toNat ∨ w.toNat < 0x30 → u ≠ w := by
          rintro w hw rfl
          simp only [UInt16.reduceToNat] at hlow hhigh
          omega
        rw [kindOf, if_neg (hne _ (by decide)), if_neg (not_or.mpr ⟨hne _ (by decide), hne _ (by decide)⟩), if_neg (hne _ (by decide)),
          if_neg (hne _ (by decide)), if_neg (hne _ (by decide))]
        rfl
      · rfl
    · rintro rfl
      revert hbegins
      decide
  | str s => exact ⟨0x22, _, rfl, rfl, by decide⟩
  | arr items => exact ⟨0x5b, _, by rw [canonicalValue], rfl, by decide⟩
  | obj fields => exact ⟨0x7b, _, by rw [canonicalValue], rfl, by decide⟩

theorem kind_eq {v w : Json} {r s : Units} (h : canonicalValue v ++ r = canonicalValue w ++ s) : kind v = kind w := by
  obtain ⟨u, t, hv, hkind, _⟩ := canonicalValue_begin v
  obtain ⟨u', t', hw, hkind', _⟩ := canonicalValue_begin w
  rw [hv, hw] at h
  rw [← hkind, ← hkind', (List.cons.inj h).1]

/-- A member, as it is written. -/
def memberText (f : Units × Json) : Units := member f.1 (canonicalValue f.2)

/-- The order of members: that of their keys. -/
def memberKey (f : Units × Json) : List Nat := f.1.map UInt16.toNat

theorem canonicalValue_obj (fields : List (Units × Json)) :
    canonicalValue (.obj fields) = 0x7b :: (commas ((sortBy memberKey fields).map memberText) ++ [0x7d]) := by
  have hsorted : sortBy sortKey (canonicalFields fields) = (sortBy memberKey fields).map fun f => (f.1, canonicalValue f.2) := by
    rw [canonicalFields_eq]
    exact (map_sortBy fun _ => rfl).symm
  rw [canonicalValue, hsorted, List.map_map]
  rfl

/-- The text of the value says what it is, whatever follows. -/
def Reads (v : Json) : Prop :=
  ∀ w r s, Stops r → Stops s → canonicalValue v ++ r = canonicalValue w ++ s → SameJson v w ∧ r = s

theorem sameFields_of_sorted {fs gs : List (Units × Json)}
    (h : List.Forall₂ (fun f g : Units × Json => f.1 = g.1 ∧ SameJson f.2 g.2) (sortBy memberKey fs) (sortBy memberKey gs)) :
    fs.length = gs.length ∧ SameFields fs gs := by
  have hfs : (sortBy memberKey fs).Perm fs := perm_sortBy
  have hgs : (sortBy memberKey gs).Perm gs := perm_sortBy
  refine ⟨hfs.length_eq.symm.trans (h.length_eq.trans hgs.length_eq), sameFields_iff.mpr fun f hf => ?_⟩
  obtain ⟨hlen, hall⟩ := List.forall₂_iff_get.mp h
  obtain ⟨i, hi, rfl⟩ := List.mem_iff_get.mp (hfs.mem_iff.mpr hf)
  obtain ⟨hkey, hsame⟩ := hall i.1 i.2 (hlen ▸ i.2)
  refine ⟨_, ?_, hsame⟩
  rw [hkey]
  exact hgs.mem_iff.mp (List.get_mem _ _)

theorem reads_bool (a : Bool) : Reads (.bool a) := by
  intro w r s _ _ h
  have hkind := kind_eq h
  cases w with
  | bool b =>
    cases a <;> cases b
    · exact ⟨rfl, List.append_cancel_left h⟩
    · exact absurd (List.cons.inj h).1 (by decide)
    · exact absurd (List.cons.inj h).1 (by decide)
    · exact ⟨rfl, List.append_cancel_left h⟩
  | _ => cases hkind

theorem reads_num (n : Numeral) : Reads (.num n) := by
  intro w r s hr hs h
  have hkind := kind_eq h
  cases w with
  | num m => exact numeral_append n.numeric m.numeric hr hs h
  | _ => cases hkind

theorem reads_str (a : Units) : Reads (.str a) := by
  intro w r s _ _ h
  have hkind := kind_eq h
  cases w with
  | str b => exact quote_append h
  | _ => cases hkind

theorem reads_arr {xs : List Json} (hxs : ∀ x ∈ xs, Reads x) : Reads (.arr xs) := by
  intro w r s _ _ h
  have hkind := kind_eq h
  cases w with
  | arr ys =>
    rw [canonicalValue, canonicalValue, canonicalItems_eq, canonicalItems_eq] at h
    have h' : commas (xs.map canonicalValue) ++ 0x5d :: r = commas (ys.map canonicalValue) ++ 0x5d :: s := by
      simpa using h
    obtain ⟨hall, hrest⟩ := commas_append canonicalValue SameJson (by decide) (by decide)
      (fun x => (canonicalValue_begin x).imp fun u hu => hu.imp fun t ht => ⟨ht.1, ht.2.2⟩) hxs h'
    exact ⟨sameItems_iff.mpr hall, hrest⟩
  | _ => cases hkind

theorem reads_obj {fs : List (Units × Json)} (hfs : ∀ f ∈ fs, Reads f.2) : Reads (.obj fs) := by
  intro w r s _ _ h
  have hkind := kind_eq h
  cases w with
  | obj gs =>
    rw [canonicalValue_obj, canonicalValue_obj] at h
    have h' : commas ((sortBy memberKey fs).map memberText) ++ 0x7d :: r = commas ((sortBy memberKey gs).map memberText) ++ 0x7d :: s := by
      simpa using h
    have hmember : ∀ f ∈ sortBy memberKey fs, ∀ g r s, Stops r → Stops s → memberText f ++ r = memberText g ++ s →
        (f.1 = g.1 ∧ SameJson f.2 g.2) ∧ r = s := by
      intro f hf g r s hr hs hfg
      rw [memberText, memberText, member, member, List.append_assoc, List.append_assoc] at hfg
      obtain ⟨hkey, htail⟩ := quote_append hfg
      obtain ⟨hsame, hrest⟩ := hfs f (mem_sortBy.mp hf) g.2 r s hr hs (List.cons.inj htail).2
      exact ⟨⟨hkey, hsame⟩, hrest⟩
    obtain ⟨hall, hrest⟩ := commas_append memberText _ (by decide) (by decide) (fun f => ⟨0x22, _, rfl, by decide⟩) hmember h'
    exact ⟨sameFields_of_sorted hall, hrest⟩
  | _ => cases hkind

mutual

theorem reads : (v : Json) → Reads v
  | .null => fun w r s _ _ h => by
    have hkind := kind_eq h
    cases w with
    | null => exact ⟨trivial, List.append_cancel_left h⟩
    | _ => cases hkind
  | .bool a => reads_bool a
  | .num n => reads_num n
  | .str a => reads_str a
  | .arr xs => reads_arr (readsItems xs)
  | .obj fs => reads_obj (readsFields fs)

theorem readsItems : (items : List Json) → ∀ v ∈ items, Reads v
  | [], _, hv => by cases hv
  | w :: items, v, hv => by
    rcases List.mem_cons.mp hv with heq | hv
    · rw [heq]
      exact reads w
    · exact readsItems items v hv

theorem readsFields : (fields : List (Units × Json)) → ∀ f ∈ fields, Reads f.2
  | [], _, hf => by cases hf
  | (_, w) :: fields, f, hf => by
    rcases List.mem_cons.mp hf with heq | hf
    · rw [heq]
      exact reads w
    · exact readsFields fields f hf

end

/-! ### Equal values have one text -/

theorem sorted_of_sameFields {fs gs : List (Units × Json)} (hfs : (fs.map Prod.fst).Nodup) (hlen : fs.length = gs.length)
    (h : ∀ f ∈ fs, ∃ w, (f.1, w) ∈ gs ∧ canonicalValue f.2 = canonicalValue w) :
    canonicalValue (.obj fs) = canonicalValue (.obj gs) := by
  have hkeys : ((fs.map fun f => (f.1, canonicalValue f.2)).map Prod.fst).Nodup := by
    rw [List.map_map]
    exact hfs
  have hsub : fs.map (fun f => (f.1, canonicalValue f.2)) ⊆ gs.map fun f => (f.1, canonicalValue f.2) := by
    intro x hx
    obtain ⟨f, hf, rfl⟩ := List.mem_map.mp hx
    obtain ⟨w, hw, htext⟩ := h f hf
    exact List.mem_map.mpr ⟨_, hw, by rw [htext]⟩
  have hperm : (fs.map fun f => (f.1, canonicalValue f.2)).Perm (gs.map fun f => (f.1, canonicalValue f.2)) := by
    refine (List.subperm_of_subset (List.Nodup.of_map _ hkeys) hsub).perm_of_length_le ?_
    rw [List.length_map, List.length_map, hlen]
  have hinj : ((fs.map fun f => (f.1, canonicalValue f.2)).map sortKey).Nodup := by
    rw [List.map_map]
    have : (fs.map fun f => f.1.map UInt16.toNat).Nodup := by
      rw [show (fs.map fun f => f.1.map UInt16.toNat) = (fs.map Prod.fst).map (List.map UInt16.toNat) by rw [List.map_map]; rfl]
      exact hfs.map (List.map_injective_iff.mpr fun _ _ => UInt16.toNat_inj.mp)
    exact this
  rw [canonicalValue, canonicalValue, canonicalFields_eq, canonicalFields_eq, sortBy_eq_of_perm hperm hinj]

mutual

theorem canonicalValue_eq : (v : Json) → ∀ w, DistinctKeys v → SameJson v w → canonicalValue v = canonicalValue w
  | .null, w, _, h => by
    cases w with
    | null => rfl
    | _ => cases h
  | .bool a, w, _, h => by
    cases w with
    | bool b => rw [show a = b from h]
    | _ => cases h
  | .num n, w, _, h => by
    cases w with
    | num m => exact h
    | _ => cases h
  | .str a, w, _, h => by
    cases w with
    | str b => rw [show a = b from h]
    | _ => cases h
  | .arr xs, w, hv, h => by
    cases w with
    | arr ys => rw [canonicalValue, canonicalValue, canonicalItems_congr xs ys hv h]
    | _ => cases h
  | .obj fs, w, hv, h => by
    cases w with
    | obj gs => exact sorted_of_sameFields hv.1 h.1 (canonicalFields_congr fs gs hv.2 h.2)
    | _ => cases h

theorem canonicalItems_congr : (xs ys : List Json) → DistinctKeysItems xs → SameItems xs ys → canonicalItems xs = canonicalItems ys
  | [], [], _, _ => rfl
  | v :: xs, w :: ys, hv, h => by
    rw [canonicalItems, canonicalItems, canonicalValue_eq v w hv.1 h.1, canonicalItems_congr xs ys hv.2 h.2]
  | [], _ :: _, _, h => by cases h
  | _ :: _, [], _, h => by cases h

theorem canonicalFields_congr : (fs gs : List (Units × Json)) → DistinctKeysFields fs → SameFields fs gs →
    ∀ f ∈ fs, ∃ w, (f.1, w) ∈ gs ∧ canonicalValue f.2 = canonicalValue w
  | [], _, _, _, _, hf => by cases hf
  | (k, v) :: fs, gs, hv, h, f, hf => by
    rcases List.mem_cons.mp hf with heq | hf
    · obtain ⟨w, hw, hsame⟩ := h.1
      rw [heq]
      exact ⟨w, hw, canonicalValue_eq v w hv.1 hsame⟩
    · exact canonicalFields_congr fs gs hv.2 h.2 f hf

end

end DedupAux

open DedupAux

theorem canonicalValue_eq_iff (v w : JsonValue) : canonicalValue v.1 = canonicalValue w.1 ↔ SameJson v.1 w.1 := by
  constructor
  · intro h
    exact (reads v.1 w.1 [] [] rfl rfl (by rw [h])).1
  · exact canonicalValue_eq v.1 w.1 v.2

/-- The text of an exact duplicate is one exactly if the folded statements are equal and the values are, up to the order of keys. -/
theorem dedupText_eq_iff (toLowerCase : Units → Units) (s t : Units) (v w : Option JsonValue) :
    dedupText toLowerCase s (v.map Subtype.val) = dedupText toLowerCase t (w.map Subtype.val) ↔
      dedupKeyNorm toLowerCase s = dedupKeyNorm toLowerCase t ∧ SameValue v w := by
  have hvalue : ∀ x : Option JsonValue, ∃ y : JsonValue, y.1 = (x.map Subtype.val).getD .null := by
    intro x
    cases x with
    | none => exact ⟨⟨.null, trivial⟩, rfl⟩
    | some y => exact ⟨y, rfl⟩
  obtain ⟨a, ha⟩ := hvalue v
  obtain ⟨b, hb⟩ := hvalue w
  rw [dedupText, dedupText, append_newline_inj (not_newline_of_dedupKeyNorm _ s) (not_newline_of_dedupKeyNorm _ t), SameValue,
    ← ha, ← hb, canonicalValue_eq_iff]

end Vault

end Capka

import Mathlib
import Capka.Lib.StableSort
import Capka.Lib.Utf16

/-!
# Canonical bytes

A value is turned into bytes with its field path in it: each piece stands behind its length, each kind has a letter, and the keys of an object
are in order. A set of files is turned into bytes path by path, in order. The bytes say what the value is, but for one thing: they are UTF-8,
and a surrogate without its pair is none there. Two strings that differ only in such surrogates have the same bytes.
-/

namespace Capka

namespace Canonical

open Ecma StableSort

/-- What `String` writes of a number; there is one text of both zeros. -/
inductive Numeric where
  | finite (n : Numeral)
  | nan
  | infinite (negative : Bool)

def Numeric.text : Numeric → Units
  | .finite n => n.text
  | .nan => ofString "NaN"
  | .infinite negative => if negative then ofString "-Infinity" else ofString "Infinity"

inductive CanonValue where
  | undefined
  | null
  | str (s : Units)
  | num (n : Numeric)
  | bool (b : Bool)
  | arr (items : List CanonValue)
  | obj (fields : List (Units × CanonValue))

def lp (s : Units) : Units := lengthPrefixed s

/-- A value that is no composite: its letter and its text. -/
def leaf (path : Units) (tag : UInt16) (payload : Units) : Units := 0x4c :: (lp path ++ tag :: lp payload)

def itemPath (path : Units) (i : Nat) : Units := path ++ 0x5b :: (decimal i ++ [0x5d])

def memberPath (path key : Units) : Units := path ++ 0x2e :: key

/-- The order of `sort`: by code units. -/
def sortKey {α : Type} (f : Units × α) : List Nat := f.1.map UInt16.toNat

mutual

def canonicalTypedValue (path : Units) : CanonValue → Units
  | .undefined => leaf path 0x75 []
  | .null => leaf path 0x7a []
  | .str s => leaf path 0x73 s
  | .num n => leaf path 0x6e n.text
  | .bool b => leaf path 0x62 (if b then [0x31] else [0x30])
  | .arr items => 0x41 :: (lp path ++ lp (canonicalItems path 0 items))
  | .obj fields => 0x4f :: (lp path ++ lp ((sortBy sortKey (canonicalFields path fields)).flatMap Prod.snd))

/-- The items from the index on, joined. -/
def canonicalItems (path : Units) (i : Nat) : List CanonValue → Units
  | [] => []
  | v :: items => canonicalTypedValue (itemPath path i) v ++ canonicalItems path (i + 1) items

/-- The members with their keys. -/
def canonicalFields (path : Units) : List (Units × CanonValue) → List (Units × Units)
  | [] => []
  | (k, v) :: fields => (k, canonicalTypedValue (memberPath path k) v) :: canonicalFields path fields

end

/-- What `update` is given: a string as UTF-8. -/
def contentHash (sha256 : List UInt8 → Units) (content : Units) : Units := sha256 (toUtf8 content)

/-- A file of a set. -/
structure FileEntry where
  path : Units
  contentHash : Units
  deriving DecidableEq

def entryText (e : FileEntry) : Units := lp e.path ++ lp e.contentHash

/-- The text that `rootHash` hashes. -/
def rootText (entries : List FileEntry) : Units :=
  ofString "capka:plugin-tree:v1" ++ (sortBy (fun e : FileEntry => e.path.map UInt16.toNat) entries).flatMap entryText

def rootHash (sha256 : List UInt8 → Units) (entries : List FileEntry) : Units := contentHash sha256 (rootText entries)

/-! ## Equal values -/

mutual

/-- The keys of each object are distinct, at every depth. -/
def DistinctKeys : CanonValue → Prop
  | .arr items => DistinctKeysItems items
  | .obj fields => (fields.map Prod.fst).Nodup ∧ DistinctKeysFields fields
  | _ => True

def DistinctKeysItems : List CanonValue → Prop
  | [] => True
  | v :: items => DistinctKeys v ∧ DistinctKeysItems items

def DistinctKeysFields : List (Units × CanonValue) → Prop
  | [] => True
  | (_, v) :: fields => DistinctKeys v ∧ DistinctKeysFields fields

end

mutual

/-- Equal up to the order of keys, at every depth. -/
def SameCanon : CanonValue → CanonValue → Prop
  | .undefined, .undefined => True
  | .null, .null => True
  | .str s, .str t => s = t
  | .num m, .num n => m.text = n.text
  | .bool a, .bool b => a = b
  | .arr xs, .arr ys => SameItems xs ys
  | .obj fs, .obj gs => fs.length = gs.length ∧ SameFields fs gs
  | _, _ => False

/-- Item by item. -/
def SameItems : List CanonValue → List CanonValue → Prop
  | [], [] => True
  | v :: xs, w :: ys => SameCanon v w ∧ SameItems xs ys
  | _, _ => False

/-- Each member has its like among the others. -/
def SameFields : List (Units × CanonValue) → List (Units × CanonValue) → Prop
  | [], _ => True
  | (k, v) :: fs, gs => (∃ w, (k, w) ∈ gs ∧ SameCanon v w) ∧ SameFields fs gs

end

/-- A value at its path; no object has a key twice. -/
structure Placed where
  path : Units
  value : CanonValue
  distinct : DistinctKeys value

/-- The path and the value are equal. -/
def Placed.Same (p q : Placed) : Prop := p.path = q.path ∧ SameCanon p.value q.value

/-- The bytes of values one after the other. -/
def preimage (ps : List Placed) : List UInt8 := toUtf8 (ps.flatMap fun p => canonicalTypedValue p.path p.value)

/-- The values are the same, one after the other. -/
def SameSequence (ps qs : List Placed) : Prop := List.Forall₂ Placed.Same ps qs

/-- A set of files: no path is there twice. -/
structure FileSet where
  entries : List FileEntry
  distinct : (entries.map FileEntry.path).Nodup

/-- The bytes that `rootHash` hashes. -/
def rootPreimage (files : FileSet) : List UInt8 := toUtf8 (rootText files.entries)

/-- The sets have the same entries. -/
def FileSet.Same (e f : FileSet) : Prop := e.entries.Perm f.entries

/-! ## Values with their surrogates replaced -/

/-- A value whose strings, keys and numbers are characters: a surrogate without its pair is the replacement character. The members are in the
order of their keys. -/
inductive Shape where
  | undefined
  | null
  | str (s : List Char)
  | num (s : List Char)
  | bool (b : Bool)
  | arr (items : List Shape)
  | obj (fields : List (List Char × Shape))

mutual

def shape : CanonValue → Shape
  | .undefined => .undefined
  | .null => .null
  | .str s => .str (scalars s)
  | .num n => .num (scalars n.text)
  | .bool b => .bool b
  | .arr items => .arr (shapeItems items)
  | .obj fields => .obj ((sortBy sortKey (shapeFields fields)).map fun f => (scalars f.1, f.2))

def shapeItems : List CanonValue → List Shape
  | [] => []
  | v :: items => shape v :: shapeItems items

def shapeFields : List (Units × CanonValue) → List (Units × Shape)
  | [] => []
  | (k, v) :: fields => (k, shape v) :: shapeFields fields

end

def Placed.replaced (p : Placed) : List Char × Shape := (scalars p.path, shape p.value)

/-- The entries in the order of their paths, with their surrogates replaced. -/
def FileSet.replaced (files : FileSet) : List (List Char × List Char) :=
  (sortBy (fun e : FileEntry => e.path.map UInt16.toNat) files.entries).map fun e => (scalars e.path, scalars e.contentHash)

mutual

/-- Every surrogate in its strings and keys is half of a pair. -/
def WellFormed : CanonValue → Prop
  | .str s => isWellFormed s = true
  | .arr items => WellFormedItems items
  | .obj fields => WellFormedFields fields
  | _ => True

def WellFormedItems : List CanonValue → Prop
  | [] => True
  | v :: items => WellFormed v ∧ WellFormedItems items

def WellFormedFields : List (Units × CanonValue) → Prop
  | [] => True
  | (k, v) :: fields => isWellFormed k = true ∧ WellFormed v ∧ WellFormedFields fields

end

def Placed.WellFormed (p : Placed) : Prop := isWellFormed p.path = true ∧ Canonical.WellFormed p.value

def FileSet.WellFormed (files : FileSet) : Prop :=
  ∀ e ∈ files.entries, isWellFormed e.path = true ∧ isWellFormed e.contentHash = true

/-- The sequences differ, and only in surrogates without their pairs. -/
def DifferInSurrogates (ps qs : List Placed) : Prop := ¬SameSequence ps qs ∧ ps.map Placed.replaced = qs.map Placed.replaced

/-- The sets differ, and only in surrogates without their pairs. -/
def FileSet.DifferInSurrogates (e f : FileSet) : Prop := ¬e.Same f ∧ e.replaced = f.replaced

namespace CanonicalAux

/-! ### The encoding, character by character -/

def leafChars (path : List Char) (tag : Char) (payload : List Char) : List Char := 'L' :: (prefixedChars path ++ tag :: prefixedChars payload)

def itemPathChars (path : List Char) (i : Nat) : List Char := path ++ '[' :: (Nat.toDigits 10 i ++ [']'])

def memberPathChars (path key : List Char) : List Char := path ++ '.' :: key

mutual

def chars (path : List Char) : Shape → List Char
  | .undefined => leafChars path 'u' []
  | .null => leafChars path 'z' []
  | .str s => leafChars path 's' s
  | .num s => leafChars path 'n' s
  | .bool b => leafChars path 'b' (if b then ['1'] else ['0'])
  | .arr items => 'A' :: (prefixedChars path ++ prefixedChars (itemChars path 0 items))
  | .obj fields => 'O' :: (prefixedChars path ++ prefixedChars (fieldChars path fields))

def itemChars (path : List Char) (i : Nat) : List Shape → List Char
  | [] => []
  | s :: items => chars (itemPathChars path i) s ++ itemChars path (i + 1) items

def fieldChars (path : List Char) : List (List Char × Shape) → List Char
  | [] => []
  | (k, s) :: fields => chars (memberPathChars path k) s ++ fieldChars path fields

end

theorem canonicalFields_eq (path : Units) (fields : List (Units × CanonValue)) :
    canonicalFields path fields = fields.map fun f => (f.1, canonicalTypedValue (memberPath path f.1) f.2) := by
  induction fields with
  | nil => rfl
  | cons f fields ih => rw [canonicalFields, ih, List.map_cons]

theorem shapeFields_eq (fields : List (Units × CanonValue)) : shapeFields fields = fields.map fun f => (f.1, shape f.2) := by
  induction fields with
  | nil => rfl
  | cons f fields ih => rw [shapeFields, ih, List.map_cons]

theorem canonicalTypedValue_obj (path : Units) (fields : List (Units × CanonValue)) :
    canonicalTypedValue path (.obj fields) =
      0x4f :: (lp path ++ lp ((sortBy sortKey fields).flatMap fun f => canonicalTypedValue (memberPath path f.1) f.2)) := by
  have hsorted : sortBy sortKey (canonicalFields path fields) =
      (sortBy sortKey fields).map fun f => (f.1, canonicalTypedValue (memberPath path f.1) f.2) := by
    rw [canonicalFields_eq]
    exact (map_sortBy fun _ => rfl).symm
  rw [canonicalTypedValue, hsorted, List.flatMap_map]

theorem shape_obj (fields : List (Units × CanonValue)) :
    shape (.obj fields) = .obj ((sortBy sortKey fields).map fun f => (scalars f.1, shape f.2)) := by
  have hsorted : sortBy sortKey (shapeFields fields) = (sortBy sortKey fields).map fun f => (f.1, shape f.2) := by
    rw [shapeFields_eq]
    exact (map_sortBy fun _ => rfl).symm
  rw [shape, hsorted, List.map_map]
  rfl

theorem scalars_itemPath (path : Units) (i : Nat) : scalars (itemPath path i) = itemPathChars (scalars path) i := by
  rw [itemPath, scalars_append path (fresh_ascii (by decide) _), scalars_ascii (by decide), scalars_decimal_append]
  rfl

theorem scalars_memberPath (path key : Units) : scalars (memberPath path key) = memberPathChars (scalars path) (scalars key) := by
  rw [memberPath, scalars_append path (fresh_ascii (by decide) _), scalars_ascii (by decide)]
  rfl

theorem fresh_canonical_append (path : Units) (v : CanonValue) (t : Units) : Fresh (canonicalTypedValue path v ++ t) := by
  cases v <;> rw [canonicalTypedValue] <;> exact fresh_ascii (by decide) _

theorem fresh_flatMap {α : Type} (code : α → Units) (hcode : ∀ a t, Fresh (code a ++ t)) (l : List α) {t : Units} (ht : Fresh t) :
    Fresh (l.flatMap code ++ t) := by
  cases l with
  | nil => exact ht
  | cons a l =>
    rw [List.flatMap_cons, List.append_assoc]
    exact hcode a _

theorem scalars_leaf_append (path : Units) {tag : UInt16} (htag : tag.toNat < 0x80) (payload : Units) {t : Units} (ht : Fresh t) :
    scalars (leaf path tag payload ++ t) = leafChars (scalars path) (Char.ofNat tag.toNat) (scalars payload) ++ scalars t := by
  rw [leaf, List.cons_append, List.append_assoc, List.cons_append, scalars_ascii (by decide), lp, lp,
    scalars_lengthPrefixed_append _ (fresh_ascii htag _), scalars_ascii htag, scalars_lengthPrefixed_append _ ht, leafChars]
  simp

theorem scalars_composite_append (path : Units) {tag : UInt16} (htag : tag.toNat < 0x80) (body : Units) {t : Units} (ht : Fresh t) :
    scalars (tag :: (lp path ++ lp body) ++ t) =
      Char.ofNat tag.toNat :: (prefixedChars (scalars path) ++ prefixedChars (scalars body)) ++ scalars t := by
  rw [List.cons_append, List.append_assoc, scalars_ascii htag, lp, lp, scalars_lengthPrefixed_append _ (fresh_lengthPrefixed_append _ _),
    scalars_lengthPrefixed_append _ ht]
  simp

/-- The value's characters are those of its shape. -/
def Spells (v : CanonValue) : Prop :=
  ∀ path t, Fresh t → scalars (canonicalTypedValue path v ++ t) = chars (scalars path) (shape v) ++ scalars t

theorem spells_flatMap (path : Units) {fields : List (Units × CanonValue)} (h : ∀ f ∈ fields, Spells f.2) :
    scalars (fields.flatMap fun f => canonicalTypedValue (memberPath path f.1) f.2) =
      fieldChars (scalars path) (fields.map fun f => (scalars f.1, shape f.2)) := by
  induction fields with
  | nil => rfl
  | cons f fields ih =>
    have hrest : Fresh (fields.flatMap fun f => canonicalTypedValue (memberPath path f.1) f.2) := by
      have := fresh_flatMap (fun f : Units × CanonValue => canonicalTypedValue (memberPath path f.1) f.2)
        (fun f t => fresh_canonical_append _ _ t) fields fresh_nil
      rwa [List.append_nil] at this
    rw [List.flatMap_cons, h f List.mem_cons_self _ _ hrest, ih fun g hg => h g (List.mem_cons_of_mem _ hg), scalars_memberPath]
    rfl

theorem spells_obj {fields : List (Units × CanonValue)} (h : ∀ f ∈ fields, Spells f.2) : Spells (.obj fields) := by
  intro path t ht
  rw [canonicalTypedValue_obj, scalars_composite_append path (by decide) _ ht, shape_obj, chars,
    spells_flatMap path fun f hf => h f (mem_sortBy.mp hf)]
  rfl

theorem spells_items {items : List CanonValue} (h : ∀ v ∈ items, Spells v) (path : Units) (i : Nat) :
    Fresh (canonicalItems path i items) ∧ scalars (canonicalItems path i items) = itemChars (scalars path) i (shapeItems items) := by
  induction items generalizing i with
  | nil => exact ⟨fresh_nil, rfl⟩
  | cons v items ih =>
    obtain ⟨hfresh, hitems⟩ := ih (fun w hw => h w (List.mem_cons_of_mem _ hw)) (i + 1)
    refine ⟨fresh_canonical_append _ _ _, ?_⟩
    rw [canonicalItems, h v List.mem_cons_self _ _ hfresh, hitems, scalars_itemPath]
    rfl

theorem spells_arr {items : List CanonValue} (h : ∀ v ∈ items, Spells v) : Spells (.arr items) := by
  intro path t ht
  rw [canonicalTypedValue, scalars_composite_append path (by decide) _ ht, (spells_items h path 0).2]
  rfl

mutual

theorem spells : (v : CanonValue) → Spells v
  | .undefined => fun path _ ht => scalars_leaf_append path (by decide) [] ht
  | .null => fun path _ ht => scalars_leaf_append path (by decide) [] ht
  | .str s => fun path _ ht => scalars_leaf_append path (by decide) s ht
  | .num n => fun path _ ht => scalars_leaf_append path (by decide) n.text ht
  | .bool true => fun path _ ht => scalars_leaf_append path (by decide) [0x31] ht
  | .bool false => fun path _ ht => scalars_leaf_append path (by decide) [0x30] ht
  | .arr items => spells_arr (spellsItems items)
  | .obj fields => spells_obj (spellsFields fields)

theorem spellsItems : (items : List CanonValue) → ∀ v ∈ items, Spells v
  | [], _, hv => by cases hv
  | w :: items, v, hv => by
    rcases List.mem_cons.mp hv with heq | hv
    · rw [heq]
      exact spells w
    · exact spellsItems items v hv

theorem spellsFields : (fields : List (Units × CanonValue)) → ∀ f ∈ fields, Spells f.2
  | [], _, hf => by cases hf
  | (_, w) :: fields, f, hf => by
    rcases List.mem_cons.mp hf with heq | hf
    · rw [heq]
      exact spells w
    · exact spellsFields fields f hf

end

/-! ### Where a value ends -/

/-- The characters say the path and the shape, whatever follows. -/
def Reads (s : Shape) : Prop :=
  ∀ path path' s' r r', chars path s ++ r = chars path' s' ++ r' → (path = path' ∧ s = s') ∧ r = r'

theorem leafChars_append_inj {path path' payload payload' r r' : List Char} {tag tag' : Char}
    (h : leafChars path tag payload ++ r = leafChars path' tag' payload' ++ r') :
    path = path' ∧ tag = tag' ∧ payload = payload' ∧ r = r' := by
  simp only [leafChars, List.cons_append, List.append_assoc, List.cons.injEq, true_and] at h
  obtain ⟨hpath, hrest⟩ := prefixedChars_append_inj h
  obtain ⟨htag, hrest⟩ := List.cons.inj hrest
  obtain ⟨hpayload, hrest⟩ := prefixedChars_append_inj hrest
  exact ⟨hpath, htag, hpayload, hrest⟩

theorem compositeChars_append_inj {tag : Char} {path path' body body' r r' : List Char}
    (h : tag :: (prefixedChars path ++ prefixedChars body) ++ r = tag :: (prefixedChars path' ++ prefixedChars body') ++ r') :
    path = path' ∧ body = body' ∧ r = r' := by
  simp only [List.cons_append, List.append_assoc, List.cons.injEq, true_and] at h
  obtain ⟨hpath, hrest⟩ := prefixedChars_append_inj h
  obtain ⟨hbody, hrest⟩ := prefixedChars_append_inj hrest
  exact ⟨hpath, hbody, hrest⟩

/-- The letters of a leaf, and its text; a composite has none. -/
def leafOf : Shape → Option (Char × List Char)
  | .undefined => some ('u', [])
  | .null => some ('z', [])
  | .str s => some ('s', s)
  | .num s => some ('n', s)
  | .bool b => some ('b', if b then ['1'] else ['0'])
  | _ => none

theorem chars_leaf {s : Shape} {tag : Char} {payload : List Char} (h : leafOf s = some (tag, payload)) (path : List Char) :
    chars path s = leafChars path tag payload := by
  cases s <;> simp only [leafOf, Option.some.injEq, Prod.mk.injEq, reduceCtorEq] at h <;> obtain ⟨rfl, rfl⟩ := h <;> rw [chars]

theorem leafOf_inj {s t : Shape} {x : Char × List Char} (hs : leafOf s = some x) (ht : leafOf t = some x) : s = t := by
  rw [← hs] at ht
  cases s <;> cases t <;> simp [leafOf] at hs ht ⊢
  case str.str => exact ht.symm
  case num.num => exact ht.symm
  case bool.bool a b => cases a <;> cases b <;> simp_all

theorem reads_leaf {s : Shape} {tag : Char} {payload : List Char} (hs : leafOf s = some (tag, payload)) : Reads s := by
  intro path path' s' r r' h
  rw [chars_leaf hs] at h
  cases hleaf : leafOf s' with
  | none =>
    cases s' <;> simp [leafOf] at hleaf <;> rw [chars] at h <;> exact absurd (List.cons.inj h).1 (by decide)
  | some x =>
    obtain ⟨tag', payload'⟩ := x
    rw [chars_leaf hleaf] at h
    obtain ⟨hpath, rfl, rfl, hr⟩ := leafChars_append_inj h
    exact ⟨⟨hpath, leafOf_inj hs hleaf⟩, hr⟩

theorem chars_begin (path : List Char) (s : Shape) : ∃ u t, chars path s = u :: t ∧ (u = 'A' ↔ ∃ items, s = .arr items) ∧
    (u = 'O' ↔ ∃ fields, s = .obj fields) := by
  cases s <;> rw [chars] <;> exact ⟨_, _, rfl, by simp, by simp⟩

theorem chars_ne_nil (path : List Char) (s : Shape) (r : List Char) : chars path s ++ r ≠ [] := by
  obtain ⟨u, t, h, _⟩ := chars_begin path s
  rw [h]
  exact List.cons_ne_nil _ _

theorem itemChars_inj {items : List Shape} (h : ∀ s ∈ items, Reads s) {path : List Char} {i : Nat} {items' : List Shape}
    (heq : itemChars path i items = itemChars path i items') : items = items' := by
  induction items generalizing i items' with
  | nil =>
    cases items' with
    | nil => rfl
    | cons s items' => exact absurd heq.symm (chars_ne_nil _ _ _)
  | cons s items ih =>
    cases items' with
    | nil => exact absurd heq (chars_ne_nil _ _ _)
    | cons s' items' =>
      obtain ⟨hread, hrest⟩ := h s List.mem_cons_self _ _ _ _ _ heq
      rw [hread.2, ih (fun t ht => h t (List.mem_cons_of_mem _ ht)) hrest]

theorem memberPathChars_inj {path key key' : List Char} (h : memberPathChars path key = memberPathChars path key') : key = key' :=
  (List.cons.inj (List.append_cancel_left h)).2

theorem fieldChars_inj {fields : List (List Char × Shape)} (h : ∀ f ∈ fields, Reads f.2) {path : List Char}
    {fields' : List (List Char × Shape)} (heq : fieldChars path fields = fieldChars path fields') : fields = fields' := by
  induction fields generalizing fields' with
  | nil =>
    cases fields' with
    | nil => rfl
    | cons f fields' => exact absurd heq.symm (chars_ne_nil _ _ _)
  | cons f fields ih =>
    cases fields' with
    | nil => exact absurd heq (chars_ne_nil _ _ _)
    | cons f' fields' =>
      obtain ⟨hread, hrest⟩ := h f List.mem_cons_self _ _ _ _ _ heq
      rw [ih (fun g hg => h g (List.mem_cons_of_mem _ hg)) hrest, Prod.ext (memberPathChars_inj hread.1) hread.2]

theorem reads_arr {items : List Shape} (h : ∀ s ∈ items, Reads s) : Reads (.arr items) := by
  intro path path' s' r r' heq
  obtain ⟨u, t, hchars, harr, _⟩ := chars_begin path' s'
  have hu : u = 'A' := by
    rw [hchars, chars] at heq
    exact (List.cons.inj heq).1.symm
  obtain ⟨items', rfl⟩ := harr.mp hu
  rw [chars, chars] at heq
  obtain ⟨rfl, hbody, hr⟩ := compositeChars_append_inj heq
  exact ⟨⟨rfl, by rw [itemChars_inj h hbody]⟩, hr⟩

theorem reads_obj {fields : List (List Char × Shape)} (h : ∀ f ∈ fields, Reads f.2) : Reads (.obj fields) := by
  intro path path' s' r r' heq
  obtain ⟨u, t, hchars, _, hobj⟩ := chars_begin path' s'
  have hu : u = 'O' := by
    rw [hchars, chars] at heq
    exact (List.cons.inj heq).1.symm
  obtain ⟨fields', rfl⟩ := hobj.mp hu
  rw [chars, chars] at heq
  obtain ⟨rfl, hbody, hr⟩ := compositeChars_append_inj heq
  exact ⟨⟨rfl, by rw [fieldChars_inj h hbody]⟩, hr⟩

mutual

theorem reads : (s : Shape) → Reads s
  | .undefined => reads_leaf rfl
  | .null => reads_leaf rfl
  | .str _ => reads_leaf rfl
  | .num _ => reads_leaf rfl
  | .bool _ => reads_leaf rfl
  | .arr items => reads_arr (readsItems items)
  | .obj fields => reads_obj (readsFields fields)

theorem readsItems : (items : List Shape) → ∀ s ∈ items, Reads s
  | [], _, hs => by cases hs
  | t :: items, s, hs => by
    rcases List.mem_cons.mp hs with heq | hs
    · rw [heq]
      exact reads t
    · exact readsItems items s hs

theorem readsFields : (fields : List (List Char × Shape)) → ∀ f ∈ fields, Reads f.2
  | [], _, hf => by cases hf
  | (_, t) :: fields, f, hf => by
    rcases List.mem_cons.mp hf with heq | hf
    · rw [heq]
      exact reads t
    · exact readsFields fields f hf

end

/-! ### Sequences and sets -/

theorem scalars_sequence (ps : List Placed) :
    scalars (ps.flatMap fun p => canonicalTypedValue p.path p.value) =
      (ps.map Placed.replaced).flatMap fun x => chars x.1 x.2 := by
  induction ps with
  | nil => rfl
  | cons p ps ih =>
    have hrest : Fresh (ps.flatMap fun p => canonicalTypedValue p.path p.value) := by
      have := fresh_flatMap (fun p : Placed => canonicalTypedValue p.path p.value)
        (fun p t => fresh_canonical_append _ _ t) ps fresh_nil
      rwa [List.append_nil] at this
    rw [List.flatMap_cons, spells p.value p.path _ hrest, ih]
    rfl

theorem flatMap_chars_inj {xs ys : List (List Char × Shape)}
    (h : (xs.flatMap fun x => chars x.1 x.2) = ys.flatMap fun x => chars x.1 x.2) : xs = ys := by
  induction xs generalizing ys with
  | nil =>
    cases ys with
    | nil => rfl
    | cons y ys => exact absurd h.symm (chars_ne_nil _ _ _)
  | cons x xs ih =>
    cases ys with
    | nil => exact absurd h (chars_ne_nil _ _ _)
    | cons y ys =>
      obtain ⟨hread, hrest⟩ := reads x.2 _ _ _ _ _ h
      rw [ih hrest, Prod.ext hread.1 hread.2]

theorem preimage_eq_iff {ps qs : List Placed} : preimage ps = preimage qs ↔ ps.map Placed.replaced = qs.map Placed.replaced := by
  rw [preimage, preimage, toUtf8_eq_iff, scalars_sequence, scalars_sequence]
  exact ⟨flatMap_chars_inj, fun h => by rw [h]⟩

def entryChars (x : List Char × List Char) : List Char := prefixedChars x.1 ++ prefixedChars x.2

theorem fresh_entry_append (e : FileEntry) (t : Units) : Fresh (entryText e ++ t) := by
  rw [entryText, lp, List.append_assoc]
  exact fresh_lengthPrefixed_append _ _

theorem scalars_entries (entries : List FileEntry) :
    scalars (entries.flatMap entryText) = (entries.map fun e => (scalars e.path, scalars e.contentHash)).flatMap entryChars := by
  induction entries with
  | nil => rfl
  | cons e entries ih =>
    have hrest : Fresh (entries.flatMap entryText) := by
      have := fresh_flatMap entryText fresh_entry_append entries fresh_nil
      rwa [List.append_nil] at this
    rw [List.flatMap_cons, entryText, lp, lp, List.append_assoc, scalars_lengthPrefixed_append _ (fresh_lengthPrefixed_append _ _),
      scalars_lengthPrefixed_append _ hrest, ih, List.map_cons, List.flatMap_cons, entryChars, List.append_assoc]

theorem entryChars_ne_nil (x : List Char × List Char) (r : List Char) : entryChars x ++ r ≠ [] := by
  simp [entryChars, prefixedChars]

theorem flatMap_entryChars_inj {xs ys : List (List Char × List Char)} (h : xs.flatMap entryChars = ys.flatMap entryChars) : xs = ys := by
  induction xs generalizing ys with
  | nil =>
    cases ys with
    | nil => rfl
    | cons y ys => exact absurd h.symm (entryChars_ne_nil _ _)
  | cons x xs ih =>
    cases ys with
    | nil => exact absurd h (entryChars_ne_nil _ _)
    | cons y ys =>
      rw [List.flatMap_cons, List.flatMap_cons, entryChars, entryChars, List.append_assoc, List.append_assoc] at h
      obtain ⟨hpath, hrest⟩ := prefixedChars_append_inj h
      obtain ⟨hhash, hrest⟩ := prefixedChars_append_inj hrest
      rw [ih hrest, Prod.ext hpath hhash]

theorem rootPreimage_eq_iff {e f : FileSet} : rootPreimage e = rootPreimage f ↔ e.replaced = f.replaced := by
  have htext : ∀ files : FileSet, scalars (rootText files.entries) =
      scalars (ofString "capka:plugin-tree:v1") ++ files.replaced.flatMap entryChars := by
    intro files
    have hrest : Fresh ((sortBy (fun e : FileEntry => e.path.map UInt16.toNat) files.entries).flatMap entryText) := by
      have := fresh_flatMap entryText fresh_entry_append (sortBy (fun e : FileEntry => e.path.map UInt16.toNat) files.entries) fresh_nil
      rwa [List.append_nil] at this
    rw [rootText, scalars_append _ hrest, scalars_entries]
    rfl
  rw [rootPreimage, rootPreimage, toUtf8_eq_iff, htext, htext]
  exact ⟨fun h => flatMap_entryChars_inj (List.append_cancel_left h), fun h => by rw [h]⟩

/-! ### Where no surrogate is replaced -/

theorem sameFields_iff {fs gs : List (Units × CanonValue)} : SameFields fs gs ↔ ∀ f ∈ fs, ∃ w, (f.1, w) ∈ gs ∧ SameCanon f.2 w := by
  induction fs with
  | nil => simp [SameFields]
  | cons f fs ih => rw [SameFields, ih, List.forall_mem_cons]

theorem wellFormedFields_iff {fs : List (Units × CanonValue)} :
    WellFormedFields fs ↔ ∀ f ∈ fs, isWellFormed f.1 = true ∧ WellFormed f.2 := by
  induction fs with
  | nil => simp [WellFormedFields]
  | cons f fs ih => rw [WellFormedFields, ih, List.forall_mem_cons, and_assoc]

theorem text_wellFormed (n : Numeric) : isWellFormed n.text = true := by
  have hascii : ∀ s : Units, (∀ u ∈ s, u.toNat < 0x80) → isWellFormed s = true := by
    intro s hs
    induction s using scalars.induct with
    | case1 => rfl
    | case2 u =>
      have hu := hs u (by simp)
      rw [isWellFormed, Bool.not_eq_true', Bool.eq_false_iff, ne_eq, surrogate_iff]
      omega
    | case3 u v rest h ih =>
      have hu := hs u (by simp)
      rw [Bool.and_eq_true, isHigh_iff] at h
      omega
    | case4 u v rest h ih =>
      have hu := hs u (by simp)
      rw [isWellFormed, if_neg h, ih fun w hw => hs w (List.mem_cons_of_mem _ hw), Bool.and_true, Bool.not_eq_true', Bool.eq_false_iff, ne_eq,
        surrogate_iff]
      omega
  cases n with
  | finite n =>
    refine hascii _ fun u hu => ?_
    have hnumeric := n.numeric u hu
    simp only [isNumeric, Bool.or_eq_true, Bool.and_eq_true, decide_eq_true_eq, UInt16.le_iff_toNat_le, ← UInt16.toNat_inj] at hnumeric
    simp only [UInt16.reduceToNat] at hnumeric
    omega
  | nan => decide
  | infinite negative => cases negative <;> decide

theorem eq_of_map {xs ys : List FileEntry} (hxs : ∀ x ∈ xs, isWellFormed x.path = true ∧ isWellFormed x.contentHash = true)
    (hys : ∀ y ∈ ys, isWellFormed y.path = true ∧ isWellFormed y.contentHash = true)
    (h : (xs.map fun e => (scalars e.path, scalars e.contentHash)) = ys.map fun e => (scalars e.path, scalars e.contentHash)) : xs = ys := by
  induction xs generalizing ys with
  | nil =>
    cases ys with
    | nil => rfl
    | cons y ys => simp at h
  | cons x xs ih =>
    cases ys with
    | nil => simp at h
    | cons y ys =>
      rw [List.map_cons, List.map_cons, List.cons.injEq] at h
      obtain ⟨hpath, hhash⟩ := Prod.mk.inj h.1
      have hx := hxs x List.mem_cons_self
      have hy := hys y List.mem_cons_self
      have hxy : x = y := by
        cases x
        cases y
        rw [FileEntry.mk.injEq]
        exact ⟨scalars_inj hx.1 hy.1 hpath, scalars_inj hx.2 hy.2 hhash⟩
      rw [hxy, ih (fun z hz => hxs z (List.mem_cons_of_mem _ hz)) (fun z hz => hys z (List.mem_cons_of_mem _ hz)) h.2]

/-- The value is known from its shape, among those without a stray surrogate. -/
def Known (v : CanonValue) : Prop := ∀ w, WellFormed v → WellFormed w → shape v = shape w → SameCanon v w

theorem known_arr {xs : List CanonValue} (h : ∀ v ∈ xs, Known v) : Known (.arr xs) := by
  intro w hv hw heq
  cases w <;> simp only [shape, Shape.arr.injEq, reduceCtorEq] at heq
  case arr ys =>
    rw [WellFormed] at hv hw
    rw [SameCanon]
    induction xs generalizing ys with
    | nil =>
      cases ys with
      | nil => trivial
      | cons w ys => simp [shapeItems] at heq
    | cons v xs ih =>
      cases ys with
      | nil => simp [shapeItems] at heq
      | cons w ys =>
        rw [WellFormedItems] at hv hw
        rw [shapeItems, shapeItems, List.cons.injEq] at heq
        exact ⟨h v List.mem_cons_self w hv.1 hw.1 heq.1, ih (fun u hu => h u (List.mem_cons_of_mem _ hu)) hv.2 ys hw.2 heq.2⟩

theorem known_obj {fs : List (Units × CanonValue)} (h : ∀ f ∈ fs, Known f.2) : Known (.obj fs) := by
  intro w hv hw heq
  cases w with
  | obj gs =>
    rw [shape_obj, shape_obj, Shape.obj.injEq] at heq
    rw [WellFormed, wellFormedFields_iff] at hv hw
    have hfs : (sortBy sortKey fs).Perm fs := perm_sortBy
    have hgs : (sortBy sortKey gs).Perm gs := perm_sortBy
    have hlen := congrArg List.length heq
    rw [List.length_map, List.length_map] at hlen
    refine ⟨hfs.length_eq.symm.trans (hlen.trans hgs.length_eq), sameFields_iff.mpr fun f hf => ?_⟩
    have hmem : (scalars f.1, shape f.2) ∈ (sortBy sortKey gs).map fun g => (scalars g.1, shape g.2) := by
      rw [← heq]
      exact List.mem_map_of_mem (hfs.mem_iff.mpr hf)
    obtain ⟨g, hg, hfg⟩ := List.mem_map.mp hmem
    have hg' := hgs.mem_iff.mp hg
    obtain ⟨hkey, hshape⟩ := Prod.mk.inj hfg
    have hk : g.1 = f.1 := scalars_inj (hw g hg').1 (hv f hf).1 hkey
    exact ⟨g.2, hk ▸ hg', h f hf g.2 (hv f hf).2 (hw g hg').2 hshape.symm⟩
  | _ => simp [shape] at heq

mutual

theorem known : (v : CanonValue) → Known v
  | .undefined => fun w _ _ h => by cases w <;> simp [shape, SameCanon] at h ⊢
  | .null => fun w _ _ h => by cases w <;> simp [shape, SameCanon] at h ⊢
  | .bool _ => fun w _ _ h => by cases w <;> simp [shape, SameCanon] at h ⊢; exact h
  | .str _ => fun w hv hw h => by
    cases w <;> simp only [shape, Shape.str.injEq, reduceCtorEq] at h
    exact scalars_inj hv hw h
  | .num m => fun w _ _ h => by
    cases w <;> simp only [shape, Shape.num.injEq, reduceCtorEq] at h
    exact scalars_inj (text_wellFormed m) (text_wellFormed _) h
  | .arr items => known_arr (knownItems items)
  | .obj fields => known_obj (knownFields fields)

theorem knownItems : (items : List CanonValue) → ∀ v ∈ items, Known v
  | [], _, hv => by cases hv
  | w :: items, v, hv => by
    rcases List.mem_cons.mp hv with heq | hv
    · rw [heq]
      exact known w
    · exact knownItems items v hv

theorem knownFields : (fields : List (Units × CanonValue)) → ∀ f ∈ fields, Known f.2
  | [], _, hf => by cases hf
  | (_, w) :: fields, f, hf => by
    rcases List.mem_cons.mp hf with heq | hf
    · rw [heq]
      exact known w
    · exact knownFields fields f hf

end

end CanonicalAux

open CanonicalAux

/-- Without a stray surrogate, equal bytes mean equal values. -/
theorem sameSequence_of_preimage {ps qs : List Placed} (hps : ∀ p ∈ ps, p.WellFormed) (hqs : ∀ q ∈ qs, q.WellFormed)
    (h : preimage ps = preimage qs) : SameSequence ps qs := by
  rw [preimage_eq_iff] at h
  induction ps generalizing qs with
  | nil =>
    cases qs with
    | nil => exact .nil
    | cons q qs => simp at h
  | cons p ps ih =>
    cases qs with
    | nil => simp at h
    | cons q qs =>
      rw [List.map_cons, List.map_cons, List.cons.injEq] at h
      obtain ⟨hpath, hshape⟩ := Prod.mk.inj h.1
      have hp := hps p List.mem_cons_self
      have hq := hqs q List.mem_cons_self
      exact .cons ⟨scalars_inj hp.1 hq.1 hpath, known p.value q.value hp.2 hq.2 hshape⟩
        (ih (fun x hx => hps x (List.mem_cons_of_mem _ hx)) (fun x hx => hqs x (List.mem_cons_of_mem _ hx)) h.2)

theorem sameSequence_of_preimage_swapped :
    SameSequence [⟨[], .obj [(ofString "a", .null), (ofString "b", .undefined)], ⟨by decide, trivial, trivial, trivial⟩⟩]
      [⟨[], .obj [(ofString "b", .undefined), (ofString "a", .null)], ⟨by decide, trivial, trivial, trivial⟩⟩] :=
  sameSequence_of_preimage (by simp [Placed.WellFormed, WellFormed, WellFormedFields]; decide)
    (by simp [Placed.WellFormed, WellFormed, WellFormedFields]; decide) (by decide +kernel)

/-- Without a stray surrogate, equal bytes mean equal sets. -/
theorem same_of_rootPreimage {e f : FileSet} (he : e.WellFormed) (hf : f.WellFormed) (h : rootPreimage e = rootPreimage f) : e.Same f := by
  rw [rootPreimage_eq_iff, FileSet.replaced, FileSet.replaced] at h
  have hsorted : sortBy (fun e : FileEntry => e.path.map UInt16.toNat) e.entries =
      sortBy (fun e : FileEntry => e.path.map UInt16.toNat) f.entries := by
    have hwf : ∀ {files : FileSet}, files.WellFormed → ∀ x ∈ sortBy (fun e : FileEntry => e.path.map UInt16.toNat) files.entries,
        isWellFormed x.path = true ∧ isWellFormed x.contentHash = true := fun hfiles x hx => hfiles x (mem_sortBy.mp hx)
    exact eq_of_map (hwf he) (hwf hf) h
  have hperm : (sortBy (fun e : FileEntry => e.path.map UInt16.toNat) e.entries).Perm f.entries := by
    rw [hsorted]
    exact perm_sortBy
  exact perm_sortBy.symm.trans hperm

theorem same_of_rootPreimage_swapped : FileSet.Same ⟨[⟨ofString "a", ofString "1"⟩, ⟨ofString "b", ofString "2"⟩], by decide⟩
    ⟨[⟨ofString "b", ofString "2"⟩, ⟨ofString "a", ofString "1"⟩], by decide⟩ :=
  same_of_rootPreimage (by simp [FileSet.WellFormed]; decide) (by simp [FileSet.WellFormed]; decide) (by decide +kernel)

/-- Equal bytes mean equal values, one after the other, and equal sets of files, just when what is compared does not differ only in
surrogates without their pairs. -/
theorem canonical_injective_iff (ps qs : List Placed) (e f : FileSet) :
    ((preimage ps = preimage qs → SameSequence ps qs) ↔ ¬DifferInSurrogates ps qs) ∧
      ((rootPreimage e = rootPreimage f → e.Same f) ↔ ¬e.DifferInSurrogates f) := by
  constructor
  · rw [preimage_eq_iff, DifferInSurrogates]
    tauto
  · rw [rootPreimage_eq_iff, FileSet.DifferInSurrogates]
    tauto

def Placed.ofText (path s : Units) : Placed := ⟨path, .str s, trivial⟩

/-- Two strings of one stray surrogate each have the same bytes. -/
theorem surrogates_collide : ¬∀ ps qs, preimage ps = preimage qs → SameSequence ps qs := by
  intro h
  have hsame := h [.ofText (ofString "v") [0xd800]] [.ofText (ofString "v") [0xd801]] (by decide +kernel)
  rw [SameSequence, List.forall₂_cons] at hsame
  have heq : ([0xd800] : Units) = [0xd801] := hsame.1.2
  exact absurd heq (by decide)

end Canonical

end Capka

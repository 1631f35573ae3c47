import Mathlib
import Capka.Vault.NoteEdit

/-!
# The tokens of a note

A token and a link that was shown are both two brackets, a text without brackets, and two brackets. Such a text begins in no other. The ids
a text names are therefore those whose tokens stand in it (`mem_edgeIdsIn`), and a text in which every link is replaced by another has the
other links, and no more (`hits_replace`).
-/

namespace Capka.NoteEdit

open Ecma

/-- An id that a token can hold. -/
def IsEdgeId (id : Units) : Prop := (∀ u ∈ id, isEdgeIdUnit u = true) ∧ 1 ≤ id.length ∧ id.length ≤ 32

/-- The text has no bracket. -/
def Unbracketed (s : Units) : Prop := ∀ u ∈ s, isBracket u = false

namespace TokenAux

theorem unbracketed_of_isEdgeId {id : Units} (h : IsEdgeId id) : Unbracketed id := by
  intro u hu
  by_contra hb
  rw [Bool.not_eq_false, isBracket, Bool.or_eq_true, decide_eq_true_eq, decide_eq_true_eq] at hb
  have hid := h.1 u hu
  rcases hb with rfl | rfl <;> revert hid <;> decide

/-- What is between the brackets of a token. -/
def tokenInner (id : Units) : Units := ofString "capka-edge:" ++ id

theorem edgeToken_eq (id : Units) : edgeToken id = linkText (tokenInner id) := by
  have hopen : tokenOpen = linkOpen ++ ofString "capka-edge:" := by decide
  simp only [edgeToken, linkText, tokenInner, hopen, List.append_assoc]

theorem tokenInner_injective {id id' : Units} (h : tokenInner id = tokenInner id') : id = id' := List.append_cancel_left h

theorem unbracketed_tokenInner {id : Units} (h : IsEdgeId id) : Unbracketed (tokenInner id) := by
  intro u hu
  rcases List.mem_append.mp hu with hu | hu
  · have hopen : ((ofString "capka-edge:").all fun u => !isBracket u) = true := by decide
    simpa using List.all_eq_true.mp hopen u hu
  · exact unbracketed_of_isEdgeId h u hu

theorem linkText_eq (inner : Units) : linkText inner = 0x5b :: 0x5b :: (inner ++ [0x5d, 0x5d]) := rfl

theorem linkText_length (inner : Units) : (linkText inner).length = inner.length + 4 := by
  simp [linkText_eq]

/-! ### Reading -/

theorem tokenAt_iff {s id : Units} : tokenAt s = some id ↔ IsEdgeId id ∧ edgeToken id <+: s := by
  constructor
  · intro h
    obtain ⟨hbegins, hpos, hle⟩ := tokenAt_spec h
    refine ⟨⟨?_, hpos, hle⟩, hbegins⟩
    rw [tokenAt] at h
    split_ifs at h
    obtain rfl := Option.some.inj h
    exact fun u hu => List.mem_takeWhile_imp hu
  · rintro ⟨hid, t, rfl⟩
    have hopen : tokenOpen.length = 13 := by decide
    have hdrop : (edgeToken id ++ t).drop 13 = id ++ (linkClose ++ t) := by
      rw [edgeToken, List.append_assoc, List.append_assoc, ← hopen, List.drop_left]
    have htake : (id ++ (linkClose ++ t)).takeWhile isEdgeIdUnit = id := by
      have hclose : (linkClose ++ t).takeWhile isEdgeIdUnit = [] := rfl
      rw [List.takeWhile_append_of_pos hid.1, hclose, List.append_nil]
    rw [tokenAt, hdrop, htake]
    exact if_pos ⟨List.prefix_append _ _, hid.2⟩

theorem renderedAt_iff {s inner : Units} : renderedAt s = some inner ↔ Unbracketed inner ∧ linkText inner <+: s := by
  constructor
  · intro h
    refine ⟨?_, renderedAt_spec h⟩
    rw [renderedAt] at h
    split_ifs at h
    obtain rfl := Option.some.inj h
    intro u hu
    have hplain := List.mem_takeWhile_imp hu
    simpa using hplain
  · rintro ⟨hinner, t, rfl⟩
    have hdrop : (linkText inner ++ t).drop 2 = inner ++ (linkClose ++ t) := by
      rw [linkText, List.append_assoc, List.append_assoc]
      rfl
    have htake : (inner ++ (linkClose ++ t)).takeWhile (fun u => !isBracket u) = inner := by
      have hclose : (linkClose ++ t).takeWhile (fun u => !isBracket u) = [] := rfl
      rw [List.takeWhile_append_of_pos (fun u hu => by rw [hinner u hu]; rfl), hclose, List.append_nil]
    rw [renderedAt, hdrop, htake]
    exact if_pos (List.prefix_append _ _)

theorem linkOpen_begins (inner : Units) : linkOpen <+: linkText inner := by
  rw [linkText, List.append_assoc]
  exact List.prefix_append _ _

theorem link_apart {s inner : Units} {k : Nat} (hinner : Unbracketed inner) (h : linkText inner <+: s) (hk : 0 < k)
    (hlt : k < (linkText inner).length) : ¬linkOpen <+: s.drop k := by
  rintro ⟨t', ht'⟩
  obtain ⟨t, rfl⟩ := h
  rw [linkText_length] at hlt
  -- behind its two brackets a link has no other opening one
  have hno : ∀ n, n < inner.length + 2 → (linkText inner ++ t)[n + 2]? ≠ some 0x5b := by
    intro n hn h
    have hget : (linkText inner ++ t)[n + 2]? = (inner ++ [0x5d, 0x5d])[n]? := by
      rw [linkText_eq, List.cons_append, List.cons_append, List.getElem?_cons_succ, List.getElem?_cons_succ,
        List.getElem?_append_left (by simpa using hn)]
    rw [hget] at h
    rcases List.mem_append.mp (List.mem_of_getElem? h) with hmem | hmem
    · exact absurd (hinner _ hmem) (by decide)
    · exact absurd hmem (by decide)
  have hfirst : (linkText inner ++ t)[k]? = some 0x5b := by
    rw [← List.head?_drop, ← ht']
    rfl
  have hsecond : (linkText inner ++ t)[k + 1]? = some 0x5b := by
    rw [← List.head?_drop, ← List.drop_drop, ← ht']
    rfl
  rcases Nat.lt_or_ge k 2 with h2 | h2
  · obtain rfl : k = 1 := by omega
    exact hno 0 (by omega) hsecond
  · obtain ⟨n, rfl⟩ := Nat.exists_eq_add_of_le' h2
    exact hno n (by omega) hfirst

theorem tokens_apart : tokens.Apart := by
  intro s id k h hk hlt
  obtain ⟨hid, hbegins⟩ := tokenAt_iff.mp h
  rw [edgeToken_eq] at hbegins
  have hlt' : k < (linkText (tokenInner id)).length := by
    rw [← edgeToken_eq]
    exact hlt
  cases hread : tokens.read (s.drop k) with
  | none => rfl
  | some id' =>
    have hbegins' := (tokenAt_iff.mp hread).2
    rw [edgeToken_eq] at hbegins'
    exact absurd ((linkOpen_begins _).trans hbegins') (link_apart (unbracketed_tokenInner hid) hbegins hk hlt')

theorem links_apart : links.Apart := by
  intro s inner k h hk hlt
  obtain ⟨hinner, hbegins⟩ := renderedAt_iff.mp h
  cases hread : links.read (s.drop k) with
  | none => rfl
  | some inner' =>
    have hbegins' := (renderedAt_iff.mp hread).2
    exact absurd ((linkOpen_begins _).trans hbegins') (link_apart hinner hbegins hk hlt)

theorem infix_iff_drop {w s : Units} : w <:+: s ↔ ∃ k, w <+: s.drop k := by
  constructor
  · rintro ⟨a, b, rfl⟩
    exact ⟨a.length, by rw [List.append_assoc, List.drop_left]; exact List.prefix_append _ _⟩
  · rintro ⟨k, h⟩
    exact h.isInfix.trans (List.drop_suffix k s).isInfix

theorem mem_edgeIdsIn {s id : Units} : id ∈ edgeIdsIn s ↔ IsEdgeId id ∧ edgeToken id <:+: s := by
  rw [edgeIdsIn, List.mem_eraseDups, Scan.Scanner.mem_hits_iff tokens_apart, infix_iff_drop]
  constructor
  · rintro ⟨k, hk⟩
    obtain ⟨hid, h⟩ := tokenAt_iff.mp hk
    exact ⟨hid, k, h⟩
  · rintro ⟨hid, k, h⟩
    exact ⟨k, tokenAt_iff.mpr ⟨hid, h⟩⟩

theorem mem_links {s inner : Units} : inner ∈ links.hits s ↔ Unbracketed inner ∧ linkText inner <:+: s := by
  rw [Scan.Scanner.mem_hits_iff links_apart, infix_iff_drop]
  constructor
  · rintro ⟨k, hk⟩
    obtain ⟨hinner, h⟩ := renderedAt_iff.mp hk
    exact ⟨hinner, k, h⟩
  · rintro ⟨hinner, k, h⟩
    exact ⟨k, renderedAt_iff.mpr ⟨hinner, h⟩⟩

/-! ### Links for links -/

theorem prefix_of_prefix_replace {f : Units → Units} (hf : ∀ inner, (f inner).head? = some 0x5b) {r s : Units} (hr : 0x5b ∉ r)
    (h : r <+: links.replace s f) : r <+: s := by
  induction s using Scan.Scanner.scan_induction (m := links) generalizing r with
  | nil => exact h
  | unit u rest hread ih =>
    rw [Scan.Scanner.replace_unit hread] at h
    cases r with
    | nil => exact List.nil_prefix
    | cons c r =>
      obtain ⟨rfl, hrest⟩ := List.cons_prefix_cons.mp h
      exact List.cons_prefix_cons.mpr ⟨rfl, ih (fun hc => hr (List.mem_cons_of_mem c hc)) hrest⟩
  | hit inner rest hread ih =>
    rw [Scan.Scanner.replace_hit hread] at h
    cases r with
    | nil => exact List.nil_prefix
    | cons c r =>
      obtain ⟨t, ht⟩ := List.head?_eq_some_iff.mp (hf inner)
      rw [ht, List.cons_append] at h
      obtain ⟨rfl, -⟩ := List.cons_prefix_cons.mp h
      exact absurd List.mem_cons_self hr

theorem open_prefix_of_replace {g : Units → Units} {r s : Units} (hne : r ≠ []) (hr : 0x5b ∉ r)
    (h : 0x5b :: r <+: links.replace s fun inner => linkText (g inner)) : 0x5b :: r <+: s := by
  induction s using Scan.Scanner.scan_induction (m := links) with
  | nil => exact h
  | unit v rest hread _ =>
    rw [Scan.Scanner.replace_unit hread] at h
    obtain ⟨hv, hrest⟩ := List.cons_prefix_cons.mp h
    exact List.cons_prefix_cons.mpr ⟨hv, prefix_of_prefix_replace (fun _ => rfl) hr hrest⟩
  | hit inner rest hread _ =>
    rw [Scan.Scanner.replace_hit hread, linkText_eq, List.cons_append, List.cons_append] at h
    have hinner := (List.cons_prefix_cons.mp h).2
    cases r with
    | nil => exact absurd rfl hne
    | cons c r =>
      have hc := (List.cons_prefix_cons.mp hinner).1
      rw [hc] at hr
      exact absurd List.mem_cons_self hr

theorem read_replace_none {g : Units → Units} {u : UInt16} {rest : Units} (h : links.read (u :: rest) = none) :
    links.read (u :: links.replace rest fun inner => linkText (g inner)) = none := by
  cases hnew : links.read (u :: links.replace rest fun inner => linkText (g inner)) with
  | none => rfl
  | some w =>
    obtain ⟨hw, hbegins⟩ := renderedAt_iff.mp hnew
    have hplain : (0x5b : UInt16) ∉ w ++ [0x5d, 0x5d] := by
      intro hmem
      rcases List.mem_append.mp hmem with hmem | hmem
      · exact absurd (hw _ hmem) (by decide)
      · exact absurd hmem (by decide)
    rw [linkText_eq] at hbegins
    obtain ⟨rfl, hsecond⟩ := List.cons_prefix_cons.mp hbegins
    -- the second bracket is a unit of its own, and so is all of the link behind it
    have hrest : 0x5b :: (w ++ [0x5d, 0x5d]) <+: rest := open_prefix_of_replace (by simp) hplain hsecond
    have hsome : links.read (0x5b :: rest) = some w :=
      renderedAt_iff.mpr ⟨hw, by rw [linkText_eq]; exact List.cons_prefix_cons.mpr ⟨rfl, hrest⟩⟩
    rw [hsome] at h
    cases h

theorem read_linkText {inner : Units} (h : Unbracketed inner) (rest : Units) :
    links.read (links.text inner ++ rest) = some inner := renderedAt_iff.mpr ⟨h, List.prefix_append _ _⟩

section Replaced

variable {g : Units → Units} {s : Units}

theorem hits_replace (hg : ∀ inner ∈ links.hits s, Unbracketed (g inner)) :
    links.hits (links.replace s fun inner => linkText (g inner)) = (links.hits s).map g := by
  induction s using Scan.Scanner.scan_induction (m := links) with
  | nil => rfl
  | unit u rest hread ih =>
    rw [Scan.Scanner.hits_unit hread] at hg ⊢
    rw [Scan.Scanner.replace_unit hread, Scan.Scanner.hits_unit (read_replace_none hread), ih hg]
  | hit inner rest hread ih =>
    rw [Scan.Scanner.hits_hit hread] at hg ⊢
    have hinner := hg inner List.mem_cons_self
    rw [Scan.Scanner.replace_hit hread, List.map_cons, ← ih fun w hw => hg w (List.mem_cons_of_mem inner hw)]
    exact Scan.Scanner.hits_hit (read_linkText hinner _)

theorem replace_replace {f : Units → Units} (hg : ∀ inner ∈ links.hits s, Unbracketed (g inner)) :
    links.replace (links.replace s fun inner => linkText (g inner)) f = links.replace s fun inner => f (g inner) := by
  induction s using Scan.Scanner.scan_induction (m := links) with
  | nil => rfl
  | unit u rest hread ih =>
    rw [Scan.Scanner.hits_unit hread] at hg
    rw [Scan.Scanner.replace_unit hread, Scan.Scanner.replace_unit (read_replace_none hread), Scan.Scanner.replace_unit hread, ih hg]
  | hit inner rest hread ih =>
    rw [Scan.Scanner.hits_hit hread] at hg
    have hinner := hg inner List.mem_cons_self
    rw [Scan.Scanner.replace_hit hread, Scan.Scanner.replace_hit hread, ← ih fun w hw => hg w (List.mem_cons_of_mem inner hw)]
    exact Scan.Scanner.replace_hit (read_linkText hinner _)

end Replaced

/-! ### What was shown, as it is stored -/

/-- What is between the brackets of the link that a link shown is stored as. -/
def mapInner (storedBody : Units) (edges : List RenderedEdge) (only : Option (List Units)) (inner : Units) : Units :=
  match standsFor storedBody edges inner with
  | [id] => if only.all fun allowed => allowed.contains id then tokenInner id else inner
  | _ => inner

section Mapping

variable {rendered storedBody mapped : Units} {edges : List RenderedEdge} {only : Option (List Units)}

theorem mapLink_eq (inner : Units) : mapLink storedBody edges only inner = linkText (mapInner storedBody edges only inner) := by
  rw [mapLink, mapInner]
  generalize standsFor storedBody edges inner = ids
  rcases ids with _ | ⟨id, _ | ⟨id', ids⟩⟩
  · rfl
  · simp only
    split_ifs
    · exact edgeToken_eq _
    · rfl
  · rfl

theorem mem_standsFor {inner id : Units} (h : id ∈ standsFor storedBody edges inner) : id ∈ edgeIdsIn storedBody := by
  rw [standsFor] at h
  split_ifs at h
  · cases h
  · exact (List.mem_filter.mp h).1
  · exact (List.mem_filter.mp h).1

theorem mapInner_cases (storedBody : Units) (edges : List RenderedEdge) (only : Option (List Units)) (inner : Units) :
    mapInner storedBody edges only inner = inner ∨
      ∃ id ∈ edgeIdsIn storedBody, mapInner storedBody edges only inner = tokenInner id := by
  rw [mapInner]
  split
  · rename_i id hid
    split_ifs
    · exact .inr ⟨id, mem_standsFor (hid ▸ List.mem_cons_self), rfl⟩
    · exact .inl rfl
  · exact .inl rfl

theorem unbracketed_mapInner {inner : Units} (h : Unbracketed inner) : Unbracketed (mapInner storedBody edges only inner) := by
  rcases mapInner_cases storedBody edges only inner with heq | ⟨id, hid, heq⟩
  · rw [heq]
    exact h
  · rw [heq]
    exact unbracketed_tokenInner (mem_edgeIdsIn.mp hid).1

theorem mapInner_tokenInner (id : Units) : mapInner storedBody edges only (tokenInner id) = tokenInner id := by
  have hnone : standsFor storedBody edges (tokenInner id) = [] := if_pos (List.prefix_append _ _)
  rw [mapInner, hnone]

theorem mapped_eq (h : mapRenderedToStored rendered storedBody edges only = .ok mapped) :
    mapped = links.replace rendered fun inner => linkText (mapInner storedBody edges only inner) := by
  rw [mapRenderedToStored] at h
  split at h
  · cases h
  · rw [← Except.ok.inj h]
    congr 1
    exact funext mapLink_eq

end Mapping

end TokenAux

end Capka.NoteEdit

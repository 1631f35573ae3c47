import Mathlib
import Capka.Vault.FuzzyEdit
import Capka.Vault.EditTokens

/-!
# Editing what was shown

The text to be replaced is copied off a note as it was shown, where a token reads as the title of its link. It is found again when its
links read back as what stands there: a link that stands for a token must have a title that is read as a link and not as something else,
and what only looks like a link must not have the title of one. A stretch without tokens is found as it is.
-/

namespace Capka.NoteEdit

open Ecma

/-- The pieces of a stored text as they are shown. -/
def shown (edges : List RenderedEdge) (ps : List (Scan.Piece UInt16 Units)) : Units :=
  ps.flatMap fun
    | .unit u => [u]
    | .hit edgeId =>
      match titleOf edges edgeId with
      | none => unresolvedLink
      | some title => linkText title

/-- The text is part of the note as it was shown and ends in no link of it: it is what a stretch of the stored body, which is the second
text, was shown as. -/
def ShownAs (storedBody : Units) (edges : List RenderedEdge) (oldStr stretch : Units) : Prop :=
  ∃ A B C, tokens.pieces storedBody = A ++ B ++ C ∧ oldStr = shown edges B ∧ stretch = tokens.textOf B

/-- The links of the stretch read back as what stands there: the title of a token is read as that of a link, or is the token, and what
looks like a link and is no token is not the one link of a title. -/
structure ReadsBack (storedBody : Units) (edges : List RenderedEdge) (stretch : Units) : Prop where
  titles : ∀ id ∈ edgeIdsIn stretch, ∀ title, titleOf edges id = some title →
    Unbracketed title ∧ (linkText title = edgeToken id ∨ (title ≠ removedLabel ∧ ¬ofString "capka-edge:" <+: title))
  literals : ∀ inner ∈ links.hits stretch, tokenAt (linkText inner) = none → (standsFor storedBody edges inner).length ≠ 1

namespace ShownAux

open TokenAux FuzzyAux

theorem shown_pieces (s : Units) (edges : List RenderedEdge) : shown edges (tokens.pieces s) = substituteTokens s (titleOf edges) := by
  rw [substituteTokens, Scan.Scanner.replace, shown, List.flatMap, List.flatMap]
  congr 1
  refine List.map_congr_left fun p _ => ?_
  cases p <;> rfl

theorem tokens_closed : tokens.Closed := by
  intro s id t h
  exact tokenAt_iff.mpr ⟨(tokenAt_iff.mp h).1, List.prefix_append _ _⟩

/-- What is between the brackets of a link or a token, as it is shown. -/
def showInner (edges : List RenderedEdge) (inner : Units) : Units :=
  match tokenAt (linkText inner) with
  | some id => (titleOf edges id).getD removedLabel
  | none => inner

variable {inner id : Units}

theorem tokenAt_linkText (hinner : Unbracketed inner) (h : tokenAt (linkText inner) = some id) :
    IsEdgeId id ∧ inner = tokenInner id := by
  obtain ⟨hid, hbegins⟩ := tokenAt_iff.mp h
  refine ⟨hid, ?_⟩
  rw [edgeToken_eq] at hbegins
  have hsome : ∀ w, Unbracketed w → linkText w <+: linkText inner → renderedAt (linkText inner) = some w :=
    fun w hw hprefix' => renderedAt_iff.mpr ⟨hw, hprefix'⟩
  have h₁ := hsome _ (unbracketed_tokenInner hid) hbegins
  have h₂ := hsome _ hinner List.prefix_rfl
  rw [h₁] at h₂
  exact (Option.some.inj h₂).symm

theorem tokenAt_tokenInner (h : IsEdgeId id) : tokenAt (linkText (tokenInner id)) = some id := by
  rw [← edgeToken_eq]
  exact tokenAt_iff.mpr ⟨h, List.prefix_rfl⟩

variable {edges : List RenderedEdge}

theorem showInner_token (h : tokenAt (linkText inner) = some id) :
    showInner edges inner = (titleOf edges id).getD removedLabel := by
  rw [showInner, h]

theorem showInner_literal (h : tokenAt (linkText inner) = none) :
    showInner edges inner = inner := by
  rw [showInner, h]

theorem substituteTokens_eq (s : Units) (edges : List RenderedEdge) :
    substituteTokens s (titleOf edges) = links.replace s fun inner => linkText (showInner edges inner) := by
  rw [substituteTokens]
  induction s using Scan.Scanner.scan_induction (m := links) with
  | nil => rfl
  | unit u rest hread ih =>
    have hnone : tokens.read (u :: rest) = none := by
      cases htoken : tokens.read (u :: rest) with
      | none => rfl
      | some id =>
        obtain ⟨hid, hbegins⟩ := tokenAt_iff.mp htoken
        rw [edgeToken_eq] at hbegins
        have hsome : links.read (u :: rest) = some (tokenInner id) :=
          renderedAt_iff.mpr ⟨unbracketed_tokenInner hid, hbegins⟩
        rw [hsome] at hread
        cases hread
    rw [Scan.Scanner.replace_unit hread, Scan.Scanner.replace_unit hnone, ih]
  | hit inner rest hread ih =>
    have hinner := (renderedAt_iff.mp hread).1
    rw [Scan.Scanner.replace_hit hread, ← ih]
    have htext : links.text inner = linkText inner := rfl
    cases htoken : tokenAt (linkText inner) with
    | some id =>
      obtain ⟨hid, rfl⟩ := tokenAt_linkText hinner htoken
      have hread' : tokens.read (tokens.text id ++ rest) = some id := tokenAt_iff.mpr ⟨hid, List.prefix_append _ _⟩
      have htext' : links.text (tokenInner id) = tokens.text id := (edgeToken_eq id).symm
      rw [htext', Scan.Scanner.replace_hit hread']
      congr 1
      rw [showInner_token htoken]
      cases titleOf edges id <;> rfl
    | none =>
      have hnone : ∀ k < (linkText inner).length, tokens.read ((linkText inner ++ rest).drop k) = none := by
        intro k hk
        cases hsome : tokens.read ((linkText inner ++ rest).drop k) with
        | none => rfl
        | some id =>
          obtain ⟨hid, hbegins⟩ := tokenAt_iff.mp hsome
          rw [edgeToken_eq] at hbegins
          rcases Nat.eq_zero_or_pos k with rfl | hpos
          · have hsame : some inner = some (tokenInner id) := by
              rw [← renderedAt_iff.mpr ⟨unbracketed_tokenInner hid, hbegins⟩]
              exact (renderedAt_iff.mpr ⟨hinner, List.prefix_append _ _⟩).symm
            rw [Option.some.inj hsame, tokenAt_tokenInner hid] at htoken
            cases htoken
          · exact absurd ((linkOpen_begins _).trans hbegins) (link_apart hinner (List.prefix_append _ rest) hpos hk)
      rw [htext, Scan.Scanner.replace_append hnone, showInner_literal htoken]

variable {storedBody : Units}

theorem looseSpans_eq_nil {needles : List Units} :
    looseSpans storedBody needles = [] ↔ ∀ n ∈ needles, fuzzySpans storedBody n = [] := by
  rw [looseSpans, List.flatMap_eq_nil_iff]
  refine forall_congr' fun n => forall_congr' fun _ => ?_
  rw [List.map_eq_nil_iff]

theorem spansOf_eq_nil {needles : List Units} :
    spansOf storedBody needles = [] ↔ ∀ n ∈ needles, occurrences storedBody n = [] ∧ fuzzySpans storedBody n = [] := by
  rw [spansOf]
  split_ifs with hexact
  · rw [looseSpans_eq_nil]
    have hnone := exactSpans_eq_nil.mp (List.isEmpty_iff.mp hexact)
    exact ⟨fun h n hn => ⟨hnone n hn, h n hn⟩, fun h n hn => (h n hn).2⟩
  · constructor
    · exact fun h => absurd (List.isEmpty_iff.mpr h) hexact
    · exact fun h => exactSpans_eq_nil.mpr fun n hn => (h n hn).1

variable {oldStr : Units}

theorem of_noMatch {newStr : Units}
    (h : applyStrReplace storedBody edges oldStr newStr = .error .noMatch) :
    ∃ mappedOld, (∀ id ∈ edgeIdsIn newStr, id ∈ edgeIdsIn oldStr) ∧
      mapRenderedToStored oldStr storedBody edges none = .ok mappedOld ∧
      ∀ n ∈ needlesOf oldStr mappedOld, occurrences storedBody n = [] ∧ fuzzySpans storedBody n = [] := by
  rw [applyStrReplace] at h
  split_ifs at h with hbad
  · cases h
  have htyped : ∀ id ∈ edgeIdsIn newStr, id ∈ edgeIdsIn oldStr := by
    intro id hid
    by_contra hno
    exact hbad (List.any_eq_true.mpr ⟨id, hid, by simpa using hno⟩)
  cases hmap : mapRenderedToStored oldStr storedBody edges none with
  | error title =>
    rw [hmap] at h
    cases h
  | ok mappedOld =>
    rw [hmap] at h
    rcases hspans : spansOf storedBody (needlesOf oldStr mappedOld) with _ | ⟨span, _ | ⟨span', spans⟩⟩
    · exact ⟨mappedOld, htyped, rfl, spansOf_eq_nil.mp hspans⟩
    · cases hnew : mapRenderedToStored newStr storedBody edges (some span.carried) with
      | error title =>
        simp only [hspans, hnew] at h
        cases h
      | ok mappedNew =>
        simp only [hspans, hnew] at h
        split_ifs at h <;> cases h
    · simp only [hspans] at h
      cases h

theorem unambiguous_of_ok {rendered mapped : Units} {only : Option (List Units)}
    (h : mapRenderedToStored rendered storedBody edges only = .ok mapped) :
    ∀ inner ∈ links.hits rendered, (standsFor storedBody edges inner).length ≤ 1 := by
  rw [mapRenderedToStored] at h
  split at h
  · cases h
  · rename_i hnone
    intro inner hinner
    have hno := List.find?_eq_none.mp hnone inner hinner
    rw [decide_eq_true_eq] at hno
    omega

theorem mapInner_of_singleton
    (h : standsFor storedBody edges inner = [id]) : mapInner storedBody edges none inner = tokenInner id := by
  rw [mapInner, h]
  rfl

theorem mapInner_of_length_ne
    (h : (standsFor storedBody edges inner).length ≠ 1) : mapInner storedBody edges none inner = inner := by
  rw [mapInner]
  split
  · rename_i id hid
    rw [hid] at h
    exact absurd rfl h
  · rfl

theorem mem_standsFor_showInner (hid : id ∈ edgeIdsIn storedBody)
    (htitle : ∀ title, titleOf edges id = some title →
      linkText title = edgeToken id ∨ (title ≠ removedLabel ∧ ¬ofString "capka-edge:" <+: title)) :
    id ∈ standsFor storedBody edges (showInner edges (tokenInner id)) ∨ showInner edges (tokenInner id) = tokenInner id := by
  rw [showInner_token (tokenAt_tokenInner (mem_edgeIdsIn.mp hid).1)]
  cases htitleOf : titleOf edges id with
  | none =>
    left
    rw [Option.getD_none, standsFor, if_neg (by decide), if_pos rfl]
    exact List.mem_filter.mpr ⟨hid, by rw [htitleOf]; rfl⟩
  | some title =>
    rcases htitle title htitleOf with htoken | ⟨hlabel, hopen⟩
    · right
      rw [edgeToken_eq, linkText_eq, linkText_eq] at htoken
      exact List.append_cancel_right (List.cons.inj (List.cons.inj htoken).2).2
    · left
      rw [Option.getD_some, standsFor, if_neg hopen, if_neg hlabel]
      exact List.mem_filter.mpr ⟨hid, by rw [htitleOf]; simp⟩

theorem unbracketed_removedLabel : Unbracketed removedLabel := by
  have hall : (removedLabel.all fun u => !isBracket u) = true := by decide
  intro u hu
  simpa using List.all_eq_true.mp hall u hu

section ReadsBack

variable {storedBody stretch : Units} {edges : List RenderedEdge}

theorem unbracketed_of_readsBack (h : ReadsBack storedBody edges stretch) :
    ∀ inner ∈ links.hits stretch, Unbracketed (showInner edges inner) := by
  intro inner hinner
  obtain ⟨hplain, hin⟩ := mem_links.mp hinner
  cases htoken : tokenAt (linkText inner) with
  | none =>
    rw [showInner_literal htoken]
    exact hplain
  | some id =>
    obtain ⟨hid, rfl⟩ := tokenAt_linkText hplain htoken
    rw [← edgeToken_eq] at hin
    rw [showInner_token htoken]
    cases htitle : titleOf edges id with
    | none => exact unbracketed_removedLabel
    | some title => exact (h.titles id (mem_edgeIdsIn.mpr ⟨hid, hin⟩) title htitle).1

theorem mapped_of_readsBack {mapped : Units} (h : ReadsBack storedBody edges stretch) (hin : stretch <:+: storedBody)
    (hmap : mapRenderedToStored (substituteTokens stretch (titleOf edges)) storedBody edges none = .ok mapped) :
    mapped = stretch := by
  have hshown := substituteTokens_eq stretch edges
  have hunambiguous := unambiguous_of_ok hmap
  rw [TokenAux.mapped_eq hmap, hshown, replace_replace (unbracketed_of_readsBack h)]
  rw [hshown, hits_replace (unbracketed_of_readsBack h)] at hunambiguous
  refine Eq.trans (Scan.Scanner.replace_congr fun inner hinner => ?_) (Scan.Scanner.replace_text stretch)
  have hone := hunambiguous _ (List.mem_map.mpr ⟨inner, hinner, rfl⟩)
  obtain ⟨hplain, hlink⟩ := mem_links.mp hinner
  cases htoken : tokenAt (linkText inner) with
  | none =>
    rw [showInner_literal htoken, mapInner_of_length_ne (h.literals inner hinner htoken)]
    rfl
  | some id =>
    obtain ⟨hid, rfl⟩ := tokenAt_linkText hplain htoken
    rw [← edgeToken_eq] at hlink
    have hstretch : id ∈ edgeIdsIn stretch := mem_edgeIdsIn.mpr ⟨hid, hlink⟩
    have hbody : id ∈ edgeIdsIn storedBody := mem_edgeIdsIn.mpr ⟨hid, hlink.trans hin⟩
    rcases mem_standsFor_showInner hbody fun title htitle => (h.titles id hstretch title htitle).2 with hmem | hsame
    · have hsingle : standsFor storedBody edges (showInner edges (tokenInner id)) = [id] := by
        generalize standsFor storedBody edges (showInner edges (tokenInner id)) = ids at hone hmem
        rcases ids with _ | ⟨x, _ | ⟨y, ids⟩⟩
        · cases hmem
        · rw [List.mem_singleton.mp hmem]
        · simp at hone
      rw [mapInner_of_singleton hsingle]
      rfl
    · rw [hsame, mapInner_tokenInner]
      rfl

end ReadsBack

/-! ### What reads back -/

theorem brackets_eq_zero {w : Units} : w.countP isBracket = 0 ↔ Unbracketed w := by
  rw [List.countP_eq_zero]
  exact forall₂_congr fun u _ => by rw [Bool.not_eq_true]

theorem brackets_linkText (w : Units) : (linkText w).countP isBracket = 4 + w.countP isBracket := by
  have hopen : isBracket 0x5b = true := by decide
  have hclose : isBracket 0x5d = true := by decide
  simp only [linkText_eq, List.countP_cons, List.countP_append, List.countP_nil, hopen, hclose, if_true]
  omega

theorem brackets_replace (s : Units) (g : Units → Units) :
    (links.replace s fun inner => linkText (g inner)).countP isBracket =
      s.countP isBracket + ((links.hits s).map fun inner => (g inner).countP isBracket).sum := by
  induction s using Scan.Scanner.scan_induction (m := links) with
  | nil => rfl
  | unit u rest hread ih =>
    rw [Scan.Scanner.replace_unit hread, Scan.Scanner.hits_unit hread, List.countP_cons, List.countP_cons, ih]
    omega
  | hit inner rest hread ih =>
    have hinner := brackets_eq_zero.mpr (renderedAt_iff.mp hread).1
    have htext : links.text inner = linkText inner := rfl
    rw [Scan.Scanner.replace_hit hread, Scan.Scanner.hits_hit hread, List.countP_append, List.countP_append, ih, htext, brackets_linkText,
      brackets_linkText, hinner, List.map_cons, List.sum_cons]
    omega

theorem unbracketed_of_brackets {s : Units} {g : Units → Units}
    (h : (links.replace s fun inner => linkText (g inner)).countP isBracket = s.countP isBracket) :
    ∀ inner ∈ links.hits s, Unbracketed (g inner) := by
  intro inner hinner
  rw [brackets_replace] at h
  have hle : (g inner).countP isBracket ≤ ((links.hits s).map fun inner => (g inner).countP isBracket).sum :=
    List.single_le_sum (fun _ _ => Nat.zero_le _) _ (List.mem_map.mpr ⟨inner, hinner, rfl⟩)
  exact brackets_eq_zero.mp (by omega)

theorem readsBack_of_mapped {stretch : Units}
    (hmap : mapRenderedToStored (substituteTokens stretch (titleOf edges)) storedBody edges none = .ok stretch) :
    ReadsBack storedBody edges stretch := by
  have heq := TokenAux.mapped_eq hmap
  rw [substituteTokens_eq] at heq
  -- the mapping keeps the number of brackets, and so did the titles
  have hplain : ∀ inner ∈ links.hits stretch, Unbracketed (showInner edges inner) := by
    refine unbracketed_of_brackets ?_
    conv_rhs => rw [heq]
    rw [brackets_replace _ (mapInner storedBody edges none)]
    refine (Nat.add_eq_left.mpr (List.sum_eq_zero fun n hn => ?_)).symm
    obtain ⟨inner, hinner, rfl⟩ := List.mem_map.mp hn
    exact brackets_eq_zero.mpr (unbracketed_mapInner (mem_links.mp hinner).1)
  rw [replace_replace hplain] at heq
  have hback : ∀ inner ∈ links.hits stretch, mapInner storedBody edges none (showInner edges inner) = inner := by
    have hhits := congrArg links.hits heq
    rw [hits_replace fun inner hinner => unbracketed_mapInner (hplain inner hinner)] at hhits
    intro inner hinner
    have hself : (links.hits stretch).map id =
        (links.hits stretch).map fun inner => mapInner storedBody edges none (showInner edges inner) := by
      rw [List.map_id]
      exact hhits
    exact (List.map_inj_left.mp hself inner hinner).symm
  constructor
  · intro id hid title htitle
    obtain ⟨hvalid, hin⟩ := mem_edgeIdsIn.mp hid
    rw [edgeToken_eq] at hin
    have hhit : tokenInner id ∈ links.hits stretch := mem_links.mpr ⟨unbracketed_tokenInner hvalid, hin⟩
    have hshow : showInner edges (tokenInner id) = title := by
      rw [showInner_token (tokenAt_tokenInner hvalid), htitle, Option.getD_some]
    have htitlePlain := hplain _ hhit
    have htitleBack := hback _ hhit
    rw [hshow] at htitlePlain htitleBack
    refine ⟨htitlePlain, ?_⟩
    by_cases hone : (standsFor storedBody edges title).length = 1
    · right
      obtain ⟨x, hx⟩ := List.length_eq_one_iff.mp hone
      rw [mapInner_of_singleton hx] at htitleBack
      obtain rfl := tokenInner_injective htitleBack
      have hmem : x ∈ standsFor storedBody edges title := hx ▸ List.mem_cons_self
      constructor
      · rintro rfl
        rw [standsFor, if_neg (by decide), if_pos rfl] at hmem
        have hnone := of_decide_eq_true (List.mem_filter.mp hmem).2
        rw [htitle] at hnone
        cases hnone
      · intro hopen
        rw [standsFor, if_pos hopen] at hmem
        cases hmem
    · left
      rw [mapInner_of_length_ne hone] at htitleBack
      rw [htitleBack, edgeToken_eq]
  · intro inner hinner htoken hone
    have hliteral := hback inner hinner
    rw [showInner_literal htoken] at hliteral
    obtain ⟨x, hx⟩ := List.length_eq_one_iff.mp hone
    rw [mapInner_of_singleton hx] at hliteral
    have hvalid := (mem_edgeIdsIn.mp (mem_standsFor (hx ▸ List.mem_cons_self : x ∈ standsFor storedBody edges inner))).1
    rw [← hliteral, tokenAt_tokenInner hvalid] at htoken
    cases htoken

theorem occurrences_ne_nil {n : Units} (h : n <:+: storedBody) : occurrences storedBody n ≠ [] := by
  obtain ⟨a, b, rfl⟩ := h
  refine List.ne_nil_of_mem (a := a.length) (mem_occurrences.mpr ⟨?_, ?_⟩)
  · simp only [List.length_append]
    omega
  · rw [List.append_assoc, List.drop_left]
    exact List.prefix_append _ _

theorem mem_needlesOf {mappedOld n : Units} : n ∈ needlesOf oldStr mappedOld ↔ n = oldStr ∨ n = mappedOld := by
  rw [needlesOf]
  split_ifs with heq
  · rw [List.mem_singleton, heq, or_self]
  · rw [List.mem_cons, List.mem_singleton, or_comm]

theorem stretch_of_shownAs {stretch : Units}
    (h : ShownAs storedBody edges oldStr stretch) : stretch <:+: storedBody ∧ oldStr = substituteTokens stretch (titleOf edges) := by
  obtain ⟨A, B, C, hpieces, rfl, rfl⟩ := h
  obtain ⟨hin, hB⟩ := Scan.Scanner.pieces_stretch tokens_closed hpieces
  refine ⟨hin, ?_⟩
  rw [← shown_pieces, hB]

end ShownAux

/-- A spelling of the text to be replaced, other than the stretch it was copied from, stands in the body, if only but for blanks. -/
def StandsElsewhere (storedBody : Units) (edges : List RenderedEdge) (oldStr stretch : Units) : Prop :=
  ∃ n, (n = oldStr ∨ mapRenderedToStored oldStr storedBody edges none = .ok n) ∧ n ≠ stretch ∧
    (n <:+: storedBody ∨ ∃ start stop, Qualifies storedBody n start stop)

open ShownAux TokenAux FuzzyAux

/-- A text that was shown is not answered as one that does not stand in the note exactly when the replacement types a token that it does not
have, or a link in it could be two, or its stretch is shown as it is stored, or reads back, or another spelling of it stands in the body. -/
theorem applyStrReplace_shown_iff (storedBody oldStr newStr stretch : Units) (edges : List RenderedEdge)
    (hshown : ShownAs storedBody edges oldStr stretch) :
    applyStrReplace storedBody edges oldStr newStr ≠ .error .noMatch ↔
      (∃ id ∈ edgeIdsIn newStr, id ∉ edgeIdsIn oldStr) ∨
      (∃ inner ∈ links.hits oldStr, 1 < (standsFor storedBody edges inner).length) ∨
      oldStr = stretch ∨ ReadsBack storedBody edges stretch ∨ StandsElsewhere storedBody edges oldStr stretch := by
  obtain ⟨hin, hsubst⟩ := stretch_of_shownAs hshown
  constructor
  · intro hfound
    by_contra hcond
    simp only [not_or] at hcond
    obtain ⟨hnew, hone, hsame, hreads, helse⟩ := hcond
    apply hfound
    have htyped : ¬((edgeIdsIn newStr).any fun id => !(edgeIdsIn oldStr).contains id) = true := by
      rw [List.any_eq_true]
      rintro ⟨id, hid, hno⟩
      exact hnew ⟨id, hid, by simpa using hno⟩
    cases hmap : mapRenderedToStored oldStr storedBody edges none with
    | error title =>
      rw [mapRenderedToStored] at hmap
      split at hmap
      · rename_i inner hfind
        have htwo := List.find?_some hfind
        rw [decide_eq_true_eq] at htwo
        exact absurd ⟨inner, List.mem_of_find?_eq_some hfind, htwo⟩ hone
      · cases hmap
    | ok mappedOld =>
      have hspelled : ∀ n ∈ needlesOf oldStr mappedOld,
          n ≠ stretch ∧ (n = oldStr ∨ mapRenderedToStored oldStr storedBody edges none = .ok n) := by
        intro n hn
        rcases mem_needlesOf.mp hn with rfl | rfl
        · exact ⟨hsame, .inl rfl⟩
        · refine ⟨?_, .inr hmap⟩
          rintro rfl
          exact hreads (readsBack_of_mapped (hsubst ▸ hmap))
      have hspans : spansOf storedBody (needlesOf oldStr mappedOld) = [] := by
        rw [spansOf_eq_nil]
        intro n hn
        obtain ⟨hne, hspelling⟩ := hspelled n hn
        constructor
        · rw [List.eq_nil_iff_forall_not_mem]
          intro i hi
          exact helse ⟨n, hspelling, hne, .inl (infix_iff_drop.mpr ⟨i, (mem_occurrences.mp hi).2⟩)⟩
        · rw [List.eq_nil_iff_forall_not_mem]
          rintro ⟨start, stop⟩ hs
          exact helse ⟨n, hspelling, hne, .inr ⟨start, stop, mem_fuzzySpans_iff.mp hs⟩⟩
      rw [applyStrReplace, if_neg htyped, hmap]
      simp only [hspans]
  · intro hcond hno
    obtain ⟨mappedOld, htyped, hmap, hnone⟩ := of_noMatch hno
    rcases hcond with ⟨id, hid, hnew⟩ | ⟨inner, hinner, htwo⟩ | hsame | hreads | ⟨n, hspelling, -, hstands⟩
    · exact hnew (htyped id hid)
    · have hone := unambiguous_of_ok hmap inner hinner
      omega
    · have hneedle : oldStr ∈ needlesOf oldStr mappedOld := mem_needlesOf.mpr (.inl rfl)
      exact occurrences_ne_nil (hsame ▸ hin) (hnone oldStr hneedle).1
    · have hneedle : mappedOld ∈ needlesOf oldStr mappedOld := mem_needlesOf.mpr (.inr rfl)
      exact occurrences_ne_nil (mapped_of_readsBack hreads hin (hsubst ▸ hmap) ▸ hin) (hnone mappedOld hneedle).1
    · have hneedle : n ∈ needlesOf oldStr mappedOld := by
        rw [mem_needlesOf]
        rcases hspelling with h | h
        · exact .inl h
        · rw [hmap] at h
          exact .inr (Except.ok.inj h).symm
      rcases hstands with hstands | ⟨start, stop, hqual⟩
      · exact occurrences_ne_nil hstands (hnone n hneedle).1
      · have hmem := mem_fuzzySpans_iff.mpr hqual
        rw [(hnone n hneedle).2] at hmem
        cases hmem

/-- A link of a note, by its title. -/
theorem applyStrReplace_shown_iff_link :
    applyStrReplace (ofString "see [[capka-edge:e1]]") [⟨ofString "e1", some (ofString "T")⟩] (ofString "[[T]]") [] ≠ .error .noMatch := by
  refine (applyStrReplace_shown_iff _ _ _ (ofString "[[capka-edge:e1]]") _
    ⟨(ofString "see ").map .unit, [.hit (ofString "e1")], [], by rfl, by rfl, by rfl⟩).mpr
    (.inr (.inr (.inr (.inl ⟨?_, by decide +kernel⟩))))
  intro id hid title htitle
  have hids : edgeIdsIn (ofString "[[capka-edge:e1]]") = [ofString "e1"] := by decide +kernel
  rw [hids, List.mem_singleton] at hid
  subst hid
  have htitles : titleOf [⟨ofString "e1", some (ofString "T")⟩] (ofString "e1") = some (ofString "T") := by decide +kernel
  rw [htitles, Option.some.injEq] at htitle
  subst htitle
  refine ⟨fun u hu => ?_, .inr ⟨by decide, by decide⟩⟩
  rw [show ofString "T" = [0x54] by decide, List.mem_singleton] at hu
  rw [hu]
  rfl

/-- A title with a bracket in it, and a link beside text that reads like it. -/
theorem applyStrReplace_shown_false :
    (¬∀ storedBody oldStr newStr stretch edges, ShownAs storedBody edges oldStr stretch →
      applyStrReplace storedBody edges oldStr newStr ≠ .error .noMatch) ∧
      ¬∀ storedBody oldStr newStr stretch edges, (∀ id ∈ edgeIdsIn storedBody, titleOf edges id = some (ofString "T")) →
        ShownAs storedBody edges oldStr stretch → applyStrReplace storedBody edges oldStr newStr ≠ .error .noMatch := by
  constructor
  · intro h
    refine h (ofString "[[capka-edge:e1]]") (ofString "[[a]b]]") [] (ofString "[[capka-edge:e1]]")
      [⟨ofString "e1", some (ofString "a]b")⟩] ⟨[], [.hit (ofString "e1")], [], by rfl, by rfl, by rfl⟩ (by decide +kernel)
  · intro h
    refine h (ofString "[[T]][[capka-edge:e1]]") (ofString "[[T]][[T]]") [] (ofString "[[T]][[capka-edge:e1]]")
      [⟨ofString "e1", some (ofString "T")⟩] (by decide +kernel)
      ⟨[], (ofString "[[T]]").map .unit ++ [.hit (ofString "e1")], [], by rfl, by rfl, by rfl⟩ (by decide +kernel)

end Capka.NoteEdit

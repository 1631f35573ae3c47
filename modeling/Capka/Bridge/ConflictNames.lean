import Capka.Bridge.Plan

/-!
# Conflict names

The name a losing version is kept under is its file's name with a dated mark before the extension. A sync looks at a file of that name
whenever it looks at the file itself, with one exception.
-/

namespace Capka

/-- A number of a date, on two digits. -/
def twoDigits (n : Nat) : String := if n < 10 then "0" ++ toString n else toString n

/-- The time of a plan as the names of its conflict copies carry it. -/
def stampOf (year month day hours minutes seconds : Nat) : String :=
  toString year ++ "-" ++ twoDigits month ++ "-" ++ twoDigits day ++ "-" ++ twoDigits hours ++ twoDigits minutes ++ twoDigits seconds

namespace NamesAux

/-- Written with digits and dashes. -/
def Dated (s : String) : Prop := ∀ c ∈ s.toList, c.isDigit = true ∨ c = '-'

theorem dated_append {s t : String} (hs : Dated s) (ht : Dated t) : Dated (s ++ t) := by
  intro c hc
  rw [String.toList_append] at hc
  rcases List.mem_append.mp hc with h | h
  · exact hs c h
  · exact ht c h

theorem dated_toString (n : Nat) : Dated (toString n) := by
  intro c hc
  have hmem : c ∈ Nat.toDigits 10 n := by simpa [Nat.repr] using hc
  exact .inl (Nat.isDigit_of_mem_toDigits (by decide) (by decide) hmem)

theorem dated_dash : Dated "-" := by
  intro c hc
  exact .inr (by simpa using hc)

theorem dated_twoDigits (n : Nat) : Dated (twoDigits n) := by
  unfold twoDigits
  split
  · refine dated_append (fun c hc => .inl ?_) (dated_toString n)
    have hzero : c = '0' := by simpa using hc
    rw [hzero]
    decide
  · exact dated_toString n

theorem dated_stampOf (year month day hours minutes seconds : Nat) : Dated (stampOf year month day hours minutes seconds) := by
  have hdate := dated_append (dated_append (dated_toString year) dated_dash) (dated_twoDigits month)
  have hday := dated_append (dated_append hdate dated_dash) (dated_twoDigits day)
  have htime := dated_append (dated_append hday dated_dash) (dated_twoDigits hours)
  exact dated_append (dated_append htime (dated_twoDigits minutes)) (dated_twoDigits seconds)

/-- The mark a conflict name carries. -/
def mark (stamp : String) (nth : Nat) : String := "conflict-" ++ stamp ++ (if nth > 1 then "-" ++ toString nth else "")

theorem dash_mem_mark (stamp : String) (nth : Nat) : '-' ∈ (mark stamp nth).toList := by
  simp [mark]

theorem not_mem_mark {stamp : String} {nth : Nat} (h : Dated stamp) {c : Char} (hc : c = '.' ∨ c = '~') :
    c ∉ (mark stamp nth).toList := by
  have hdated : ∀ s, Dated s → c ∉ s.toList := by
    intro s hs hin
    rcases hs c hin with hd | hd
    · rcases hc with rfl | rfl <;> exact absurd hd (by decide)
    · rcases hc with rfl | rfl <;> exact absurd hd (by decide)
  intro hin
  unfold mark at hin
  rw [String.toList_append, String.toList_append] at hin
  rcases List.mem_append.mp hin with hin | hin
  · rcases List.mem_append.mp hin with hin | hin
    · rcases hc with rfl | rfl <;> exact absurd hin (by decide)
    · exact hdated stamp h hin
  · split at hin
    · exact hdated _ (dated_append dated_dash (dated_toString nth)) hin
    · exact absurd hin (by simp)

theorem conflictName_eq (path : Path) (stamp : String) (nth : Nat) :
    ∃ name : String, conflictName path stamp nth = path.dropLast ++ [name] ∧
      name.toList = (stemExt (path.getLast?.getD "")).1.toList ++ '.' :: ((mark stamp nth).toList ++
        (stemExt (path.getLast?.getD "")).2.toList) := by
  unfold conflictName
  generalize stemExt (path.getLast?.getD "") = parts
  exact ⟨_, rfl, by simp [mark]⟩

theorem stemExt_spec (base : String) :
    (stemExt base).1.toList ++ (stemExt base).2.toList = base.toList ∧
      ((stemExt base).2.toList = [] ∨ ∃ v, (stemExt base).2.toList = '.' :: v ∧ '.' ∉ v) := by
  unfold stemExt
  dsimp only
  split
  · exact ⟨by simp, .inl (by simp)⟩
  · rename_i hstem
    obtain ⟨x, rest, hdrop⟩ : ∃ x rest, base.toList.reverse.dropWhile (· ≠ '.') = x :: rest := by
      cases h : base.toList.reverse.dropWhile (· ≠ '.') with
      | nil =>
        rw [h] at hstem
        simp at hstem
      | cons x rest => exact ⟨x, rest, rfl⟩
    have hdot : x = '.' := by
      have hhead := List.head?_dropWhile_not (· ≠ '.') base.toList.reverse
      rw [hdrop] at hhead
      simpa using hhead
    subst hdot
    have hsplit := List.takeWhile_append_dropWhile (p := (· ≠ '.')) (l := base.toList.reverse)
    rw [hdrop] at hsplit
    constructor
    · rw [hdrop]
      have hrev := congrArg List.reverse hsplit
      simpa using hrev
    · refine .inr ⟨(base.toList.reverse.takeWhile (· ≠ '.')).reverse, by simp, fun hin => ?_⟩
      have hne := List.mem_takeWhile_imp (List.mem_reverse.mp hin)
      simp at hne

/-! ### What is skipped -/

/-- What the name of a skipped file may begin with. -/
def skippedStarts : List String := ["._", "~$", ".~lock."]

/-- The names that are skipped whatever their case. -/
def skippedNames : List String := ["thumbs.db", "ehthumbs.db", "desktop.ini", ".localized"]

/-- What the name of a file left by an editor or a download ends with, whatever its case. -/
def skippedEnds : List String := [".swp", ".swo", ".tmp", ".temp"]

def nameOf (path : Path) : List Char := (path.getLast?.getD "").toList

theorem ignoredPath_iff {path : Path} :
    ignoredPath path = true ↔
      (∃ s ∈ skippedStarts, s.toList <+: nameOf path) ∨ ['~'] <:+ nameOf path ∨
        (∃ s ∈ skippedNames, (nameOf path).map Char.toLower = s.toList) ∨
        (∃ s ∈ skippedEnds, s.toList <:+ (nameOf path).map Char.toLower) ∨ (∃ segment ∈ path, segment ∈ IGNORE_SEGMENTS) ∨
        ∃ s ∈ IGNORE_EXT, s.toList <:+ (nameOf path).map Char.toLower := by
  have hname : ∀ s : String, String.ofList ((nameOf path).map Char.toLower) = s ↔ (nameOf path).map Char.toLower = s.toList := by
    intro s
    constructor
    · rintro rfl
      simp
    · intro h
      rw [h]
      simp
  have htilde : "~".toList = ['~'] := rfl
  unfold ignoredPath
  dsimp only
  rw [show (path.getLast?.getD "").toList = nameOf path from rfl]
  simp only [skippedStarts, skippedNames, skippedEnds, List.mem_cons, List.not_mem_nil, or_false, exists_eq_or_imp, exists_eq_left,
    Bool.if_true_left, Bool.or_eq_true, decide_eq_true_eq, startsWith, endsWith, beq_iff_eq, hname, List.any_eq_true,
    List.contains_iff_mem, String.toList_ofList, or_assoc, htilde]
  rfl

theorem eq_of_dot_suffix {w v x : List Char} (hw : '.' ∉ w) (hv : '.' ∉ v) (h : '.' :: w <:+ x ++ '.' :: v) : w = v := by
  have hboth := List.suffix_or_suffix_of_suffix h (List.suffix_append x ('.' :: v))
  rcases hboth with h | h
  · rcases List.suffix_cons_iff.mp h with h | h
    · exact (List.cons.inj h).2
    · exact absurd (h.subset List.mem_cons_self) hv
  · rcases List.suffix_cons_iff.mp h with h | h
    · exact (List.cons.inj h).2.symm
    · exact absurd (h.subset List.mem_cons_self) hw

theorem eq_of_toLower_dot {c : Char} (h : c.toLower = '.') : c = '.' := by
  have hlower := Char.isLower_toLower_eq_isAlpha c
  rw [h] at hlower
  have hupper : ¬c.isUpper = true := by
    intro hup
    rw [Char.isAlpha, hup, Bool.true_or] at hlower
    exact absurd hlower (by decide)
  rw [Char.toLower_eq_of_not_isUpper hupper] at h
  exact h

theorem dot_not_mem_lower {v : List Char} (h : '.' ∉ v) : '.' ∉ v.map Char.toLower := by
  intro hin
  obtain ⟨c, hc, hdot⟩ := List.mem_map.mp hin
  rw [eq_of_toLower_dot hdot] at hc
  exact h hc

section Marked

variable {stem ext tag w : List Char}

theorem suffix_of_marked (hdash : '-' ∈ tag) (hdot : '.' ∉ tag) (hext : ext = [] ∨ ∃ v, ext = '.' :: v ∧ '.' ∉ v) (hw : '.' ∉ w)
    (hw' : '-' ∉ w) (h : '.' :: w <:+ (stem ++ '.' :: (tag ++ ext)).map Char.toLower) :
    '.' :: w <:+ (stem ++ ext).map Char.toLower := by
  rcases hext with rfl | ⟨v, rfl, hv⟩
  · rw [List.append_nil, List.map_append, List.map_cons] at h
    have heq : w = tag.map Char.toLower := eq_of_dot_suffix hw (dot_not_mem_lower hdot) h
    refine absurd ?_ hw'
    rw [heq]
    exact List.mem_map.mpr ⟨'-', hdash, rfl⟩
  · rw [← List.cons_append, ← List.append_assoc, List.map_append, List.map_cons] at h
    have heq : w = v.map Char.toLower := eq_of_dot_suffix hw (dot_not_mem_lower hv) h
    rw [heq, List.map_append, List.map_cons]
    exact List.suffix_append _ _

theorem prefix_of_marked {start rest : List Char} (h : start <+: stem ++ '.' :: rest) :
    start <+: stem ∨ ∃ more, start = stem ++ '.' :: more ∧ more <+: rest := by
  rcases List.prefix_or_prefix_of_prefix h (List.prefix_append stem ('.' :: rest)) with h' | ⟨r, rfl⟩
  · exact .inl h'
  · cases r with
    | nil => exact .inl (by simp)
    | cons c more =>
      obtain ⟨rfl, hmore⟩ := List.cons_prefix_cons.mp ((List.prefix_append_right_inj stem).mp h)
      exact .inr ⟨more, rfl, hmore⟩

end Marked

theorem mark_eq_cons (stamp : String) (nth : Nat) : ∃ rest, (mark stamp nth).toList = 'c' :: rest := by
  simp only [mark, String.toList_append]
  exact ⟨_, rfl⟩

theorem suffix_of_append {c : Char} {x y : List Char} (hy : y ≠ []) (h : [c] <:+ x ++ y) : [c] <:+ y := by
  rcases List.suffix_or_suffix_of_suffix h (List.suffix_append x y) with h | h
  · exact h
  · rcases List.suffix_cons_iff.mp h with rfl | h
    · exact List.suffix_refl _
    · exact absurd (List.suffix_nil.mp h) hy

theorem eq_of_append_dot {x y more : List Char} (hy : '.' ∉ y) (h : x ++ '.' :: more = y ++ ['.']) : x = y ∧ more = [] := by
  rcases List.append_eq_append_iff.mp h with ⟨c, rfl, hc⟩ | ⟨c, rfl, hc⟩
  · cases c with
    | nil => exact ⟨by simp, (List.cons.inj hc).2⟩
    | cons a c =>
      rw [← (List.cons.inj hc).1] at hy
      exact absurd (List.mem_append_right _ List.mem_cons_self) hy
  · cases c with
    | nil => exact ⟨by simp, (List.cons.inj hc).2.symm⟩
    | cons a c => exact absurd (congrArg List.length hc) (by simp)

theorem eq_of_skippedStart {stem more rest : List Char} {s : String} (hs : s ∈ skippedStarts) (h : s.toList = stem ++ '.' :: more)
    (hmore : more <+: 'c' :: rest) : stem = ".~lock".toList := by
  have hhead : ∀ a l, more = a :: l → a = 'c' := by
    rintro a l rfl
    exact (List.cons_prefix_cons.mp hmore).1
  simp only [skippedStarts, List.mem_cons, List.not_mem_nil, or_false] at hs
  rcases hs with rfl | rfl | rfl
  · have h' : ['.', '_'] = stem ++ '.' :: more := h
    simp only [List.cons_eq_append_iff, List.cons.injEq, List.nil_eq, List.append_eq_nil_iff] at h'
    rcases h' with ⟨_, _, rfl⟩ | ⟨t, _, ⟨_, hdot, _⟩ | ⟨_, _, _, hnil⟩⟩
    · exact absurd (hhead _ _ rfl) (by decide)
    · exact absurd hdot (by decide)
    · cases hnil
  · have hin : '.' ∈ "~$".toList := by
      rw [h]
      simp
    exact absurd hin (by decide)
  · have h' : ['.', '~', 'l', 'o', 'c', 'k', '.'] = stem ++ '.' :: more := h
    rcases stem with _ | ⟨c, stem⟩
    · have hcons := List.cons.inj h'
      exact absurd (hhead _ _ hcons.2.symm) (by decide)
    · obtain ⟨rfl, hrest⟩ := List.cons.inj h'
      obtain ⟨rfl, _⟩ := eq_of_append_dot (y := ['~', 'l', 'o', 'c', 'k']) (by decide) hrest.symm
      rfl

theorem nameOf_append (path : Path) (name : String) : nameOf (path ++ [name]) = name.toList := by
  simp [nameOf]

theorem not_infix_of_mem_segments : ∀ s ∈ IGNORE_SEGMENTS, ¬"conflict-".toList <:+: s.toList := by
  decide

theorem skippedEnds_spec : ∀ s ∈ skippedEnds ++ IGNORE_EXT, ∃ w, s.toList = '.' :: w ∧ '.' ∉ w ∧ '-' ∉ w := by
  intro s hs
  have hall : ∀ s ∈ skippedEnds ++ IGNORE_EXT, s.toList = '.' :: s.toList.tail ∧ '.' ∉ s.toList.tail ∧ '-' ∉ s.toList.tail := by
    decide
  exact ⟨_, hall s hs⟩

end NamesAux

open NamesAux

/-- A sync that looks at a file looks at a file of its conflict name, unless the file is called `.~lock`: the mark after that name makes
it one that an editor locks a document with. -/
theorem ignoredPath_conflictName {path : Path} {stamp : String} {nth : Nat} (hstamp : Dated stamp) (hne : path ≠ [])
    (hpath : ignoredPath path = false) : ignoredPath (conflictName path stamp nth) = true ↔ path.getLast? = some ".~lock" := by
  obtain ⟨name, hname, hchars⟩ := conflictName_eq path stamp nth
  obtain ⟨hbase, hext⟩ := stemExt_spec (path.getLast?.getD "")
  have hdot : '.' ∉ (mark stamp nth).toList := not_mem_mark hstamp (.inl rfl)
  have hdash := dash_mem_mark stamp nth
  have hlooked : ∀ {P : Prop}, (P → ignoredPath path = true) → ¬P := by
    intro P hP h
    rw [hP h] at hpath
    cases hpath
  have hends : ∀ s ∈ skippedEnds ++ IGNORE_EXT, s.toList <:+ name.toList.map Char.toLower →
      s.toList <:+ (nameOf path).map Char.toLower := by
    intro s hs h
    obtain ⟨w, hw, hwdot, hwdash⟩ := skippedEnds_spec s hs
    rw [hw, hchars] at h
    rw [hw, nameOf, ← hbase]
    exact suffix_of_marked hdash hdot hext hwdot hwdash h
  rw [hname]
  constructor
  · intro h
    rcases ignoredPath_iff.mp h with ⟨s, hs, h⟩ | h | ⟨s, hs, h⟩ | ⟨s, hs, h⟩ | ⟨segment, hseg, h⟩ | ⟨s, hs, h⟩
    · rw [nameOf_append, hchars] at h
      rcases prefix_of_marked h with h | ⟨more, h, hmore⟩
      · refine absurd h (hlooked fun hstart => ignoredPath_iff.mpr (.inl ⟨s, hs, ?_⟩))
        rw [nameOf, ← hbase]
        exact hstart.trans (List.prefix_append _ _)
      · obtain ⟨rest, hrest⟩ := mark_eq_cons stamp nth
        rw [hrest] at hmore
        have hstem := eq_of_skippedStart hs h hmore
        rw [hstem] at hbase
        rcases hext with hext | ⟨v, hext, _⟩
        · rw [hext, List.append_nil] at hbase
          have hname : path.getLast?.getD "" = ".~lock" := String.toList_injective hbase.symm
          rw [List.getLast?_eq_some_getLast hne] at hname ⊢
          exact congrArg some hname
        · refine absurd ⟨v, ?_⟩ (hlooked fun hstart => ignoredPath_iff.mpr (.inl ⟨".~lock.", by decide, hstart⟩))
          rw [nameOf, ← hbase, hext]
          rfl
    · rw [nameOf_append, hchars, ← List.cons_append, ← List.append_assoc] at h
      rcases hext with hext | ⟨v, hext, _⟩
      · rw [hext, List.append_nil] at h
        have hin := (suffix_of_append (by simp) h).subset (List.mem_singleton.mpr rfl)
        rcases List.mem_cons.mp hin with hin | hin
        · cases hin
        · exact absurd hin (not_mem_mark hstamp (.inr rfl))
      · refine absurd (suffix_of_append (by simp [hext]) h) (hlooked fun hend => ignoredPath_iff.mpr (.inr (.inl ?_)))
        rw [nameOf, ← hbase]
        exact hend.trans (List.suffix_append _ _)
    · have hnone : ∀ s ∈ skippedNames, '-' ∉ s.toList := by decide
      refine absurd ?_ (hnone s hs)
      rw [← h, nameOf_append, hchars]
      refine List.mem_map.mpr ⟨'-', ?_, rfl⟩
      exact List.mem_append_right _ (List.mem_cons_of_mem _ (List.mem_append_left _ hdash))
    · refine absurd (hends s (List.mem_append_left _ hs) (by rwa [nameOf_append] at h)) (hlooked fun hend => ?_)
      exact ignoredPath_iff.mpr (.inr (.inr (.inr (.inl ⟨s, hs, hend⟩))))
    · rcases List.mem_append.mp hseg with hin | hin
      · refine absurd (List.mem_of_mem_dropLast hin) (hlooked fun hin => ?_)
        exact ignoredPath_iff.mpr (.inr (.inr (.inr (.inr (.inl ⟨segment, hin, h⟩)))))
      · rw [List.mem_singleton.mp hin] at h
        refine absurd ?_ (not_infix_of_mem_segments name h)
        rw [hchars]
        refine List.IsInfix.trans ?_ (List.suffix_append _ _).isInfix
        exact ⟨['.'], (stamp ++ if nth > 1 then "-" ++ toString nth else "").toList ++ (stemExt (path.getLast?.getD "")).2.toList, by
          simp [mark]⟩
    · refine absurd (hends s (List.mem_append_right _ hs) (by rwa [nameOf_append] at h)) (hlooked fun hend => ?_)
      exact ignoredPath_iff.mpr (.inr (.inr (.inr (.inr (.inr ⟨s, hs, hend⟩)))))
  · intro h
    refine ignoredPath_iff.mpr (.inl ⟨".~lock.", by decide, ?_⟩)
    rw [nameOf_append, hchars, h]
    exact ⟨(mark stamp nth).toList, by simp [stemExt]⟩

theorem parents_conflictName {path : Path} (stamp : String) (nth : Nat) (hne : path ≠ []) :
    parents (conflictName path stamp nth) = parents path := by
  obtain ⟨name, hname, _⟩ := conflictName_eq path stamp nth
  have hlen : path.dropLast.length = path.length - 1 := List.length_dropLast
  have hpos : 0 < path.length := List.length_pos_iff.mpr hne
  rw [hname, parents, parents, List.length_append, List.length_singleton, hlen, show path.length - 1 + 1 - 1 = path.length - 1 by omega]
  refine List.map_congr_left fun i hi => ?_
  have hi := List.mem_range.mp hi
  rw [List.take_append_of_le_length (by omega), List.dropLast_eq_take, List.take_take, Nat.min_eq_left (by omega)]

end Capka

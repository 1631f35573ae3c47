import Mathlib
import Capka.Vault.NoteEdit

/-!
# The forgiving tier of a replacement

Where the text to be replaced stands nowhere byte for byte, it is looked up in the normal form of the note, and the place is carried back
to the stored text. The normal form can be taken from any of its units on (`normalize_drop`) and up to any unit that is no blank
(`normalize_take`), so the place that is replaced has the normal form of what was looked up.
-/

namespace Capka.NoteEdit

open Ecma

namespace FuzzyAux

variable {u : UInt16}

theorem isSpace_ne (h : isSpace u = true) : u ≠ 0x0a := by
  rintro rfl
  revert h
  decide

/-! ### One unit of the text -/

theorem normalizeFrom_break (i : Nat) (run : Option Nat) (s : Units) :
    normalizeFrom i run (0x0a :: s) = ⟨0x0a, i, i + 1⟩ :: normalizeFrom (i + 1) none s := by
  rw [normalizeFrom, if_pos rfl]

theorem normalizeFrom_space (h : isSpace u = true) (i : Nat) (run : Option Nat) (s : Units) :
    normalizeFrom i run (u :: s) = normalizeFrom (i + 1) (some (run.getD i)) s := by
  rw [normalizeFrom, if_neg (isSpace_ne h), if_pos h]

theorem normalizeFrom_plain (hbreak : u ≠ 0x0a) (h : isSpace u = false) (i : Nat) (run : Option Nat) (s : Units) :
    normalizeFrom i run (u :: s) =
      (run.map fun begun => (⟨0x20, begun, i⟩ : Item)).toList ++ ⟨u, i, i + 1⟩ :: normalizeFrom (i + 1) none s := by
  rw [normalizeFrom, if_neg hbreak, if_neg (by rw [h]; decide)]

theorem unit_cases (u : UInt16) : u = 0x0a ∨ isSpace u = true ∨ (u ≠ 0x0a ∧ isSpace u = false) := by
  by_cases hbreak : u = 0x0a
  · exact .inl hbreak
  · cases h : isSpace u
    · exact .inr (.inr ⟨hbreak, rfl⟩)
    · exact .inr (.inl rfl)

variable {i : Nat} {run : Option Nat}

theorem units_normalizeFrom (s : Units) {j : Nat} {run' : Option Nat} (h : run.isSome = run'.isSome) :
    (normalizeFrom i run s).map Item.unit = (normalizeFrom j run' s).map Item.unit := by
  induction s generalizing i j run run' with
  | nil => rfl
  | cons u s ih =>
    rcases unit_cases u with rfl | hspace | ⟨hbreak, hplain⟩
    · rw [normalizeFrom_break, normalizeFrom_break, List.map_cons, List.map_cons, ih rfl]
    · rw [normalizeFrom_space hspace, normalizeFrom_space hspace]
      exact ih rfl
    · have hrest : (normalizeFrom (i + 1) none s).map Item.unit = (normalizeFrom (j + 1) none s).map Item.unit := ih rfl
      rw [normalizeFrom_plain hbreak hplain, normalizeFrom_plain hbreak hplain]
      cases run with
      | none =>
        cases run' with
        | none => simp [hrest]
        | some _ => cases h
      | some _ =>
        cases run' with
        | none => cases h
        | some _ => simp [hrest]

theorem normalizeFrom_blanks {blanks : Units} (h : ∀ u ∈ blanks, isSpace u = true) (i begun : Nat) (s : Units) :
    normalizeFrom i (some begun) (blanks ++ s) = normalizeFrom (i + blanks.length) (some begun) s := by
  induction blanks generalizing i with
  | nil => rfl
  | cons u blanks ih =>
    rw [List.cons_append, normalizeFrom_space (h u List.mem_cons_self), Option.getD_some,
      ih (fun v hv => h v (List.mem_cons_of_mem u hv)), List.length_cons, Nat.add_assoc, Nat.add_comm 1]

/-! ### From a unit of the normal form on -/

/-- A run in progress at a place of the text: the blanks from its beginning on. -/
def InRun (src : Units) (i : Nat) (run : Option Nat) : Prop :=
  ∀ begun ∈ run, ∃ u blanks, (∀ v ∈ u :: blanks, isSpace v = true) ∧ src.drop begun = u :: blanks ++ src.drop i ∧
    i = begun + (blanks.length + 1)

theorem inRun_none (src : Units) (i : Nat) : InRun src i none := fun _ h => by cases h

variable {s : Units}

theorem InRun.space {src : Units} (hrun : InRun src i run) (hs : src.drop i = u :: s)
    (h : isSpace u = true) : InRun src (i + 1) (some (run.getD i)) := by
  have hnext : src.drop (i + 1) = s := by rw [← List.drop_drop, hs, List.drop_one, List.tail_cons]
  rintro begun hbegun
  obtain rfl := Option.some.inj hbegun
  cases run with
  | none =>
    refine ⟨u, [], ?_, ?_, rfl⟩
    · simpa using h
    · simpa [hnext] using hs
  | some begun =>
    obtain ⟨v, blanks, hblanks, hdrop, hi⟩ := hrun begun rfl
    refine ⟨v, blanks ++ [u], ?_, ?_, ?_⟩
    · intro w hw
      rw [← List.cons_append, List.mem_append, List.mem_singleton] at hw
      rcases hw with hw | rfl
      · exact hblanks w hw
      · exact h
    · rw [Option.getD_some, hdrop, hs, hnext]
      simp
    · rw [Option.getD_some, List.length_append, List.length_singleton, hi]
      omega

variable {x : Item}

theorem normalize_drop {src : Units} {A R : List Item} (hs : src.drop i = s)
    (hrun : InRun src i run) (h : normalizeFrom i run s = A ++ x :: R) :
    normalizeFrom x.start none (src.drop x.start) = x :: R := by
  induction s generalizing i run A with
  | nil => simp [normalizeFrom] at h
  | cons u s ih =>
    have hnext : src.drop (i + 1) = s := by rw [← List.drop_drop, hs, List.drop_one, List.tail_cons]
    rcases unit_cases u with rfl | hspace | ⟨hbreak, hplain⟩
    · rw [normalizeFrom_break] at h
      cases A with
      | nil =>
        obtain ⟨rfl, rfl⟩ := List.cons.inj h
        rw [hs, normalizeFrom_break]
      | cons a A => exact ih hnext (inRun_none _ _) (List.cons.inj h).2
    · rw [normalizeFrom_space hspace] at h
      exact ih hnext (hrun.space hs hspace) h
    · rw [normalizeFrom_plain hbreak hplain] at h
      -- past the run, the unit itself or what follows
      have hrest : ∀ {A : List Item}, (⟨u, i, i + 1⟩ : Item) :: normalizeFrom (i + 1) none s = A ++ x :: R →
          normalizeFrom x.start none (src.drop x.start) = x :: R := by
        intro A h
        cases A with
        | nil =>
          obtain ⟨rfl, rfl⟩ := List.cons.inj h
          rw [hs, normalizeFrom_plain hbreak hplain]
          rfl
        | cons a A => exact ih hnext (inRun_none _ _) (List.cons.inj h).2
      cases run with
      | none => exact hrest h
      | some begun =>
        cases A with
        | nil =>
          obtain ⟨rfl, rfl⟩ := List.cons.inj h
          obtain ⟨v, blanks, hblanks, hdrop, hi⟩ := hrun begun rfl
          rw [hdrop, List.cons_append, normalizeFrom_space (hblanks v List.mem_cons_self), Option.getD_none,
            normalizeFrom_blanks (fun w hw => hblanks w (List.mem_cons_of_mem v hw)), hs, normalizeFrom_plain hbreak hplain,
            Nat.add_assoc, Nat.add_comm 1, ← hi]
          rfl
        | cons a A => exact hrest (List.cons.inj h).2

/-! ### Up to a unit of the normal form -/

theorem bounds_of_mem (hrun : ∀ begun ∈ run, begun < i)
    (h : x ∈ normalizeFrom i run s) : x.start < x.stop ∧ x.stop ≤ i + s.length ∧ (isSpace x.unit = false → i + 1 ≤ x.stop) := by
  induction s generalizing i run with
  | nil => cases h
  | cons u s ih =>
    have hlater : x ∈ normalizeFrom (i + 1) none s →
        x.start < x.stop ∧ x.stop ≤ i + (u :: s).length ∧ (isSpace x.unit = false → i + 1 ≤ x.stop) := by
      intro h
      obtain ⟨hlt, hle, hplain⟩ := ih (fun _ hb => by cases hb) h
      rw [List.length_cons]
      exact ⟨hlt, by omega, fun hx => by have := hplain hx; omega⟩
    rw [List.length_cons] at hlater ⊢
    rcases unit_cases u with rfl | hspace | ⟨hbreak, hplain⟩
    · rw [normalizeFrom_break] at h
      rcases List.mem_cons.mp h with rfl | h
      · exact ⟨Nat.lt_succ_self i, by simp only; omega, fun _ => le_rfl⟩
      · exact hlater h
    · rw [normalizeFrom_space hspace] at h
      have hbegun : ∀ begun ∈ some (run.getD i), begun < i + 1 := by
        rintro begun hb
        obtain rfl := Option.some.inj hb
        cases run with
        | none => exact Nat.lt_succ_self i
        | some begun => exact Nat.lt_succ_of_lt (hrun begun rfl)
      obtain ⟨hlt, hle, hx⟩ := ih hbegun h
      exact ⟨hlt, by omega, fun hplain => by have := hx hplain; omega⟩
    · rw [normalizeFrom_plain hbreak hplain, List.mem_append, List.mem_cons] at h
      rcases h with h | rfl | h
      · cases run with
        | none => cases h
        | some begun =>
          obtain rfl := List.mem_singleton.mp h
          refine ⟨hrun begun rfl, by simp only; omega, fun hx => ?_⟩
          have hblank : isSpace 0x20 = false := hx
          exact absurd hblank (by decide)
      · exact ⟨Nat.lt_succ_self i, by simp only; omega, fun _ => le_rfl⟩
      · exact hlater h

/-- Up to the place of one of its units that is no blank, the text has the beginning of the normal form. -/
theorem normalize_take {B C : List Item} (hplain : isSpace x.unit = false)
    (hrun : ∀ begun ∈ run, begun < i) (h : normalizeFrom i run s = B ++ x :: C) :
    normalizeFrom i run (s.take (x.stop - i)) = B ++ [x] := by
  induction s generalizing i run B with
  | nil => simp [normalizeFrom] at h
  | cons u s ih =>
    -- a later unit ends behind this one
    have hlater : ∀ {run' : Option Nat} {B : List Item}, (∀ begun ∈ run', begun < i + 1) →
        normalizeFrom (i + 1) run' s = B ++ x :: C → (u :: s).take (x.stop - i) = u :: s.take (x.stop - (i + 1)) := by
      intro run' B hrun' h
      have hmem : x ∈ normalizeFrom (i + 1) run' s := by
        rw [h]
        exact List.mem_append_right _ List.mem_cons_self
      have := (bounds_of_mem hrun' hmem).2.2 hplain
      have hstop : x.stop - i = x.stop - (i + 1) + 1 := by omega
      rw [hstop, List.take_succ_cons]
    have hnone : ∀ begun ∈ (none : Option Nat), begun < i + 1 := fun _ hb => by cases hb
    have hone : (u :: s).take (i + 1 - i) = [u] := by
      rw [Nat.add_sub_cancel_left, List.take_succ_cons, List.take_zero]
    rcases unit_cases u with rfl | hspace | ⟨hbreak, hu⟩
    · rw [normalizeFrom_break] at h
      cases B with
      | nil =>
        obtain ⟨rfl, -⟩ := List.cons.inj h
        rw [hone, normalizeFrom_break]
        rfl
      | cons b B =>
        obtain ⟨rfl, htail⟩ := List.cons.inj h
        rw [hlater hnone htail, normalizeFrom_break, ih hnone htail, List.cons_append]
    · rw [normalizeFrom_space hspace] at h
      have hbegun : ∀ begun ∈ some (run.getD i), begun < i + 1 := by
        rintro begun hb
        obtain rfl := Option.some.inj hb
        cases run with
        | none => exact Nat.lt_succ_self i
        | some begun => exact Nat.lt_succ_of_lt (hrun begun rfl)
      rw [hlater hbegun h, normalizeFrom_space hspace, ih hbegun h]
    · rw [normalizeFrom_plain hbreak hu] at h
      -- past the run, the unit itself or what follows
      have hrest : ∀ {B : List Item}, (⟨u, i, i + 1⟩ : Item) :: normalizeFrom (i + 1) none s = B ++ x :: C →
          normalizeFrom i none ((u :: s).take (x.stop - i)) = B ++ [x] := by
        intro B h
        cases B with
        | nil =>
          obtain ⟨rfl, -⟩ := List.cons.inj h
          rw [hone, normalizeFrom_plain hbreak hu]
          rfl
        | cons b B =>
          obtain ⟨rfl, htail⟩ := List.cons.inj h
          rw [hlater hnone htail, normalizeFrom_plain hbreak hu, ih hnone htail]
          rfl
      cases run with
      | none => exact hrest h
      | some begun =>
        cases B with
        | nil =>
          obtain ⟨rfl, -⟩ := List.cons.inj h
          have hblank : isSpace 0x20 = false := hplain
          exact absurd hblank (by decide)
        | cons b B =>
          obtain ⟨rfl, hcons⟩ := List.cons.inj h
          have htail := hrest hcons
          cases htake : (u :: s).take (x.stop - i) with
          | nil =>
            rw [htake] at htail
            simp [normalizeFrom] at htail
          | cons v t =>
            obtain rfl : v = u := by
              cases hn : x.stop - i with
              | zero => simp [hn] at htake
              | succ n =>
                rw [hn, List.take_succ_cons] at htake
                exact (List.cons.inj htake).1.symm
            rw [htake, normalizeFrom_plain hbreak hu] at htail
            rw [normalizeFrom_plain hbreak hu, List.cons_append, ← htail]
            rfl

theorem last_plain {B : List Item} (h : normalizeFrom i run s = B ++ [x]) :
    isSpace x.unit = false := by
  induction s generalizing i run B with
  | nil => simp [normalizeFrom] at h
  | cons u s ih =>
    have hrest : ∀ {B : List Item}, isSpace u = false → (⟨u, i, i + 1⟩ : Item) :: normalizeFrom (i + 1) none s = B ++ [x] →
        isSpace x.unit = false := by
      intro B hu h
      cases B with
      | nil =>
        obtain ⟨rfl, -⟩ := List.cons.inj h
        exact hu
      | cons b B => exact ih (List.cons.inj h).2
    rcases unit_cases u with rfl | hspace | ⟨hbreak, hu⟩
    · rw [normalizeFrom_break] at h
      exact hrest (by decide) h
    · rw [normalizeFrom_space hspace] at h
      exact ih h
    · rw [normalizeFrom_plain hbreak hu] at h
      cases run with
      | none => exact hrest hu h
      | some begun =>
        cases B with
        | nil => simp at h
        | cons b B => exact hrest hu (List.cons.inj h).2

/-! ### Places -/

theorem mem_occurrences {haystack needle : Units} :
    i ∈ occurrences haystack needle ↔ i ≤ haystack.length ∧ needle <+: haystack.drop i := by
  rw [occurrences, List.mem_filter, List.mem_range, decide_eq_true_eq, Nat.lt_succ_iff]

end FuzzyAux

/-- A stretch of the body's normal form reads as the normal form of the needle, which is not empty; it stands for the given place. -/
def Qualifies (storedBody needle : Units) (start stop : Nat) : Prop :=
  ∃ A B C, normalizeWithMap storedBody = A ++ B ++ C ∧ B.map Item.unit = normalText needle ∧
    B.head?.map Item.start = some start ∧ B.getLast?.map Item.stop = some stop

namespace FuzzyAux

variable {storedBody : Units} {start stop : Nat}

theorem mem_fuzzySpans_iff {needle : Units} :
    (start, stop) ∈ fuzzySpans storedBody needle ↔ Qualifies storedBody needle start stop := by
  rw [fuzzySpans]
  constructor
  · intro h
    by_cases hwant : normalText needle = []
    · rw [if_pos hwant] at h
      cases h
    · rw [if_neg hwant, List.mem_map] at h
      obtain ⟨i, hi, hspan⟩ := h
      obtain ⟨hle, C, hC⟩ := mem_occurrences.mp hi
      rw [← List.map_drop] at hC
      obtain ⟨B, C, hdrop, hB, -⟩ := List.append_eq_map_iff.mp hC
      have hpos : B ≠ [] := by
        rintro rfl
        exact hwant hB.symm
      have hlen : B.length = (normalText needle).length := by rw [← hB, List.length_map]
      have hitems : normalizeWithMap storedBody = (normalizeWithMap storedBody).take i ++ B ++ C := by
        rw [List.append_assoc, ← hdrop, List.take_append_drop]
      have hget : ∀ k < B.length, (normalizeWithMap storedBody)[i + k]? = B[k]? := by
        intro k hk
        rw [← List.getElem?_drop, hdrop, List.getElem?_append_left hk]
      have hBpos : 0 < B.length := List.length_pos_of_ne_nil hpos
      have hhead := hget 0 hBpos
      have hlast := hget (B.length - 1) (by omega)
      rw [Nat.add_zero, ← List.head?_eq_getElem?] at hhead
      rw [← Nat.add_sub_assoc hBpos, ← List.getLast?_eq_getElem?, hlen] at hlast
      rw [hhead, hlast, Prod.mk.injEq] at hspan
      obtain ⟨x, hx⟩ : ∃ x, B.head? = some x := ⟨_, List.head?_eq_some_head hpos⟩
      obtain ⟨y, hy⟩ : ∃ y, B.getLast? = some y := ⟨_, List.getLast?_eq_some_getLast hpos⟩
      rw [hx, hy] at hspan
      refine ⟨_, B, C, hitems, hB, ?_, ?_⟩
      · rw [hx, ← hspan.1]
        rfl
      · rw [hy, ← hspan.2]
        rfl
  · rintro ⟨A, B, C, hitems, hB, hstart, hstop⟩
    have hpos : B ≠ [] := by
      rintro rfl
      cases hstart
    have hlen : B.length = (normalText needle).length := by rw [← hB, List.length_map]
    have hBpos : 0 < B.length := List.length_pos_of_ne_nil hpos
    have hwant : normalText needle ≠ [] := by
      rw [← hB]
      simpa using hpos
    rw [if_neg hwant, List.mem_map]
    refine ⟨A.length, mem_occurrences.mpr ⟨?_, ?_⟩, ?_⟩
    · rw [hitems]
      simp only [List.length_map, List.length_append]
      omega
    · rw [hitems, ← List.map_drop, List.append_assoc, List.drop_left, List.map_append, hB]
      exact List.prefix_append _ _
    · have hget : ∀ k < B.length, (normalizeWithMap storedBody)[A.length + k]? = B[k]? := by
        intro k hk
        rw [hitems, List.append_assoc, List.getElem?_append_right (by omega), Nat.add_sub_cancel_left, List.getElem?_append_left hk]
      have hhead := hget 0 hBpos
      have hlast := hget (B.length - 1) (by omega)
      rw [Nat.add_zero, ← List.head?_eq_getElem?] at hhead
      rw [← Nat.add_sub_assoc hBpos, ← List.getLast?_eq_getElem?, hlen] at hlast
      rw [hhead, hlast, hstart, hstop]
      rfl

theorem normalText_of_qualifies {needle : Units} (h : Qualifies storedBody needle start stop) :
    start < stop ∧ stop ≤ storedBody.length ∧
      normalText ((storedBody.drop start).take (stop - start)) = normalText needle := by
  obtain ⟨A, B, C, hitems, hB, hstart, hstop⟩ := h
  obtain ⟨x, hx, rfl⟩ := Option.map_eq_some_iff.mp hstart
  obtain ⟨y, hy, rfl⟩ := Option.map_eq_some_iff.mp hstop
  obtain ⟨R, rfl⟩ : ∃ R, B = x :: R := List.head?_eq_some_iff.mp hx
  obtain ⟨L, hL⟩ : ∃ L, x :: R = L ++ [y] := List.getLast?_eq_some_iff.mp hy
  -- the needle's normal form ends with no blank, and so does the stretch
  have hplain : isSpace y.unit = false := by
    have hneedle : (normalizeWithMap needle).map Item.unit = L.map Item.unit ++ [y.unit] := by
      have hunits : (x :: R).map Item.unit = (normalizeWithMap needle).map Item.unit := hB
      rw [← hunits, hL, List.map_append, List.map_singleton]
    obtain ⟨L', last, hsplit, -, hunit⟩ := List.map_eq_append_iff.mp hneedle
    obtain ⟨z, rfl, hz⟩ := List.map_eq_singleton_iff.mp hunit
    rw [← hz]
    exact last_plain hsplit
  have hdrop : normalizeFrom x.start none (storedBody.drop x.start) = x :: (R ++ C) := by
    refine normalize_drop (i := 0) (A := A) List.drop_zero (inRun_none _ _) ?_
    rw [← List.cons_append, ← List.append_assoc]
    exact hitems
  have htake : normalizeFrom x.start none ((storedBody.drop x.start).take (y.stop - x.start)) = x :: R := by
    have hstretch : normalizeFrom x.start none (storedBody.drop x.start) = L ++ y :: C := by
      rw [hdrop, ← List.cons_append, hL, List.append_assoc, List.singleton_append]
    rw [normalize_take hplain (fun _ hb => by cases hb) hstretch, hL]
  have hy' : y ∈ normalizeFrom x.start none (storedBody.drop x.start) := by
    rw [hdrop, ← List.cons_append, hL]
    simp
  have hnone : ∀ begun ∈ (none : Option Nat), begun < x.start := fun _ hb => by cases hb
  obtain ⟨-, hle, hgt⟩ := bounds_of_mem hnone hy'
  have hgt' := hgt hplain
  have hx' : x.start < storedBody.length := by
    by_contra hge
    rw [List.drop_eq_nil_of_le (by omega)] at hdrop
    simp [normalizeFrom] at hdrop
  rw [List.length_drop] at hle
  refine ⟨by omega, by omega, ?_⟩
  rw [normalText, normalizeWithMap, ← hB, ← htake]
  exact units_normalizeFrom _ rfl

variable {needles : List Units}

theorem exactSpans_eq_nil :
    exactSpans storedBody needles = [] ↔ ∀ n ∈ needles, occurrences storedBody n = [] := by
  rw [exactSpans, List.flatMap_eq_nil_iff]
  refine forall_congr' fun n => forall_congr' fun _ => ?_
  rw [List.map_eq_nil_iff]

theorem exists_mem_looseSpans {n : Units} (hn : n ∈ needles)
    (h : Qualifies storedBody n start stop) : (⟨start, stop, edgeIdsIn n⟩ : Span) ∈ looseSpans storedBody needles :=
  List.mem_flatMap.mpr ⟨n, hn, List.mem_map.mpr ⟨(start, stop), mem_fuzzySpans_iff.mpr h, rfl⟩⟩

theorem of_mem_looseSpans {span : Span} (h : span ∈ looseSpans storedBody needles) :
    ∃ n ∈ needles, Qualifies storedBody n span.start span.stop := by
  obtain ⟨n, hn, h⟩ := List.mem_flatMap.mp h
  obtain ⟨s, hs, rfl⟩ := List.mem_map.mp h
  exact ⟨n, hn, mem_fuzzySpans_iff.mp hs⟩

/-- A replacement that was made: the spellings, the one place, and the text put there. -/
theorem of_ok {oldStr newStr : Units} {edges : List RenderedEdge} {done : EditDone}
    (h : applyStrReplace storedBody edges oldStr newStr = .ok done) :
    ∃ mappedOld span mappedNew, (∀ id ∈ edgeIdsIn newStr, id ∈ edgeIdsIn oldStr) ∧
      mapRenderedToStored oldStr storedBody edges none = .ok mappedOld ∧
      spansOf storedBody (needlesOf oldStr mappedOld) = [span] ∧
      mapRenderedToStored newStr storedBody edges (some span.carried) = .ok mappedNew ∧
      cutsAToken storedBody span.start span.stop = false ∧
      orphanTokenCount (splice storedBody span mappedNew) ≤ orphanTokenCount storedBody ∧
      done.body = splice storedBody span mappedNew ∧
      done.linksRemoved = droppedLinks storedBody (splice storedBody span mappedNew) ∧
      done.fuzzy = (exactSpans storedBody (needlesOf oldStr mappedOld)).isEmpty := by
  rw [applyStrReplace] at h
  split_ifs at h with hbad
  cases hmap : mapRenderedToStored oldStr storedBody edges none with
  | error title =>
    rw [hmap] at h
    cases h
  | ok mappedOld =>
    rw [hmap] at h
    rcases hspans : spansOf storedBody (needlesOf oldStr mappedOld) with _ | ⟨span, _ | ⟨span', spans⟩⟩
    · simp only [hspans] at h
      cases h
    · cases hnew : mapRenderedToStored newStr storedBody edges (some span.carried) with
      | error title =>
        simp only [hspans, hnew] at h
        cases h
      | ok mappedNew =>
        simp only [hspans, hnew] at h
        split_ifs at h with hcut horphan
        obtain rfl := Except.ok.inj h
        refine ⟨mappedOld, span, mappedNew, ?_, rfl, hspans, hnew, ?_, by omega, rfl, rfl, rfl⟩
        · intro id hid
          by_contra hno
          exact hbad (List.any_eq_true.mpr ⟨id, hid, by simpa using hno⟩)
        · simpa using hcut
    · simp only [hspans] at h
      cases h

end FuzzyAux

open FuzzyAux

/-- For every body, map of titles and needle. A place the forgiving tier resolved to: no spelling of the needle stands in the body byte for
byte, the place has the normal form of a spelling, no other place qualifies, and the new body is the old one with that place replaced.
Where a spelling stands byte for byte, the tier is not asked; and where it is and two places qualify, the edit is refused as ambiguous. -/
theorem applyStrReplace_fuzzy (storedBody oldStr newStr : Units) (edges : List RenderedEdge) :
    (∀ done, applyStrReplace storedBody edges oldStr newStr = .ok done → done.fuzzy = true →
      ∃ mappedOld mappedNew carried start stop, mapRenderedToStored oldStr storedBody edges none = .ok mappedOld ∧
        (∀ n ∈ needlesOf oldStr mappedOld, occurrences storedBody n = []) ∧
        start ≤ stop ∧ stop ≤ storedBody.length ∧
        (∃ n ∈ needlesOf oldStr mappedOld, normalText ((storedBody.drop start).take (stop - start)) = normalText n) ∧
        (∀ n ∈ needlesOf oldStr mappedOld, ∀ start' stop', Qualifies storedBody n start' stop' → start' = start ∧ stop' = stop) ∧
        mapRenderedToStored newStr storedBody edges (some carried) = .ok mappedNew ∧
        done.body = storedBody.take start ++ mappedNew ++ storedBody.drop stop) ∧
      ∀ mappedOld, mapRenderedToStored oldStr storedBody edges none = .ok mappedOld →
        ((∃ n ∈ needlesOf oldStr mappedOld, occurrences storedBody n ≠ []) →
          spansOf storedBody (needlesOf oldStr mappedOld) = exactSpans storedBody (needlesOf oldStr mappedOld)) ∧
        ((∀ id ∈ edgeIdsIn newStr, id ∈ edgeIdsIn oldStr) → (∀ n ∈ needlesOf oldStr mappedOld, occurrences storedBody n = []) →
          ∀ n ∈ needlesOf oldStr mappedOld, ∀ n' ∈ needlesOf oldStr mappedOld, ∀ start stop start' stop',
            Qualifies storedBody n start stop → Qualifies storedBody n' start' stop' → (start, stop) ≠ (start', stop') →
              ∃ lines, applyStrReplace storedBody edges oldStr newStr = .error (.ambiguousMatch lines)) := by
  refine ⟨fun done h hfuzzy => ?_, fun mappedOld hmap => ⟨?_, ?_⟩⟩
  · obtain ⟨mappedOld, span, mappedNew, -, hmap, hspans, hnew, -, -, hbody, -, hf⟩ := of_ok h
    rw [hfuzzy] at hf
    have hexact := List.isEmpty_iff.mp hf.symm
    rw [spansOf, if_pos hf.symm] at hspans
    obtain ⟨n, hn, hqual⟩ := of_mem_looseSpans (hspans ▸ List.mem_singleton_self span)
    obtain ⟨hlt, hle, hnormal⟩ := normalText_of_qualifies hqual
    refine ⟨mappedOld, mappedNew, span.carried, span.start, span.stop, hmap, exactSpans_eq_nil.mp hexact, hlt.le, hle,
      ⟨n, hn, hnormal⟩, ?_, hnew, hbody⟩
    intro n' hn' start' stop' hqual'
    have hmem := exists_mem_looseSpans hn' hqual'
    rw [hspans, List.mem_singleton] at hmem
    rw [← hmem]
    exact ⟨rfl, rfl⟩
  · rintro ⟨n, hn, hocc⟩
    rw [spansOf, if_neg]
    rw [List.isEmpty_iff, exactSpans_eq_nil]
    exact fun hnone => hocc (hnone n hn)
  · intro hlinks hnone n hn n' hn' start stop start' stop' hqual hqual' hne
    have hspans : spansOf storedBody (needlesOf oldStr mappedOld) = looseSpans storedBody (needlesOf oldStr mappedOld) := by
      rw [spansOf, if_pos (List.isEmpty_iff.mpr (exactSpans_eq_nil.mpr hnone))]
    have hmem := exists_mem_looseSpans hn hqual
    have hmem' := exists_mem_looseSpans hn' hqual'
    have hbad : ¬((edgeIdsIn newStr).any fun id => !(edgeIdsIn oldStr).contains id) = true := by
      rw [List.any_eq_true]
      rintro ⟨id, hid, hno⟩
      simp [hlinks id hid] at hno
    rw [applyStrReplace, if_neg hbad, hmap]
    generalize looseSpans storedBody (needlesOf oldStr mappedOld) = spans at hspans hmem hmem'
    rcases spans with _ | ⟨span, _ | ⟨span', spans⟩⟩
    · cases hmem
    · rw [List.mem_singleton] at hmem hmem'
      rw [← hmem] at hmem'
      injection hmem' with hstart hstop
      exact absurd (Prod.ext hstart.symm hstop.symm) hne
    · simp only [hspans]
      exact ⟨_, rfl⟩

/-- `a b` in a note that says `a  b`, once and twice. -/
theorem applyStrReplace_fuzzy_blanks :
    (∃ done, applyStrReplace (ofString "x a  b") [] (ofString "a b") (ofString "c") = .ok done ∧
      ∃ mappedNew start stop, done.body = (ofString "x a  b").take start ++ mappedNew ++ (ofString "x a  b").drop stop ∧
        normalText (((ofString "x a  b").drop start).take (stop - start)) = ofString "a b") ∧
      ∃ lines, applyStrReplace (ofString "a  b\na  b") [] (ofString "a b") (ofString "c") = .error (.ambiguousMatch lines) := by
  constructor
  · have hrun : applyStrReplace (ofString "x a  b") [] (ofString "a b") (ofString "c") =
        .ok ⟨ofString "x c", [], 1, 1, true⟩ := by decide +kernel
    obtain ⟨mappedOld, mappedNew, -, start, stop, hmap, -, -, -, ⟨n, hn, hnormal⟩, -, -, hbody⟩ :=
      (applyStrReplace_fuzzy (ofString "x a  b") (ofString "a b") (ofString "c") []).1 _ hrun rfl
    obtain rfl : ofString "a b" = mappedOld := by
      have hsame : mapRenderedToStored (ofString "a b") (ofString "x a  b") [] none = .ok (ofString "a b") := by decide +kernel
      rw [hsame] at hmap
      exact Except.ok.inj hmap
    rw [needlesOf, if_pos rfl, List.mem_singleton] at hn
    refine ⟨_, hrun, mappedNew, start, stop, hbody, ?_⟩
    rw [hnormal, hn]
    decide
  · have hsame : mapRenderedToStored (ofString "a b") (ofString "a  b\na  b") [] none = .ok (ofString "a b") := by decide +kernel
    have hneedles : needlesOf (ofString "a b") (ofString "a b") = [ofString "a b"] := rfl
    have h := ((applyStrReplace_fuzzy (ofString "a  b\na  b") (ofString "a b") (ofString "c") []).2 _ hsame).2
    rw [hneedles] at h
    refine h (by decide +kernel) (by decide +kernel) _ (List.mem_singleton_self _) _ (List.mem_singleton_self _) 0 4 5 9 ?_ ?_ (by decide)
    · exact mem_fuzzySpans_iff.mp (by decide +kernel)
    · exact mem_fuzzySpans_iff.mp (by decide +kernel)

end Capka.NoteEdit

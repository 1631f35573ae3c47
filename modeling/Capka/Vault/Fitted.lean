import Capka.Vault.Text

/-!
# Text that was fitted already

To fit a text a second time can shorten it once more, where the cut left white space at its end. To fit it a third time changes nothing, so a
stored text and what is stored when it is written again are the same text once fitted.
-/

namespace Capka

namespace VaultText

/-- No white space but blanks, and no two of them side by side. -/
def Tidy (s : List Char) : Prop := (∀ c ∈ s, isSpace c = true → c = ' ') ∧ s.IsChain fun a b => ¬(isSpace a = true ∧ isSpace b = true)

/-- Everything on one line. -/
def OneLine (s : List Char) : Prop := ∀ c ∈ s, isNewline c = false

theorem OneLine.part {s t : List Char} (h : OneLine s) (ht : t <:+: s) : OneLine t := fun c hc => h c (ht.subset hc)

theorem Tidy.part {s t : List Char} (h : Tidy s) (ht : t <:+: s) : Tidy t := ⟨fun c hc => h.1 c (ht.subset hc), List.IsChain.infix h.2 ht⟩

theorem trimBy_part (p : Char → Bool) (s : List Char) : trimBy p s <:+: s :=
  ( List.rdropWhile_prefix p _).isInfix.trans (List.dropWhile_suffix p).isInfix

theorem trimBy_trimBy (p : Char → Bool) (s : List Char) : trimBy p (trimBy p s) = trimBy p s := by
  have hdrop : (trimBy p s).dropWhile p = trimBy p s := by
    rw [List.dropWhile_eq_self_iff]
    intro hlen
    obtain ⟨t, ht⟩ : trimBy p s <+: s.dropWhile p := List.rdropWhile_prefix p _
    have hlen' : 0 < (s.dropWhile p).length := by
      rw [← ht, List.length_append]
      omega
    have hhead := List.dropWhile_get_zero_not p s hlen'
    have heq : (s.dropWhile p)[0] = (trimBy p s)[0] := by
      simp only [← ht, List.getElem_append_left hlen]
    rw [List.get_eq_getElem] at hhead
    rwa [← heq]
  unfold trimBy at hdrop ⊢
  rw [hdrop, List.rdropWhile_idempotent]

theorem isSpace_of_run {s run : List Char} (h : run ∈ s.splitBy fun a b => isSpace a = isSpace b) {a b : Char} (ha : a ∈ run) (hb : b ∈ run) :
    isSpace a = isSpace b := by
  have hchain := List.isChain_of_mem_splitBy h
  have hpair : run.Pairwise fun x y => isSpace x = isSpace y := by
    refine List.isChain_iff_pairwise.mp (hchain.imp fun x y hxy => ?_)
    simpa using hxy
  have hsymm : Std.Symm fun x y => isSpace x = isSpace y := { symm := fun _ _ hxy => hxy.symm }
  exact List.Pairwise.forall_of_forall (R := fun x y => isSpace x = isSpace y) (fun _ _ => rfl) hpair ha hb

theorem oneLine_squeeze (s : List Char) : OneLine (squeeze isSpace (fun run => run.any isNewline) s) := by
  intro c hc
  obtain ⟨run, hrun, hc⟩ := List.mem_flatMap.mp hc
  split at hc
  · rw [List.mem_singleton.mp hc]
    decide
  · rename_i hplain
    by_contra hnew
    have hnew : isNewline c = true := by simpa using hnew
    have hspace : isSpace c = true := by
      simp only [isNewline, Bool.or_eq_true, decide_eq_true_eq] at hnew
      rcases hnew with rfl | rfl <;> decide
    refine hplain ?_
    simp only [Bool.and_eq_true, List.any_eq_true]
    exact ⟨⟨c, hc, hspace⟩, c, hc, hnew⟩

theorem squeeze_of_oneLine {s : List Char} (h : OneLine s) : squeeze isSpace (fun run => run.any isNewline) s = s := by
  have hrun : ∀ run ∈ s.splitBy fun a b => isSpace a = isSpace b, (if run.any isSpace && run.any isNewline then [' '] else run) = run := by
    intro run hrun
    refine if_neg ?_
    simp only [Bool.and_eq_true, List.any_eq_true]
    rintro ⟨_, c, hc, hnew⟩
    have hcs : c ∈ s := by
      rw [← List.flatten_splitBy (fun a b => isSpace a = isSpace b) s]
      exact List.mem_flatten.mpr ⟨run, hrun, hc⟩
    rw [h c hcs] at hnew
    cases hnew
  unfold squeeze
  rw [List.flatMap_def, List.map_congr_left hrun, List.map_id', List.flatten_splitBy]

theorem tidy_squeeze (s : List Char) : Tidy (squeeze isSpace (fun _ => true) s) := by
  have hmem : ∀ {run}, run ∈ (s.splitBy fun a b => isSpace a = isSpace b) → ∀ c ∈ (if run.any isSpace && true then [' '] else run),
      isSpace c = run.any isSpace ∧ (isSpace c = true → c = ' ') := by
    intro run hrun c hc
    by_cases hany : run.any isSpace = true
    · rw [hany] at hc
      rw [List.mem_singleton.mp hc, hany]
      exact ⟨by decide, fun _ => rfl⟩
    · have hany : run.any isSpace = false := by simpa using hany
      rw [hany] at hc
      have hplain : isSpace c = false := by
        have hall := List.any_eq_false.mp hany c hc
        simpa using hall
      rw [hany, hplain]
      exact ⟨rfl, fun h => by cases h⟩
  refine ⟨?_, ?_⟩
  · intro c hc hspace
    obtain ⟨run, hrun, hc⟩ := List.mem_flatMap.mp hc
    exact (hmem hrun c hc).2 hspace
  · have hne : ([] : List Char) ∉ (s.splitBy fun a b => isSpace a = isSpace b).map fun run => if run.any isSpace && true then [' '] else run := by
      intro hnil
      obtain ⟨run, hrun, hempty⟩ := List.mem_map.mp hnil
      split at hempty
      · cases hempty
      · exact List.nil_notMem_splitBy _ s (hempty ▸ hrun)
    unfold squeeze
    rw [List.flatMap_def, List.isChain_flatten hne]
    refine ⟨?_, ?_⟩
    · intro part hpart
      obtain ⟨run, hrun, rfl⟩ := List.mem_map.mp hpart
      split
      · exact List.isChain_singleton ' '
      · rename_i hany
        refine (List.pairwise_of_forall_mem_list fun a ha b _ => ?_).isChain
        rintro ⟨hspace, _⟩
        exact hany (by simpa using ⟨a, ha, hspace⟩)
    · rw [List.isChain_map]
      refine (List.isChain_getLast_head_splitBy _ s).imp_of_mem_imp ?_
      rintro run run' hrun hrun' ⟨hnonempty, hnonempty', hdiffer⟩ a ha b hb ⟨hspace, hspace'⟩
      -- two runs side by side are not both of white space
      have hclass : ∀ {r : List Char}, r ∈ (s.splitBy fun a b => isSpace a = isSpace b) → r.any isSpace = true → ∀ c ∈ r, isSpace c = true := by
        intro r hr hany c hc
        obtain ⟨d, hd, hspace⟩ := List.any_eq_true.mp hany
        exact (isSpace_of_run hr hc hd).trans hspace
      have hlast := hclass hrun ((hmem hrun a (List.mem_of_mem_getLast? ha)).1.symm.trans hspace) _ (List.getLast_mem hnonempty)
      have hhead := hclass hrun' ((hmem hrun' b (List.mem_of_mem_head? hb)).1.symm.trans hspace') _ (List.head_mem hnonempty')
      rw [hlast, hhead] at hdiffer
      simp at hdiffer

theorem squeeze_of_tidy {s : List Char} (h : Tidy s) : squeeze isSpace (fun _ => true) s = s := by
  have hflat := List.flatten_splitBy (fun a b => isSpace a = isSpace b) s
  have hrun : ∀ run ∈ s.splitBy fun a b => isSpace a = isSpace b, (if run.any isSpace && true then [' '] else run) = run := by
    intro run hrun
    split
    · rename_i hany
      have htidy : Tidy run := by
        refine h.part ?_
        rw [← hflat]
        exact List.infix_of_mem_flatten hrun
      obtain ⟨c, hc, hspace⟩ := List.any_eq_true.mp (by simpa using hany)
      have hall : ∀ x ∈ run, x = ' ' := fun x hx => htidy.1 x hx ((isSpace_of_run hrun hx hc).trans hspace)
      obtain _ | ⟨x, _ | ⟨y, rest⟩⟩ := run
      · cases hc
      · rw [hall x List.mem_cons_self]
      · have hchain := htidy.2.rel_head? rfl
        rw [hall x List.mem_cons_self, hall y (List.mem_cons_of_mem _ List.mem_cons_self)] at hchain
        exact absurd ⟨by decide, by decide⟩ hchain
    · rfl
  unfold squeeze
  rw [List.flatMap_def, List.map_congr_left hrun, List.map_id', hflat]

/-- To squeeze, trim and cut a text three times is to do it twice, when squeezing leaves texts that squeezing leaves alone. -/
theorem fit_stable {sq : List Char → List Char} {P : List Char → Prop} (hpart : ∀ {s t}, P s → t <:+: s → P t) (hsq : ∀ s, P (sq s))
    (hid : ∀ {s}, P s → sq s = s) {f : List Char → List Char} {n : Nat} (hf : ∀ s, f s = (trimBy isSpace (sq s)).take n) (s : List Char) :
    f (f (f s)) = f (f s) := by
  have hshort : ∀ {t}, P t → t.length ≤ n → f t = trimBy isSpace t := by
    intro t ht hlen
    rw [hf, hid ht, List.take_of_length_le ((trimBy_part isSpace t).length_le.trans hlen)]
  have hfit : P (f s) := by
    rw [hf]
    exact hpart (hsq s) (( List.take_prefix n _).isInfix.trans (trimBy_part isSpace _))
  have hlen : (f s).length ≤ n := by
    rw [hf]
    exact List.length_take_le n _
  have htrim : f (f s) = trimBy isSpace (f s) := hshort hfit hlen
  rw [htrim, hshort (hpart hfit (trimBy_part isSpace _)) ((trimBy_part isSpace _).length_le.trans hlen), trimBy_trimBy]

theorem fitLine_stable (n : Nat) (raw : String) : fitLine n (fitLine n (fitLine n raw)) = fitLine n (fitLine n raw) := by
  have hstable := fit_stable (f := fun s => (trimBy isSpace (squeeze isSpace (fun run => run.any isNewline) s)).take n) (n := n)
    OneLine.part oneLine_squeeze squeeze_of_oneLine (fun _ => rfl) raw.toList
  simpa only [fitLine, String.toList_ofList] using congrArg String.ofList hstable

theorem fitLabel_stable (n : Nat) (raw : String) : fitLabel n (fitLabel n (fitLabel n raw)) = fitLabel n (fitLabel n raw) := by
  have hstable := fit_stable (f := fun s => (trimBy isSpace (squeeze isSpace (fun _ => true) s)).take n) (n := n)
    Tidy.part tidy_squeeze squeeze_of_tidy (fun _ => rfl) raw.toList
  simpa only [fitLabel, String.toList_ofList] using congrArg String.ofList hstable

end VaultText

theorem fitStatement_stable (raw : String) : fitStatement (fitStatement (fitStatement raw)) = fitStatement (fitStatement raw) :=
  VaultText.fitLine_stable 500 raw

theorem fitSlotKey_stable (raw : Option String) : fitSlotKey (fitSlotKey (fitSlotKey raw)) = fitSlotKey (fitSlotKey raw) := by
  have hsome : ∀ {s t : String}, fitSlotKey (some s) = some t → t = VaultText.fitLabel 120 s := by
    intro s t h
    exact (Option.some.inj (Option.filter_eq_some_iff.mp h).1).symm
  cases h₁ : fitSlotKey raw with
  | none => rfl
  | some a =>
    cases h₂ : fitSlotKey (some a) with
    | none => rfl
    | some b =>
      obtain ⟨r, hr, ha⟩ : ∃ r, raw = some r ∧ a = VaultText.fitLabel 120 r := by
        cases raw with
        | none => cases h₁
        | some r => exact ⟨r, rfl, hsome h₁⟩
      have hb := hsome h₂
      have hstable : VaultText.fitLabel 120 b = b := by
        rw [hb, ha]
        exact VaultText.fitLabel_stable 120 r
      have hnonempty := (Option.filter_eq_some_iff.mp h₂).2
      simp only [fitSlotKey, Option.map_some, hstable, Option.filter_some, hnonempty, if_true]

end Capka

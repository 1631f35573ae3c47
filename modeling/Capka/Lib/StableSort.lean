import Mathlib

/-!
# Stable sorting by a key

A stable sort keeps the order within a key and forgets the order between keys: two lists sort alike exactly when the elements of each
key come in one order in both (`SameGroups`), and where no two elements have one key, exactly when they have the same elements.
-/

namespace Capka.StableSort

variable {α β κ : Type} [LinearOrder κ] {key : α → κ} {l l' : List α}

/-- The elements of one key, in their order. -/
def group (key : α → κ) (k : κ) (l : List α) : List α := l.filter fun a => key a = k

/-- The list sorted by the key, elements of one key in their order. -/
def sortBy (key : α → κ) (l : List α) : List α := l.insertionSort fun a b => key a ≤ key b

/-- The two lists have the elements of each key in one order. -/
def SameGroups (key : α → κ) (l l' : List α) : Prop := ∀ k, group key k l = group key k l'

/-! ## Groups -/

@[simp] theorem group_nil {k : κ} : group key k [] = [] := rfl

@[simp] theorem mem_group {k : κ} {a : α} : a ∈ group key k l ↔ a ∈ l ∧ key a = k := by
  rw [group, List.mem_filter, decide_eq_true_eq]

theorem group_cons_self {a : α} : group key (key a) (a :: l) = a :: group key (key a) l := by
  simp [group]

theorem group_cons_ne {a : α} {k : κ} (h : key a ≠ k) : group key k (a :: l) = group key k l := by
  simp [group, h]

theorem group_map {key' : β → κ} {f : α → β} (hf : ∀ a, key' (f a) = key a) {k : κ} :
    group key' k (l.map f) = (group key k l).map f := by
  rw [group, group, List.filter_map]
  congr 1
  exact List.filter_congr fun a _ => by simp [hf a]

namespace SameGroups

theorem symm (h : SameGroups key l l') : SameGroups key l' l := fun k => (h k).symm

theorem trans {l'' : List α} (h : SameGroups key l l') (h' : SameGroups key l' l'') : SameGroups key l l'' :=
  fun k => (h k).trans (h' k)

theorem mem (h : SameGroups key l l') {a : α} : a ∈ l ↔ a ∈ l' := by
  have hg : a ∈ group key (key a) l ↔ a ∈ group key (key a) l' := by rw [h (key a)]
  simpa using hg

theorem perm (h : SameGroups key l l') : l.Perm l' := by
  classical
  rw [List.perm_iff_count]
  intro a
  have hg : (group key (key a) l).count a = (group key (key a) l').count a := by rw [h (key a)]
  rwa [group, group, List.count_filter (by simp), List.count_filter (by simp)] at hg

theorem map {key' : β → κ} {f : α → β} (hf : ∀ a, key' (f a) = key a) (h : SameGroups key l l') :
    SameGroups key' (l.map f) (l'.map f) := by
  intro k
  rw [group_map hf, group_map hf, h k]

theorem tail {a : α} (h : SameGroups key (a :: l) (a :: l')) : SameGroups key l l' := by
  intro k
  have hk := h k
  by_cases hak : key a = k
  · subst hak
    rw [group_cons_self, group_cons_self] at hk
    exact (List.cons.inj hk).2
  · rwa [group_cons_ne hak, group_cons_ne hak] at hk

end SameGroups

/-! ## Sorting -/

theorem perm_sortBy : (sortBy key l).Perm l := List.perm_insertionSort _ l

theorem mem_sortBy {a : α} : a ∈ sortBy key l ↔ a ∈ l := perm_sortBy.mem_iff

theorem sorted_sortBy : (sortBy key l).Pairwise fun a b => key a ≤ key b := by
  have _total : Std.Total fun a b : α => key a ≤ key b := ⟨fun a b => le_total (key a) (key b)⟩
  have _trans : IsTrans α fun a b => key a ≤ key b := ⟨fun a b c => le_trans⟩
  exact List.pairwise_insertionSort _ l

theorem sortBy_sameGroups : SameGroups key (sortBy key l) l := by
  intro k
  have _total : Std.Total fun a b : α => key a ≤ key b := ⟨fun a b => le_total (key a) (key b)⟩
  have _trans : IsTrans α fun a b => key a ≤ key b := ⟨fun a b c => le_trans⟩
  have hsub : List.Sublist (group key k l) (sortBy key l) := by
    refine List.sublist_insertionSort ?_ List.filter_sublist
    refine List.pairwise_of_forall_mem_list fun a ha b hb => ?_
    rw [(mem_group.mp ha).2, (mem_group.mp hb).2]
  have hgroup : List.Sublist (group key k (group key k l)) (group key k (sortBy key l)) := hsub.filter _
  have hself : group key k (group key k l) = group key k l := by simp [group]
  rw [hself] at hgroup
  refine (hgroup.eq_of_length ?_).symm
  exact (perm_sortBy.filter _).length_eq.symm

theorem eq_of_sorted (hl : l.Pairwise fun a b => key a ≤ key b) (hl' : l'.Pairwise fun a b => key a ≤ key b)
    (h : SameGroups key l l') : l = l' := by
  induction l generalizing l' with
  | nil =>
    cases l' with
    | nil => rfl
    | cons b l' => exact absurd (h.mem.mpr List.mem_cons_self) (by simp)
  | cons a l ih =>
    cases l' with
    | nil => exact absurd (h.mem.mp List.mem_cons_self) (by simp)
    | cons b l' =>
      have hab : key a ≤ key b := by
        rcases List.mem_cons.mp (h.mem.mpr (List.mem_cons_self (a := b))) with rfl | hb
        · exact le_rfl
        · exact (List.pairwise_cons.mp hl).1 b hb
      have hba : key b ≤ key a := by
        rcases List.mem_cons.mp (h.mem.mp (List.mem_cons_self (a := a))) with rfl | ha
        · exact le_rfl
        · exact (List.pairwise_cons.mp hl').1 a ha
      have hkey : key b = key a := le_antisymm hba hab
      have hheads := h (key a)
      rw [group_cons_self, ← hkey, group_cons_self] at hheads
      obtain ⟨rfl, -⟩ := List.cons.inj hheads
      rw [ih (List.pairwise_cons.mp hl).2 (List.pairwise_cons.mp hl').2 h.tail]

theorem sortBy_eq_iff : sortBy key l = sortBy key l' ↔ SameGroups key l l' := by
  constructor
  · intro h
    refine sortBy_sameGroups.symm.trans ?_
    rw [h]
    exact sortBy_sameGroups
  · intro h
    exact eq_of_sorted sorted_sortBy sorted_sortBy (sortBy_sameGroups.trans (h.trans sortBy_sameGroups.symm))

theorem sortBy_eq_of_perm (h : l.Perm l') (hkeys : (l.map key).Nodup) : sortBy key l = sortBy key l' := by
  refine sortBy_eq_iff.mpr fun k => ?_
  have hperm : (group key k l).Perm (group key k l') := h.filter _
  have hone : (group key k l).length ≤ 1 := by
    have hsub : ((group key k l).map key).Nodup := hkeys.sublist (List.filter_sublist.map _)
    have hrep : (group key k l).map key = List.replicate (group key k l).length k :=
      List.map_eq_replicate_iff.mpr fun a ha => (mem_group.mp ha).2
    rw [hrep] at hsub
    exact List.nodup_replicate.mp hsub
  rcases hcase : group key k l with _ | ⟨a, _ | ⟨b, rest⟩⟩
  · rw [hcase] at hperm
    exact (List.nil_perm.mp hperm).symm
  · rw [hcase] at hperm
    exact List.singleton_perm.mp hperm
  · rw [hcase] at hone
    simp at hone

theorem map_sortBy {key' : β → κ} {f : α → β} (hf : ∀ a, key' (f a) = key a) :
    (sortBy key l).map f = sortBy key' (l.map f) := by
  refine eq_of_sorted ?_ sorted_sortBy ((sortBy_sameGroups.map hf).trans sortBy_sameGroups.symm)
  refine List.pairwise_map.mpr (sorted_sortBy.imp fun {a b} h => ?_)
  rwa [hf, hf]

end Capka.StableSort

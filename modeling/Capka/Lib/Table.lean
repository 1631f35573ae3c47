import Mathlib.Data.List.Nodup
import Mathlib.Data.List.Perm.Subperm

/-!
# Tables with a primary key

A table is a list of rows whose keys are all different. The writes are those of a database: insert under a fresh key, change rows
in place without touching the key, delete rows. Two rows with one key are the same row, whatever was written before.
-/

/-- Rows of type `ρ` under the primary key `key`. -/
structure Table (ρ : Type*) {κ : Type*} (key : ρ → κ) where
  rows : List ρ
  nodup : (rows.map key).Nodup

namespace Table

variable {ρ κ : Type*} {key : ρ → κ}

instance : Membership ρ (Table ρ key) := ⟨fun T r => r ∈ T.rows⟩

variable {T : Table ρ key} {r : ρ}

theorem mem_rows : r ∈ T ↔ r ∈ T.rows := Iff.rfl

/-- The table without rows. -/
def empty : Table ρ key where
  rows := []
  nodup := List.nodup_nil

@[simp] theorem not_mem_empty (r : ρ) : r ∉ (empty : Table ρ key) := List.not_mem_nil

theorem eq_of_key {r' : ρ} (h : r ∈ T) (h' : r' ∈ T) (hk : key r = key r') : r = r' :=
  List.inj_on_of_nodup_map T.nodup h h' hk

instance [DecidableEq ρ] (r : ρ) (T : Table ρ key) : Decidable (r ∈ T) := inferInstanceAs (Decidable (r ∈ T.rows))

instance decidableBall (T : Table ρ key) (p : ρ → Prop) [∀ r, Decidable (p r)] : Decidable (∀ r ∈ T, p r) :=
  inferInstanceAs (Decidable (∀ r ∈ T.rows, p r))

instance decidableBex (T : Table ρ key) (p : ρ → Prop) [∀ r, Decidable (p r)] : Decidable (∃ r ∈ T, p r) :=
  inferInstanceAs (Decidable (∃ r ∈ T.rows, p r))

/-- The row under a key. -/
def get [DecidableEq κ] (T : Table ρ key) (k : κ) : Option ρ := T.rows.find? (fun r => key r = k)

variable {k : κ}

theorem get_eq_some_iff [DecidableEq κ] : T.get k = some r ↔ r ∈ T ∧ key r = k := by
  constructor
  · intro h
    exact ⟨List.mem_of_find?_eq_some h, by simpa using List.find?_some h⟩
  · rintro ⟨hr, rfl⟩
    cases hg : T.get (key r) with
    | none =>
      have := List.find?_eq_none.mp hg r hr
      simp at this
    | some r' =>
      have hr' : r' ∈ T := List.mem_of_find?_eq_some hg
      have hk : key r' = key r := by simpa using List.find?_some hg
      rw [eq_of_key hr' hr hk]

theorem get_eq_none_iff [DecidableEq κ] : T.get k = none ↔ ∀ r ∈ T, key r ≠ k := by
  simp [get, mem_rows]

/-- Insert a row; `none` is a violation of the primary key. -/
def insert [DecidableEq κ] (r : ρ) (T : Table ρ key) : Option (Table ρ key) :=
  if h : ∀ r' ∈ T, key r' ≠ key r then
    some
      { rows := T.rows ++ [r]
        nodup := by
          rw [List.map_append, List.map_singleton, List.nodup_append]
          refine ⟨T.nodup, List.nodup_singleton _, ?_⟩
          intro k hk k' hk' heq
          obtain ⟨r', hr', rfl⟩ := List.mem_map.mp hk
          exact h r' hr' (heq.trans (List.mem_singleton.mp hk')) }
  else none

variable {T' : Table ρ key}

theorem mem_of_insert [DecidableEq κ] {x : ρ} (h : insert r T = some T') :
    x ∈ T' ↔ x ∈ T ∨ x = r := by
  unfold insert at h
  split at h
  · cases h
    simp [mem_rows]
  · cases h

theorem key_ne_of_insert [DecidableEq κ] (h : insert r T = some T') :
    ∀ r' ∈ T, key r' ≠ key r := by
  unfold insert at h
  split at h
  · assumption
  · cases h

theorem exists_insert [DecidableEq κ] (h : ∀ r' ∈ T, key r' ≠ key r) : ∃ T', insert r T = some T' := by
  unfold insert
  rw [dif_pos h]
  exact ⟨_, rfl⟩

/-- Change the rows in place. -/
def map (f : ρ → ρ) (hf : ∀ r, key (f r) = key r) (T : Table ρ key) : Table ρ key where
  rows := T.rows.map f
  nodup := by
    have hkeys : (T.rows.map f).map key = T.rows.map key := by simp [Function.comp_def, hf]
    rw [hkeys]
    exact T.nodup

variable {f : ρ → ρ}

theorem mem_map {hf : ∀ r, key (f r) = key r} :
    r ∈ T.map f hf ↔ ∃ r₀ ∈ T, f r₀ = r := List.mem_map

/-- Change the row under a key. -/
def modify [DecidableEq κ] (k : κ) (f : ρ → ρ) (hf : ∀ r, key (f r) = key r) (T : Table ρ key) : Table ρ key :=
  T.map (fun r => if key r = k then f r else r) (by
    intro r
    split
    · exact hf r
    · rfl)

/-- A row of a modified table: changed, under the key, or as it was, under another. -/
theorem mem_modify [DecidableEq κ] {hf : ∀ r, key (f r) = key r} :
    r ∈ T.modify k f hf ↔ (∃ r₀ ∈ T, key r₀ = k ∧ r = f r₀) ∨ (r ∈ T ∧ key r ≠ k) := by
  unfold modify
  rw [mem_map]
  constructor
  · rintro ⟨r₀, hr₀, heq⟩
    split at heq
    · rename_i hk
      exact .inl ⟨r₀, hr₀, hk, heq.symm⟩
    · rename_i hk
      subst heq
      exact .inr ⟨hr₀, hk⟩
  · rintro (⟨r₀, hr₀, hk, rfl⟩ | ⟨hr, hk⟩)
    · exact ⟨r₀, hr₀, by rw [if_pos hk]⟩
    · exact ⟨r, hr, by rw [if_neg hk]⟩

theorem mem_modify_of_key [DecidableEq κ] (hf : ∀ r, key (f r) = key r)
    (hr : r ∈ T) (hk : key r = k) : f r ∈ T.modify k f hf :=
  mem_modify.mpr (.inl ⟨r, hr, hk, rfl⟩)

theorem mem_modify_of_ne [DecidableEq κ] (hf : ∀ r, key (f r) = key r)
    (hk : key r ≠ k) : r ∈ T.modify k f hf ↔ r ∈ T := by
  rw [mem_modify]
  constructor
  · rintro (⟨r₀, _, hk₀, rfl⟩ | ⟨hr, _⟩)
    · exact absurd ((hf r₀).trans hk₀) hk
    · exact hr
  · exact fun hr => .inr ⟨hr, hk⟩

theorem map_eq_self (hf : ∀ r, key (f r) = key r) (h : ∀ r ∈ T, f r = r) : T.map f hf = T := by
  obtain ⟨rows, nodup⟩ := T
  have hrows : rows.map f = rows := by
    conv_rhs => rw [← List.map_id rows]
    exact List.map_congr_left h
  simp only [map, hrows]

theorem modify_eq_self [DecidableEq κ] (hf : ∀ r, key (f r) = key r)
    (h : ∀ r ∈ T, key r = k → f r = r) : T.modify k f hf = T := by
  refine map_eq_self _ fun r hr => ?_
  split
  · rename_i hk
    exact h r hr hk
  · rfl

/-- Change the rows that have a property. -/
def update (p : ρ → Prop) [DecidablePred p] (f : ρ → ρ) (hf : ∀ r, key (f r) = key r) (T : Table ρ key) : Table ρ key :=
  T.map (fun r => if p r then f r else r) (by
    intro r
    split
    · exact hf r
    · rfl)

variable {p : ρ → Prop}

theorem mem_update [DecidablePred p] (hf : ∀ r, key (f r) = key r) :
    r ∈ T.update p f hf ↔ (∃ r₀ ∈ T, p r₀ ∧ r = f r₀) ∨ (r ∈ T ∧ ¬p r) := by
  unfold update
  rw [mem_map]
  constructor
  · rintro ⟨r₀, hr₀, heq⟩
    split at heq
    · rename_i hp
      exact .inl ⟨r₀, hr₀, hp, heq.symm⟩
    · rename_i hp
      subst heq
      exact .inr ⟨hr₀, hp⟩
  · rintro (⟨r₀, hr₀, hp, rfl⟩ | ⟨hr, hp⟩)
    · exact ⟨r₀, hr₀, if_pos hp⟩
    · exact ⟨r, hr, if_neg hp⟩

theorem update_eq_of_fixed [DecidablePred p] (hf : ∀ r, key (f r) = key r)
    (h : ∀ r ∈ T, p r → f r = r) : T.update p f hf = T := by
  unfold update
  refine map_eq_self _ fun r hr => ?_
  split
  · rename_i hp
    exact h r hr hp
  · rfl

theorem update_eq_self [DecidablePred p] (hf : ∀ r, key (f r) = key r)
    (h : ∀ r ∈ T, ¬p r) : T.update p f hf = T := update_eq_of_fixed hf fun r hr hp => absurd hp (h r hr)

theorem update_congr {q : ρ → Prop} [DecidablePred p] [DecidablePred q] (hf : ∀ r, key (f r) = key r)
    (h : ∀ r ∈ T, p r ↔ q r) : T.update p f hf = T.update q f hf := by
  have hrows : T.rows.map (fun r => if p r then f r else r) = T.rows.map fun r => if q r then f r else r :=
    List.map_congr_left fun r hr => if_congr (h r hr) rfl rfl
  simp only [update, map, hrows]

theorem exists_of_mem_update [DecidablePred p] (hf : ∀ r, key (f r) = key r)
    (h : r ∈ T.update p f hf) : ∃ r₀ ∈ T, key r = key r₀ ∧ (r = f r₀ ∨ r = r₀) := by
  rcases (mem_update hf).mp h with ⟨r₀, hr₀, _, rfl⟩ | ⟨hr, _⟩
  · exact ⟨r₀, hr₀, hf r₀, .inl rfl⟩
  · exact ⟨r, hr, rfl, .inr rfl⟩

theorem exists_mem_update (p : ρ → Prop) [DecidablePred p] (hf : ∀ r, key (f r) = key r)
    (h : r ∈ T) : ∃ r' ∈ T.update p f hf, key r' = key r ∧ (r' = f r ∨ r' = r) := by
  by_cases hp : p r
  · exact ⟨f r, (mem_update hf).mpr (.inl ⟨r, h, hp, rfl⟩), hf r, .inl rfl⟩
  · exact ⟨r, (mem_update hf).mpr (.inr ⟨h, hp⟩), rfl, .inr rfl⟩

theorem mem_update_key [DecidableEq κ] (hf : ∀ r, key (f r) = key r) {x : ρ} (hr : r ∈ T) :
    x ∈ T.update (fun y => key y = key r) f hf ↔ x = f r ∨ (x ∈ T ∧ key x ≠ key r) := by
  refine (mem_update hf).trans (or_congr_left ?_)
  constructor
  · rintro ⟨r₀, hr₀, hk, rfl⟩
    rw [eq_of_key hr₀ hr hk]
  · rintro rfl
    exact ⟨r, hr, rfl, rfl⟩

/-- Keep the rows with a property. -/
def filter (p : ρ → Bool) (T : Table ρ key) : Table ρ key where
  rows := T.rows.filter p
  nodup := T.nodup.sublist (List.filter_sublist.map key)

theorem mem_filter {p : ρ → Bool} : r ∈ T.filter p ↔ r ∈ T ∧ p r = true := List.mem_filter

/-- Delete the row under a key. -/
def erase [DecidableEq κ] (k : κ) (T : Table ρ key) : Table ρ key := T.filter (fun r => decide (key r ≠ k))

theorem mem_erase [DecidableEq κ] : r ∈ T.erase k ↔ r ∈ T ∧ key r ≠ k := by
  simp [erase, mem_filter]

theorem get_modify [DecidableEq κ] {k' : κ} (hf : ∀ r, key (f r) = key r) (T : Table ρ key) :
    (T.modify k f hf).get k' = (T.get k').map (fun r => if k' = k then f r else r) := by
  cases hg : T.get k' with
  | none =>
    rw [Option.map_none, get_eq_none_iff]
    intro r hr
    rw [mem_modify] at hr
    rcases hr with ⟨r₀, hr₀, _, rfl⟩ | ⟨hr, _⟩
    · rw [hf]
      exact get_eq_none_iff.mp hg r₀ hr₀
    · exact get_eq_none_iff.mp hg r hr
  | some r =>
    obtain ⟨hr, rfl⟩ := get_eq_some_iff.mp hg
    rw [Option.map_some, get_eq_some_iff]
    split
    · rename_i hk
      exact ⟨mem_modify_of_key hf hr hk, hf r⟩
    · rename_i hk
      exact ⟨(mem_modify_of_ne hf hk).mpr hr, rfl⟩

theorem get_of_insert [DecidableEq κ] (h : insert r T = some T') (k : κ) :
    T'.get k = if key r = k then some r else T.get k := by
  split
  · rename_i hk
    exact get_eq_some_iff.mpr ⟨(mem_of_insert h).mpr (.inr rfl), hk⟩
  · rename_i hk
    cases hg : T.get k with
    | none =>
      refine get_eq_none_iff.mpr fun r' hr' => ?_
      rcases (mem_of_insert h).mp hr' with hr' | rfl
      · exact get_eq_none_iff.mp hg r' hr'
      · exact hk
    | some r' =>
      obtain ⟨hr', hk'⟩ := get_eq_some_iff.mp hg
      exact get_eq_some_iff.mpr ⟨(mem_of_insert h).mpr (.inl hr'), hk'⟩

theorem get_erase_of_ne [DecidableEq κ] {k' : κ} (hne : k' ≠ k) : (T.erase k).get k' = T.get k' := by
  cases hg : T.get k' with
  | none => exact get_eq_none_iff.mpr fun r hr => get_eq_none_iff.mp hg r (mem_erase.mp hr).1
  | some r =>
    obtain ⟨hr, rfl⟩ := get_eq_some_iff.mp hg
    exact get_eq_some_iff.mpr ⟨mem_erase.mpr ⟨hr, hne⟩, rfl⟩

/-- Write a row: under its key it replaces what was there. -/
def put [DecidableEq κ] (r : ρ) (T : Table ρ key) : Table ρ key where
  rows := (T.erase (key r)).rows ++ [r]
  nodup := by
    rw [List.map_append, List.map_singleton, List.nodup_append]
    refine ⟨(T.erase (key r)).nodup, List.nodup_singleton _, ?_⟩
    intro k hk k' hk' heq
    obtain ⟨r', hr', rfl⟩ := List.mem_map.mp hk
    exact (mem_erase.mp (mem_rows.mpr hr')).2 (heq.trans (List.mem_singleton.mp hk'))

theorem mem_put [DecidableEq κ] {r' : ρ} : r' ∈ T.put r ↔ r' = r ∨ (r' ∈ T ∧ key r' ≠ key r) := by
  have hrows : r' ∈ T.put r ↔ r' ∈ T.erase (key r) ∨ r' = r := by simp [put, mem_rows]
  rw [hrows, mem_erase]
  exact or_comm

/-- The keys in use. -/
def keys (T : Table ρ key) : List κ := T.rows.map key

theorem mem_keys : k ∈ T.keys ↔ ∃ r ∈ T, key r = k := List.mem_map

theorem mem_keys_of_mem (hr : r ∈ T) : key r ∈ T.keys := mem_keys.mpr ⟨r, hr, rfl⟩

theorem mem_keys_put [DecidableEq κ] : k ∈ (T.put r).keys ↔ k = key r ∨ k ∈ T.keys := by
  simp only [mem_keys, mem_put]
  constructor
  · rintro ⟨r', rfl | ⟨hr', _⟩, rfl⟩
    · exact .inl rfl
    · exact .inr ⟨r', hr', rfl⟩
  · rintro (rfl | ⟨r', hr', rfl⟩)
    · exact ⟨r, .inl rfl, rfl⟩
    · by_cases hk : key r' = key r
      · exact ⟨r, .inl rfl, hk.symm⟩
      · exact ⟨r', .inr ⟨hr', hk⟩, rfl⟩

theorem get_isSome_iff [DecidableEq κ] : (T.get k).isSome ↔ k ∈ T.keys := by
  rw [Option.isSome_iff_exists, mem_keys]
  simp only [get_eq_some_iff]

/-- How many rows have a property. -/
def count (p : ρ → Bool) (T : Table ρ key) : Nat := T.rows.countP p

variable {q : ρ → Bool}

theorem count_map_le (hf : ∀ r, key (f r) = key r) {p : ρ → Bool}
    (h : ∀ r ∈ T, p (f r) = true → q r = true) : (T.map f hf).count p ≤ T.count q := by
  unfold count map
  rw [List.countP_map]
  exact List.countP_mono_left h

/-- An update of one row that gives no row the property does not raise its count. -/
theorem count_modify_mono [DecidableEq κ] (hf : ∀ r, key (f r) = key r) {p : ρ → Bool}
    (hk : ∀ r ∈ T, key r = k → p (f r) = true → q r = true)
    (ho : ∀ r ∈ T, key r ≠ k → p r = true → q r = true) : (T.modify k f hf).count p ≤ T.count q := by
  refine count_map_le _ fun r hr hp => ?_
  split at hp
  · rename_i heq
    exact hk r hr heq hp
  · rename_i hne
    exact ho r hr hne hp

theorem count_key_le [DecidableEq κ] (T : Table ρ key) (k : κ) : T.count (fun r => key r = k) ≤ 1 := by
  have h := List.nodup_iff_count_le_one.mp T.nodup k
  rw [List.count_eq_countP, List.countP_map] at h
  unfold count
  refine Nat.le_trans (List.countP_mono_left fun r _ hr => ?_) h
  simpa using hr

theorem count_modify_le [DecidableEq κ] (hf : ∀ r, key (f r) = key r) {p : ρ → Bool}
    (h : ∀ r ∈ T, key r ≠ k → p r = true → q r = true) :
    (T.modify k f hf).count p ≤ T.count q + 1 := by
  have hboth : (T.modify k f hf).count p ≤ T.count (fun r => q r || decide (key r = k)) := by
    refine count_map_le _ fun r hr hp => ?_
    by_cases hk : key r = k
    · simp [hk]
    · rw [if_neg hk] at hp
      simp [h r hr hk hp]
  have hor : ∀ l : List ρ, l.countP (fun r => q r || decide (key r = k)) ≤ l.countP q + l.countP (fun r => decide (key r = k)) := by
    intro l
    induction l with
    | nil => exact Nat.le_refl _
    | cons r l ih =>
      simp only [List.countP_cons]
      cases q r <;> cases decide (key r = k) <;> simp <;> omega
  have hone := count_key_le T k
  have hsum := hor T.rows
  unfold count at hboth hone ⊢
  omega

theorem count_of_insert [DecidableEq κ] (h : insert r T = some T') (p : ρ → Bool) :
    T'.count p = T.count p + if p r then 1 else 0 := by
  unfold insert at h
  split at h
  · cases h
    simp [count, List.countP_append, List.countP_cons]
  · cases h

theorem count_erase_le [DecidableEq κ] (k : κ) (T : Table ρ key) (p : ρ → Bool) : (T.erase k).count p ≤ T.count p :=
  List.filter_sublist.countP_le

theorem count_mono {p : ρ → Bool} (h : ∀ r ∈ T, p r = true → q r = true) : T.count p ≤ T.count q :=
  List.countP_mono_left h

/-! ## Changes made apart and written over others -/

/-- The table with the changes that turned `seen` into `mine`: under each key the changed row, or what there is now. -/
def merge [DecidableEq κ] [DecidableEq ρ] (now seen mine : Table ρ key) : Table ρ key where
  rows := now.rows.filter (fun r => mine.get (key r) = seen.get (key r)) ++ mine.rows.filter fun r => mine.get (key r) ≠ seen.get (key r)
  nodup := by
    rw [List.map_append, List.nodup_append]
    refine ⟨now.nodup.sublist (List.filter_sublist.map key), mine.nodup.sublist (List.filter_sublist.map key), ?_⟩
    intro k hk k' hk' heq
    obtain ⟨r, hr, rfl⟩ := List.mem_map.mp hk
    obtain ⟨r', hr', rfl⟩ := List.mem_map.mp hk'
    have hsame := (List.mem_filter.mp hr).2
    have hother := (List.mem_filter.mp hr').2
    simp only [decide_eq_true_eq, ne_eq] at hsame hother
    exact hother (heq ▸ hsame)

theorem mem_merge [DecidableEq κ] [DecidableEq ρ] {now seen mine : Table ρ key} :
    r ∈ merge now seen mine ↔
      (r ∈ now ∧ mine.get (key r) = seen.get (key r)) ∨ (r ∈ mine ∧ mine.get (key r) ≠ seen.get (key r)) := by
  simp [merge, mem_rows]

theorem get_merge [DecidableEq κ] [DecidableEq ρ] (now seen mine : Table ρ key) (k : κ) :
    (merge now seen mine).get k = if mine.get k = seen.get k then now.get k else mine.get k := by
  split
  · rename_i hsame
    cases hg : now.get k with
    | none =>
      refine get_eq_none_iff.mpr fun r hr => ?_
      rcases mem_merge.mp hr with ⟨hr, _⟩ | ⟨_, hne⟩
      · exact get_eq_none_iff.mp hg r hr
      · rintro rfl
        exact hne hsame
    | some r =>
      obtain ⟨hr, rfl⟩ := get_eq_some_iff.mp hg
      exact get_eq_some_iff.mpr ⟨mem_merge.mpr (.inl ⟨hr, hsame⟩), rfl⟩
  · rename_i hne
    cases hg : mine.get k with
    | none =>
      refine get_eq_none_iff.mpr fun r hr => ?_
      rcases mem_merge.mp hr with ⟨_, hsame⟩ | ⟨hr, _⟩
      · rintro rfl
        exact hne hsame
      · exact get_eq_none_iff.mp hg r hr
    | some r =>
      obtain ⟨hr, rfl⟩ := get_eq_some_iff.mp hg
      exact get_eq_some_iff.mpr ⟨mem_merge.mpr (.inr ⟨hr, hne⟩), rfl⟩

end Table

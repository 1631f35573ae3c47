import Capka.Tree.Nodes

/-!
# Root paths

The path of a message runs from its root down to it. It is the only one (`Path.unique`); an ancestor's path is a beginning of it
(`Path.split`).
-/

namespace Capka

namespace Nodes

/-- The path from the root down to a message. -/
inductive Path (T : Nodes) : Nat → List Node → Prop
  | root {n : Node} (h : n ∈ T) (hp : n.parentId = none) : Path T n.id [n]
  | child {n : Node} {p : Nat} {ns : List Node} (h : n ∈ T) (hp : n.parentId = some p) (hpath : Path T p ns) : Path T n.id (ns ++ [n])

/-- A message has one path. -/
theorem Path.unique {T : Nodes} {id : Nat} {ns ns' : List Node} (h : T.Path id ns) (h' : T.Path id ns') : ns = ns' := by
  induction h generalizing ns' with
  | @root n hn hp =>
    generalize hid : n.id = id at h'
    cases h' with
    | root hn' _ => rw [Table.eq_of_key hn hn' hid]
    | child hn' hp' _ =>
      obtain rfl := Table.eq_of_key hn hn' hid
      rw [hp] at hp'
      cases hp'
  | @child n p ns hn hp _ ih =>
    generalize hid : n.id = id at h'
    cases h' with
    | root hn' hp' =>
      obtain rfl := Table.eq_of_key hn hn' hid
      rw [hp] at hp'
      cases hp'
    | child hn' hp' hpath' =>
      obtain rfl := Table.eq_of_key hn hn' hid
      rw [hp] at hp'
      obtain rfl := Option.some.inj hp'
      rw [ih hpath']

theorem Path.mem {T : Nodes} {id : Nat} {ns : List Node} (h : T.Path id ns) : ∀ n ∈ ns, n ∈ T := by
  induction h with
  | root hn _ =>
    intro n' hn'
    rw [List.mem_singleton.mp hn']
    exact hn
  | child hn _ _ ih =>
    intro n' hn'
    rcases List.mem_append.mp hn' with hn' | hn'
    · exact ih n' hn'
    · rw [List.mem_singleton.mp hn']
      exact hn

/-- A path splits at any message of it: that message's own path, and a rest that is empty or begins with a child of it. -/
theorem Path.split {T : Nodes} {id : Nat} {ns : List Node} (h : T.Path id ns) {x : Node} (hx : x ∈ ns) :
    ∃ ms rest, ns = ms ++ rest ∧ T.Path x.id ms ∧
      ((rest = [] ∧ x.id = id) ∨ ∃ n rest', rest = n :: rest' ∧ n.parentId = some x.id) := by
  induction h with
  | @root n hn hp =>
    obtain rfl := List.mem_singleton.mp hx
    exact ⟨[x], [], rfl, .root hn hp, .inl ⟨rfl, rfl⟩⟩
  | @child n p ns hn hp hpath ih =>
    rcases List.mem_append.mp hx with hx | hx
    · obtain ⟨ms, rest, rfl, hms, hrest⟩ := ih hx
      refine ⟨ms, rest ++ [n], List.append_assoc _ _ _, hms, .inr ?_⟩
      rcases hrest with ⟨rfl, rfl⟩ | ⟨n', rest', rfl, hn'⟩
      · exact ⟨n, [], rfl, hp⟩
      · exact ⟨n', rest' ++ [n], rfl, hn'⟩
    · obtain rfl := List.mem_singleton.mp hx
      exact ⟨ns ++ [x], [], (List.append_nil _).symm, .child hn hp hpath, .inl ⟨rfl, rfl⟩⟩

/-- The messages of a path, without the checkpoints. -/
def conversation (ns : List Node) : List Nat := (ns.filter (fun n => !n.isCheckpoint)).map (·.id)

@[simp] theorem conversation_nil : conversation [] = [] := rfl

theorem conversation_append (ns ms : List Node) : conversation (ns ++ ms) = conversation ns ++ conversation ms := by
  simp [conversation]

theorem conversation_checkpoint {n : Node} (h : n.isCheckpoint = true) : conversation [n] = [] := by
  simp [conversation, h]

theorem conversation_congr {n m : Node} (hid : m.id = n.id) (hc : m.compaction = n.compaction) :
    conversation [m] = conversation [n] := by
  unfold conversation Node.isCheckpoint
  simp only [List.filter_cons, hc]
  split
  · simp [hid]
  · rfl

/-- Every path is still there, and tells the same conversation. -/
def Keeps (T T' : Nodes) : Prop :=
  ∀ id ns, T.Path id ns → ∃ ns', T'.Path id ns' ∧ conversation ns' = conversation ns

theorem Path.mono {T T' : Nodes} (h : ∀ n ∈ T, n ∈ T') {id : Nat} {ns : List Node} (hp : T.Path id ns) : T'.Path id ns := by
  induction hp with
  | root hn hroot => exact .root (h _ hn) hroot
  | child hn hparent _ ih => exact .child (h _ hn) hparent ih

theorem Keeps.of_subset {T T' : Nodes} (h : ∀ n ∈ T, n ∈ T') : Keeps T T' := fun _ ns hp => ⟨ns, hp.mono h, rfl⟩

end Nodes

end Capka

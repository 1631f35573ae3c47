import Capka.Lib.StableSort
import Capka.Lib.Table

/-!
# The visible conversation

The conversation a chat shows is rebuilt from its rows and a pointer to a leaf that may be stale: up from the leaf by the parent links, and
where there is no such leaf, down from the newest root by the newest children first. The rows of one parent are siblings, and the version
switcher steps between them.
-/

namespace Capka.Conversation

/-- The id of a message, by its UTF-16 units. -/
abbrev MessageId := List Nat

/-- `TreeNode`. An id is made by `nanoid`, or is a client's own that is not empty. -/
structure TreeRow where
  id : MessageId
  parentId : Option MessageId
  createdAt : Option Int
  named : id ≠ []
  deriving DecidableEq

/-- The rows of a chat. -/
abbrev TreeRows := Table TreeRow TreeRow.id

/-- `bySiblingOrder`: oldest first, then by id. -/
def siblingKey (r : TreeRow) : Int ×ₗ MessageId := toLex (r.createdAt.getD 0, r.id)

/-- An entry of `childrenByParent`. -/
def children (T : TreeRows) (parentId : Option MessageId) : List TreeRow :=
  (StableSort.sortBy siblingKey T.rows).filter fun r => r.parentId = parentId

/-- The loop of `descendToLeaf`. -/
def descend (T : TreeRows) : Nat → List MessageId → MessageId → MessageId
  | 0, _, currentId => currentId
  | fuel + 1, guard, currentId =>
    if currentId ∈ guard then currentId
    else
      match (children T (some currentId)).getLast? with
      | none => currentId
      | some newest => descend T fuel (currentId :: guard) newest.id

def descendToLeaf (T : TreeRows) (fromId : MessageId) : MessageId := descend T (T.rows.length + 2) [] fromId

/-- `byId.get`, of an id that is not empty. -/
def byId (T : TreeRows) (id : Option MessageId) : Option TreeRow := id.bind fun id => if id = [] then none else T.get id

/-- The leaf the conversation ends in: the one pointed at, or the one below the newest root. -/
def leafRow (T : TreeRows) (activeLeafId : Option MessageId) : Option TreeRow :=
  match byId T activeLeafId with
  | some leaf => some leaf
  | none => (children T none).getLast?.bind fun root => T.get (descendToLeaf T root.id)

/-- The loop of `activePath`, from the leaf up. -/
def climb (T : TreeRows) : Nat → List MessageId → Option TreeRow → List TreeRow
  | 0, _, _ => []
  | _ + 1, _, none => []
  | fuel + 1, seen, some cur => if cur.id ∈ seen then [] else cur :: climb T fuel (cur.id :: seen) (byId T cur.parentId)

structure PathEntry where
  node : TreeRow
  siblingIndex : Nat
  siblingCount : Nat
  deriving DecidableEq

def entryOf (T : TreeRows) (node : TreeRow) : PathEntry :=
  let sibs := if children T node.parentId = [] then [node] else children T node.parentId
  ⟨node, sibs.findIdx (·.id = node.id), sibs.length⟩

def activePath (T : TreeRows) (activeLeafId : Option MessageId) : List PathEntry :=
  (climb T (T.rows.length + 1) [] (leafRow T activeLeafId)).reverse.map (entryOf T)

/-- A step of the version switcher. -/
inductive Direction
  | prev
  | next
  deriving DecidableEq

def siblingId (T : TreeRows) (messageId : MessageId) (direction : Direction) : Option MessageId :=
  match T.get messageId with
  | none => none
  | some node =>
    let sibs := children T node.parentId
    let idx := sibs.findIdx (·.id = messageId)
    match direction with
    | .next => sibs[idx + 1]?.map TreeRow.id
    | .prev => if idx = 0 then none else sibs[idx - 1]?.map TreeRow.id

/-- `switchSibling`: the leaf the chat is pinned to. -/
def switchSibling (T : TreeRows) (messageId : MessageId) (direction : Direction) : Option MessageId :=
  match siblingId T messageId direction with
  | some target => if target = [] then none else some (descendToLeaf T target)
  | none => none

/-- The rows form a forest: parent links lead in no circle. -/
def Acyclic (T : TreeRows) : Prop := ∃ rank : MessageId → Nat, ∀ r ∈ T, ∀ p ∈ T, r.parentId = some p.id → rank p.id < rank r.id

namespace PathAux

variable {T : TreeRows}

/-! ### Rows and their siblings -/

variable {r : TreeRow}

theorem mem_children {parentId : Option MessageId} : r ∈ children T parentId ↔ r ∈ T ∧ r.parentId = parentId := by
  rw [children, List.mem_filter, decide_eq_true_eq, StableSort.sortBy, List.mem_insertionSort]
  rfl

theorem siblingKey_inj {s : TreeRow} (h : siblingKey r = siblingKey s) : r.id = s.id := (Prod.ext_iff.mp (toLex_inj.mp h)).2

theorem pairwise_children (parentId : Option MessageId) : (children T parentId).Pairwise fun r s => siblingKey r < siblingKey s := by
  have hsorted : (StableSort.sortBy siblingKey T.rows).Pairwise fun r s => siblingKey r ≤ siblingKey s := by
    refine List.pairwise_insertionSort _ _
  have hnodup : ((StableSort.sortBy siblingKey T.rows).map TreeRow.id).Nodup :=
    ((List.perm_insertionSort _ _).map _).nodup_iff.mpr T.nodup
  refine List.Pairwise.filter _ ?_
  rw [List.Nodup, List.pairwise_map] at hnodup
  refine (hsorted.and hnodup).imp ?_
  rintro r s ⟨hle, hne⟩
  exact lt_of_le_of_ne hle fun heq => hne (siblingKey_inj heq)

theorem findIdx_children {parentId : Option MessageId} {i : Nat} (h : (children T parentId)[i]? = some r) :
    (children T parentId).findIdx (·.id = r.id) = i := by
  obtain ⟨hi, rfl⟩ := List.getElem?_eq_some_iff.mp h
  rw [List.findIdx_eq hi]
  refine ⟨by simp, fun j hj => ?_⟩
  have hlt := (List.pairwise_iff_getElem.mp (pairwise_children (T := T) parentId)) j i (by omega) hi hj
  simp only [decide_eq_false_iff_not]
  intro heq
  have hmem := fun k (hk : k < (children T parentId).length) => (mem_children.mp (List.getElem_mem hk)).1
  rw [Table.eq_of_key (hmem j (by omega)) (hmem i hi) heq] at hlt
  exact lt_irrefl _ hlt

theorem getElem?_findIdx (hr : r ∈ T) :
    (children T r.parentId)[(children T r.parentId).findIdx (·.id = r.id)]? = some r := by
  obtain ⟨i, hi⟩ := List.mem_iff_getElem?.mp (mem_children.mpr ⟨hr, rfl⟩)
  rw [findIdx_children hi]
  exact hi

theorem byId_some {id : Option MessageId} : byId T id = some r ↔ r ∈ T ∧ id = some r.id := by
  cases id with
  | none => simp [byId]
  | some id =>
    rw [byId, Option.bind_some]
    split
    · rename_i hnil
      subst hnil
      constructor
      · intro h
        cases h
      · rintro ⟨-, h⟩
        exact absurd (Option.some.inj h).symm r.named
    · rw [Table.get_eq_some_iff, Option.some.injEq]
      exact and_congr_right fun _ => eq_comm

theorem byId_none {id : Option MessageId} : byId T id = none ↔ ∀ r ∈ T, id ≠ some r.id := by
  constructor
  · intro h r hr heq
    rw [byId_some.mpr ⟨hr, heq⟩] at h
    cases h
  · intro h
    cases hb : byId T id with
    | none => rfl
    | some r => exact absurd (byId_some.mp hb).2 (h r (byId_some.mp hb).1)

/-! ### The way up -/

/-- The way up from a row, past the rows seen: it ends where there is no parent, or at a row that was seen. -/
inductive Climbs (T : TreeRows) : List MessageId → Option TreeRow → List TreeRow → Prop
  | top {seen : List MessageId} : Climbs T seen none []
  | circle {seen : List MessageId} {r : TreeRow} (h : r.id ∈ seen) : Climbs T seen (some r) []
  | up {seen : List MessageId} {r : TreeRow} {rs : List TreeRow} (h : r.id ∉ seen)
      (hup : Climbs T (r.id :: seen) (byId T r.parentId) rs) : Climbs T seen (some r) (r :: rs)

variable {seen : List MessageId}

theorem length_seen (hnodup : seen.Nodup) (hseen : ∀ id ∈ seen, id ∈ T.keys) : seen.length ≤ T.rows.length := by
  have hle := (List.subperm_of_subset hnodup hseen).length_le
  simpa [Table.keys] using hle

theorem climbs_climb (fuel : Nat) : ∀ (seen : List MessageId) (cur : Option TreeRow), seen.Nodup → (∀ id ∈ seen, id ∈ T.keys) →
    (∀ r ∈ cur, r ∈ T) → T.rows.length + 1 ≤ fuel + seen.length → Climbs T seen cur (climb T fuel seen cur) := by
  induction fuel with
  | zero =>
    intro seen cur hnodup hseen _ hfuel
    have := length_seen hnodup hseen
    omega
  | succ fuel ih =>
    intro seen cur hnodup hseen hcur hfuel
    cases cur with
    | none => exact .top
    | some r =>
      rw [climb]
      split
      · rename_i h
        exact .circle h
      · rename_i h
        refine .up h (ih _ _ (List.nodup_cons.mpr ⟨h, hnodup⟩) ?_ ?_ ?_)
        · exact List.forall_mem_cons.mpr ⟨Table.mem_keys_of_mem (hcur r rfl), hseen⟩
        · intro p hp
          exact (byId_some.mp hp).1
        · rw [List.length_cons]
          omega

variable {cur : Option TreeRow} {rs : List TreeRow}

theorem Climbs.mem (h : Climbs T seen cur rs) (hcur : ∀ r ∈ cur, r ∈ T) :
    ∀ r ∈ rs, r ∈ T := by
  induction h with
  | top => simp
  | circle _ => simp
  | up _ _ ih => exact List.forall_mem_cons.mpr ⟨hcur _ rfl, ih fun p hp => (byId_some.mp hp).1⟩

theorem Climbs.head {s : TreeRow} (h : Climbs T seen (some r) (s :: rs)) : s = r := by
  cases h
  rfl

theorem Climbs.chain (h : Climbs T seen cur rs) :
    rs.IsChain fun r p => r.parentId = some p.id := by
  induction h with
  | top => exact .nil
  | circle _ => exact .nil
  | @up seen r rs _ hup ih =>
    cases rs with
    | nil => exact .singleton _
    | cons p rs =>
      refine .cons_cons ?_ ih
      cases hp : byId T r.parentId with
      | none =>
        rw [hp] at hup
        cases hup
      | some q =>
        rw [hp] at hup
        rw [hup.head]
        exact (byId_some.mp hp).2

theorem Climbs.closed (h : Climbs T seen cur rs)
    (hcur : ∀ r ∈ cur, r ∈ T) : ∀ r ∈ rs, ∀ p ∈ T, r.parentId = some p.id → p ∈ rs ∨ p.id ∈ seen := by
  induction h with
  | top => simp
  | circle _ => simp
  | @up seen r rs _ hup ih =>
    intro s hs p hp hparent
    rcases List.mem_cons.mp hs with rfl | hs
    · have hrow : byId T s.parentId = some p := byId_some.mpr ⟨hp, hparent⟩
      rw [hrow] at hup
      cases hup with
      | circle hseen =>
        rcases List.mem_cons.mp hseen with heq | hseen
        · rw [Table.eq_of_key hp (hcur s rfl) heq]
          exact .inl List.mem_cons_self
        · exact .inr hseen
      | up _ _ => exact .inl (List.mem_cons_of_mem _ List.mem_cons_self)
    · rcases ih (fun q hq => (byId_some.mp hq).1) s hs p hp hparent with h | h
      · exact .inl (List.mem_cons_of_mem _ h)
      · rcases List.mem_cons.mp h with heq | h
        · rw [Table.eq_of_key hp (hcur r rfl) heq]
          exact .inl List.mem_cons_self
        · exact .inr h

theorem Climbs.nodup (h : Climbs T seen cur rs) :
    (rs.map TreeRow.id).Nodup ∧ ∀ r ∈ rs, r.id ∉ seen := by
  induction h with
  | top => simp
  | circle _ => simp
  | @up seen r rs h _ ih =>
    obtain ⟨hnodup, hnew⟩ := ih
    refine ⟨List.nodup_cons.mpr ⟨?_, hnodup⟩, List.forall_mem_cons.mpr ⟨h, fun s hs hseen => hnew s hs (List.mem_cons_of_mem _ hseen)⟩⟩
    intro hmem
    obtain ⟨s, hs, heq⟩ := List.mem_map.mp hmem
    exact hnew s hs (heq ▸ List.mem_cons_self)

theorem Climbs.unique {rs' : List TreeRow} (h : Climbs T seen cur rs)
    (h' : Climbs T seen cur rs') : rs = rs' := by
  induction h generalizing rs' with
  | top =>
    cases h'
    rfl
  | circle hseen =>
    cases h' with
    | circle _ => rfl
    | up hnew _ => exact absurd hseen hnew
  | up hnew _ ih =>
    cases h' with
    | circle hseen => exact absurd hseen hnew
    | up _ hup => rw [ih hup]

theorem climbs_of_chain (hmem : ∀ r ∈ rs, r ∈ T) (hchain : rs.IsChain fun r p => r.parentId = some p.id)
    (htop : ∀ r ∈ rs.getLast?, byId T r.parentId = none ∨ r.parentId = some r.id) (seen : List MessageId)
    (hnodup : (rs.map TreeRow.id).Nodup) (hnew : ∀ r ∈ rs, r.id ∉ seen) : Climbs T seen rs.head? rs := by
  induction rs generalizing seen with
  | nil => exact .top
  | cons r rs ih =>
    obtain ⟨hr, hnodup⟩ := List.nodup_cons.mp hnodup
    refine .up (hnew r List.mem_cons_self) ?_
    cases rs with
    | nil =>
      rcases htop r rfl with hnone | hself
      · rw [hnone]
        exact .top
      · rw [byId_some.mpr ⟨hmem r List.mem_cons_self, hself⟩]
        exact .circle List.mem_cons_self
    | cons p rs =>
      obtain ⟨hparent, hchain⟩ := List.isChain_cons_cons.mp hchain
      rw [byId_some.mpr ⟨hmem p (by simp), hparent⟩]
      refine ih (fun s hs => hmem s (List.mem_cons_of_mem _ hs)) hchain (by simpa using htop) _ hnodup ?_
      intro s hs hseen
      rcases List.mem_cons.mp hseen with heq | hseen
      · exact hr (List.mem_map.mpr ⟨s, hs, heq⟩)
      · exact hnew s (List.mem_cons_of_mem _ hs) hseen

/-! ### The way down -/

/-- One row lies below another, or is it. -/
def Below (T : TreeRows) : TreeRow → TreeRow → Prop := Relation.ReflTransGen fun r c => c ∈ T ∧ c.parentId = some r.id

theorem descend_below (fuel : Nat) : ∀ (guard : List MessageId) {r : TreeRow}, r ∈ T →
    ∃ leaf ∈ T, descend T fuel guard r.id = leaf.id ∧ Below T r leaf := by
  induction fuel with
  | zero =>
    intro guard r hr
    exact ⟨r, hr, rfl, .refl⟩
  | succ fuel ih =>
    intro guard r hr
    rw [descend]
    split
    · exact ⟨r, hr, rfl, .refl⟩
    · split
      · exact ⟨r, hr, rfl, .refl⟩
      · rename_i c hc
        obtain ⟨hcmem, hparent⟩ := mem_children.mp (List.mem_of_getLast? hc)
        obtain ⟨leaf, hleaf, heq, hbelow⟩ := ih (r.id :: guard) hcmem
        exact ⟨leaf, hleaf, heq, .head ⟨hcmem, hparent⟩ hbelow⟩

theorem descend_leaf {rank : MessageId → Nat} (hrank : ∀ r ∈ T, ∀ p ∈ T, r.parentId = some p.id → rank p.id < rank r.id) (fuel : Nat) :
    ∀ (guard : List MessageId) {r : TreeRow}, r ∈ T → guard.Nodup → (∀ id ∈ guard, id ∈ T.keys ∧ rank id < rank r.id) →
      T.rows.length + 1 ≤ fuel + guard.length → ∀ c ∈ T, c.parentId ≠ some (descend T fuel guard r.id) := by
  induction fuel with
  | zero =>
    intro guard r _ hnodup hguard hfuel
    have := length_seen hnodup fun id hid => (hguard id hid).1
    omega
  | succ fuel ih =>
    intro guard r hr hnodup hguard hfuel
    have hnew : r.id ∉ guard := fun h => lt_irrefl _ (hguard _ h).2
    rw [descend, if_neg hnew]
    split
    · rename_i hnone
      intro c hc hparent
      have hmem := mem_children.mpr ⟨hc, hparent⟩
      rw [List.getLast?_eq_none_iff.mp hnone] at hmem
      cases hmem
    · rename_i c hc
      obtain ⟨hcmem, hparent⟩ := mem_children.mp (List.mem_of_getLast? hc)
      have hlt := hrank c hcmem r hr hparent
      refine ih (r.id :: guard) hcmem (List.nodup_cons.mpr ⟨hnew, hnodup⟩) ?_ (by rw [List.length_cons]; omega)
      refine List.forall_mem_cons.mpr ⟨⟨Table.mem_keys_of_mem hr, hlt⟩, fun id hid => ?_⟩
      exact ⟨(hguard id hid).1, (hguard id hid).2.trans hlt⟩

theorem mem_of_below (hclosed : ∀ r ∈ rs, ∀ p ∈ T, r.parentId = some p.id → p ∈ rs) {leaf : TreeRow} (hr : r ∈ T)
    (h : Below T r leaf) (hleaf : leaf ∈ rs) : r ∈ rs := by
  induction h using Relation.ReflTransGen.head_induction_on with
  | refl => exact hleaf
  | head hstep _ ih => exact hclosed _ (ih hstep.1) _ hr hstep.2

/-! ### The path -/

variable {activeLeafId : Option MessageId}

theorem mem_leafRow (h : leafRow T activeLeafId = some r) : r ∈ T := by
  unfold leafRow at h
  split at h
  · rename_i leaf hleaf
    cases h
    exact (byId_some.mp hleaf).1
  · obtain ⟨root, _, hroot⟩ := Option.bind_eq_some_iff.mp h
    exact (Table.get_eq_some_iff.mp hroot).1

theorem leafRow_isSome : (leafRow T activeLeafId).isSome ↔ (∃ r ∈ T, activeLeafId = some r.id) ∨ ∃ r ∈ T, r.parentId = none := by
  unfold leafRow
  cases hleaf : byId T activeLeafId with
  | some r => simpa using .inl ⟨r, byId_some.mp hleaf⟩
  | none =>
    have hstale := byId_none.mp hleaf
    have hno : ¬∃ r ∈ T, activeLeafId = some r.id := fun ⟨r, hr, heq⟩ => hstale r hr heq
    rw [or_iff_right hno]
    cases hroots : (children T none).getLast? with
    | none =>
      have hnil := List.getLast?_eq_none_iff.mp hroots
      refine iff_of_false (by simp) ?_
      rintro ⟨r, hr, hroot⟩
      have hmem := mem_children.mpr ⟨hr, hroot⟩
      rw [hnil] at hmem
      cases hmem
    | some root =>
      obtain ⟨hmem, hparent⟩ := mem_children.mp (List.mem_of_getLast? hroots)
      obtain ⟨leaf, hleaf, heq, _⟩ := descend_below (T.rows.length + 2) [] hmem
      have hget : T.get (descendToLeaf T root.id) = some leaf := Table.get_eq_some_iff.mpr ⟨hleaf, heq.symm⟩
      rw [Option.bind_some, hget]
      exact iff_of_true rfl ⟨root, hmem, hparent⟩

theorem climbs_path (activeLeafId : Option MessageId) :
    Climbs T [] (leafRow T activeLeafId) (climb T (T.rows.length + 1) [] (leafRow T activeLeafId)) :=
  climbs_climb _ _ _ List.nodup_nil (by simp) (fun _ hr => mem_leafRow hr) (by simp)

theorem mem_activePath {e : PathEntry} : e ∈ activePath T activeLeafId ↔
    ∃ r ∈ climb T (T.rows.length + 1) [] (leafRow T activeLeafId), entryOf T r = e := by
  simp [activePath]

@[simp] theorem entryOf_node (r : TreeRow) : (entryOf T r).node = r := rfl

end PathAux

open PathAux

/-- The path is a chain of rows down from a row without a parent, each with its place among its siblings. -/
structure IsPath (T : TreeRows) (path : List PathEntry) : Prop where
  rows : ∀ e ∈ path, e.node ∈ T
  linked : path.IsChain fun above below => below.node.parentId = some above.node.id
  parents : ∀ e ∈ path, ∀ p ∈ T, e.node.parentId = some p.id → ∃ e' ∈ path, e'.node = p
  top : Acyclic T → ∀ e ∈ path.head?, ∀ p ∈ T, e.node.parentId ≠ some p.id
  siblings : ∀ e ∈ path, ∃ sibs : List TreeRow, (∀ r, r ∈ sibs ↔ r ∈ T ∧ r.parentId = e.node.parentId) ∧
    sibs.Pairwise (fun r s => siblingKey r < siblingKey s) ∧ sibs[e.siblingIndex]? = some e.node ∧ e.siblingCount = sibs.length

namespace PathAux

variable {T : TreeRows} {activeLeafId : Option MessageId}

theorem top_of_acyclic {path : List PathEntry} (hrows : ∀ e ∈ path, e.node ∈ T)
    (hlinked : path.IsChain fun above below => below.node.parentId = some above.node.id)
    (hparents : ∀ e ∈ path, ∀ p ∈ T, e.node.parentId = some p.id → ∃ e' ∈ path, e'.node = p) (hacyclic : Acyclic T) :
    ∀ e ∈ path.head?, ∀ p ∈ T, e.node.parentId ≠ some p.id := by
  obtain ⟨rank, hrank⟩ := hacyclic
  cases path with
  | nil => simp
  | cons first rest =>
    intro e he p hp hparent
    obtain rfl := Option.some.inj he
    obtain ⟨e', he', rfl⟩ := hparents _ List.mem_cons_self p hp hparent
    have hlt := hrank _ (hrows _ List.mem_cons_self) _ hp hparent
    have hmono : ((first :: rest).map fun e => rank e.node.id).IsChain (· < ·) := by
      rw [List.isChain_map]
      refine hlinked.imp_of_mem_imp ?_
      intro a b ha hb hab
      exact hrank _ (hrows b hb) _ (hrows a ha) hab
    rcases List.mem_cons.mp he' with rfl | he'
    · exact lt_irrefl _ hlt
    · have hpair := List.isChain_iff_pairwise.mp hmono
      rw [List.map_cons, List.pairwise_cons] at hpair
      exact lt_asymm hlt (hpair.1 _ (List.mem_map_of_mem he'))

theorem isPath_activePath (T : TreeRows) (activeLeafId : Option MessageId) : IsPath T (activePath T activeLeafId) := by
  have hclimbs := climbs_path (T := T) activeLeafId
  have hmem := hclimbs.mem fun r hr => mem_leafRow hr
  have hrows : ∀ e ∈ activePath T activeLeafId, e.node ∈ T := by
    intro e he
    obtain ⟨r, hr, rfl⟩ := mem_activePath.mp he
    exact hmem r hr
  have hlinked : (activePath T activeLeafId).IsChain fun above below => below.node.parentId = some above.node.id := by
    rw [activePath, List.isChain_map, List.isChain_reverse]
    exact hclimbs.chain
  have hparents : ∀ e ∈ activePath T activeLeafId, ∀ p ∈ T, e.node.parentId = some p.id →
      ∃ e' ∈ activePath T activeLeafId, e'.node = p := by
    intro e he p hp hparent
    obtain ⟨r, hr, rfl⟩ := mem_activePath.mp he
    rcases hclimbs.closed (fun r hr => mem_leafRow hr) r hr p hp hparent with h | h
    · exact ⟨entryOf T p, mem_activePath.mpr ⟨p, h, rfl⟩, rfl⟩
    · cases h
  refine ⟨hrows, hlinked, hparents, top_of_acyclic hrows hlinked hparents, ?_⟩
  intro e he
  obtain ⟨r, hr, rfl⟩ := mem_activePath.mp he
  have hne : children T r.parentId ≠ [] := List.ne_nil_of_mem (mem_children.mpr ⟨hmem r hr, rfl⟩)
  refine ⟨children T r.parentId, fun s => mem_children, pairwise_children _, ?_, ?_⟩
  · rw [entryOf, if_neg hne]
    exact getElem?_findIdx (hmem r hr)
  · rw [entryOf, if_neg hne]

theorem activePath_ne_nil : activePath T activeLeafId ≠ [] ↔ (∃ r ∈ T, activeLeafId = some r.id) ∨ ∃ r ∈ T, r.parentId = none := by
  rw [← leafRow_isSome, activePath]
  cases leafRow T activeLeafId with
  | none => simp [climb]
  | some r => simp [climb]

theorem getLast?_activePath : (activePath T activeLeafId).getLast?.map PathEntry.node = leafRow T activeLeafId := by
  rw [activePath, List.getLast?_map, List.getLast?_reverse]
  cases leafRow T activeLeafId with
  | none => rfl
  | some r => simp [climb]

theorem leafRow_of_mem {r : TreeRow} (hr : r ∈ T) : leafRow T (some r.id) = some r := by
  have hrow : byId T (some r.id) = some r := byId_some.mpr ⟨hr, rfl⟩
  rw [leafRow, hrow]

variable {messageId target : MessageId}

theorem siblingId_some {direction : Direction} (h : siblingId T messageId direction = some target) :
    ∃ r ∈ T, ∃ s ∈ T, r.id = messageId ∧ s.id = target ∧ s.parentId = r.parentId ∧
      ∃ i, (children T r.parentId)[i]? = some (if direction = .next then r else s) ∧
        (children T r.parentId)[i + 1]? = some (if direction = .next then s else r) := by
  unfold siblingId at h
  split at h
  · cases h
  · rename_i r hget
    obtain ⟨hr, rfl⟩ := Table.get_eq_some_iff.mp hget
    have hpos := getElem?_findIdx hr
    cases direction with
    | next =>
      obtain ⟨s, hs, rfl⟩ := Option.map_eq_some_iff.mp h
      obtain ⟨hsmem, hparent⟩ := mem_children.mp (List.mem_of_getElem? hs)
      exact ⟨r, hr, s, hsmem, rfl, rfl, hparent, _, hpos, hs⟩
    | prev =>
      dsimp only at h
      split at h
      · cases h
      · rename_i hzero
        obtain ⟨s, hs, rfl⟩ := Option.map_eq_some_iff.mp h
        obtain ⟨hsmem, hparent⟩ := mem_children.mp (List.mem_of_getElem? hs)
        refine ⟨r, hr, s, hsmem, rfl, rfl, hparent, _, hs, ?_⟩
        rw [Nat.sub_add_cancel (Nat.pos_of_ne_zero hzero)]
        exact hpos

theorem nodup_activePath : ((activePath T activeLeafId).map (·.node.id)).Nodup := by
  have hnodup := (climbs_path (T := T) activeLeafId).nodup.1
  rw [activePath, List.map_map, List.map_reverse, List.nodup_reverse]
  exact hnodup

theorem activePath_of_chain {rs : List TreeRow} {leaf : TreeRow} (hlast : rs.getLast? = some leaf) (hmem : ∀ r ∈ rs, r ∈ T)
    (hchain : rs.IsChain fun above below => below.parentId = some above.id)
    (htop : ∀ r ∈ rs.head?, byId T r.parentId = none ∨ r.parentId = some r.id) (hnodup : (rs.map TreeRow.id).Nodup) :
    (activePath T (some leaf.id)).map PathEntry.node = rs := by
  have hup : Climbs T [] rs.reverse.head? rs.reverse := by
    refine climbs_of_chain (fun r hr => hmem r (List.mem_reverse.mp hr)) (List.isChain_reverse.mpr hchain) ?_ _ ?_ (by simp)
    · rwa [List.getLast?_reverse]
    · rwa [List.map_reverse, List.nodup_reverse]
  rw [List.head?_reverse, hlast, ← leafRow_of_mem (hmem leaf (List.mem_of_getLast? hlast))] at hup
  rw [activePath, List.map_map, (climbs_path _).unique hup, List.reverse_reverse]
  exact List.map_id rs

theorem siblingId_next_iff :
    siblingId T messageId .next = some target ↔ siblingId T target .prev = some messageId := by
  constructor
  · intro h
    obtain ⟨r, hr, s, hs, rfl, rfl, hparent, i, hi, hi'⟩ := siblingId_some h
    have hget : T.get s.id = some s := Table.get_eq_some_iff.mpr ⟨hs, rfl⟩
    simp only [if_true] at hi hi'
    rw [siblingId, hget]
    dsimp only
    rw [hparent, findIdx_children hi', if_neg (Nat.succ_ne_zero i), Nat.add_sub_cancel, hi]
    rfl
  · intro h
    obtain ⟨r, hr, s, hs, rfl, rfl, hparent, i, hi, hi'⟩ := siblingId_some h
    have hget : T.get s.id = some s := Table.get_eq_some_iff.mpr ⟨hs, rfl⟩
    simp only [reduceCtorEq, if_false] at hi hi'
    rw [siblingId, hget]
    dsimp only
    rw [hparent, findIdx_children hi, hi']
    rfl

theorem switchSibling_spec {direction : Direction} (h : siblingId T messageId direction = some target) :
    ∃ leaf ∈ T, switchSibling T messageId direction = some leaf.id ∧
      (∃ e ∈ activePath T (some leaf.id), e.node.id = target) ∧ (activePath T (some leaf.id)).getLast?.map PathEntry.node = some leaf ∧
      (Acyclic T → ∀ c ∈ T, c.parentId ≠ some leaf.id) := by
  obtain ⟨_, _, s, hs, -, rfl, -⟩ := siblingId_some h
  obtain ⟨leaf, hleaf, heq, hbelow⟩ := descend_below (T.rows.length + 2) [] hs
  have hdescend : descendToLeaf T s.id = leaf.id := heq
  refine ⟨leaf, hleaf, ?_, ?_, ?_, ?_⟩
  · rw [switchSibling, h]
    dsimp only
    rw [if_neg s.named, hdescend]
  · have hrow := leafRow_of_mem hleaf
    have hclimbs := climbs_path (T := T) (some leaf.id)
    have hmem : leaf ∈ climb T (T.rows.length + 1) [] (leafRow T (some leaf.id)) := by
      rw [hrow, climb]
      simp
    refine ⟨entryOf T s, mem_activePath.mpr ⟨s, mem_of_below ?_ hs hbelow hmem, rfl⟩, rfl⟩
    intro r hr p hp hparent
    rcases hclimbs.closed (fun r hr => mem_leafRow hr) r hr p hp hparent with h | h
    · exact h
    · cases h
  · rw [getLast?_activePath, leafRow_of_mem hleaf]
  · rintro ⟨rank, hrank⟩
    rw [← hdescend]
    exact descend_leaf hrank _ [] hs List.nodup_nil (by simp) (by simp)

end PathAux

open PathAux

/-- **The visible conversation is one consistent chain**, whatever the rows and the pointer: it is there where the pointer names a row or a
row has no parent link, it ends in the row pointed at, and a switch of versions can be undone and lands on a leaf below its target. -/
theorem activePath_isPath (T : TreeRows) (activeLeafId : Option MessageId) :
    (activePath T activeLeafId ≠ [] ↔ (∃ r ∈ T, activeLeafId = some r.id) ∨ ∃ r ∈ T, r.parentId = none) ∧
      IsPath T (activePath T activeLeafId) ∧
      (∀ r ∈ T, activeLeafId = some r.id → (activePath T activeLeafId).getLast?.map PathEntry.node = some r) ∧
      (∀ messageId target, siblingId T messageId .next = some target ↔ siblingId T target .prev = some messageId) ∧
      ∀ messageId direction target, siblingId T messageId direction = some target →
        ∃ leaf ∈ T, switchSibling T messageId direction = some leaf.id ∧
          (∃ e ∈ activePath T (some leaf.id), e.node.id = target) ∧
          (activePath T (some leaf.id)).getLast?.map PathEntry.node = some leaf ∧ (Acyclic T → ∀ c ∈ T, c.parentId ≠ some leaf.id) := by
  refine ⟨activePath_ne_nil, isPath_activePath _ _, ?_, fun _ _ => siblingId_next_iff, fun _ _ _ h => switchSibling_spec h⟩
  rintro r hr rfl
  rw [getLast?_activePath, leafRow_of_mem hr]

/-- Where every row is an orphan and the pointer is stale, nothing is shown. -/
theorem activePath_false : ¬∀ (T : TreeRows) (activeLeafId : Option MessageId), T.rows ≠ [] → activePath T activeLeafId ≠ [] := by
  intro h
  exact h ⟨[⟨[97], some [98], none, by decide⟩], by decide⟩ none (by decide) (by decide +kernel)

end Capka.Conversation

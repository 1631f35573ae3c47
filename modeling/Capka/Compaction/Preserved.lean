import Capka.Compaction.Splice

/-!
# A splice preserves the conversation

Whatever is under way, a splice leaves every message its path, checkpoints apart (`keeps_splice`). That the checkpoint is the reply's
only child, and so that the collapse drops what its summary stands for on every branch below, needs that no row lands beside it: no
write may settle on the reply before the commit and land after it (`checkpoint_splice_preserves_of_seen`). A message from a channel
settles on its parent long before it lands (`checkpoint_splice_preserves_false`).
-/

namespace Capka

namespace Nodes

/-- A tree of messages: every parent is there, and a checkpoint is the only child of the reply it was spliced under. -/
structure Spliced (T : Nodes) : Prop where
  parents : ∀ n ∈ T, ∀ p, n.parentId = some p → ∃ m ∈ T, m.id = p
  only : ∀ c ∈ T, ∀ r, c.compaction = some r → c.parentId = some r ∧ ∀ n ∈ T, n.parentId = some r → n = c

/-- On every branch below a compacted reply the checkpoint comes next, and unless a newer one follows, the collapse keeps what is below
the checkpoint and drops the reply and what is above it. -/
def Collapses (T : Nodes) : Prop :=
  ∀ c ∈ T, ∀ r, c.compaction = some r → ∀ m ns, T.Path m ns → (∃ x ∈ ns, x.id = r) → m ≠ r →
    ∃ above rest, T.Path r above ∧ ns = above ++ c :: rest ∧
      ((∀ n ∈ rest, n.compaction = none) →
        Compaction.applyCompaction (ns.map Compaction.toCtx) =
          Compaction.summaryOf (Compaction.toCtx c) :: rest.map Compaction.toCtx)

end Nodes

namespace TreeState

/-- The active leaf of every chat tells the same conversation as before. -/
def LeafKept (s t : TreeState) : Prop :=
  ∀ chatId leaf ns, s.leafOf chatId = some leaf → s.nodes.Path leaf ns →
    ∃ leaf' ns', t.leafOf chatId = some leaf' ∧ t.nodes.Path leaf' ns' ∧ Nodes.conversation ns' = Nodes.conversation ns

/-- No checkpoint stands under the message. -/
def Uncompacted (s : TreeState) (id : Nat) : Prop := ∀ n ∈ s.nodes, n.parentId = some id → n.compaction = none

/-- The splice's update found every child the reply now has. -/
def AllFound (s : TreeState) (x : SpliceTx) : Prop := ∀ n ∈ s.nodes, n.parentId = some x.replyId → n.id ∈ x.moved

instance (s : TreeState) (id : Nat) : Decidable (s.Uncompacted id) := inferInstanceAs (Decidable (∀ n ∈ s.nodes, _ → _))

instance (s : TreeState) (x : SpliceTx) : Decidable (s.AllFound x) := inferInstanceAs (Decidable (∀ n ∈ s.nodes, _ → _))

/-- The parent an insert settled on is still uncompacted when its row lands. -/
def LandsSeen (s : TreeState) (w : NodeWrite) : Prop :=
  match w.phase with
  | .inserting (some p) => s.Uncompacted p
  | _ => True

instance (s : TreeState) (w : NodeWrite) : Decidable (s.LandsSeen w) := by
  unfold LandsSeen
  split <;> infer_instance

/-- Every row that lands beside a splice is seen by it, or sees it. -/
def Seen (s : TreeState) : TreeAct → Prop
  | .land id => ∀ w ∈ s.writes.get id, s.LandsSeen w
  | .spliceCommit checkpointId => ∀ x ∈ s.splices.get checkpointId, s.AllFound x
  | _ => True

instance (s : TreeState) : (a : TreeAct) → Decidable (s.Seen a)
  | .choose _ _ _ => isTrue trivial
  | .insert _ => isTrue trivial
  | .land id => inferInstanceAs (Decidable (∀ w ∈ s.writes.get id, s.LandsSeen w))
  | .point _ => isTrue trivial
  | .giveUp _ => isTrue trivial
  | .spliceBegin _ _ _ => isTrue trivial
  | .spliceCommit checkpointId => inferInstanceAs (Decidable (∀ x ∈ s.splices.get checkpointId, s.AllFound x))
  | .spliceGiveUp _ => isTrue trivial
  | .switchTo _ _ => isTrue trivial

/-- What holds along every run: the tree is spliced, and a splice under way has its reply to itself. -/
structure Inv (s : TreeState) : Prop where
  spliced : s.nodes.Spliced
  replies : ∀ x ∈ s.splices, (∃ n ∈ s.nodes, n.id = x.replyId) ∧ s.Uncompacted x.replyId
  alone : ∀ x ∈ s.splices, ∀ x' ∈ s.splices, x.replyId = x'.replyId → x = x'

namespace PreservedAux

open Nodes

/-! ### The tree after a splice -/

variable {T T' : Nodes} {x : SpliceTx} {n : Node}

theorem mem_spliced (h : (T.map x.reparent x.reparent_id).insert x.node = some T') :
    n ∈ T' ↔ (∃ n₀ ∈ T, x.reparent n₀ = n) ∨ n = x.node := by
  rw [Table.mem_of_insert h, Table.mem_map]

theorem fresh_checkpoint (h : (T.map x.reparent x.reparent_id).insert x.node = some T') :
    ∀ n ∈ T, n.id ≠ x.checkpointId := by
  intro n hn
  have hne := Table.key_ne_of_insert h (x.reparent n) (Table.mem_map.mpr ⟨n, hn, rfl⟩)
  rw [SpliceTx.reparent_id] at hne
  exact hne

theorem reparent_of_found (hm : n.id ∈ x.moved) (hp : n.parentId = some x.replyId) :
    x.reparent n = { n with parentId := some x.checkpointId } := if_pos ⟨hm, hp⟩

theorem reparent_of_ne (h : ¬(n.id ∈ x.moved ∧ n.parentId = some x.replyId)) : x.reparent n = n := if_neg h

@[simp] theorem reparent_compaction (x : SpliceTx) (n : Node) : (x.reparent n).compaction = n.compaction := by
  unfold SpliceTx.reparent
  split <;> rfl

theorem keeps_splice (h : (T.map x.reparent x.reparent_id).insert x.node = some T') :
    Nodes.Keeps T T' := by
  intro id ns hp
  induction hp with
  | @root n hn hroot =>
    have hsame : x.reparent n = n := reparent_of_ne fun hm => by rw [hroot] at hm; nomatch hm.2
    exact ⟨[n], .root ((mem_spliced h).mpr (.inl ⟨n, hn, hsame⟩)) hroot, rfl⟩
  | @child n p ns hn hparent _ ih =>
    obtain ⟨ns', hns', hconv⟩ := ih
    by_cases hm : n.id ∈ x.moved ∧ n.parentId = some x.replyId
    · have hp : p = x.replyId := Option.some.inj (hparent.symm.trans hm.2)
      subst hp
      have hnew := reparent_of_found hm.1 hm.2
      have hcp : T'.Path x.checkpointId (ns' ++ [x.node]) := .child ((mem_spliced h).mpr (.inr rfl)) rfl hns'
      have hchild : T'.Path n.id (ns' ++ [x.node] ++ [{ n with parentId := some x.checkpointId }]) :=
        .child (n := { n with parentId := some x.checkpointId }) ((mem_spliced h).mpr (.inl ⟨n, hn, hnew⟩)) rfl hcp
      refine ⟨_, hchild, ?_⟩
      rw [conversation_append, conversation_append, conversation_checkpoint (n := x.node) rfl, List.append_nil, hconv,
        conversation_append, conversation_congr (n := n) (m := { n with parentId := some x.checkpointId }) rfl rfl]
    · refine ⟨ns' ++ [n], .child ((mem_spliced h).mpr (.inl ⟨n, hn, reparent_of_ne hm⟩)) hparent hns', ?_⟩
      rw [conversation_append, conversation_append, hconv]

variable {s : TreeState}

/-- Under a splice that found every child, the checkpoint is the reply's only child, and the other checkpoints keep their replies to themselves. -/
theorem spliced_splice (hI : Inv s) (hx : x ∈ s.splices) (hfound : s.AllFound x)
    (h : (s.nodes.map x.reparent x.reparent_id).insert x.node = some T') : T'.Spliced := by
  obtain ⟨⟨reply, hreply, hid⟩, hfree⟩ := hI.replies x hx
  have hfresh := fresh_checkpoint h
  have hne : x.checkpointId ≠ x.replyId := by
    rw [← hid]
    exact (hfresh reply hreply).symm
  constructor
  · intro n hn p hp
    rcases (mem_spliced h).mp hn with ⟨n₀, hn₀, rfl⟩ | rfl
    · by_cases hm : n₀.id ∈ x.moved ∧ n₀.parentId = some x.replyId
      · rw [reparent_of_found hm.1 hm.2] at hp
        exact ⟨x.node, (mem_spliced h).mpr (.inr rfl), Option.some.inj hp⟩
      · rw [reparent_of_ne hm] at hp
        obtain ⟨m, hm, rfl⟩ := hI.spliced.parents n₀ hn₀ p hp
        exact ⟨x.reparent m, (mem_spliced h).mpr (.inl ⟨m, hm, rfl⟩), SpliceTx.reparent_id x m⟩
    · obtain rfl : x.replyId = p := Option.some.inj hp
      exact ⟨x.reparent reply, (mem_spliced h).mpr (.inl ⟨reply, hreply, rfl⟩), by rw [SpliceTx.reparent_id, hid]⟩
  · intro c hc r hr
    rcases (mem_spliced h).mp hc with ⟨c₀, hc₀, rfl⟩ | rfl
    · rw [reparent_compaction] at hr
      obtain ⟨hparent, honly⟩ := hI.spliced.only c₀ hc₀ r hr
      have hr' : r ≠ x.replyId := by
        rintro rfl
        rw [hfree c₀ hc₀ hparent] at hr
        cases hr
      have hsame : x.reparent c₀ = c₀ := reparent_of_ne fun hm => hr' (Option.some.inj (hparent.symm.trans hm.2))
      rw [hsame]
      refine ⟨hparent, ?_⟩
      intro n hn hp
      rcases (mem_spliced h).mp hn with ⟨n₀, hn₀, rfl⟩ | rfl
      · by_cases hm : n₀.id ∈ x.moved ∧ n₀.parentId = some x.replyId
        · -- The checkpoint of another reply cannot hang under an id that was free.
          rw [reparent_of_found hm.1 hm.2] at hp
          obtain rfl : x.checkpointId = r := Option.some.inj hp
          obtain ⟨m, hm', hmid⟩ := hI.spliced.parents c₀ hc₀ _ hparent
          exact absurd hmid (hfresh m hm')
        · rw [reparent_of_ne hm] at hp ⊢
          exact honly n₀ hn₀ hp
      · exact absurd (Option.some.inj hp).symm hr'
    · obtain rfl : x.replyId = r := Option.some.inj hr
      refine ⟨rfl, ?_⟩
      intro n hn hp
      rcases (mem_spliced h).mp hn with ⟨n₀, hn₀, rfl⟩ | rfl
      · by_cases hm : n₀.id ∈ x.moved ∧ n₀.parentId = some x.replyId
        · rw [reparent_of_found hm.1 hm.2] at hp
          exact absurd (Option.some.inj hp) hne
        · rw [reparent_of_ne hm] at hp
          exact absurd ⟨hfound n₀ hn₀ hp, hp⟩ hm
      · rfl

theorem spliced_insert (hT : T.Spliced) (hplain : n.compaction = none)
    (hparent : ∀ p, n.parentId = some p → (∃ m ∈ T, m.id = p) ∧ ∀ c ∈ T, c.parentId = some p → c.compaction = none)
    (h : T.insert n = some T') : T'.Spliced := by
  constructor
  · intro m hm p hp
    rcases (Table.mem_of_insert h).mp hm with hm | rfl
    · obtain ⟨m', hm', hid⟩ := hT.parents m hm p hp
      exact ⟨m', (Table.mem_of_insert h).mpr (.inl hm'), hid⟩
    · obtain ⟨⟨m', hm', hid⟩, _⟩ := hparent p hp
      exact ⟨m', (Table.mem_of_insert h).mpr (.inl hm'), hid⟩
  · intro c hc r hr
    rcases (Table.mem_of_insert h).mp hc with hc | rfl
    · obtain ⟨hcp, honly⟩ := hT.only c hc r hr
      refine ⟨hcp, fun m hm hp => ?_⟩
      rcases (Table.mem_of_insert h).mp hm with hm | rfl
      · exact honly m hm hp
      · rw [(hparent r hp).2 c hc hcp] at hr
        cases hr
    · rw [hplain] at hr
      cases hr

/-! ### The collapse -/

variable {ms : List CtxMessage}

theorem lastCheckpoint_of_none (h : ∀ m ∈ ms, m.compaction = none) (i : Nat) (last : Option Nat) :
    Compaction.lastCheckpoint ms i last = last := by
  induction ms generalizing i last with
  | nil => rfl
  | cons m ms ih =>
    rw [Compaction.lastCheckpoint, h m List.mem_cons_self]
    exact ih (fun m' hm' => h m' (List.mem_cons_of_mem m hm')) _ _

theorem lastCheckpoint_append {rest : List CtxMessage} {c : CtxMessage} (hc : c.compaction.isSome = true)
    (h : ∀ m ∈ rest, m.compaction = none) (i : Nat) (last : Option Nat) :
    Compaction.lastCheckpoint (ms ++ c :: rest) i last = some (i + ms.length) := by
  induction ms generalizing i last with
  | nil =>
    rw [List.nil_append, Compaction.lastCheckpoint, if_pos hc]
    exact lastCheckpoint_of_none h _ _
  | cons m ms ih =>
    rw [List.cons_append, Compaction.lastCheckpoint, ih, List.length_cons]
    congr 1
    omega

theorem applyCompaction_append {rest : List CtxMessage} {c : CtxMessage} (hc : c.compaction.isSome = true)
    (h : ∀ m ∈ rest, m.compaction = none) :
    Compaction.applyCompaction (ms ++ c :: rest) = Compaction.summaryOf c :: rest := by
  unfold Compaction.applyCompaction
  rw [lastCheckpoint_append hc h, Nat.zero_add]
  simp

theorem collapses_of_spliced (hT : T.Spliced) : T.Collapses := by
  rintro c hc _ hcp m ns hns ⟨x, hx, rfl⟩ hm
  obtain ⟨_, honly⟩ := hT.only c hc _ hcp
  obtain ⟨above, rest, rfl, habove, hrest⟩ := hns.split hx
  rcases hrest with ⟨_, hxm⟩ | ⟨n, rest', rfl, hn⟩
  · exact absurd hxm.symm hm
  · have hmem : n ∈ T := hns.mem n (by simp)
    obtain rfl := honly n hmem hn
    refine ⟨above, rest', habove, rfl, fun hnone => ?_⟩
    rw [List.map_append, List.map_cons]
    refine applyCompaction_append ?_ ?_
    · change n.compaction.isSome = true
      rw [hcp]
      rfl
    · intro m' hm'
      obtain ⟨n', hn', rfl⟩ := List.mem_map.mp hm'
      exact hnone n' hn'

/-! ### The steps -/

variable {t : TreeState}

theorem inv_frame (hI : Inv s) (hn : t.nodes = s.nodes) (hx : t.splices = s.splices) : Inv t := by
  obtain ⟨spliced, replies, alone⟩ := hI
  refine ⟨?_, ?_, ?_⟩
  · rw [hn]
    exact spliced
  · unfold Uncompacted
    rw [hn, hx]
    exact replies
  · rw [hx]
    exact alone

theorem inv_erase (hI : Inv s) (k : Nat) : Inv { s with splices := s.splices.erase k } :=
  ⟨hI.spliced, fun x hx => hI.replies x (Table.mem_erase.mp hx).1,
    fun x hx x' hx' => hI.alone x (Table.mem_erase.mp hx).1 x' (Table.mem_erase.mp hx').1⟩

theorem movedLeaf_nodes (s : TreeState) (chatId old leaf : Nat) : (s.movedLeaf chatId old leaf).nodes = s.nodes := by
  unfold movedLeaf
  split <;> rfl

theorem movedLeaf_splices (s : TreeState) (chatId old leaf : Nat) : (s.movedLeaf chatId old leaf).splices = s.splices := by
  unfold movedLeaf
  split <;> rfl

theorem point_nodes (s : TreeState) (w : NodeWrite) : (s.point w).nodes = s.nodes := by
  unfold point
  split
  · exact movedLeaf_nodes _ _ _ _
  · rfl

theorem point_splices (s : TreeState) (w : NodeWrite) : (s.point w).splices = s.splices := by
  unfold point
  split
  · exact movedLeaf_splices _ _ _ _
  · rfl

theorem inv_land {w : NodeWrite} {parentId : Option Nat} (hI : Inv s)
    (hseen : ∀ p, parentId = some p → s.Uncompacted p) (h : s.land w parentId = some t) : Inv t := by
  unfold land at h
  split at h
  · rename_i hin
    obtain ⟨nodes, hins, rfl⟩ := Option.map_eq_some_iff.mp h
    have hspliced : Nodes.Spliced nodes := by
      refine spliced_insert hI.spliced rfl (fun p hp => ⟨?_, hseen p hp⟩) hins
      obtain ⟨m, hm, hid, _⟩ := hin p hp
      exact ⟨m, hm, hid⟩
    refine ⟨hspliced, ?_, hI.alone⟩
    intro x hx
    obtain ⟨⟨n, hn, hid⟩, hfree⟩ := hI.replies x hx
    refine ⟨⟨n, (Table.mem_of_insert hins).mpr (.inl hn), hid⟩, ?_⟩
    intro n' hn' hp
    rcases (Table.mem_of_insert hins).mp hn' with hn' | rfl
    · exact hfree n' hn' hp
    · rfl
  · cases h

theorem inv_begin {checkpointId chatId replyId : Nat} {splices : Table SpliceTx SpliceTx.checkpointId} (hI : Inv s)
    (hok : s.Compactable chatId replyId)
    (h : s.splices.insert
      { checkpointId := checkpointId, chatId := chatId, replyId := replyId, moved := s.childrenOf chatId replyId } = some splices) :
    Inv { s with splices := splices } := by
  obtain ⟨⟨n, hn, hid, _⟩, hfree, halone⟩ := hok
  refine ⟨hI.spliced, ?_, ?_⟩
  · intro x hx
    rcases (Table.mem_of_insert h).mp hx with hx | rfl
    · exact hI.replies x hx
    · exact ⟨⟨n, hn, hid⟩, hfree⟩
  · intro x hx x' hx' heq
    rcases (Table.mem_of_insert h).mp hx with hx | rfl <;> rcases (Table.mem_of_insert h).mp hx' with hx' | rfl
    · exact hI.alone x hx x' hx' heq
    · exact absurd heq (halone x hx)
    · exact absurd heq.symm (halone x' hx')
    · rfl

theorem inv_splice (hI : Inv s) (hx : x ∈ s.splices) (hfound : s.AllFound x)
    (h : s.splice x = some t) : Inv t := by
  obtain ⟨nodes, hins, rfl⟩ := Option.map_eq_some_iff.mp h
  refine inv_frame (s := { s with nodes := nodes, splices := s.splices.erase x.checkpointId }) ?_
    (movedLeaf_nodes _ _ _ _) (movedLeaf_splices _ _ _ _)
  refine ⟨spliced_splice hI hx hfound hins, ?_, fun y hy y' hy' =>
    hI.alone y (Table.mem_erase.mp hy).1 y' (Table.mem_erase.mp hy').1⟩
  intro y hy
  obtain ⟨hy, hne⟩ := Table.mem_erase.mp hy
  obtain ⟨⟨n, hn, hid⟩, hfree⟩ := hI.replies y hy
  refine ⟨⟨x.reparent n, (mem_spliced hins).mpr (.inl ⟨n, hn, rfl⟩), by rw [SpliceTx.reparent_id, hid]⟩, ?_⟩
  intro n' hn' hp
  rcases (mem_spliced hins).mp hn' with ⟨n₀, hn₀, rfl⟩ | rfl
  · rw [reparent_compaction]
    by_cases hm : n₀.id ∈ x.moved ∧ n₀.parentId = some x.replyId
    · exact (hI.replies x hx).2 n₀ hn₀ hm.2
    · rw [reparent_of_ne hm] at hp
      exact hfree n₀ hn₀ hp
  · -- The new checkpoint stands under its own reply, which is not this one's.
    have heq : x.replyId = y.replyId := Option.some.inj hp
    exact absurd (congrArg SpliceTx.checkpointId (hI.alone x hx y hy heq)).symm hne

theorem inv_step {a : TreeAct} (hI : Inv s) (hok : s.Seen a) (h : s.step a = some t) : Inv t := by
  cases a with
  | choose id chatId source =>
    simp only [step] at h
    split at h
    · obtain ⟨writes, _, rfl⟩ := Option.map_eq_some_iff.mp h
      exact inv_frame hI rfl rfl
    · cases h
  | insert id =>
    obtain ⟨w, _, h⟩ := Option.bind_eq_some_iff.mp h
    split at h
    · cases h
      exact inv_frame hI rfl rfl
    · cases h
  | land id =>
    obtain ⟨w, hw, h⟩ := Option.bind_eq_some_iff.mp h
    have hlands := hok w hw
    split at h
    · rename_i parentId hphase
      refine inv_land hI ?_ h
      rintro p rfl
      unfold LandsSeen at hlands
      rw [hphase] at hlands
      exact hlands
    · cases h
  | point id =>
    obtain ⟨w, _, h⟩ := Option.bind_eq_some_iff.mp h
    split at h
    · cases h
      exact inv_frame hI (point_nodes _ _) (point_splices _ _)
    · cases h
  | giveUp id =>
    cases h
    exact inv_frame hI rfl rfl
  | spliceBegin checkpointId chatId replyId =>
    simp only [step] at h
    split at h
    · rename_i hcompactable
      obtain ⟨splices, hins, rfl⟩ := Option.map_eq_some_iff.mp h
      exact inv_begin hI hcompactable hins
    · cases h
  | spliceCommit checkpointId =>
    obtain ⟨x, hx, h⟩ := Option.bind_eq_some_iff.mp h
    exact inv_splice hI (Table.get_eq_some_iff.mp hx).1 (hok x hx) h
  | spliceGiveUp checkpointId =>
    cases h
    exact inv_erase hI checkpointId
  | switchTo chatId leaf =>
    cases h
    exact inv_frame hI rfl rfl

theorem keeps_step {a : TreeAct} (h : s.step a = some t) : s.nodes.Keeps t.nodes := by
  have hsame : t.nodes = s.nodes → s.nodes.Keeps t.nodes := fun heq => by
    rw [heq]
    exact Keeps.of_subset fun _ hn => hn
  cases a with
  | choose id chatId source =>
    simp only [step] at h
    split at h
    · obtain ⟨writes, _, rfl⟩ := Option.map_eq_some_iff.mp h
      exact hsame rfl
    · cases h
  | insert id =>
    obtain ⟨w, _, h⟩ := Option.bind_eq_some_iff.mp h
    split at h
    · cases h
      exact hsame rfl
    · cases h
  | land id =>
    obtain ⟨w, _, h⟩ := Option.bind_eq_some_iff.mp h
    split at h
    · unfold land at h
      split at h
      · obtain ⟨nodes, hins, rfl⟩ := Option.map_eq_some_iff.mp h
        exact Keeps.of_subset fun n hn => (Table.mem_of_insert hins).mpr (.inl hn)
      · cases h
    · cases h
  | point id =>
    obtain ⟨w, _, h⟩ := Option.bind_eq_some_iff.mp h
    split at h
    · cases h
      exact hsame (point_nodes _ _)
    · cases h
  | giveUp id | spliceGiveUp checkpointId | switchTo chatId leaf =>
    cases h
    exact hsame rfl
  | spliceBegin checkpointId chatId replyId =>
    simp only [step] at h
    split at h
    · obtain ⟨splices, _, rfl⟩ := Option.map_eq_some_iff.mp h
      exact hsame rfl
    · cases h
  | spliceCommit checkpointId =>
    obtain ⟨x, _, h⟩ := Option.bind_eq_some_iff.mp h
    obtain ⟨nodes, hins, rfl⟩ := Option.map_eq_some_iff.mp h
    rw [movedLeaf_nodes]
    exact keeps_splice hins

theorem leafOf_movedLeaf (chatId old leaf : Nat) {c l : Nat} (h : s.leafOf c = some l) :
    (s.movedLeaf chatId old leaf).leafOf c = some l ∨ (l = old ∧ (s.movedLeaf chatId old leaf).leafOf c = some leaf) := by
  unfold movedLeaf
  split
  · rename_i hold
    by_cases hc : c = chatId
    · subst hc
      obtain rfl := Option.some.inj (h.symm.trans hold)
      refine .inr ⟨rfl, ?_⟩
      unfold leafOf pinned at *
      rw [Table.get_modify (ChatNode.pin_id leaf)]
      cases hg : s.chats.get c with
      | none =>
        rw [hg] at h
        cases h
      | some chat => simp [ChatNode.pin]
    · refine .inl ?_
      unfold leafOf pinned at *
      rw [Table.get_modify (ChatNode.pin_id leaf)]
      cases hg : s.chats.get c with
      | none =>
        rw [hg] at h
        cases h
      | some chat =>
        rw [hg] at h
        simpa [hc] using h
  · exact .inl h

theorem leafKept_splice (h : s.splice x = some t) : s.LeafKept t := by
  obtain ⟨nodes, hins, rfl⟩ := Option.map_eq_some_iff.mp h
  intro chatId leaf ns hleaf hpath
  obtain ⟨ns', hns', hconv⟩ := keeps_splice hins leaf ns hpath
  have hleaf' : { s with nodes := nodes, splices := s.splices.erase x.checkpointId }.leafOf chatId = some leaf := hleaf
  rw [movedLeaf_nodes]
  rcases leafOf_movedLeaf x.chatId x.replyId x.checkpointId hleaf' with hsame | ⟨rfl, hmoved⟩
  · exact ⟨leaf, ns', hsame, hns', hconv⟩
  · refine ⟨x.checkpointId, ns' ++ [x.node], hmoved, .child ((mem_spliced hins).mpr (.inr rfl)) rfl hns', ?_⟩
    rw [conversation_append, conversation_checkpoint (n := x.node) rfl, List.append_nil, hconv]

end PreservedAux

open PreservedAux

/-- Along every run in which rows that land beside a splice are seen, from any tree of messages: a checkpoint is its reply's only child,
and the collapse below it drops the reply and what is above; every step leaves every message its path, checkpoints apart; and a splice
leaves every active leaf its conversation. -/
theorem checkpoint_splice_preserves_of_seen {nodes : Nodes} {chats : ChatNodes} {s : TreeState} (hT : nodes.Spliced)
    (h : Steps.Reaches step Seen (opened nodes chats) s) :
    s.nodes.Spliced ∧ s.nodes.Collapses ∧ ∀ a t, s.step a = some t →
      s.nodes.Keeps t.nodes ∧ ∀ checkpointId, a = .spliceCommit checkpointId → s.LeafKept t := by
  have hI : Inv s := by
    refine h.invariant (fun x a y hx hok hy => inv_step hx hok hy) ?_
    exact ⟨hT, fun x hx => absurd hx (Table.not_mem_empty x), fun x hx => absurd hx (Table.not_mem_empty x)⟩
  refine ⟨hI.spliced, collapses_of_spliced hI.spliced, fun a t hstep => ⟨keeps_step hstep, ?_⟩⟩
  rintro checkpointId rfl
  obtain ⟨x, _, hstep⟩ := Option.bind_eq_some_iff.mp hstep
  exact leafKept_splice hstep

/-- A chat of one question and one reply. -/
def oneTurn : Nodes where
  rows :=
    [{ id := 1, chatId := 7, parentId := none, role := .user, awaiting := false, compaction := none },
      { id := 2, chatId := 7, parentId := some 1, role := .assistant, awaiting := false, compaction := none }]
  nodup := by decide

/-- The chat stands on the reply. -/
def onReply : ChatNodes where
  rows := [{ id := 7, activeLeafId := some 2 }]
  nodup := List.nodup_singleton _

theorem oneTurn_spliced : oneTurn.Spliced :=
  ⟨by decide, fun c hc r hr => by
    have hplain : ∀ n ∈ oneTurn, n.compaction = none := by decide
    rw [hplain c hc] at hr
    nomatch hr⟩

/-- A follow-up sent while the summary runs is found and hangs below the checkpoint, and so does one whose parent was read before the
commit and resolved after it. -/
theorem checkpoint_splice_preserves_followed :
    ∃ s : TreeState, Steps.Reaches step Seen (opened oneTurn onReply) s ∧
      (s.nodes.get 3).bind (·.parentId) = some 9 ∧ (s.nodes.get 4).bind (·.parentId) = some 9 ∧ s.nodes.Collapses := by
  obtain ⟨s, hreach, hend⟩ := Steps.exists_of_execOk step Seen (opened oneTurn onReply)
    [.choose 3 7 .send, .choose 4 7 (.edit (some 2)), .insert 3, .land 3, .point 3, .spliceBegin 9 7 2, .spliceCommit 9, .insert 4,
      .land 4, .point 4]
    (P := fun s => (s.nodes.get 3).bind (·.parentId) = some 9 ∧ (s.nodes.get 4).bind (·.parentId) = some 9) (by decide)
  exact ⟨s, hreach, hend.1, hend.2, (checkpoint_splice_preserves_of_seen oneTurn_spliced hreach).2.1⟩

/-- A message from a channel reads the leaf, the splice commits, and the message lands beside the checkpoint. -/
theorem checkpoint_splice_preserves_false :
    ¬∀ s : TreeState, Steps.Reaches step Steps.Free (opened oneTurn onReply) s →
      ∀ c ∈ s.nodes, ∀ r, c.compaction = some r → ∀ n ∈ s.nodes, n.parentId = some r → n = c := by
  intro h
  obtain ⟨s, hreach, hend⟩ := Steps.exists_of_exec step (opened oneTurn onReply)
    [.choose 3 7 .channel, .spliceBegin 9 7 2, .spliceCommit 9, .insert 3, .land 3, .point 3]
    (P := fun s => (∃ c ∈ s.nodes, c.id = 9 ∧ c.compaction = some 2) ∧ ∃ n ∈ s.nodes, n.id = 3 ∧ n.parentId = some 2) (by decide)
  obtain ⟨⟨c, hc, hcid, hcp⟩, n, hn, hnid, hp⟩ := hend
  have heq := h s hreach c hc 2 hcp n hn hp
  rw [heq, hcid] at hnid
  exact absurd hnid (by decide)

end TreeState

end Capka

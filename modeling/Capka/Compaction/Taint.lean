import Mathlib
import Capka.Compaction.Shaping
import Capka.Lib.Steps

/-!
# Taint survives shaping

The path of a chat as it grows. A user's row comes with the mark of where its text comes from. A turn folds the whole context it is
shown into its own mark, adds what it reads itself, and writes both to its row; a continuation starts from the mark on its row. The
checkpoint of a compaction carries the mark the turn had when it was dispatched and lands right under the turn's reply, whatever
followed that reply meanwhile. Another branch shares the path up to some row, and a copied chat takes it over with its marks; an
imported one is marked from its first row on.
-/

namespace Capka

/-- A turn at work: its reply, and what its taint says. -/
structure TaintRun where
  replyId : Nat
  seen : Bool
  deriving Repr, DecidableEq

/-- A compaction under way: the reply its checkpoint goes under, and the trust it was dispatched with. -/
structure PendingCompaction where
  replyId : Nat
  trust : Bool
  deriving Repr, DecidableEq

/-- A path of a chat, with the turn at work on it, the reply that waits on the user, the compactions under way, and the ids in
use. -/
structure PathState where
  rows : List ContextRow
  turn : Option TaintRun
  waiting : Option Nat
  pending : List PendingCompaction
  used : List Nat
  deriving DecidableEq

/-- What happens to a path. -/
inductive PathAct
  | say (id : Nat) (content : List Char) (untrustedIngress : Bool)
  | start (replyId : Nat) (clearToolsKeepLast : Option Nat)
  | resume (replyId : Nat) (clearToolsKeepLast : Option Nat)
  | ingest
  | write (parts : List StoredPart)
  | suspend
  | finish (compact : Bool)
  | splice (replyId checkpointId : Nat) (summary : String)
  | branch (length : Nat)
  | copy (length : Nat)

namespace ContextRow

/-- `UPDATE messages SET untrusted_ingress = true`. -/
def mark (r : ContextRow) : ContextRow := { r with untrustedIngress := some true }

/-- A snapshot of a reply. -/
def withParts (parts : List StoredPart) (r : ContextRow) : ContextRow := { r with parts := some parts }

end ContextRow

namespace PathState

/-- The row of a reply changed. -/
def update (rows : List ContextRow) (id : Nat) (f : ContextRow → ContextRow) : List ContextRow :=
  rows.map (fun r => if r.id = id then f r else r)

/-- The rows with the ones of a user past the reply cut off. -/
def upTo (rows : List ContextRow) (id : Nat) : List ContextRow := rows.take (rows.findIdx (·.id = id) + 1)

/-- `taint.mark`, which writes on the first time only. -/
def marked (rows : List ContextRow) (id : Nat) (yes : Bool) : List ContextRow :=
  if yes then update rows id ContextRow.mark else rows

/-- A row under the reply. -/
def insertAfter (rows : List ContextRow) (id : Nat) (row : ContextRow) : List ContextRow :=
  rows.flatMap (fun r => if r.id = id then [r, row] else [r])

/-- The user's row. -/
def userRow (id : Nat) (content : List Char) (untrustedIngress : Bool) : ContextRow where
  id := id
  role := .user
  content := content
  parts := none
  compaction := none
  untrustedIngress := some untrustedIngress

/-- The row a turn inserts. -/
def replyRow (id : Nat) : ContextRow where
  id := id
  role := .assistant
  content := []
  parts := some []
  compaction := none
  untrustedIngress := some false

def checkpointRow (id : Nat) (summary : String) (trust : Bool) : ContextRow where
  id := id
  role := .assistant
  content := []
  parts := none
  compaction := some summary
  untrustedIngress := some trust

/-- One step. A turn starts when none is at work, and settles the reply that waited; only a waiting reply is continued. -/
def step (s : PathState) : PathAct → Option PathState
  | .say id content untrustedIngress =>
    if id ∉ s.used then some { s with rows := s.rows ++ [userRow id content untrustedIngress], used := id :: s.used } else none
  | .start replyId clearToolsKeepLast =>
    if s.turn = none ∧ replyId ∉ s.used then
      let seen := foldAssembledRows (buildModelContext s.rows clearToolsKeepLast)
      some { s with
        rows := marked (s.rows ++ [replyRow replyId]) replyId seen
        turn := some { replyId := replyId, seen := seen }
        waiting := none
        used := replyId :: s.used }
    else none
  | .resume replyId clearToolsKeepLast =>
    if s.turn = none ∧ s.waiting = some replyId then
      -- seeded from the row, then folded over the path up to it
      let seeded := s.rows.any (fun r => r.id = replyId && r.untrustedIngress = some true)
      let replayed := foldAssembledRows (buildModelContext (upTo s.rows replyId) clearToolsKeepLast)
      some { s with
        rows := marked s.rows replyId replayed
        turn := some { replyId := replyId, seen := seeded || replayed }
        waiting := none }
    else none
  | .ingest =>
    s.turn.map (fun t => { s with rows := marked s.rows t.replyId true, turn := some { t with seen := true } })
  | .write parts => s.turn.map (fun t => { s with rows := update s.rows t.replyId (ContextRow.withParts parts) })
  | .suspend => s.turn.map (fun t => { s with turn := none, waiting := some t.replyId })
  | .finish compact =>
    s.turn.map (fun t => { s with
      turn := none
      pending := if compact then { replyId := t.replyId, trust := t.seen } :: s.pending else s.pending })
  | .splice replyId checkpointId summary =>
    match s.pending.find? (·.replyId = replyId) with
    | some p =>
      if checkpointId ∉ s.used then
        some { s with
          rows := insertAfter s.rows replyId (checkpointRow checkpointId summary p.trust)
          pending := s.pending.erase p
          used := checkpointId :: s.used }
      else none
    | none => none
  | .branch length => some { s with rows := s.rows.take length }
  | .copy length => some { rows := s.rows.take length, turn := none, waiting := none, pending := [], used := s.used }

end PathState

namespace TaintAux

open PathState

/-- A reply is tainted once a row before it is. -/
def Mono (rows : List ContextRow) : Prop := rows.Pairwise (fun a b => b.role = .assistant → a.Tainted → b.Tainted)

/-- A reply no other follows. -/
structure LastReply (rows : List ContextRow) (id : Nat) : Prop where
  role : ∀ r ∈ rows, r.id = id → r.role = .assistant
  last : rows.Pairwise (fun a b => a.id = id → b.role = .user)

/-- What holds of a path at any moment. -/
structure Sound (s : PathState) : Prop where
  ids : (s.rows.map ContextRow.id).Nodup
  used : ∀ r ∈ s.rows, r.id ∈ s.used
  checkpoints : ∀ r ∈ s.rows, r.compaction.isSome → r.role = .assistant
  mono : Mono s.rows
  turn : ∀ t, s.turn = some t → LastReply s.rows t.replyId ∧ t.replyId ∈ s.used ∧ s.waiting = none ∧
    ∀ r ∈ s.rows, r.id = t.replyId → (r.Tainted ↔ t.seen = true)
  waiting : ∀ id, s.waiting = some id → LastReply s.rows id ∧ id ∈ s.used
  pending : ∀ p ∈ s.pending, p.replyId ∈ s.used ∧ (∀ t, s.turn = some t → t.replyId ≠ p.replyId) ∧ s.waiting ≠ some p.replyId ∧
    ∀ r ∈ s.rows, r.id = p.replyId → r.role = .assistant ∧ (r.Tainted ↔ p.trust = true)

/-! ## The flag of a path -/

variable {rows : List ContextRow} {r : ContextRow}

theorem exists_kept (hmono : Mono rows) (hcp : ∀ r ∈ rows, r.compaction.isSome → r.role = .assistant)
    (hr : r ∈ rows) (ht : r.Tainted) : ∃ k ∈ Shaping.kept rows, k.Tainted := by
  unfold Shaping.kept
  cases h : Shaping.lastCheckpoint (rows.map Shaping.lift) with
  | none => exact ⟨r, by simpa using hr, ht⟩
  | some i =>
    obtain ⟨cp, hcpi, hc⟩ := Shaping.lastCheckpoint_spec _ i h
    rw [List.getElem?_map, Option.map_eq_some_iff] at hcpi
    obtain ⟨row, hrow, rfl⟩ := hcpi
    obtain ⟨hlt, rfl⟩ := List.getElem?_eq_some_iff.mp hrow
    rw [Option.getD_some]
    obtain ⟨j, hj, rfl⟩ := List.getElem_of_mem hr
    by_cases hji : j < i
    · have hrole := hcp rows[i] (List.getElem_mem hlt) hc
      refine ⟨rows[i], ?_, List.pairwise_iff_getElem.mp hmono j i hj hlt hji hrole ht⟩
      rw [List.drop_eq_getElem_cons hlt]
      exact List.mem_cons_self
    · refine ⟨rows[j], ?_, ht⟩
      rw [List.mem_drop_iff_getElem]
      exact ⟨j - i, by omega, by simp [Nat.add_sub_cancel' (Nat.le_of_not_lt hji)]⟩

theorem flag_iff (hnd : (rows.map ContextRow.id).Nodup) (hmono : Mono rows)
    (hcp : ∀ r ∈ rows, r.compaction.isSome → r.role = .assistant) (clearToolsKeepLast : Option Nat) :
    foldAssembledRows (buildModelContext rows clearToolsKeepLast) = true ↔ ∃ r ∈ rows, r.Tainted := by
  rw [Shaping.fold_eq_true_iff hnd]
  constructor
  · rintro ⟨r, hr, ht⟩
    exact ⟨r, List.mem_of_mem_drop hr, ht⟩
  · rintro ⟨r, hr, ht⟩
    exact exists_kept hmono hcp hr ht

/-! ## Writing to a row -/

/-- A write that keeps what a row is. -/
structure Keeps (f : ContextRow → ContextRow) : Prop where
  id : ∀ r, (f r).id = r.id
  role : ∀ r, (f r).role = r.role
  compaction : ∀ r, (f r).compaction = r.compaction

theorem keeps_mark : Keeps ContextRow.mark := ⟨fun _ => rfl, fun _ => rfl, fun _ => rfl⟩

theorem keeps_withParts (parts : List StoredPart) : Keeps (ContextRow.withParts parts) := ⟨fun _ => rfl, fun _ => rfl, fun _ => rfl⟩

variable {id : Nat} {f : ContextRow → ContextRow}

theorem mem_update :
    r ∈ update rows id f ↔ ∃ r₀ ∈ rows, (if r₀.id = id then f r₀ else r₀) = r := List.mem_map

theorem exists_of_mem_update (hf : Keeps f)
    (h : r ∈ update rows id f) : ∃ r₀ ∈ rows, r.id = r₀.id ∧ r.role = r₀.role ∧ r.compaction = r₀.compaction ∧
      ((r₀.id = id ∧ r = f r₀) ∨ (r₀.id ≠ id ∧ r = r₀)) := by
  obtain ⟨r₀, hr₀, rfl⟩ := mem_update.mp h
  split
  · next hid => exact ⟨r₀, hr₀, hf.id r₀, hf.role r₀, hf.compaction r₀, Or.inl ⟨hid, rfl⟩⟩
  · next hid => exact ⟨r₀, hr₀, rfl, rfl, rfl, Or.inr ⟨hid, rfl⟩⟩

theorem map_id_update (hf : Keeps f) :
    (update rows id f).map ContextRow.id = rows.map ContextRow.id := by
  rw [update, List.map_map]
  apply List.map_congr_left
  intro r _
  rw [Function.comp_apply]
  split
  · exact hf.id r
  · rfl

theorem LastReply.update {id' : Nat} (hf : Keeps f) (h : LastReply rows id') :
    LastReply (update rows id f) id' := by
  have hid : ∀ r : ContextRow, (if r.id = id then f r else r).id = r.id ∧ (if r.id = id then f r else r).role = r.role := by
    intro r
    split
    · exact ⟨hf.id r, hf.role r⟩
    · exact ⟨rfl, rfl⟩
  refine { role := ?_, last := ?_ }
  · intro r hr hrid
    obtain ⟨r₀, hr₀, hi, hro, -, -⟩ := exists_of_mem_update hf hr
    rw [hro]
    exact h.role r₀ hr₀ (hi ▸ hrid)
  · rw [PathState.update, List.pairwise_map]
    refine h.last.imp ?_
    intro a b hab ha
    rw [(hid a).1] at ha
    rw [(hid b).2]
    exact hab ha

theorem mono_mark (h : Mono rows) (hl : LastReply rows id) : Mono (update rows id ContextRow.mark) := by
  rw [Mono, PathState.update, List.pairwise_map]
  refine (h.and hl.last).imp ?_
  rintro a b ⟨hab, hlast⟩ hrole htaint
  by_cases hb : b.id = id
  · rw [if_pos hb]
    rfl
  · rw [if_neg hb] at hrole ⊢
    by_cases ha : a.id = id
    · rw [hlast ha] at hrole
      cases hrole
    · rw [if_neg ha] at htaint
      exact hab hrole htaint

theorem mono_withParts {parts : List StoredPart} (h : Mono rows) :
    Mono (update rows id (ContextRow.withParts parts)) := by
  have hsame : ∀ r : ContextRow, (if r.id = id then r.withParts parts else r).role = r.role ∧
      ((if r.id = id then r.withParts parts else r).Tainted ↔ r.Tainted) := by
    intro r
    split
    · exact ⟨rfl, Iff.rfl⟩
    · exact ⟨rfl, Iff.rfl⟩
  rw [Mono, PathState.update, List.pairwise_map]
  refine h.imp ?_
  intro a b hab hrole htaint
  rw [(hsame b).1] at hrole
  rw [(hsame a).2] at htaint
  rw [(hsame b).2]
  exact hab hrole htaint

variable {s : PathState}

theorem sound_update (h : Sound s) (hf : Keeps f) (hmono : Mono (update s.rows id f))
    (turn : Option TaintRun) (waiting : Option Nat) (pending : List PendingCompaction)
    (hturn : ∀ t, turn = some t → LastReply s.rows t.replyId ∧ t.replyId ∈ s.used ∧ waiting = none ∧
      ∀ r ∈ update s.rows id f, r.id = t.replyId → (r.Tainted ↔ t.seen = true))
    (hwaiting : ∀ i, waiting = some i → LastReply s.rows i ∧ i ∈ s.used)
    (hpending : ∀ p ∈ pending, p.replyId ∈ s.used ∧ (∀ t, turn = some t → t.replyId ≠ p.replyId) ∧ waiting ≠ some p.replyId ∧
      ∀ r ∈ update s.rows id f, r.id = p.replyId → r.role = .assistant ∧ (r.Tainted ↔ p.trust = true)) :
    Sound { s with rows := update s.rows id f, turn := turn, waiting := waiting, pending := pending } := by
  refine { ids := ?_, used := ?_, checkpoints := ?_, mono := hmono, turn := ?_, waiting := ?_, pending := hpending }
  · rw [map_id_update hf]
    exact h.ids
  · intro r hr
    obtain ⟨r₀, hr₀, hi, -⟩ := exists_of_mem_update hf hr
    rw [hi]
    exact h.used r₀ hr₀
  · intro r hr hc
    obtain ⟨r₀, hr₀, -, hro, hco, -⟩ := exists_of_mem_update hf hr
    rw [hro]
    exact h.checkpoints r₀ hr₀ (hco ▸ hc)
  · intro t ht
    obtain ⟨hl, hu, hw, hiff⟩ := hturn t ht
    exact ⟨hl.update hf, hu, hw, hiff⟩
  · intro i hi
    obtain ⟨hl, hu⟩ := hwaiting i hi
    exact ⟨hl.update hf, hu⟩

theorem tainted_of_ne (hf : Keeps f)
    (hr : r ∈ update rows id f) (hne : r.id ≠ id) : r ∈ rows := by
  obtain ⟨r₀, hr₀, hi, -, -, ⟨hid, _⟩ | ⟨_, rfl⟩⟩ := exists_of_mem_update hf hr
  · exact absurd (hi.trans hid) hne
  · exact hr₀

/-! ## One more row -/

variable {row : ContextRow} {used : List Nat}

theorem nodup_append_fresh (hnd : (rows.map ContextRow.id).Nodup)
    (hused : ∀ r ∈ rows, r.id ∈ used) (hfresh : row.id ∉ used) : ((rows ++ [row]).map ContextRow.id).Nodup := by
  rw [List.map_append, List.nodup_append]
  refine ⟨hnd, List.nodup_singleton _, ?_⟩
  intro i hi j hj hij
  obtain ⟨r, hr, rfl⟩ := List.mem_map.mp hi
  have hj : j = row.id := List.mem_singleton.mp hj
  have := hused r hr
  rw [hij, hj] at this
  exact hfresh this

theorem sound_append {s : PathState} (h : Sound s) {row : ContextRow} (hfresh : row.id ∉ s.used) (hcp : row.compaction = none)
    (hmono : row.role = .assistant → (∃ r ∈ s.rows, r.Tainted) → row.Tainted) (turn : Option TaintRun) (waiting : Option Nat)
    (hturn : ∀ t, turn = some t → LastReply (s.rows ++ [row]) t.replyId ∧ t.replyId ∈ row.id :: s.used ∧ waiting = none ∧
      ∀ r ∈ s.rows ++ [row], r.id = t.replyId → (r.Tainted ↔ t.seen = true))
    (hwaiting : ∀ i, waiting = some i → LastReply (s.rows ++ [row]) i ∧ i ∈ row.id :: s.used)
    (hpending : ∀ p ∈ s.pending, (∀ t, turn = some t → t.replyId ≠ p.replyId) ∧ waiting ≠ some p.replyId) :
    Sound { s with rows := s.rows ++ [row], turn := turn, waiting := waiting, used := row.id :: s.used } := by
  refine { ids := nodup_append_fresh h.ids h.used hfresh, used := ?_, checkpoints := ?_, mono := ?_, turn := hturn, waiting := hwaiting,
           pending := ?_ }
  · intro r hr
    rcases List.mem_append.mp hr with hr | hr
    · exact List.mem_cons_of_mem _ (h.used r hr)
    · rw [List.mem_singleton.mp hr]
      exact List.mem_cons_self
  · intro r hr hc
    rcases List.mem_append.mp hr with hr | hr
    · exact h.checkpoints r hr hc
    · rw [List.mem_singleton.mp hr, hcp] at hc
      cases hc
  · refine List.pairwise_append.mpr ⟨h.mono, List.pairwise_singleton _ _, ?_⟩
    intro a ha b hb hrole htaint
    obtain rfl := List.mem_singleton.mp hb
    exact hmono hrole ⟨a, ha, htaint⟩
  · intro p hp
    obtain ⟨hu, -, -, hrow⟩ := h.pending p hp
    refine ⟨List.mem_cons_of_mem _ hu, (hpending p hp).1, (hpending p hp).2, ?_⟩
    intro r hr hid
    rcases List.mem_append.mp hr with hr | hr
    · exact hrow r hr hid
    · rw [List.mem_singleton.mp hr] at hid
      exact absurd (hid ▸ hu) hfresh

theorem LastReply.append_user (h : LastReply rows id) (hne : row.id ≠ id)
    (hrole : row.role = .user) : LastReply (rows ++ [row]) id := by
  refine { role := ?_, last := ?_ }
  · intro r hr hid
    rcases List.mem_append.mp hr with hr | hr
    · exact h.role r hr hid
    · rw [List.mem_singleton.mp hr] at hid
      exact absurd hid hne
  · refine List.pairwise_append.mpr ⟨h.last, List.pairwise_singleton _ _, ?_⟩
    intro a _ b hb _
    rw [List.mem_singleton.mp hb]
    exact hrole

theorem lastReply_fresh (hused : ∀ r ∈ rows, r.id ∈ used)
    (hfresh : row.id ∉ used) (hrole : row.role = .assistant) : LastReply (rows ++ [row]) row.id := by
  have hne : ∀ r ∈ rows, r.id ≠ row.id := by
    intro r hr hid
    exact hfresh (hid ▸ hused r hr)
  refine { role := ?_, last := ?_ }
  · intro r hr hid
    rcases List.mem_append.mp hr with hr | hr
    · exact absurd hid (hne r hr)
    · rw [List.mem_singleton.mp hr]
      exact hrole
  · refine List.pairwise_append.mpr ⟨?_, List.pairwise_singleton _ _, ?_⟩
    · refine List.Pairwise.imp_of_mem ?_ (List.pairwise_of_forall (R := fun _ _ => True) (fun _ _ => trivial))
      intro a b ha _ _ hid
      exact absurd hid (hne a ha)
    · intro a ha b _ hid
      exact absurd hid (hne a ha)

theorem marked_append (hused : ∀ r ∈ rows, r.id ∈ used) (hfresh : id ∉ used)
    (yes : Bool) : marked (rows ++ [replyRow id]) id yes = rows ++ [{ replyRow id with untrustedIngress := some yes }] := by
  cases yes with
  | false => rfl
  | true =>
    have hsame : rows.map (fun r => if r.id = id then r.mark else r) = rows := by
      refine (List.map_congr_left ?_).trans (List.map_id _)
      intro r hr
      rw [if_neg]
      · rfl
      · intro hid
        exact hfresh (hid ▸ hused r hr)
    simp only [marked, if_true, update, List.map_append, hsame, List.map_cons, List.map_nil]
    rw [if_pos (show (replyRow id).id = id from rfl)]
    rfl

/-! ## A checkpoint under a reply -/

variable {pre post : List ContextRow}

theorem insertAfter_eq (hnd : ((pre ++ r :: post).map ContextRow.id).Nodup) :
    insertAfter (pre ++ r :: post) r.id row = pre ++ r :: row :: post := by
  have hskip : ∀ rows : List ContextRow, (∀ x ∈ rows, x.id ≠ r.id) → rows.flatMap (fun x => if x.id = r.id then [x, row] else [x]) = rows := by
    intro rows hrows
    induction rows with
    | nil => rfl
    | cons x rows ih =>
      rw [List.flatMap_cons, if_neg (hrows x List.mem_cons_self), ih (fun y hy => hrows y (List.mem_cons_of_mem _ hy))]
      rfl
  rw [List.map_append, List.map_cons, List.nodup_append, List.nodup_cons] at hnd
  obtain ⟨-, ⟨hpost, -⟩, hpre⟩ := hnd
  rw [insertAfter, List.flatMap_append, List.flatMap_cons, if_pos rfl, hskip pre, hskip post]
  · rfl
  · intro x hx hid
    exact hpost (hid ▸ List.mem_map_of_mem hx)
  · intro x hx hid
    exact hpre x.id (List.mem_map_of_mem hx) r.id List.mem_cons_self hid

theorem insertAfter_of_not_mem (h : ∀ r ∈ rows, r.id ≠ id) :
    insertAfter rows id row = rows := by
  induction rows with
  | nil => rfl
  | cons x rows ih =>
    have ih := ih (fun y hy => h y (List.mem_cons_of_mem _ hy))
    rw [insertAfter] at ih ⊢
    rw [List.flatMap_cons, if_neg (h x List.mem_cons_self), ih]
    rfl

theorem mem_insert {x : ContextRow} :
    x ∈ pre ++ r :: row :: post ↔ x ∈ pre ++ r :: post ∨ x = row := by
  simp only [List.mem_append, List.mem_cons]
  tauto

theorem LastReply.splice {cp : ContextRow} (h : LastReply (pre ++ r :: post) id)
    (hrole : r.role = .assistant) (hr : r.id ≠ id) (hcp : cp.id ≠ id) : LastReply (pre ++ r :: cp :: post) id := by
  obtain ⟨hpre, hpost, hcross⟩ := List.pairwise_append.mp h.last
  obtain ⟨hrpost, hpost⟩ := List.pairwise_cons.mp hpost
  refine { role := ?_, last := ?_ }
  · intro x hx hid
    rcases mem_insert.mp hx with hx | rfl
    · exact h.role x hx hid
    · exact absurd hid hcp
  · refine List.pairwise_append.mpr ⟨hpre, List.pairwise_cons.mpr ⟨?_, List.pairwise_cons.mpr ⟨?_, hpost⟩⟩, ?_⟩
    · intro b _ hid
      exact absurd hid hr
    · intro b _ hid
      exact absurd hid hcp
    · intro a ha b hb hid
      have huser := hcross a ha r List.mem_cons_self hid
      rw [hrole] at huser
      cases huser

theorem mono_splice {cp : ContextRow} (h : Mono (pre ++ r :: post)) (hrole : r.role = .assistant)
    (hcp : r.Tainted ↔ cp.Tainted) : Mono (pre ++ r :: cp :: post) := by
  obtain ⟨hpre, hpost, hcross⟩ := List.pairwise_append.mp h
  obtain ⟨hrpost, hpost⟩ := List.pairwise_cons.mp hpost
  refine List.pairwise_append.mpr ⟨hpre, List.pairwise_cons.mpr ⟨?_, List.pairwise_cons.mpr ⟨?_, hpost⟩⟩, ?_⟩
  · intro b hb hb' ht
    rcases List.mem_cons.mp hb with rfl | hb
    · exact hcp.mp ht
    · exact hrpost b hb hb' ht
  · intro b hb hb' ht
    exact hrpost b hb hb' (hcp.mpr ht)
  · intro a ha b hb hb' ht
    rcases List.mem_cons.mp hb with rfl | hb
    · exact hcross a ha _ List.mem_cons_self hb' ht
    · rcases List.mem_cons.mp hb with rfl | hb
      · exact hcp.mp (hcross a ha r List.mem_cons_self hrole ht)
      · exact hcross a ha b (List.mem_cons_of_mem _ hb) hb' ht

theorem Sound.weaken (h : Sound s) {pending : List PendingCompaction}
    (hp : ∀ p ∈ pending, p ∈ s.pending) (hu : ∀ i ∈ s.used, i ∈ used) : Sound { s with pending := pending, used := used } := by
  refine { ids := h.ids, used := fun r hr => hu _ (h.used r hr), checkpoints := h.checkpoints, mono := h.mono, turn := ?_, waiting := ?_,
           pending := ?_ }
  · intro t ht
    obtain ⟨hl, ht', hw, hiff⟩ := h.turn t ht
    exact ⟨hl, hu _ ht', hw, hiff⟩
  · intro i hi
    obtain ⟨hl, hi'⟩ := h.waiting i hi
    exact ⟨hl, hu _ hi'⟩
  · intro p hp'
    obtain ⟨hpu, hrest⟩ := h.pending p (hp p hp')
    exact ⟨hu _ hpu, hrest⟩

theorem sound_splice (h : Sound s) {p : PendingCompaction} (hp : p ∈ s.pending) {checkpointId : Nat}
    (hfresh : checkpointId ∉ s.used) (summary : String) :
    Sound { s with
      rows := insertAfter s.rows p.replyId (checkpointRow checkpointId summary p.trust)
      pending := s.pending.erase p
      used := checkpointId :: s.used } := by
  have hsub : ∀ q ∈ s.pending.erase p, q ∈ s.pending := fun q hq => List.mem_of_mem_erase hq
  have hcons : ∀ i ∈ s.used, i ∈ checkpointId :: s.used := fun i hi => List.mem_cons_of_mem _ hi
  by_cases hreply : ∃ r ∈ s.rows, r.id = p.replyId
  · obtain ⟨r, hr, hid⟩ := hreply
    obtain ⟨hpu, hpturn, hpwait, hprow⟩ := h.pending p hp
    obtain ⟨hrole, htrust⟩ := hprow r hr hid
    obtain ⟨pre, post, hsplit⟩ := List.append_of_mem hr
    have hrows : insertAfter s.rows p.replyId (checkpointRow checkpointId summary p.trust) =
        pre ++ r :: checkpointRow checkpointId summary p.trust :: post := by
      rw [hsplit, ← hid]
      exact insertAfter_eq (hsplit ▸ h.ids)
    have hold : ∀ {x}, x ∈ pre ++ r :: checkpointRow checkpointId summary p.trust :: post ↔
        x ∈ s.rows ∨ x = checkpointRow checkpointId summary p.trust := by
      intro x
      rw [hsplit]
      exact mem_insert
    have hne : ∀ i ∈ s.used, (checkpointRow checkpointId summary p.trust).id ≠ i := by
      rintro i hi rfl
      exact hfresh hi
    rw [hrows]
    refine { ids := ?_, used := ?_, checkpoints := ?_, mono := ?_, turn := ?_, waiting := ?_, pending := ?_ }
    · have hperm : (pre ++ r :: checkpointRow checkpointId summary p.trust :: post).Perm
          (checkpointRow checkpointId summary p.trust :: s.rows) := by
        rw [hsplit]
        have := @List.perm_middle _ (checkpointRow checkpointId summary p.trust) (pre ++ [r]) post
        simpa using this
      rw [(hperm.map ContextRow.id).nodup_iff, List.map_cons, List.nodup_cons]
      refine ⟨?_, h.ids⟩
      intro hmem
      obtain ⟨x, hx, hxid⟩ := List.mem_map.mp hmem
      exact hne x.id (h.used x hx) hxid.symm
    · intro x hx
      rcases hold.mp hx with hx | rfl
      · exact hcons _ (h.used x hx)
      · exact List.mem_cons_self
    · intro x hx hc
      rcases hold.mp hx with hx | rfl
      · exact h.checkpoints x hx hc
      · rfl
    · refine mono_splice (hsplit ▸ h.mono) hrole (htrust.trans ?_)
      simp [checkpointRow, ContextRow.Tainted]
    · intro t ht
      obtain ⟨hl, hu, hw, hiff⟩ := h.turn t ht
      refine ⟨LastReply.splice (hsplit ▸ hl) hrole ?_ (hne _ hu), hcons _ hu, hw, ?_⟩
      · rw [hid]
        exact (hpturn t ht).symm
      · intro x hx hxid
        rcases hold.mp hx with hx | rfl
        · exact hiff x hx hxid
        · exact absurd hxid (hne _ hu)
    · intro i hi
      obtain ⟨hl, hu⟩ := h.waiting i hi
      refine ⟨LastReply.splice (hsplit ▸ hl) hrole ?_ (hne _ hu), hcons _ hu⟩
      rintro rfl
      exact hpwait (hid ▸ hi)
    · intro q hq
      obtain ⟨hqu, hqturn, hqwait, hqrow⟩ := h.pending q (hsub q hq)
      refine ⟨hcons _ hqu, hqturn, hqwait, ?_⟩
      intro x hx hxid
      rcases hold.mp hx with hx | rfl
      · exact hqrow x hx hxid
      · exact absurd hxid (hne _ hqu)
  · push Not at hreply
    rw [insertAfter_of_not_mem hreply]
    exact h.weaken hsub hcons

theorem sound_take (h : Sound s) (length : Nat) : Sound { s with rows := s.rows.take length } := by
  have hmem : ∀ r ∈ s.rows.take length, r ∈ s.rows := fun r hr => List.mem_of_mem_take hr
  have hlast : ∀ {id}, LastReply s.rows id → LastReply (s.rows.take length) id := by
    intro id hl
    exact { role := fun r hr => hl.role r (hmem r hr), last := hl.last.sublist (List.take_sublist _ _) }
  refine { ids := ?_, used := fun r hr => h.used r (hmem r hr), checkpoints := fun r hr => h.checkpoints r (hmem r hr),
           mono := h.mono.sublist (List.take_sublist _ _), turn := ?_, waiting := ?_, pending := ?_ }
  · exact h.ids.sublist ((List.take_sublist _ _).map _)
  · intro t ht
    obtain ⟨hl, hu, hw, hiff⟩ := h.turn t ht
    exact ⟨hlast hl, hu, hw, fun r hr => hiff r (hmem r hr)⟩
  · intro i hi
    obtain ⟨hl, hu⟩ := h.waiting i hi
    exact ⟨hlast hl, hu⟩
  · intro p hp
    obtain ⟨hu, ht, hw, hrow⟩ := h.pending p hp
    exact ⟨hu, ht, hw, fun r hr => hrow r (hmem r hr)⟩

/-! ## Every step -/

theorem tainted_mark (hr : r ∈ update rows id ContextRow.mark) (hid : r.id = id) :
    r.Tainted := by
  obtain ⟨r₀, -, hi, -, -, ⟨_, rfl⟩ | ⟨hne, rfl⟩⟩ := exists_of_mem_update keeps_mark hr
  · rfl
  · exact absurd hid hne

theorem pending_update (h : Sound s) (hf : Keeps f)
    {p : PendingCompaction} (hp : p ∈ s.pending) (hne : id ≠ p.replyId) :
    ∀ r ∈ update s.rows id f, r.id = p.replyId → r.role = .assistant ∧ (r.Tainted ↔ p.trust = true) := by
  intro r hr hid
  exact (h.pending p hp).2.2.2 r (tainted_of_ne hf hr (by rw [hid]; exact hne.symm)) hid

theorem sound_say (h : Sound s) (hfresh : id ∉ s.used) (content : List Char) (untrustedIngress : Bool) :
    Sound { s with rows := s.rows ++ [userRow id content untrustedIngress], used := id :: s.used } := by
  have hne : ∀ {i}, i ∈ s.used → (userRow id content untrustedIngress).id ≠ i := by
    rintro i hi rfl
    exact hfresh hi
  refine sound_append h hfresh rfl (fun hrole => by cases hrole) s.turn s.waiting ?_ ?_ ?_
  · intro t ht
    obtain ⟨hl, hu, hw, hiff⟩ := h.turn t ht
    refine ⟨hl.append_user (hne hu) rfl, List.mem_cons_of_mem _ hu, hw, ?_⟩
    intro r hr hid
    rcases List.mem_append.mp hr with hr | hr
    · exact hiff r hr hid
    · rw [List.mem_singleton.mp hr] at hid
      exact absurd hid (hne hu)
  · intro i hi
    obtain ⟨hl, hu⟩ := h.waiting i hi
    exact ⟨hl.append_user (hne hu) rfl, List.mem_cons_of_mem _ hu⟩
  · intro p hp
    exact ⟨(h.pending p hp).2.1, (h.pending p hp).2.2.1⟩

theorem sound_start (h : Sound s) {replyId : Nat} (hfresh : replyId ∉ s.used) (clearToolsKeepLast : Option Nat) :
    Sound { s with
      rows := marked (s.rows ++ [replyRow replyId]) replyId (foldAssembledRows (buildModelContext s.rows clearToolsKeepLast))
      turn := some { replyId := replyId, seen := foldAssembledRows (buildModelContext s.rows clearToolsKeepLast) }
      waiting := none
      used := replyId :: s.used } := by
  have hflag := flag_iff h.ids h.mono h.checkpoints clearToolsKeepLast
  rw [marked_append h.used hfresh]
  generalize foldAssembledRows (buildModelContext s.rows clearToolsKeepLast) = seen at hflag ⊢
  have hrow : ContextRow.Tainted { replyRow replyId with untrustedIngress := some seen } ↔ seen = true := by
    simp [ContextRow.Tainted]
  refine @sound_append s h { replyRow replyId with untrustedIngress := some seen } hfresh rfl ?_
    (some { replyId := replyId, seen := seen }) none ?_ (fun i hi => by cases hi) ?_
  · intro _ htaint
    exact hrow.mpr (hflag.mpr htaint)
  · rintro t ht
    obtain rfl := Option.some.inj ht
    refine ⟨lastReply_fresh h.used hfresh rfl, List.mem_cons_self, rfl, ?_⟩
    intro r hr hid
    rcases List.mem_append.mp hr with hr | hr
    · have hin := h.used r hr
      rw [hid] at hin
      exact absurd hin hfresh
    · rw [List.mem_singleton.mp hr]
      exact hrow
  · intro p hp
    refine ⟨?_, fun hn => by cases hn⟩
    intro t ht hid
    obtain rfl := Option.some.inj ht
    have hin : p.replyId ∈ s.used := (h.pending p hp).1
    rw [← hid] at hin
    exact hfresh hin

theorem sound_resume (h : Sound s) {replyId : Nat} (hw : s.waiting = some replyId) (replayed : Bool) :
    Sound { s with
      rows := marked s.rows replyId replayed
      turn := some { replyId := replyId, seen := s.rows.any (fun r => r.id = replyId && r.untrustedIngress = some true) || replayed }
      waiting := none } := by
  obtain ⟨hl, hu⟩ := h.waiting replyId hw
  have hne : ∀ p ∈ s.pending, replyId ≠ p.replyId := by
    rintro p hp rfl
    exact (h.pending p hp).2.2.1 hw
  have hturn : ∀ (rows : List ContextRow) (seen : Bool), (∀ r ∈ rows, r.id = replyId → (r.Tainted ↔ seen = true)) →
      ∀ t : TaintRun, some { replyId := replyId, seen := seen } = some t → LastReply s.rows t.replyId ∧ t.replyId ∈ s.used ∧
        (none : Option Nat) = none ∧ ∀ r ∈ rows, r.id = t.replyId → (r.Tainted ↔ t.seen = true) := by
    intro rows seen hrows t ht
    obtain rfl := Option.some.inj ht
    exact ⟨hl, hu, rfl, hrows⟩
  cases replayed with
  | true =>
    refine sound_update h keeps_mark (mono_mark h.mono hl) _ none s.pending (hturn _ _ ?_) (fun i hi => by cases hi) ?_
    · intro r hr hid
      simp [tainted_mark hr hid]
    · intro p hp
      refine ⟨(h.pending p hp).1, ?_, fun hn => (by cases hn), pending_update h keeps_mark hp (hne p hp)⟩
      intro t ht
      obtain rfl := Option.some.inj ht
      exact hne p hp
  | false =>
    refine { ids := h.ids, used := h.used, checkpoints := h.checkpoints, mono := h.mono, turn := hturn _ _ ?_,
             waiting := fun i hi => (by cases hi), pending := ?_ }
    · intro r hr hid
      rw [Bool.or_false, List.any_eq_true]
      constructor
      · intro ht
        refine ⟨r, hr, ?_⟩
        rw [hid]
        simpa [ContextRow.Tainted] using ht
      · rintro ⟨r', hr', hr''⟩
        rw [Bool.and_eq_true, decide_eq_true_eq, decide_eq_true_eq] at hr''
        rw [List.inj_on_of_nodup_map h.ids hr hr' (hid.trans hr''.1.symm)]
        exact hr''.2
    · intro p hp
      refine ⟨(h.pending p hp).1, ?_, fun hn => (by cases hn), (h.pending p hp).2.2.2⟩
      intro t ht
      obtain rfl := Option.some.inj ht
      exact hne p hp

theorem sound_step {s' : PathState} {a : PathAct} (h : Sound s) (hs : step s a = some s') : Sound s' := by
  cases a with
  | say id content untrustedIngress =>
    simp only [step] at hs
    split at hs
    · next hfresh =>
      obtain rfl := Option.some.inj hs
      exact sound_say h hfresh content untrustedIngress
    · cases hs
  | start replyId clearToolsKeepLast =>
    simp only [step] at hs
    split at hs
    · next hg =>
      obtain rfl := Option.some.inj hs
      exact sound_start h hg.2 clearToolsKeepLast
    · cases hs
  | resume replyId clearToolsKeepLast =>
    simp only [step] at hs
    split at hs
    · next hg =>
      obtain rfl := Option.some.inj hs
      exact sound_resume h hg.2 _
    · cases hs
  | ingest =>
    obtain ⟨t, ht, rfl⟩ := Option.map_eq_some_iff.mp hs
    obtain ⟨hl, hu, hw, _⟩ := h.turn t ht
    refine sound_update h keeps_mark (mono_mark h.mono hl) _ s.waiting s.pending ?_ h.waiting ?_
    · intro t' ht'
      obtain rfl := Option.some.inj ht'
      refine ⟨hl, hu, hw, ?_⟩
      intro r hr hid
      simp [tainted_mark hr hid]
    · intro p hp
      have hne := (h.pending p hp).2.1 t ht
      refine ⟨(h.pending p hp).1, ?_, (h.pending p hp).2.2.1, pending_update h keeps_mark hp hne⟩
      intro t' ht'
      obtain rfl := Option.some.inj ht'
      exact hne
  | write parts =>
    obtain ⟨t, ht, rfl⟩ := Option.map_eq_some_iff.mp hs
    obtain ⟨hl, hu, hw, hiff⟩ := h.turn t ht
    refine sound_update h (keeps_withParts parts) (mono_withParts h.mono) s.turn s.waiting s.pending ?_ h.waiting ?_
    · intro t' ht'
      obtain rfl := Option.some.inj (ht.symm.trans ht')
      refine ⟨hl, hu, hw, ?_⟩
      intro r hr hid
      obtain ⟨r₀, hr₀, hi, -, -, ⟨_, rfl⟩ | ⟨_, rfl⟩⟩ := exists_of_mem_update (keeps_withParts parts) hr
      · exact hiff r₀ hr₀ hid
      · exact hiff r hr₀ hid
    · intro p hp
      have hne := (h.pending p hp).2.1 t ht
      exact ⟨(h.pending p hp).1, (h.pending p hp).2.1, (h.pending p hp).2.2.1, pending_update h (keeps_withParts parts) hp hne⟩
  | suspend =>
    obtain ⟨t, ht, rfl⟩ := Option.map_eq_some_iff.mp hs
    obtain ⟨hl, hu, -, -⟩ := h.turn t ht
    refine { ids := h.ids, used := h.used, checkpoints := h.checkpoints, mono := h.mono, turn := fun t' ht' => (by cases ht'),
             waiting := ?_, pending := ?_ }
    · intro i hi
      obtain rfl := Option.some.inj hi
      exact ⟨hl, hu⟩
    · intro p hp
      obtain ⟨hpu, hpt, -, hrow⟩ := h.pending p hp
      refine ⟨hpu, fun t' ht' => (by cases ht'), ?_, hrow⟩
      intro hi
      exact hpt t ht (Option.some.inj hi)
  | finish compact =>
    obtain ⟨t, ht, rfl⟩ := Option.map_eq_some_iff.mp hs
    obtain ⟨hl, hu, hw, hiff⟩ := h.turn t ht
    refine { ids := h.ids, used := h.used, checkpoints := h.checkpoints, mono := h.mono, turn := fun t' ht' => (by cases ht'),
             waiting := h.waiting, pending := ?_ }
    intro p hp
    have hp : p = { replyId := t.replyId, trust := t.seen } ∨ p ∈ s.pending := by
      dsimp only at hp
      split at hp
      · exact List.mem_cons.mp hp
      · exact Or.inr hp
    rcases hp with rfl | hp
    · refine ⟨hu, fun t' ht' => (by cases ht'), ?_, ?_⟩
      · dsimp only
        rw [hw]
        exact fun hn => by cases hn
      · intro r hr hid
        exact ⟨hl.role r hr hid, hiff r hr hid⟩
    · obtain ⟨hpu, -, hpw, hrow⟩ := h.pending p hp
      exact ⟨hpu, fun t' ht' => (by cases ht'), hpw, hrow⟩
  | splice replyId checkpointId summary =>
    simp only [step] at hs
    split at hs
    · next p hp =>
      split at hs
      · next hfresh =>
        obtain rfl := Option.some.inj hs
        have hid : p.replyId = replyId := by simpa using List.find?_some hp
        rw [← hid]
        exact sound_splice h (List.mem_of_find?_eq_some hp) hfresh summary
      · cases hs
    · cases hs
  | branch length =>
    obtain rfl := Option.some.inj hs
    exact sound_take h length
  | copy length =>
    obtain rfl := Option.some.inj hs
    have ht := sound_take h length
    exact { ids := ht.ids, used := ht.used, checkpoints := ht.checkpoints, mono := ht.mono, turn := fun t' ht' => (by cases ht'),
            waiting := fun i hi => (by cases hi), pending := fun p hp => (by cases hp) }

end TaintAux

open TaintAux

namespace TaintRuns

/-- A chat without rows. -/
def new : PathState where
  rows := []
  turn := none
  waiting := none
  pending := []
  used := []

/-- A hook's event is answered, a plain message and its answer follow, and only then the first answer's checkpoint lands. -/
def acts : List PathAct :=
  [.say 1 ['!'] true, .start 2 none, .finish true, .say 3 ['?'] false, .start 4 none, .finish false, .splice 2 5 "recap"]

end TaintRuns

open TaintRuns

end Capka

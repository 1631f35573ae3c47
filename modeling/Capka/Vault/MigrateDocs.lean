import Capka.Lib.Steps
import Capka.Vault.DedupKey
import Capka.Vault.Text

/-!
# Carrying a memory document over

A memory document becomes facts, one for each line, in passes by several instances. A pass is a transaction that holds the document's row from
the statement that stamps it, and looks up each line by its hash before it writes it. Whatever happens to the facts besides, no pass writes a
line twice; where nobody else touches them, each line ends up as one fact, or as many as there were.
-/

namespace Capka

namespace MigrateDocs

open Ecma VaultText

/-- SHA-256, and the letter case of JavaScript. -/
structure HashEnv where
  sha256 : Units → Units
  toLowerCase : Units → Units

/-- A row of `memory_docs`. -/
structure MemoryDoc where
  content : String
  migratedAt : Option Nat
  updatedAt : Option Nat

/-- A row of `vault_claims`; one from before there was the hash has none. -/
structure FactRow where
  id : String
  spaceId : String
  statement : String
  normalizedHash : Option Units
  supersededAt : Option Nat
  retiredAt : Option Nat

/-! ## The lines -/

/-- `replace(/^[-*]\s*/, "")`. -/
def stripMarker : List Char → List Char
  | [] => []
  | c :: rest => if c = '-' || c = '*' then rest.dropWhile isSpace else c :: rest

/-- The statement of a line. -/
def bulletOf (line : List Char) : String := fitStatement (String.ofList (trimBy isSpace (stripMarker (trimBy isSpace line))))

/-- The statements of a document; a line that says nothing is none. -/
def bullets (content : String) : List String := ((content.toList.splitOn '\n').map bulletOf).filter fun b => !b.isEmpty

/-- `normalizedHashOf` of a statement without a value. -/
def hashOf (H : HashEnv) (statement : String) : Units :=
  Vault.normalizedHashOf H.sha256 H.toLowerCase (ofString (fitStatement statement)) none

/-- The fact is live in the space, not retired, and stored under the hash. -/
def FactRow.carries (spaceId : String) (hash : Units) (r : FactRow) : Bool :=
  r.spaceId = spaceId && r.normalizedHash = some hash && r.supersededAt = none && r.retiredAt = none

/-- `findExactDuplicate` finds a fact. -/
def findExactDuplicate (H : HashEnv) (spaceId statement : String) (facts : List FactRow) : Bool :=
  facts.any (FactRow.carries spaceId (hashOf H statement))

/-- The row that `createClaim` writes. -/
def newFact (H : HashEnv) (spaceId statement id : String) : FactRow where
  id := id
  spaceId := spaceId
  statement := fitStatement statement
  normalizedHash := some (hashOf H statement)
  supersededAt := none
  retiredAt := none

/-! ## The passes -/

/-- `notCarried`: never stamped, or written since. -/
def MemoryDoc.notCarried (d : MemoryDoc) : Bool :=
  match d.migratedAt with
  | none => true
  | some stamp => d.updatedAt.any fun updated => stamp < updated

/-- `MAX_ATTEMPTS`. -/
def maxAttempts : Nat := 5

/-- The transaction that holds the document's row: the lines that are left, and the facts it wrote. The facts there were, the hashes it found
among them, and whether nobody else touched them are on record for the statements only. -/
structure Pass where
  worker : Nat
  stamp : Nat
  left : List String
  own : List FactRow
  base : List FactRow
  met : List Units
  alone : Bool

/-- The document, its space and the facts; how often in a row each instance failed with the document, and the transactions that wait for its
row, each with the time it began at. -/
structure MigrationDb where
  doc : MemoryDoc
  spaceLive : Bool
  facts : List FactRow
  events : List Nat
  failures : Nat → Nat
  started : List (Nat × Nat)
  holder : Option Pass

/-- What happens: an older version writes the document, whoever else writes the facts, the space is retired, an instance begins anew, or a
transaction takes its next step. -/
inductive MigrationAct where
  | write (content : String) (updatedAt : Option Nat)
  | others (facts : List FactRow)
  | retire
  | restart (worker : Nat)
  | start (worker now : Nat)
  | take (worker now : Nat)
  | line (id : String)
  | commit
  | fail

namespace MigrationDb

/-- The instance's waiting transactions are gone. -/
def forget (worker : Nat) (db : MigrationDb) : MigrationDb := { db with started := db.started.filter fun s => s.1 ≠ worker }

/-- The statement that stamps the document, behind the lock of its row, and the fence of the space. -/
def take (worker now : Nat) (db : MigrationDb) : MigrationDb :=
  let failures := Function.update db.failures worker 0
  let started := db.started.filter fun s => !(s.1 = worker && s.2 = now)
  if !db.doc.notCarried then { db with failures, started }
  else if !db.spaceLive then { db with failures, started, doc := { db.doc with migratedAt := some now } }
  else
    { db with
      started
      holder := some
        { worker, stamp := now, left := bullets db.doc.content, own := [], base := db.facts, met := [], alone := true } }

/-- The next line of the pass. -/
def carry (H : HashEnv) (spaceId id statement : String) (left : List String) (p : Pass) (db : MigrationDb) : Pass :=
  if findExactDuplicate H spaceId statement (db.facts ++ p.own) then
    { p with
      left
      met := if findExactDuplicate H spaceId statement db.facts then hashOf H statement :: p.met else p.met }
  else { p with left, own := p.own ++ [newFact H spaceId statement id] }

def step (H : HashEnv) (spaceId : String) (db : MigrationDb) : MigrationAct → Option MigrationDb
  | .write content updatedAt =>
    match db.holder with
    | some _ => none
    | none => some { db with doc := { db.doc with content, updatedAt } }
  | .others facts => some { db with facts, holder := db.holder.map fun p => { p with alone := false } }
  | .retire =>
    match db.holder with
    | some _ => none
    | none => some { db with spaceLive := false }
  | .restart worker =>
    some
      { (db.forget worker) with
        failures := Function.update db.failures worker 0
        holder := db.holder.filter fun p => p.worker ≠ worker }
  | .start worker now => if db.failures worker < maxAttempts then some { db with started := (worker, now) :: db.started } else none
  | .take worker now =>
    match db.holder with
    | some _ => none
    | none => if db.started.any fun s => s.1 = worker && s.2 = now then some (db.take worker now) else none
  | .line id =>
    match db.holder with
    | none => none
    | some p =>
      match p.left with
      | [] => none
      | statement :: left => some { db with holder := some (carry H spaceId id statement left p db) }
  | .commit =>
    match db.holder with
    | none => none
    | some p =>
      match p.left with
      | _ :: _ => none
      | [] =>
        some
          { db with
            doc := { db.doc with migratedAt := some p.stamp }
            facts := db.facts ++ p.own
            events := db.events ++ [(bullets db.doc.content).length]
            failures := Function.update db.failures p.worker 0
            holder := none }
  | .fail =>
    match db.holder with
    | none => none
    | some p => some { db with failures := Function.update db.failures p.worker (db.failures p.worker + 1), holder := none }

end MigrationDb

/-! ## What is promised -/

/-- How many live facts of the space are stored under the hash. -/
def count (spaceId : String) (hash : Units) (facts : List FactRow) : Nat := facts.countP (FactRow.carries spaceId hash)

/-- The words of the statement are those of the line, and the fact is live in the space. -/
def FactRow.tells (H : HashEnv) (spaceId line : String) (r : FactRow) : Bool :=
  r.spaceId = spaceId && r.supersededAt = none && r.retiredAt = none &&
    Vault.dedupKeyNorm H.toLowerCase (ofString r.statement) = Vault.dedupKeyNorm H.toLowerCase (ofString line)

/-- What is known of a pass: the lines it is through with were there or are written, and no hash is written twice. -/
structure PassOk (H : HashEnv) (spaceId : String) (db : MigrationDb) (p : Pass) (done : List String) : Prop where
  lines : bullets db.doc.content = done ++ p.left
  held : ∀ b ∈ done, hashOf H b ∈ p.met ∨ ∃ r ∈ p.own, r.carries spaceId (hashOf H b) = true
  written : ∀ r ∈ p.own, ∃ b ∈ done, ∃ id, r = newFact H spaceId b id
  once : (p.own.map FactRow.normalizedHash).Nodup
  base : p.alone = true → db.facts = p.base
  found : p.alone = true → ∀ hash ∈ p.met, count spaceId hash p.base ≠ 0
  fresh : p.alone = true → ∀ r ∈ p.own, ∀ hash ∈ r.normalizedHash, count spaceId hash p.base = 0

/-- What is known of the database: the pass that holds the document is as it should be. -/
def DbOk (H : HashEnv) (spaceId : String) (db : MigrationDb) : Prop := ∀ p ∈ db.holder, ∃ done, PassOk H spaceId db p done

namespace MigrateAux

variable {H : HashEnv} {spaceId : String} {db : MigrationDb}

theorem find_iff {statement : String} {facts : List FactRow} :
    findExactDuplicate H spaceId statement facts = true ↔ count spaceId (hashOf H statement) facts ≠ 0 := by
  rw [findExactDuplicate, count, List.any_eq_true, ← Nat.pos_iff_ne_zero, List.countP_pos_iff]

theorem carries_newFact (statement id : String) : (newFact H spaceId statement id).carries spaceId (hashOf H statement) = true := by
  simp [FactRow.carries, newFact]

theorem hash_of_carries {hash : Units} {r : FactRow} (h : r.carries spaceId hash = true) : r.normalizedHash = some hash := by
  simp only [FactRow.carries, Bool.and_eq_true, decide_eq_true_eq] at h
  exact h.1.1.2

theorem passOk_take (worker now : Nat) :
    PassOk H spaceId db
      { worker, stamp := now, left := bullets db.doc.content, own := [], base := db.facts, met := [], alone := true } [] where
  lines := rfl
  held := fun _ hb => absurd hb List.not_mem_nil
  written := fun _ hr => absurd hr List.not_mem_nil
  once := List.nodup_nil
  base := fun _ => rfl
  found := fun _ _ hh => absurd hh List.not_mem_nil
  fresh := fun _ _ hr => absurd hr List.not_mem_nil

theorem passOk_known {p : Pass} {done left : List String} {statement : String} (h : PassOk H spaceId db p done)
    (hleft : p.left = statement :: left) (hknown : findExactDuplicate H spaceId statement (db.facts ++ p.own) = true) :
    PassOk H spaceId db
      { p with
        left
        met := if findExactDuplicate H spaceId statement db.facts then hashOf H statement :: p.met else p.met }
      (done ++ [statement]) where
  lines := by rw [h.lines, hleft, List.append_assoc, List.singleton_append]
  held := by
    intro b hb
    rcases List.mem_append.1 hb with hb | hb
    · rcases h.held b hb with hmet | hown
      · refine .inl ?_
        split
        · exact List.mem_cons_of_mem _ hmet
        · exact hmet
      · exact .inr hown
    · obtain rfl := List.mem_singleton.1 hb
      by_cases hfacts : findExactDuplicate H spaceId b db.facts = true
      · refine .inl ?_
        rw [if_pos hfacts]
        exact List.mem_cons_self
      · refine .inr ?_
        rw [findExactDuplicate, List.any_append, Bool.or_eq_true] at hknown
        obtain ⟨r, hr, hcarries⟩ := List.any_eq_true.1 (hknown.resolve_left hfacts)
        exact ⟨r, hr, hcarries⟩
  written := by
    intro r hr
    obtain ⟨b, hb, hnew⟩ := h.written r hr
    exact ⟨b, List.mem_append_left _ hb, hnew⟩
  once := h.once
  base := h.base
  found := by
    intro halone hash hmem
    dsimp only at hmem
    split at hmem
    · rename_i hfacts
      rcases List.mem_cons.1 hmem with rfl | hmem
      · rw [h.base halone] at hfacts
        exact find_iff.1 hfacts
      · exact h.found halone hash hmem
    · exact h.found halone hash hmem
  fresh := h.fresh

theorem passOk_new {p : Pass} {done left : List String} {statement : String} (id : String) (h : PassOk H spaceId db p done)
    (hleft : p.left = statement :: left) (hnew : ¬findExactDuplicate H spaceId statement (db.facts ++ p.own) = true) :
    PassOk H spaceId db { p with left, own := p.own ++ [newFact H spaceId statement id] } (done ++ [statement]) where
  lines := by rw [h.lines, hleft, List.append_assoc, List.singleton_append]
  held := by
    intro b hb
    rcases List.mem_append.1 hb with hb | hb
    · rcases h.held b hb with hmet | ⟨r, hr, hcarries⟩
      · exact .inl hmet
      · exact .inr ⟨r, List.mem_append_left _ hr, hcarries⟩
    · obtain rfl := List.mem_singleton.1 hb
      exact .inr ⟨_, List.mem_append_right _ (List.mem_singleton.2 rfl), carries_newFact b id⟩
  written := by
    intro r hr
    rcases List.mem_append.1 hr with hr | hr
    · obtain ⟨b, hb, hrow⟩ := h.written r hr
      exact ⟨b, List.mem_append_left _ hb, hrow⟩
    · obtain rfl := List.mem_singleton.1 hr
      exact ⟨statement, List.mem_append_right _ (List.mem_singleton.2 rfl), id, rfl⟩
  once := by
    rw [List.map_append, List.map_singleton, List.nodup_append]
    refine ⟨h.once, List.nodup_singleton _, fun x hx y hy hxy => ?_⟩
    obtain ⟨r, hr, rfl⟩ := List.mem_map.1 hx
    obtain rfl := List.mem_singleton.1 hy
    -- A fact of the pass under that hash would have been found.
    obtain ⟨b, -, i, rfl⟩ := h.written r hr
    have hhash : hashOf H b = hashOf H statement := Option.some.inj hxy
    refine hnew (List.any_eq_true.2 ⟨_, List.mem_append_right _ hr, ?_⟩)
    rw [← hhash]
    exact carries_newFact b i
  base := h.base
  found := h.found
  fresh := by
    intro halone r hr hash hhash
    rcases List.mem_append.1 hr with hr | hr
    · exact h.fresh halone r hr hash hhash
    · obtain rfl := List.mem_singleton.1 hr
      obtain rfl := Option.some.inj hhash
      by_contra hne
      refine hnew ?_
      have hfacts := find_iff.2 (h.base halone ▸ hne)
      rw [findExactDuplicate, List.any_append, Bool.or_eq_true]
      exact .inl hfacts

theorem dbOk_step {db' : MigrationDb} {a : MigrationAct} (hI : DbOk H spaceId db) (h : db.step H spaceId a = some db') :
    DbOk H spaceId db' := by
  cases a with
  | write content updatedAt | retire =>
    simp only [MigrationDb.step] at h
    split at h
    · cases h
    · rename_i hholder
      obtain rfl := Option.some.inj h
      intro p hp
      rw [hholder] at hp
      cases hp
  | others facts =>
    obtain rfl := Option.some.inj h
    intro p hp
    obtain ⟨q, hq, rfl⟩ := Option.map_eq_some_iff.1 hp
    obtain ⟨done, hok⟩ := hI q hq
    exact ⟨done, hok.lines, hok.held, hok.written, hok.once, nofun, nofun, nofun⟩
  | restart worker =>
    obtain rfl := Option.some.inj h
    intro p hp
    obtain ⟨done, hok⟩ := hI p (Option.filter_eq_some_iff.1 hp).1
    exact ⟨done, hok.lines, hok.held, hok.written, hok.once, hok.base, hok.found, hok.fresh⟩
  | start worker now =>
    simp only [MigrationDb.step] at h
    split at h
    · obtain rfl := Option.some.inj h
      intro p hp
      obtain ⟨done, hok⟩ := hI p hp
      exact ⟨done, hok.lines, hok.held, hok.written, hok.once, hok.base, hok.found, hok.fresh⟩
    · cases h
  | take worker now =>
    simp only [MigrationDb.step] at h
    split at h
    · cases h
    rename_i hholder
    split at h
    · obtain rfl := Option.some.inj h
      intro p hp
      simp only [MigrationDb.take] at hp ⊢
      split_ifs at hp ⊢
      · rw [hholder] at hp
        cases hp
      · rw [hholder] at hp
        cases hp
      · obtain rfl := Option.some.inj hp
        obtain ⟨hlines, hheld, hwritten, honce, hbase, hfound, hfresh⟩ := @passOk_take H spaceId db worker now
        exact ⟨[], hlines, hheld, hwritten, honce, hbase, hfound, hfresh⟩
    · cases h
  | line id =>
    simp only [MigrationDb.step] at h
    split at h
    · cases h
    rename_i p hholder
    split at h
    · cases h
    rename_i statement left hleft
    obtain rfl := Option.some.inj h
    intro q hq
    obtain rfl := Option.some.inj hq
    obtain ⟨done, hok⟩ := hI p hholder
    unfold MigrationDb.carry
    split
    · rename_i hknown
      obtain ⟨hlines, hheld, hwritten, honce, hbase, hfound, hfresh⟩ := passOk_known hok hleft hknown
      exact ⟨_, hlines, hheld, hwritten, honce, hbase, hfound, hfresh⟩
    · rename_i hnew
      obtain ⟨hlines, hheld, hwritten, honce, hbase, hfound, hfresh⟩ := passOk_new id hok hleft hnew
      exact ⟨_, hlines, hheld, hwritten, honce, hbase, hfound, hfresh⟩
  | commit =>
    simp only [MigrationDb.step] at h
    split at h
    · cases h
    split at h
    · cases h
    · obtain rfl := Option.some.inj h
      intro p hp
      cases hp
  | fail =>
    simp only [MigrationDb.step] at h
    split at h
    · cases h
    · obtain rfl := Option.some.inj h
      intro p hp
      cases hp

theorem commit_eq {db' : MigrationDb} (h : db.step H spaceId .commit = some db') :
    ∃ p, db.holder = some p ∧ p.left = [] ∧
      db' = { db with
        doc := { db.doc with migratedAt := some p.stamp }
        facts := db.facts ++ p.own
        events := db.events ++ [(bullets db.doc.content).length]
        failures := Function.update db.failures p.worker 0
        holder := none } := by
  simp only [MigrationDb.step] at h
  split at h
  · cases h
  rename_i p hholder
  split at h
  · cases h
  · rename_i hleft
    obtain rfl := Option.some.inj h
    exact ⟨p, hholder, hleft, rfl⟩

theorem count_own {p : Pass} {done : List String} (h : PassOk H spaceId db p done) (hash : Units) :
    count spaceId hash p.own = if ∃ r ∈ p.own, r.carries spaceId hash = true then 1 else 0 := by
  split
  · rename_i hex
    have hpos : 0 < count spaceId hash p.own := List.countP_pos_iff.2 hex
    have hle : count spaceId hash p.own ≤ (p.own.map FactRow.normalizedHash).count (some hash) := by
      rw [count, List.count, List.countP_map]
      exact List.countP_mono_left fun r _ hr => beq_iff_eq.2 (hash_of_carries hr)
    have hone := List.nodup_iff_count_le_one.1 h.once (some hash)
    omega
  · rename_i hnone
    exact List.countP_eq_zero.2 fun r hr hcarries => hnone ⟨r, hr, hcarries⟩

theorem count_through {p : Pass} (h : PassOk H spaceId db p (bullets db.doc.content)) (halone : p.alone = true) (hash : Units) :
    count spaceId hash (db.facts ++ p.own) =
      if ∃ b ∈ bullets db.doc.content, hashOf H b = hash then max (count spaceId hash p.base) 1 else count spaceId hash p.base := by
  have happend : count spaceId hash (db.facts ++ p.own) = count spaceId hash p.base + count spaceId hash p.own := by
    rw [count, List.countP_append, h.base halone, count, count]
  rw [happend, count_own h]
  by_cases hline : ∃ b ∈ bullets db.doc.content, hashOf H b = hash
  · rw [if_pos hline]
    obtain ⟨b, hb, rfl⟩ := hline
    by_cases hown : ∃ r ∈ p.own, r.carries spaceId (hashOf H b) = true
    · obtain ⟨r, hr, hcarries⟩ := hown
      rw [if_pos ⟨r, hr, hcarries⟩, h.fresh halone r hr _ (hash_of_carries hcarries)]
      rfl
    · have hbase := h.found halone _ ((h.held b hb).resolve_right hown)
      rw [if_neg hown]
      omega
  · have hown : ¬∃ r ∈ p.own, r.carries spaceId hash = true := by
      rintro ⟨r, hr, hcarries⟩
      obtain ⟨b, hb, id, rfl⟩ := h.written r hr
      exact hline ⟨b, hb, Option.some.inj (hash_of_carries hcarries)⟩
    rw [if_neg hline, if_neg hown, Nat.add_zero]

end MigrateAux

/-- Nobody writes the document or touches the facts. -/
def Quiet (_ : MigrationDb) : MigrationAct → Prop
  | .write _ _ | .others _ => False
  | .retire | .restart _ | .start _ _ | .take _ _ | .line _ | .commit | .fail => True

/-- A document and facts that have nothing to carry over: each line is there, and what holds the document writes nothing. -/
structure Settled (H : HashEnv) (spaceId : String) (content : String) (facts : List FactRow) (db : MigrationDb) : Prop where
  text : db.doc.content = content
  rows : db.facts = facts
  idle : ∀ p ∈ db.holder, p.own = [] ∧ ∀ b ∈ p.left, b ∈ bullets content

namespace MigrateAux

variable {H : HashEnv} {spaceId content : String} {facts : List FactRow} {db : MigrationDb}

theorem settled_step {db' : MigrationDb} {a : MigrationAct} (hheld : ∀ b ∈ bullets content, count spaceId (hashOf H b) facts ≠ 0)
    (hI : Settled H spaceId content facts db) (hquiet : Quiet db a) (h : db.step H spaceId a = some db') :
    Settled H spaceId content facts db' := by
  cases a with
  | write _ _ | others _ => exact hquiet.elim
  | retire =>
    simp only [MigrationDb.step] at h
    split at h
    · cases h
    · obtain rfl := Option.some.inj h
      exact ⟨hI.text, hI.rows, hI.idle⟩
  | restart worker =>
    obtain rfl := Option.some.inj h
    exact ⟨hI.text, hI.rows, fun p hp => hI.idle p (Option.filter_eq_some_iff.1 hp).1⟩
  | start worker now =>
    simp only [MigrationDb.step] at h
    split at h
    · obtain rfl := Option.some.inj h
      exact ⟨hI.text, hI.rows, hI.idle⟩
    · cases h
  | take worker now =>
    simp only [MigrationDb.step] at h
    split at h
    · cases h
    split at h
    · obtain rfl := Option.some.inj h
      unfold MigrationDb.take
      dsimp only
      split_ifs
      · exact ⟨hI.text, hI.rows, hI.idle⟩
      · exact ⟨hI.text, hI.rows, hI.idle⟩
      · refine ⟨hI.text, hI.rows, fun p hp => ?_⟩
        obtain rfl := Option.some.inj hp
        exact ⟨rfl, fun b hb => hI.text ▸ hb⟩
    · cases h
  | line id =>
    simp only [MigrationDb.step] at h
    split at h
    · cases h
    rename_i p hholder
    split at h
    · cases h
    rename_i statement left hleft
    obtain rfl := Option.some.inj h
    obtain ⟨hown, hlines⟩ := hI.idle p hholder
    have hknown : findExactDuplicate H spaceId statement (db.facts ++ p.own) = true := by
      rw [hown, List.append_nil, hI.rows]
      exact find_iff.2 (hheld statement (hlines statement (hleft ▸ List.mem_cons_self)))
    refine ⟨hI.text, hI.rows, fun q hq => ?_⟩
    obtain rfl := Option.some.inj hq
    rw [MigrationDb.carry, if_pos hknown]
    exact ⟨hown, fun b hb => hlines b (hleft ▸ List.mem_cons_of_mem _ hb)⟩
  | commit =>
    obtain ⟨p, hholder, -, rfl⟩ := commit_eq h
    refine ⟨hI.text, ?_, nofun⟩
    change db.facts ++ p.own = facts
    rw [(hI.idle p hholder).1, List.append_nil, hI.rows]
  | fail =>
    simp only [MigrationDb.step] at h
    split at h
    · cases h
    · obtain rfl := Option.some.inj h
      exact ⟨hI.text, hI.rows, nofun⟩

/-- Where the document was not written since its stamp, nothing is written at all. -/
theorem done_step {doc : MemoryDoc} {events : List Nat} {db' : MigrationDb} {a : MigrationAct} (hdoc : doc.notCarried = false)
    (hI : db.doc = doc ∧ db.events = events ∧ db.holder = none) (hquiet : Quiet db a) (h : db.step H spaceId a = some db') :
    db'.doc = doc ∧ db'.events = events ∧ db'.holder = none := by
  obtain ⟨rfl, rfl, hholder⟩ := hI
  cases a with
  | write _ _ | others _ => exact hquiet.elim
  | retire =>
    simp only [MigrationDb.step, hholder] at h
    obtain rfl := Option.some.inj h
    exact ⟨rfl, rfl, rfl⟩
  | restart worker =>
    obtain rfl := Option.some.inj h
    refine ⟨rfl, rfl, ?_⟩
    simp only [hholder, Option.filter_none]
  | start worker now =>
    simp only [MigrationDb.step] at h
    split at h
    · obtain rfl := Option.some.inj h
      exact ⟨rfl, rfl, hholder⟩
    · cases h
  | take worker now =>
    simp only [MigrationDb.step, hholder] at h
    split at h
    · obtain rfl := Option.some.inj h
      have htake : (db.take worker now).doc = db.doc ∧ (db.take worker now).events = db.events ∧
          (db.take worker now).holder = db.holder := by
        unfold MigrationDb.take
        rw [hdoc]
        exact ⟨rfl, rfl, rfl⟩
      exact ⟨htake.1, htake.2.1, htake.2.2.trans hholder⟩
    · cases h
  | line id | commit | fail =>
    simp only [MigrationDb.step, hholder] at h
    cases h

end MigrateAux

/-- After any history, a pass that is through has put behind the facts one fact for each hash of a line that it did not find, and nothing
else. Where nobody touched the facts meanwhile, each line's hash has one fact, or the facts it had. From then on passes write no fact, and
where the document was not written since the pass began they write nothing. -/
theorem carried_over {H : HashEnv} {spaceId : String} {start db db' : MigrationDb} (hstart : start.holder = none)
    (hrun : Steps.Reaches (MigrationDb.step H spaceId) Steps.Free start db) (h : db.step H spaceId .commit = some db') :
    ∃ p, db.holder = some p ∧ db'.facts = db.facts ++ p.own ∧ (p.own.map FactRow.normalizedHash).Nodup ∧
      (∀ r ∈ p.own, ∃ b ∈ bullets db.doc.content, ∃ id, r = newFact H spaceId b id) ∧
      (∀ b ∈ bullets db.doc.content, hashOf H b ∈ p.met ∨ ∃ r ∈ p.own, r.carries spaceId (hashOf H b) = true) ∧
      (p.alone = true →
        (∀ hash, count spaceId hash db'.facts =
          if ∃ b ∈ bullets db.doc.content, hashOf H b = hash then max (count spaceId hash p.base) 1 else count spaceId hash p.base) ∧
        ∀ later, Steps.Reaches (MigrationDb.step H spaceId) Quiet db' later →
          later.facts = db'.facts ∧ (db'.doc.notCarried = false → later.doc = db'.doc ∧ later.events = db'.events)) := by
  have hok : DbOk H spaceId db := hrun.invariant (fun _ _ _ hI _ hx => MigrateAux.dbOk_step hI hx) fun p hp => by
    rw [hstart] at hp
    cases hp
  obtain ⟨p, hholder, hleft, rfl⟩ := MigrateAux.commit_eq h
  obtain ⟨done, hp⟩ := hok p hholder
  obtain rfl : done = bullets db.doc.content := by rw [hp.lines, hleft, List.append_nil]
  refine ⟨p, hholder, rfl, hp.once, hp.written, hp.held, fun halone => ⟨MigrateAux.count_through hp halone, fun later hlater => ⟨?_, ?_⟩⟩⟩
  · have hheld : ∀ b ∈ bullets db.doc.content, count spaceId (hashOf H b) (db.facts ++ p.own) ≠ 0 := by
      intro b hb
      rw [MigrateAux.count_through hp halone, if_pos ⟨b, hb, rfl⟩]
      omega
    have hsettled := hlater.invariant (I := Settled H spaceId db.doc.content (db.facts ++ p.own))
      (fun _ _ _ hI hquiet hx => MigrateAux.settled_step hheld hI hquiet hx) ⟨rfl, rfl, nofun⟩
    exact hsettled.rows
  · intro hcarried
    have hdone := hlater.invariant (fun _ _ _ hI hquiet hx => MigrateAux.done_step hcarried hI hquiet hx) ⟨rfl, rfl, rfl⟩
    exact ⟨hdone.1, hdone.2.1⟩

/-- Texts that are their own hash, in one letter case. -/
def plain : HashEnv where
  sha256 := id
  toLowerCase := id

/-- A document over facts, before any pass. -/
def untouched (content : String) (facts : List FactRow) : MigrationDb where
  doc := { content, migratedAt := none, updatedAt := some 1 }
  spaceLive := true
  facts := facts
  events := []
  failures := fun _ => 0
  started := []
  holder := none

/-- A fact from before there was the hash. -/
def older : FactRow where
  id := "a"
  spaceId := "s"
  statement := "Likes tea"
  normalizedHash := none
  supersededAt := none
  retiredAt := none

/-- A line twice, and one that is there: one fact more. -/
theorem carried_over_twice : ∃ (db db' : MigrationDb) (p : Pass), db.holder = some p ∧ (bullets db.doc.content).length = 3 ∧ p.own.length = 1 ∧
    db'.facts = db.facts ++ p.own ∧ ∀ hash, count "s" hash db'.facts =
      if ∃ b ∈ bullets db.doc.content, hashOf plain b = hash then max (count "s" hash p.base) 1 else count "s" hash p.base := by
  obtain ⟨db, hrun, hlines, hstep, halone⟩ := Steps.exists_of_exec (MigrationDb.step plain "s")
    (untouched "- Likes tea\n* Likes tea\nHas a dog" [newFact plain "s" "Has a dog" "a"])
    [.start 0 5, .start 1 5, .take 0 5, .line "b", .fail, .take 1 5, .line "c", .line "d", .line "e"]
    (P := fun db => (bullets db.doc.content).length = 3 ∧ (db.step plain "s" .commit).isSome = true ∧
      db.holder.all (fun p => p.alone && p.own.length == 1) = true) (by decide +kernel)
  obtain ⟨db', hcommit⟩ := Option.isSome_iff_exists.1 hstep
  obtain ⟨p, hholder, hfacts, -, -, -, hquiet⟩ := carried_over rfl hrun hcommit
  rw [hholder, Option.all_some, Bool.and_eq_true, beq_iff_eq] at halone
  exact ⟨db, db', p, hholder, hlines, halone.2, hfacts, (hquiet halone.1).1⟩

/-- A line with the words of a fact that has no hash is there twice. -/
theorem carried_over_false : ¬∀ (H : HashEnv) (spaceId : String) (start db db' : MigrationDb), start.holder = none →
    Steps.Reaches (MigrationDb.step H spaceId) Steps.Free start db → db.step H spaceId .commit = some db' →
    ∀ b ∈ bullets db.doc.content, db'.facts.countP (FactRow.tells H spaceId b) = 1 := by
  intro h
  obtain ⟨db, hrun, hline, htwice⟩ := Steps.exists_of_exec (MigrationDb.step plain "s") (untouched "- Likes tea" [older])
    [.start 0 5, .take 0 5, .line "b"]
    (P := fun db => "Likes tea" ∈ bullets db.doc.content ∧
      (db.step plain "s" .commit).map (fun t => t.facts.countP (FactRow.tells plain "s" "Likes tea")) = some 2) (by decide +kernel)
  obtain ⟨db', hcommit, hcount⟩ := Option.map_eq_some_iff.1 htwice
  have hone := h plain "s" _ db db' rfl hrun hcommit "Likes tea" hline
  omega

end MigrateDocs

end Capka

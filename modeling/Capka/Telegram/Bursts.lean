import Mathlib
import Capka.Lib.Json
import Capka.Lib.Search
import Capka.Lib.Steps
import Capka.Lib.Table

/-!
# Bursts of messages

The pieces that a sender types in a chat one after the other are held and handed on as one batch: when a while passes without one, at the
latest a while after the first, at once when they are many or long, and when a caller asks. A batch is out of the buffer before it is handed
on, so what comes meanwhile opens another.
-/

namespace Capka.Telegram

open Ecma

/-- `BURST_MAX_PIECES`. -/
def burstMaxPieces : Nat := 20

/-- `BURST_MAX_TEXT_BYTES`. -/
def burstMaxTextBytes : Nat := 100 * 1024

/-- `BurstPiece`. -/
structure Piece (γ φ : Type*) where
  ctx : γ
  text : Units
  files : List φ
  deriving Repr, DecidableEq

/-- `BurstBatch`. -/
structure Batch (γ φ : Type*) where
  ctx : γ
  text : Units
  files : List φ
  deriving Repr, DecidableEq

/-- Nothing is left of it when it is trimmed. -/
def isBlank (text : Units) : Bool := text.all isSpace

def joinBurstText (texts : List Units) : Units := [0x0a, 0x0a].intercalate (texts.filter fun t => !isBlank t)

/-- The text of a whole number. -/
def numberText : Int → Units
  | .ofNat n => decimal n
  | .negSucc n => 0x2d :: decimal (n + 1)

def keyOf (chatId senderId : Int) : Units := numberText chatId ++ 0x3a :: numberText senderId

/-- An open burst, with its timers. For the record: its number, its sender and its pieces. -/
structure Entry (γ φ : Type*) where
  key : Units
  chatId : Int
  ctx : γ
  texts : List Units
  files : List φ
  bytes : Nat
  pieces : Nat
  quiet : Nat
  hard : Nat
  burst : Nat
  senderId : Int
  parts : List (Piece γ φ)
  deriving Repr, DecidableEq

/-- A batch that was handed to the callback. For the record: the burst, its sender and its pieces. -/
structure Handed (γ φ : Type*) where
  chatId : Int
  batch : Batch γ φ
  burst : Nat
  senderId : Int
  parts : List (Piece γ φ)
  deriving Repr, DecidableEq

/-- How `drainAll` ends: every flush went through, the callback rejected one, or it threw, which ends the loop. -/
inductive DrainOutcome
  | resolved
  | rejected
  | threw
  deriving Repr, DecidableEq

/-- A call of `drainAll`: the bursts that were open, the keys that are still to be fired, and how it ended. -/
structure DrainRun where
  snapshot : List Nat
  remaining : List Units
  outcome : Option DrainOutcome
  deriving Repr, DecidableEq

/-- A collector. The timers that are armed are under their handles, each with the key it fires. For the record: the pieces that were added, by
chat and sender, and the batches that were handed on. -/
structure Collector (γ φ : Type*) where
  opened : Table (Entry γ φ) Entry.key
  timers : Table (Nat × Units) Prod.fst
  nextTimer : Nat
  nextBurst : Nat
  drains : List DrainRun
  added : List ((Int × Int) × Piece γ φ)
  handed : List (Handed γ φ)

namespace Entry

variable {γ φ : Type*}

/-- One more piece. -/
def push (e : Entry γ φ) (piece : Piece γ φ) : Entry γ φ :=
  { e with
    ctx := piece.ctx
    texts := e.texts ++ [piece.text]
    files := e.files ++ piece.files
    bytes := e.bytes + utf8Length piece.text
    pieces := e.pieces + 1
    parts := e.parts ++ [piece] }

/-- Many or long. -/
def full (e : Entry γ φ) : Bool := burstMaxPieces ≤ e.pieces || burstMaxTextBytes ≤ e.bytes

/-- What is handed on of a burst. -/
def close (e : Entry γ φ) : Handed γ φ where
  chatId := e.chatId
  batch := { ctx := e.ctx, text := joinBurstText e.texts, files := e.files }
  burst := e.burst
  senderId := e.senderId
  parts := e.parts

end Entry

namespace Collector

variable {γ φ : Type*}

/-- A new collector. -/
def empty : Collector γ φ where
  opened := .empty
  timers := .empty
  nextTimer := 0
  nextBurst := 0
  drains := []
  added := []
  handed := []

/-- An entry is written in its place, or comes last. -/
def store (e : Entry γ φ) (opened : Table (Entry γ φ) Entry.key) : Table (Entry γ φ) Entry.key :=
  if (opened.get e.key).isSome then opened.modify e.key (fun r => { e with key := r.key }) (fun _ => rfl) else opened.put e

/-- `fire`: a burst is closed and handed to the callback. -/
def fire (key : Units) (s : Collector γ φ) : Collector γ φ :=
  match s.opened.get key with
  | none => s
  | some e =>
    { s with
      opened := s.opened.erase key
      timers := (s.timers.erase e.quiet).erase e.hard
      handed := s.handed ++ [e.close] }

/-- A burst that nothing was added to yet, with both timers armed. -/
def fresh (chatId senderId : Int) (ctx : γ) (s : Collector γ φ) : Entry γ φ where
  key := keyOf chatId senderId
  chatId := chatId
  ctx := ctx
  texts := []
  files := []
  bytes := 0
  pieces := 0
  quiet := s.nextTimer
  hard := s.nextTimer + 1
  burst := s.nextBurst
  senderId := senderId
  parts := []

/-- The first piece of a burst. -/
def addFirst (chatId senderId : Int) (piece : Piece γ φ) (s : Collector γ φ) : Collector γ φ :=
  let e := (s.fresh chatId senderId piece.ctx).push piece
  let s :=
    { s with
      opened := store e s.opened
      timers := (s.timers.put (s.nextTimer, e.key)).put (s.nextTimer + 1, e.key)
      nextTimer := s.nextTimer + 2
      nextBurst := s.nextBurst + 1 }
  if e.full then s.fire e.key else s

/-- A further piece: it restarts the silence, not the ceiling. -/
def addNext (e : Entry γ φ) (piece : Piece γ φ) (s : Collector γ φ) : Collector γ φ :=
  let e := e.push piece
  if e.full then { s with opened := store e s.opened }.fire e.key
  else
    { s with
      opened := store { e with quiet := s.nextTimer } s.opened
      timers := (s.timers.erase e.quiet).put (s.nextTimer, e.key)
      nextTimer := s.nextTimer + 1 }

def add (chatId senderId : Int) (piece : Piece γ φ) (s : Collector γ φ) : Collector γ φ :=
  let s := { s with added := s.added ++ [((chatId, senderId), piece)] }
  match s.opened.get (keyOf chatId senderId) with
  | none => s.addFirst chatId senderId piece
  | some e => s.addNext e piece

/-- `drainAll` begins: the keys are those of now. -/
def drainAll (s : Collector γ φ) : Collector γ φ :=
  { s with drains := s.drains ++ [{ snapshot := s.opened.rows.map Entry.burst, remaining := s.opened.keys, outcome := none }] }

end Collector

/-- What happens to a collector, in any order: its calls, its timers, the next key of a `drainAll`, of which the callback may throw, and the
end of one. What the callback does itself while it runs is among the rest. -/
inductive BurstAct (γ φ : Type*)
  | add (chatId senderId : Int) (piece : Piece γ φ)
  | timer (handle : Nat)
  | drain (chatId senderId : Int)
  | drainAll
  | drainNext (i : Nat) (throws : Bool)
  | drained (i : Nat) (resolved : Bool)

namespace Collector

variable {γ φ : Type*}

/-- One step. `none`: it cannot happen now. -/
def step (s : Collector γ φ) : BurstAct γ φ → Option (Collector γ φ)
  | .add chatId senderId piece => some (s.add chatId senderId piece)
  | .timer handle => (s.timers.get handle).map fun t => { s with timers := s.timers.erase handle }.fire t.2
  | .drain chatId senderId => some (s.fire (keyOf chatId senderId))
  | .drainAll => some s.drainAll
  | .drainNext i throws =>
    match s.drains[i]? with
    | some ⟨snapshot, key :: remaining, none⟩ =>
      let d : DrainRun :=
        if throws && (s.opened.get key).isSome then { snapshot := snapshot, remaining := remaining, outcome := some .threw }
        else { snapshot := snapshot, remaining := remaining, outcome := none }
      some { s.fire key with drains := s.drains.set i d }
    | _ => none
  | .drained i resolved =>
    match s.drains[i]? with
    | some ⟨snapshot, [], none⟩ =>
      some { s with
        drains := s.drains.set i
          { snapshot := snapshot, remaining := [], outcome := some (if resolved then .resolved else .rejected) } }
    | _ => none

/-- The pieces of a sender in a chat that were handed on, in order. -/
def handedParts (s : Collector γ φ) (chatId senderId : Int) : List (Piece γ φ) :=
  (s.handed.filter fun h => h.chatId = chatId && h.senderId = senderId).flatMap Handed.parts

/-- Those that are in the buffer. -/
def openParts (s : Collector γ φ) (chatId senderId : Int) : List (Piece γ φ) :=
  match s.opened.get (keyOf chatId senderId) with
  | none => []
  | some e => e.parts

/-- Those that were added. -/
def addedParts (s : Collector γ φ) (chatId senderId : Int) : List (Piece γ φ) :=
  (s.added.filter fun a => a.1 = (chatId, senderId)).map Prod.snd

end Collector

/-- Some pieces are neither many nor long. -/
def Within {γ φ : Type*} (parts : List (Piece γ φ)) : Prop :=
  parts.length < burstMaxPieces ∧ (parts.map fun p => utf8Length p.text).sum < burstMaxTextBytes

/-- A batch is that of its pieces, of which there is one at least, and it was neither long nor of many before the last. -/
structure Handed.Formed {γ φ : Type*} (h : Handed γ φ) : Prop where
  ctx : (h.parts.getLast?).map Piece.ctx = some h.batch.ctx
  text : h.batch.text = joinBurstText (h.parts.map Piece.text)
  files : h.batch.files = h.parts.flatMap Piece.files
  within : Within h.parts.dropLast

/-- What holds of a collector at any time. -/
structure Coalesces {γ φ : Type*} (s : Collector γ φ) : Prop where
  /-- Of each sender in each chat, what was handed on and what is held is what was added, in order, each once. -/
  once : ∀ chatId senderId, s.handedParts chatId senderId ++ s.openParts chatId senderId = s.addedParts chatId senderId
  formed : ∀ h ∈ s.handed, h.Formed
  /-- What is held is going to be handed on, at the ceiling at the latest. -/
  armed : ∀ e ∈ s.opened, (e.hard, e.key) ∈ s.timers
  /-- A `drainAll` that is over handed on what was open when it was called, unless the callback threw. -/
  drained : ∀ d ∈ s.drains, d.outcome = some .resolved ∨ d.outcome = some .rejected →
    ∀ burst ∈ d.snapshot, ∃ h ∈ s.handed, h.burst = burst

namespace BurstsAux

variable {γ φ : Type*} {s t : Collector γ φ} {e : Entry γ φ} {piece : Piece γ φ} {key : Units}

/-! ### Keys -/

theorem numberText_injective : Function.Injective numberText := by
  intro m n h
  have hsign : ∀ {j k : Nat}, decimal j ≠ 0x2d :: decimal k := by
    intro j k heq
    have hbounds := decimal_bounds (n := j) (u := 0x2d) (by rw [heq]; exact List.mem_cons_self)
    exact absurd hbounds.1 (by decide)
  cases m with
  | ofNat m =>
    cases n with
    | ofNat n => exact congrArg Int.ofNat (decimal_injective h)
    | negSucc n => exact absurd h hsign
  | negSucc m =>
    cases n with
    | ofNat n => exact absurd h.symm hsign
    | negSucc n => exact congrArg Int.negSucc (Nat.succ_injective (decimal_injective (List.cons.inj h).2))

theorem colon_notMem_numberText (n : Int) : 0x3a ∉ numberText n := by
  have hdecimal : ∀ k, 0x3a ∉ decimal k := fun k h => absurd (decimal_bounds h).2 (by decide)
  cases n with
  | ofNat n => exact hdecimal n
  | negSucc n =>
    intro h
    rcases List.mem_cons.mp h with h | h
    · exact absurd h (by decide)
    · exact hdecimal _ h

theorem keyOf_inj {c x c' x' : Int} (h : keyOf c x = keyOf c' x') : c = c' ∧ x = x' := by
  obtain ⟨hchat, hsender⟩ := Search.append_cons_inj (colon_notMem_numberText c) (colon_notMem_numberText c') h
  exact ⟨numberText_injective hchat, numberText_injective hsender⟩

/-! ### The table of the open bursts -/

theorem mem_store {opened : Table (Entry γ φ) Entry.key} {r : Entry γ φ} :
    r ∈ Collector.store e opened ↔ r = e ∨ (r ∈ opened ∧ r.key ≠ e.key) := by
  unfold Collector.store
  split_ifs with h
  · rw [Table.mem_modify]
    constructor
    · rintro (⟨r₀, _, hkey, rfl⟩ | hr)
      · exact .inl (by rw [hkey])
      · exact .inr hr
    · rintro (rfl | hr)
      · obtain ⟨r₀, hr₀⟩ := Option.isSome_iff_exists.mp h
        obtain ⟨hmem, hkey⟩ := Table.get_eq_some_iff.mp hr₀
        exact .inl ⟨r₀, hmem, hkey, by rw [hkey]⟩
      · exact .inr hr
  · exact Table.mem_put

theorem get_store_self {opened : Table (Entry γ φ) Entry.key} : (Collector.store e opened).get e.key = some e :=
  Table.get_eq_some_iff.mpr ⟨mem_store.mpr (.inl rfl), rfl⟩

theorem get_store_of_ne {opened : Table (Entry γ φ) Entry.key} (h : key ≠ e.key) : (Collector.store e opened).get key = opened.get key := by
  cases hget : opened.get key with
  | none =>
    refine Table.get_eq_none_iff.mpr fun r hr => ?_
    rcases mem_store.mp hr with rfl | ⟨hr, _⟩
    · exact h.symm
    · exact Table.get_eq_none_iff.mp hget r hr
  | some r =>
    obtain ⟨hr, rfl⟩ := Table.get_eq_some_iff.mp hget
    exact Table.get_eq_some_iff.mpr ⟨mem_store.mpr (.inr ⟨hr, h⟩), rfl⟩

/-! ### What an entry holds -/

/-- The fields of a burst are those of its pieces. -/
structure OfParts (e : Entry γ φ) : Prop where
  key : e.key = keyOf e.chatId e.senderId
  texts : e.texts = e.parts.map Piece.text
  files : e.files = e.parts.flatMap Piece.files
  bytes : e.bytes = (e.parts.map fun p => utf8Length p.text).sum
  pieces : e.pieces = e.parts.length

theorem ofParts_fresh (chatId senderId : Int) (ctx : γ) (s : Collector γ φ) : OfParts (s.fresh chatId senderId ctx) :=
  ⟨rfl, rfl, rfl, rfl, rfl⟩

theorem ofParts_push (h : OfParts e) : OfParts (e.push piece) where
  key := h.key
  texts := by simp [Entry.push, h.texts]
  files := by simp [Entry.push, h.files]
  bytes := by simp [Entry.push, h.bytes]
  pieces := by simp [Entry.push, h.pieces]

theorem within_of_not_full (h : OfParts e) (hfull : ¬e.full = true) : Within e.parts := by
  simp only [Entry.full, h.pieces, h.bytes, Bool.or_eq_true, decide_eq_true_eq, not_or, Nat.not_le] at hfull
  exact hfull

theorem within_dropLast {parts : List (Piece γ φ)} (h : Within parts) : Within parts.dropLast := by
  refine ⟨?_, ?_⟩
  · have hlen := parts.length_dropLast
    have := h.1
    omega
  · have hsub : (parts.dropLast.map fun p => utf8Length p.text).Sublist (parts.map fun p => utf8Length p.text) :=
      (List.dropLast_sublist parts).map _
    exact (hsub.sum_le_sum fun _ _ => Nat.zero_le _).trans_lt h.2

/-- The context of a burst is that of its last piece. -/
def LastCtx (e : Entry γ φ) : Prop := e.parts.getLast?.map Piece.ctx = some e.ctx

theorem lastCtx_push (e : Entry γ φ) (piece : Piece γ φ) : LastCtx (e.push piece) := by simp [LastCtx, Entry.push]

theorem formed_close (h : OfParts e) (hctx : LastCtx e) (hwithin : Within e.parts.dropLast) : e.close.Formed where
  ctx := hctx
  text := congrArg joinBurstText h.texts
  files := h.files
  within := hwithin

/-! ### What holds at any time -/

/-- Both timers of a burst are armed. -/
structure Armed (s : Collector γ φ) (e : Entry γ φ) : Prop where
  quiet : (e.quiet, e.key) ∈ s.timers
  hard : (e.hard, e.key) ∈ s.timers
  ne : e.quiet ≠ e.hard

/-- Pieces are neither lost nor doubled, of each sender in each chat. -/
def Once (s : Collector γ φ) : Prop :=
  ∀ chatId senderId, s.handedParts chatId senderId ++ s.openParts chatId senderId = s.addedParts chatId senderId

/-- A `drainAll` under way has its bursts before it, or behind. -/
structure Drains (s : Collector γ φ) (d : DrainRun) : Prop where
  running : d.outcome = none → ∀ burst ∈ d.snapshot,
    (∃ h ∈ s.handed, h.burst = burst) ∨ ∃ e ∈ s.opened, e.burst = burst ∧ e.key ∈ d.remaining
  ended : d.outcome = some .resolved ∨ d.outcome = some .rejected → ∀ burst ∈ d.snapshot, ∃ h ∈ s.handed, h.burst = burst

/-- What holds but of the burst of a key, which is going to be fired. -/
structure SoundBut (key : Units) (s : Collector γ φ) : Prop where
  ofParts : ∀ e ∈ s.opened, OfParts e
  ctx : ∀ e ∈ s.opened, LastCtx e
  within : ∀ e ∈ s.opened, e.key ≠ key → Within e.parts
  last : ∀ e ∈ s.opened, e.key = key → Within e.parts.dropLast
  armed : ∀ e ∈ s.opened, e.key ≠ key → Armed s e
  owns : ∀ e ∈ s.opened, e.key = key → ∀ t ∈ s.timers, t.1 = e.quiet ∨ t.1 = e.hard → t.2 = key
  fresh : ∀ t ∈ s.timers, t.1 < s.nextTimer
  once : Once s
  formed : ∀ h ∈ s.handed, h.Formed
  drains : ∀ d ∈ s.drains, Drains s d

structure Sound (s : Collector γ φ) : Prop where
  ofParts : ∀ e ∈ s.opened, OfParts e
  ctx : ∀ e ∈ s.opened, LastCtx e
  within : ∀ e ∈ s.opened, Within e.parts
  armed : ∀ e ∈ s.opened, Armed s e
  fresh : ∀ t ∈ s.timers, t.1 < s.nextTimer
  once : Once s
  formed : ∀ h ∈ s.handed, h.Formed
  drains : ∀ d ∈ s.drains, Drains s d

theorem key_of_timer {t : Nat × Units} (h : Armed s e) (ht : t ∈ s.timers) (heq : t.1 = e.quiet ∨ t.1 = e.hard) : t.2 = e.key := by
  rcases heq with heq | heq
  · rw [Table.eq_of_key ht h.quiet heq]
  · rw [Table.eq_of_key ht h.hard heq]

theorem Sound.but (h : Sound s) (key : Units) : SoundBut key s where
  ofParts := h.ofParts
  ctx := h.ctx
  within := fun e he _ => h.within e he
  last := fun e he _ => within_dropLast (h.within e he)
  armed := fun e he _ => h.armed e he
  owns := fun e he hkey _ ht heq => (key_of_timer (h.armed e he) ht heq).trans hkey
  fresh := h.fresh
  once := h.once
  formed := h.formed
  drains := h.drains

theorem drains_mono {d : DrainRun} (h : Drains s d) (hhanded : ∀ x ∈ s.handed, x ∈ t.handed)
    (hopened : ∀ e ∈ s.opened, (∃ e' ∈ t.opened, e'.burst = e.burst ∧ e'.key = e.key) ∨ ∃ x ∈ t.handed, x.burst = e.burst) :
    Drains t d where
  running := by
    intro hrunning burst hburst
    rcases h.running hrunning burst hburst with ⟨x, hx, hb⟩ | ⟨e, he, rfl, hkey⟩
    · exact .inl ⟨x, hhanded x hx, hb⟩
    · rcases hopened e he with ⟨e', he', hb, hk⟩ | hx
      · exact .inr ⟨e', he', hb, hk ▸ hkey⟩
      · exact .inl hx
  ended := by
    intro hended burst hburst
    obtain ⟨x, hx, hb⟩ := h.ended hended burst hburst
    exact ⟨x, hhanded x hx, hb⟩

/-! ### Firing -/

theorem once_fire (hparts : ∀ e ∈ s.opened, OfParts e) (h : Once s) : Once (s.fire key) := by
  intro c x
  have honce := h c x
  cases hget : s.opened.get key with
  | none => simpa only [Collector.fire, hget] using honce
  | some e =>
    obtain ⟨hmem, rfl⟩ := Table.get_eq_some_iff.mp hget
    have hkey := (hparts e hmem).key
    simp only [Collector.fire, hget, Collector.handedParts, Collector.openParts, Collector.addedParts, List.filter_append,
      List.flatMap_append] at honce ⊢
    rw [← honce, List.append_assoc]
    refine congrArg _ ?_
    by_cases hsender : c = e.chatId ∧ x = e.senderId
    · obtain ⟨rfl, rfl⟩ := hsender
      have hnone : (s.opened.erase e.key).get (keyOf e.chatId e.senderId) = none := by
        rw [← hkey]
        exact Table.get_eq_none_iff.mpr fun r hr => (Table.mem_erase.mp hr).2
      rw [hkey] at hget
      simp [hnone, hget, Entry.close]
    · have hne : keyOf c x ≠ e.key := fun heq => hsender (keyOf_inj (heq.trans hkey))
      have hother : ¬(e.chatId = c ∧ e.senderId = x) := fun heq => hsender ⟨heq.1.symm, heq.2.symm⟩
      simp [Table.get_erase_of_ne hne, Entry.close, hother]

theorem sound_fire (h : SoundBut key s) : Sound (s.fire key) := by
  have honce : Once (s.fire key) := once_fire h.ofParts h.once
  cases hget : s.opened.get key with
  | none =>
    have hne : ∀ e ∈ s.opened, e.key ≠ key := Table.get_eq_none_iff.mp hget
    simp only [Collector.fire, hget] at honce ⊢
    exact ⟨h.ofParts, h.ctx, fun e he => h.within e he (hne e he), fun e he => h.armed e he (hne e he), h.fresh, honce, h.formed, h.drains⟩
  | some e =>
    obtain ⟨hmem, rfl⟩ := Table.get_eq_some_iff.mp hget
    simp only [Collector.fire, hget] at honce ⊢
    refine ⟨fun r hr => h.ofParts r (Table.mem_erase.mp hr).1, fun r hr => h.ctx r (Table.mem_erase.mp hr).1, ?_, ?_, ?_, honce, ?_, ?_⟩
    · intro r hr
      obtain ⟨hr, hne⟩ := Table.mem_erase.mp hr
      exact h.within r hr hne
    · intro r hr
      obtain ⟨hr, hne⟩ := Table.mem_erase.mp hr
      have harmed := h.armed r hr hne
      -- The timers of the burst are no other's.
      have hother : ∀ t : Nat × Units, t ∈ s.timers → t.2 = r.key → t ∈ (s.timers.erase e.quiet).erase e.hard := by
        intro t ht hkey
        refine Table.mem_erase.mpr ⟨Table.mem_erase.mpr ⟨ht, fun heq => ?_⟩, fun heq => ?_⟩
        · exact hne (hkey ▸ h.owns e hmem rfl t ht (.inl heq))
        · exact hne (hkey ▸ h.owns e hmem rfl t ht (.inr heq))
      exact ⟨hother _ harmed.quiet rfl, hother _ harmed.hard rfl, harmed.ne⟩
    · intro t ht
      exact h.fresh t (Table.mem_erase.mp (Table.mem_erase.mp ht).1).1
    · intro x hx
      rcases List.mem_append.mp hx with hx | hx
      · exact h.formed x hx
      · rw [List.mem_singleton.mp hx]
        exact formed_close (h.ofParts e hmem) (h.ctx e hmem) (h.last e hmem rfl)
    · intro d hd
      refine drains_mono (h.drains d hd) (fun x hx => List.mem_append_left _ hx) fun r hr => ?_
      by_cases hkey : r.key = e.key
      · exact .inr ⟨e.close, List.mem_append_right _ (List.mem_singleton.mpr rfl), by rw [Table.eq_of_key hr hmem hkey]; rfl⟩
      · exact .inl ⟨r, Table.mem_erase.mpr ⟨hr, hkey⟩, rfl, rfl⟩

/-! ### Adding -/

theorem once_store (chatId senderId : Int) (piece : Piece γ φ) (hkey : e.key = keyOf chatId senderId)
    (hparts : e.parts = s.openParts chatId senderId ++ [piece]) (h : Once s)
    (hadded : t.added = s.added ++ [((chatId, senderId), piece)]) (hopened : t.opened = Collector.store e s.opened)
    (hhanded : t.handed = s.handed) : Once t := by
  intro c x
  have honce := h c x
  have hh : t.handedParts c x = s.handedParts c x := by rw [Collector.handedParts, Collector.handedParts, hhanded]
  have ha : t.addedParts c x = s.addedParts c x ++ if (chatId, senderId) = (c, x) then [piece] else [] := by
    rw [Collector.addedParts, Collector.addedParts, hadded, List.filter_append, List.map_append]
    split_ifs with heq
    · simp [heq]
    · simp [heq]
  rw [hh, ha, ← honce, List.append_assoc]
  refine congrArg _ ?_
  by_cases hsender : (chatId, senderId) = (c, x)
  · obtain ⟨rfl, rfl⟩ := Prod.mk.inj hsender
    rw [if_pos rfl, ← hparts, Collector.openParts, hopened, ← hkey, get_store_self]
  · have hne : keyOf c x ≠ e.key := by
      intro heq
      obtain ⟨rfl, rfl⟩ := keyOf_inj (heq.trans hkey)
      exact hsender rfl
    rw [if_neg hsender, List.append_nil, Collector.openParts, hopened, get_store_of_ne hne, Collector.openParts]

theorem drains_store {d : DrainRun} (h : Drains s d) (hopened : t.opened = Collector.store e s.opened) (hhanded : t.handed = s.handed)
    (hburst : ∀ r ∈ s.opened, r.key = e.key → r.burst = e.burst) : Drains t d := by
  refine drains_mono h (fun x hx => hhanded ▸ hx) fun r hr => .inl ?_
  rw [hopened]
  by_cases hkey : r.key = e.key
  · exact ⟨e, mem_store.mpr (.inl rfl), (hburst r hr hkey).symm, hkey.symm⟩
  · exact ⟨r, mem_store.mpr (.inr ⟨hr, hkey⟩), rfl, rfl⟩

theorem soundBut_store {chatId senderId : Int} (h : Sound s) (hopened : t.opened = Collector.store e s.opened) (hhanded : t.handed = s.handed)
    (hdrains : t.drains = s.drains) (hadded : t.added = s.added ++ [((chatId, senderId), piece)]) (hkey : e.key = keyOf chatId senderId)
    (hparts : e.parts = s.openParts chatId senderId ++ [piece]) (hburst : ∀ r ∈ s.opened, r.key = e.key → r.burst = e.burst)
    (hof : OfParts e) (hctx : LastCtx e) (hlast : Within e.parts.dropLast)
    (htimers : ∀ x ∈ s.timers, x.2 ≠ e.key → x ∈ t.timers)
    (howns : ∀ x ∈ t.timers, x.1 = e.quiet ∨ x.1 = e.hard → x.2 = e.key) (hfresh : ∀ x ∈ t.timers, x.1 < t.nextTimer) :
    SoundBut e.key t := by
  have hmem : ∀ r ∈ t.opened, r = e ∨ (r ∈ s.opened ∧ r.key ≠ e.key) := by
    intro r hr
    rw [hopened] at hr
    exact mem_store.mp hr
  constructor
  · intro r hr
    rcases hmem r hr with rfl | ⟨hr, _⟩
    · exact hof
    · exact h.ofParts r hr
  · intro r hr
    rcases hmem r hr with rfl | ⟨hr, _⟩
    · exact hctx
    · exact h.ctx r hr
  · intro r hr hne
    rcases hmem r hr with rfl | ⟨hr, _⟩
    · exact absurd rfl hne
    · exact h.within r hr
  · intro r hr heq
    rcases hmem r hr with rfl | ⟨_, hne⟩
    · exact hlast
    · exact absurd heq hne
  · intro r hr hne
    rcases hmem r hr with rfl | ⟨hr, _⟩
    · exact absurd rfl hne
    · have harmed := h.armed r hr
      exact ⟨htimers _ harmed.quiet hne, htimers _ harmed.hard hne, harmed.ne⟩
  · intro r hr heq x hx hid
    rcases hmem r hr with rfl | ⟨_, hne⟩
    · exact howns x hx hid
    · exact absurd heq hne
  · exact hfresh
  · exact once_store chatId senderId piece hkey hparts h.once hadded hopened hhanded
  · rw [hhanded]
    exact h.formed
  · rw [hdrains]
    exact fun d hd => drains_store (h.drains d hd) hopened hhanded hburst

theorem sound_of_but (h : SoundBut e.key s) (he : e ∈ s.opened) (harmed : Armed s e) (hwithin : Within e.parts) : Sound s := by
  have heq : ∀ r ∈ s.opened, r.key = e.key → r = e := fun r hr hkey => Table.eq_of_key hr he hkey
  refine ⟨h.ofParts, h.ctx, ?_, ?_, h.fresh, h.once, h.formed, h.drains⟩
  · intro r hr
    by_cases hkey : r.key = e.key
    · rw [heq r hr hkey]
      exact hwithin
    · exact h.within r hr hkey
  · intro r hr
    by_cases hkey : r.key = e.key
    · rw [heq r hr hkey]
      exact harmed
    · exact h.armed r hr hkey

theorem sound_addFirst {chatId senderId : Int} (h : Sound s) (hnone : s.opened.get (keyOf chatId senderId) = none) :
    Sound ({ s with added := s.added ++ [((chatId, senderId), piece)] }.addFirst chatId senderId piece) := by
  have hfree : ∀ r ∈ s.opened, r.key ≠ keyOf chatId senderId := Table.get_eq_none_iff.mp hnone
  unfold Collector.addFirst
  dsimp only
  generalize hnew : (({ s with added := s.added ++ [((chatId, senderId), piece)] } : Collector γ φ).fresh chatId senderId piece.ctx).push
    piece = e
  have hkey : e.key = keyOf chatId senderId := by rw [← hnew]; rfl
  have hquiet : e.quiet = s.nextTimer := by rw [← hnew]; rfl
  have hhard : e.hard = s.nextTimer + 1 := by rw [← hnew]; rfl
  have hparts : e.parts = [piece] := by rw [← hnew]; rfl
  have hof : OfParts e := by
    rw [← hnew]
    exact ofParts_push (ofParts_fresh _ _ _ _)
  have hctx : LastCtx e := by
    rw [← hnew]
    exact lastCtx_push _ _
  have hlast : Within e.parts.dropLast := by
    rw [hparts]
    simp [Within, burstMaxPieces, burstMaxTextBytes]
  have hmem : ∀ x : Nat × Units, x ∈ (s.timers.put (s.nextTimer, e.key)).put (s.nextTimer + 1, e.key) ↔
      x = (s.nextTimer + 1, e.key) ∨ x = (s.nextTimer, e.key) ∨ x ∈ s.timers := by
    intro x
    rw [Table.mem_put, Table.mem_put]
    constructor
    · rintro (hx | ⟨hx | ⟨hx, _⟩, _⟩)
      · exact .inl hx
      · exact .inr (.inl hx)
      · exact .inr (.inr hx)
    · rintro (hx | hx | hx)
      · exact .inl hx
      · exact .inr ⟨.inl hx, by rw [hx]; dsimp only; omega⟩
      · have hlt := h.fresh x hx
        exact .inr ⟨.inr ⟨hx, by dsimp only; omega⟩, by dsimp only; omega⟩
  have hbut : SoundBut e.key { s with
      opened := Collector.store e s.opened
      timers := (s.timers.put (s.nextTimer, e.key)).put (s.nextTimer + 1, e.key)
      nextTimer := s.nextTimer + 2
      nextBurst := s.nextBurst + 1
      added := s.added ++ [((chatId, senderId), piece)] } := by
    refine soundBut_store h rfl rfl rfl rfl hkey ?_ (fun r hr heq => absurd (heq.trans hkey) (hfree r hr)) hof hctx hlast ?_ ?_ ?_
    · rw [hparts, Collector.openParts, hnone]
      rfl
    · exact fun x hx _ => (hmem x).mpr (.inr (.inr hx))
    · intro x hx hid
      rcases (hmem x).mp hx with rfl | rfl | hx
      · rfl
      · rfl
      · have hlt := h.fresh x hx
        omega
    · intro x hx
      dsimp only
      rcases (hmem x).mp hx with rfl | rfl | hx
      · dsimp only
        omega
      · dsimp only
        omega
      · have hlt := h.fresh x hx
        omega
  split_ifs with hfull
  · exact sound_fire hbut
  · refine sound_of_but hbut (mem_store.mpr (.inl rfl)) ⟨?_, ?_, by omega⟩ (within_of_not_full hof hfull)
    · rw [hquiet]
      exact (hmem _).mpr (.inr (.inl rfl))
    · rw [hhard]
      exact (hmem _).mpr (.inl rfl)

theorem sound_addNext {chatId senderId : Int} (h : Sound s) (hget : s.opened.get (keyOf chatId senderId) = some e) :
    Sound ({ s with added := s.added ++ [((chatId, senderId), piece)] }.addNext e piece) := by
  obtain ⟨hmem, hkey⟩ := Table.get_eq_some_iff.mp hget
  have harmed := h.armed e hmem
  have hown : ∀ x ∈ s.timers, x.1 = e.quiet ∨ x.1 = e.hard → x.2 = e.key := fun x hx => key_of_timer harmed hx
  have hof : OfParts (e.push piece) := ofParts_push (h.ofParts e hmem)
  have hparts : (e.push piece).parts = s.openParts chatId senderId ++ [piece] := by
    rw [Collector.openParts, hget]
    rfl
  have hlast : Within (e.push piece).parts.dropLast := by
    have hdrop : (e.push piece).parts.dropLast = e.parts := by simp [Entry.push]
    rw [hdrop]
    exact h.within e hmem
  have hburst : ∀ r ∈ s.opened, r.key = e.key → r.burst = e.burst := fun r hr heq => by rw [Table.eq_of_key hr hmem heq]
  unfold Collector.addNext
  dsimp only
  split_ifs with hfull
  · exact sound_fire (soundBut_store h rfl rfl rfl rfl hkey hparts hburst hof (lastCtx_push _ _) hlast (fun x hx _ => hx)
      hown h.fresh)
  · have htimer : ∀ x : Nat × Units, x ∈ (s.timers.erase e.quiet).put (s.nextTimer, e.key) ↔
        x = (s.nextTimer, e.key) ∨ (x ∈ s.timers ∧ x.1 ≠ e.quiet) := by
      intro x
      rw [Table.mem_put, Table.mem_erase]
      constructor
      · rintro (hx | ⟨hx, _⟩)
        · exact .inl hx
        · exact .inr hx
      · rintro (hx | hx)
        · exact .inl hx
        · have hlt := h.fresh x hx.1
          exact .inr ⟨hx, by dsimp only; omega⟩
    have hhard := h.fresh _ harmed.hard
    dsimp only at hhard
    have hwithin : Within (e.push piece).parts := within_of_not_full hof hfull
    have hbut : SoundBut e.key { s with
        opened := Collector.store { e.push piece with quiet := s.nextTimer } s.opened
        timers := (s.timers.erase e.quiet).put (s.nextTimer, e.key)
        nextTimer := s.nextTimer + 1
        added := s.added ++ [((chatId, senderId), piece)] } := by
      refine soundBut_store (e := { e.push piece with quiet := s.nextTimer }) h rfl rfl rfl rfl hkey hparts hburst
        ⟨hof.key, hof.texts, hof.files, hof.bytes, hof.pieces⟩ (lastCtx_push _ _) hlast ?_ ?_ ?_
      · exact fun x hx hne => (htimer x).mpr (.inr ⟨hx, fun heq => hne (hown x hx (.inl heq))⟩)
      · intro x hx hid
        rcases (htimer x).mp hx with rfl | ⟨hx, _⟩
        · rfl
        · have hlt := h.fresh x hx
          rcases hid with hid | hid
          · dsimp only at hid
            omega
          · exact hown x hx (.inr hid)
      · intro x hx
        dsimp only
        rcases (htimer x).mp hx with rfl | ⟨hx, _⟩
        · exact Nat.lt_succ_self _
        · exact (h.fresh x hx).trans (Nat.lt_succ_self _)
    refine sound_of_but (e := { e.push piece with quiet := s.nextTimer }) hbut (mem_store.mpr (.inl rfl)) ⟨?_, ?_, ?_⟩
      hwithin
    · exact (htimer _).mpr (.inl rfl)
    · exact (htimer _).mpr (.inr ⟨harmed.hard, harmed.ne.symm⟩)
    · dsimp only [Entry.push]
      omega

/-! ### The steps -/

theorem drains_set {i : Nat} {d : DrainRun} (h : ∀ d ∈ s.drains, Drains s d) (hd : Drains s d) : ∀ x ∈ s.drains.set i d, Drains s x := by
  intro x hx
  rcases List.mem_or_eq_of_mem_set hx with hx | rfl
  · exact h x hx
  · exact hd

theorem Sound.withDrains (h : Sound s) {ds : List DrainRun} (hds : ∀ d ∈ ds, Drains s d) : Sound { s with drains := ds } :=
  ⟨h.ofParts, h.ctx, h.within, fun e he => ⟨(h.armed e he).quiet, (h.armed e he).hard, (h.armed e he).ne⟩, h.fresh, h.once, h.formed,
    fun d hd => ⟨(hds d hd).running, (hds d hd).ended⟩⟩

theorem drains_fire {snapshot : List Nat} {remaining : List Units} (h : Drains s ⟨snapshot, key :: remaining, none⟩) :
    Drains (s.fire key) ⟨snapshot, remaining, none⟩ := by
  refine ⟨fun _ burst hburst => ?_, fun hended => by simp at hended⟩
  cases hget : s.opened.get key with
  | none =>
    simp only [Collector.fire, hget]
    rcases h.running rfl burst hburst with hx | ⟨e, he, hb, hkey⟩
    · exact .inl hx
    · rcases List.mem_cons.mp hkey with hkey | hkey
      · exact absurd hkey (Table.get_eq_none_iff.mp hget e he)
      · exact .inr ⟨e, he, hb, hkey⟩
  | some r =>
    obtain ⟨hr, rfl⟩ := Table.get_eq_some_iff.mp hget
    simp only [Collector.fire, hget]
    rcases h.running rfl burst hburst with ⟨x, hx, hb⟩ | ⟨e, he, hb, hkey⟩
    · exact .inl ⟨x, List.mem_append_left _ hx, hb⟩
    · by_cases heq : e.key = r.key
      · refine .inl ⟨r.close, List.mem_append_right _ (List.mem_singleton.mpr rfl), ?_⟩
        rw [← hb, Table.eq_of_key he hr heq]
        rfl
      · rcases List.mem_cons.mp hkey with hkey | hkey
        · exact absurd hkey heq
        · exact .inr ⟨e, Table.mem_erase.mpr ⟨he, heq⟩, hb, hkey⟩

theorem sound_step {a : BurstAct γ φ} (h : Sound s) (hstep : s.step a = some t) : Sound t := by
  cases a with
  | add chatId senderId piece =>
    cases hstep
    unfold Collector.add
    dsimp only
    cases hget : s.opened.get (keyOf chatId senderId) with
    | none => exact sound_addFirst h hget
    | some e => exact sound_addNext h hget
  | timer handle =>
    simp only [Collector.step, Option.map_eq_some_iff] at hstep
    obtain ⟨x, hx, rfl⟩ := hstep
    obtain ⟨hmem, rfl⟩ := Table.get_eq_some_iff.mp hx
    have hbut := h.but x.2
    refine sound_fire ⟨hbut.ofParts, hbut.ctx, hbut.within, hbut.last, ?_, ?_, ?_, hbut.once, hbut.formed, ?_⟩
    · intro e he hne
      have harmed := h.armed e he
      refine ⟨Table.mem_erase.mpr ⟨harmed.quiet, fun heq => hne ?_⟩, Table.mem_erase.mpr ⟨harmed.hard, fun heq => hne ?_⟩, harmed.ne⟩
      · rw [← Table.eq_of_key harmed.quiet hmem heq]
      · rw [← Table.eq_of_key harmed.hard hmem heq]
    · exact fun e he hkey y hy hid => hbut.owns e he hkey y (Table.mem_erase.mp hy).1 hid
    · exact fun y hy => h.fresh y (Table.mem_erase.mp hy).1
    · exact fun d hd => ⟨(h.drains d hd).running, (h.drains d hd).ended⟩
  | drain chatId senderId =>
    cases hstep
    exact sound_fire (h.but _)
  | drainAll =>
    cases hstep
    refine h.withDrains fun d hd => ?_
    rcases List.mem_append.mp hd with hd | hd
    · exact h.drains d hd
    · rw [List.mem_singleton.mp hd]
      refine ⟨fun _ burst hburst => ?_, fun hended => by simp at hended⟩
      obtain ⟨e, he, rfl⟩ := List.mem_map.mp hburst
      exact .inr ⟨e, he, rfl, Table.mem_keys_of_mem he⟩
  | drainNext i throws =>
    simp only [Collector.step] at hstep
    split at hstep
    · rename_i snapshot key remaining hd
      cases hstep
      have hold := h.drains _ (List.mem_of_getElem? hd)
      have hfired := sound_fire (h.but key)
      have hdrains : (s.fire key).drains = s.drains := by
        unfold Collector.fire
        split <;> rfl
      refine hfired.withDrains ?_
      rw [← hdrains]
      refine drains_set hfired.drains ?_
      split_ifs
      · exact ⟨fun hrunning => by simp at hrunning, fun hended => by simp at hended⟩
      · exact drains_fire hold
    · cases hstep
  | drained i resolved =>
    simp only [Collector.step] at hstep
    split at hstep
    · rename_i snapshot hd
      cases hstep
      have hold := h.drains _ (List.mem_of_getElem? hd)
      refine h.withDrains (drains_set h.drains ⟨fun hrunning => by simp at hrunning, fun _ burst hburst => ?_⟩)
      rcases hold.running rfl burst hburst with hx | ⟨e, _, _, hkey⟩
      · exact hx
      · cases hkey
    · cases hstep

theorem sound_empty : Sound (Collector.empty : Collector γ φ) where
  ofParts := fun e he => absurd he (Table.not_mem_empty e)
  ctx := fun e he => absurd he (Table.not_mem_empty e)
  within := fun e he => absurd he (Table.not_mem_empty e)
  armed := fun e he => absurd he (Table.not_mem_empty e)
  fresh := fun x hx => absurd hx (Table.not_mem_empty x)
  once := fun _ _ => rfl
  formed := fun _ hx => absurd hx List.not_mem_nil
  drains := fun _ hx => absurd hx List.not_mem_nil

end BurstsAux

open BurstsAux in
/-- In whatever order pieces come, timers run out and bursts are drained, each piece is handed on once, in a batch of its sender, in order and
within the bounds; and a `drainAll` that is over has handed on what was open. -/
theorem bursts_coalesce {γ φ : Type*} (s : Collector γ φ) (h : Steps.Reaches Collector.step Steps.Free Collector.empty s) : Coalesces s := by
  have hsound : Sound s := h.invariant (fun _ _ _ hx _ hstep => sound_step hx hstep) sound_empty
  exact ⟨hsound.once, hsound.formed, fun e he => (hsound.armed e he).hard, fun d hd => (hsound.drains d hd).ended⟩

/-- Two pieces of a sender and one of another, a timer, and all of the rest at the end: two batches. -/
theorem bursts_coalesce_two : ∃ s : Collector Nat Nat, Coalesces s ∧
    s.handed.map (fun h => h.batch) = [⟨2, [0x61, 0x0a, 0x0a, 0x62], [7]⟩, ⟨3, [], [8]⟩] ∧ s.opened.rows = [] := by
  obtain ⟨s, hrun, hs⟩ := Steps.exists_of_exec Collector.step (Collector.empty : Collector Nat Nat)
    [.add 42 1 ⟨1, [0x61], []⟩, .add 42 1 ⟨2, [0x62], [7]⟩, .add 42 2 ⟨3, [0x20], [8]⟩, .timer 2, .drainAll, .drainNext 0 false, .drained 0 false]
    (P := fun s => s.handed.map (fun h => h.batch) = [⟨2, [0x61, 0x0a, 0x0a, 0x62], [7]⟩, ⟨3, [], [8]⟩] ∧ s.opened.rows = [])
    (by decide +kernel)
  exact ⟨s, bursts_coalesce s hrun, hs⟩

end Capka.Telegram

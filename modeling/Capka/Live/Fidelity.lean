import Capka.Lib.Steps
import Capka.Live.Client

/-!
# The live transcript is the fold of what was published

Shown text and queued text together are the fold up to the cursor, as long as every step finds the copy as it relies on it: `Sound` is
that condition (`live_transcript_faithful_of_sound`). A history load relies on the pacer holding nothing of the replies it replaces,
and nothing flushes the pacer first: its deltas are then applied a second time (`live_transcript_faithful_false`).
-/

namespace Capka

open Live

variable {α : Type*}

namespace LiveChat

/-- Every reply with a cursor shows the fold of what its turn published up to it, once the queue is empty; and at any time what is
shown with what is queued, each delta once and none left out, is that fold. -/
structure Faithful (turns : Nat → Live.Turn α) (s : LiveChat α) : Prop where
  shown : s.pacer.queue = [] → ∀ m parts c, partsOf m s.messages = some parts → s.cursors m = some c →
    (turns c.turn).messageId = m ∧ parts = (turns c.turn).fold c.seq
  queued : ∀ m parts c, partsOf m s.messages = some parts → s.cursors m = some c →
    (turns c.turn).messageId = m ∧ settle m s.pacer.queue parts = (turns c.turn).fold c.seq

/-! ## What each step relies on -/

/-- The pacer holds nothing of the reply. -/
def Settled (s : LiveChat α) (m : Nat) : Prop := ∀ d ∈ s.pacer.queue, d.messageId ≠ m

/-- A reply that is in the copy is in the last render as well. -/
def Rendered (s : LiveChat α) (m : Nat) : Prop := (partsOf m s.messages).isSome = true → m ∈ s.rendered

/-- What a reply reads once its queued text is shown; nothing, when the copy has no row for it. -/
def copyOf (s : LiveChat α) (m : Nat) : List (Live.Part α) := ((partsOf m s.messages).map (settle m s.pacer.queue)).getD []

/-- The next event of a reply in the copy belongs to the turn its cursor counts. -/
def Counted (s : LiveChat α) (m taskId : Nat) : Prop :=
  (partsOf m s.messages).isSome = true → ∀ c ∈ s.cursors m, c.turn = taskId

/-- A start that sets the cursor finds the reply as the turn found it; one that only appends the row, the cursor being further on, finds
a cursor that stands for an empty reply. -/
structure Starts (turns : Nat → Live.Turn α) (s : LiveChat α) (m taskId seq : Nat) : Prop where
  fresh : (∀ c ∈ s.cursors m, c.seq < seq) → s.copyOf m = (turns taskId).fold seq
  late : ∀ c ∈ s.cursors m, seq ≤ c.seq → (partsOf m s.messages).isNone = true →
    (turns c.turn).messageId = m ∧ (turns c.turn).fold c.seq = []

/-- A question changes nothing of a reply with a cursor. -/
def Asks (s : LiveChat α) (m toolCallId form : Nat) : Prop :=
  (s.cursors m).isSome = true → ∀ parts ∈ partsOf m s.messages,
    applyAsk toolCallId form (settle m s.pacer.queue parts) = settle m s.pacer.queue parts

/-- A reset finds the parts it keeps as its turn left them. -/
def Resets (turns : Nat → Live.Turn α) (s : LiveChat α) (taskId seq keep : Nat) : Prop :=
  ∀ parts ∈ partsOf (turns taskId).messageId s.messages,
    (settle (turns taskId).messageId s.pacer.queue parts).take keep = ((turns taskId).fold (seq - 1)).take keep

/-- What is loaded for a reply that has a cursor is the fold up to it, and the pacer holds nothing of that reply. -/
def Loads (turns : Nat → Live.Turn α) (cursors : Nat → Option Cursor) (s : LiveChat α) (rows : List (HistoryRow α)) : Prop :=
  ∀ r ∈ rows, ∀ c ∈ cursors r.id,
    (turns c.turn).messageId = r.id ∧ r.parts = (turns c.turn).fold c.seq ∧ s.Settled r.id

/-- A replayed event is the published one, of the turn the reply's cursor counts, and the pacer holds nothing of that reply. -/
def Replays (turns : Nat → Live.Turn α) (s : LiveChat α) (e : GapEvent α) : Prop :=
  (partsOf e.messageId s.messages).isSome = true →
    (turns e.taskId).event? e.seq = some (.gated e.body) ∧ s.Counted e.messageId e.taskId ∧ s.Settled e.messageId

/-- What is handed on finds its reply rendered. -/
def Flushes (s : LiveChat α) (pieces : List (Paced α)) : Prop := ∀ d ∈ pieces, s.Rendered d.messageId

/-- A delivered event finds what it relies on. -/
def Delivers (turns : Nat → Live.Turn α) (s : LiveChat α) (taskId seq : Nat) : TurnEvent α → Prop
  | .gated body =>
    classifyStreamEvent (s.cursors (turns taskId).messageId) seq = .apply →
      s.Counted (turns taskId).messageId taskId ∧
        match body with
        | .delta _ _ => True
        | _ => s.Flushes s.pacer.queue ∧ s.Rendered (turns taskId).messageId
  | .ask i form => s.Flushes s.pacer.queue ∧ s.Asks (turns taskId).messageId i form
  | .reset keep => s.Flushes s.pacer.queue ∧ s.Resets turns taskId seq keep

/-- Every step finds what it relies on. -/
def Sound (cfg : LiveConfig α) (turns : Nat → Live.Turn α) (s : LiveChat α) : LiveAct α → Prop
  | .start taskId => s.Flushes s.pacer.queue ∧ s.Starts turns (turns taskId).messageId taskId (turns taskId).start
  | .deliver taskId seq => ∀ e ∈ (turns taskId).event? seq, s.Delivers turns taskId seq e
  | .elicit m i form => s.Flushes s.pacer.queue ∧ s.Asks m i form
  | .finish _ => s.Flushes s.pacer.queue
  | .notice => s.Flushes s.pacer.queue
  | .tick chars => s.Flushes (release cfg.letters s.pacer.queue chars s.pacer.runSinceWs).shown
  | .loadHistory history => s.Loads turns (adopt history s).cursors history
  | .refreshTurn tail => s.Loads turns s.cursors tail
  | .drain => ∀ e ∈ (planGapDrain s.cursors s.recovery.buffer).1.takeWhile (fun e => s.rendered.contains e.messageId),
      s.Replays turns e
  | _ => True

section Decidable

variable [DecidableEq α] (turns : Nat → Live.Turn α)

instance (s : LiveChat α) (m : Nat) : Decidable (s.Settled m) := inferInstanceAs (Decidable (∀ d ∈ s.pacer.queue, _))

instance (s : LiveChat α) (m : Nat) : Decidable (s.Rendered m) := inferInstanceAs (Decidable (_ = true → _))

instance (s : LiveChat α) (pieces : List (Paced α)) : Decidable (s.Flushes pieces) :=
  inferInstanceAs (Decidable (∀ d ∈ pieces, s.Rendered d.messageId))

instance (s : LiveChat α) (m taskId : Nat) : Decidable (s.Counted m taskId) :=
  inferInstanceAs (Decidable (_ = true → ∀ c ∈ s.cursors m, _))

instance (s : LiveChat α) (m taskId seq : Nat) : Decidable (s.Starts turns m taskId seq) :=
  decidable_of_iff
    (((∀ c ∈ s.cursors m, c.seq < seq) → s.copyOf m = (turns taskId).fold seq) ∧
      ∀ c ∈ s.cursors m, seq ≤ c.seq → (partsOf m s.messages).isNone = true →
        (turns c.turn).messageId = m ∧ (turns c.turn).fold c.seq = [])
    ⟨fun h => ⟨h.1, h.2⟩, fun h => ⟨h.fresh, h.late⟩⟩

instance (s : LiveChat α) (m toolCallId form : Nat) : Decidable (s.Asks m toolCallId form) :=
  inferInstanceAs (Decidable (_ = true → ∀ parts ∈ partsOf m s.messages, _))

instance (s : LiveChat α) (taskId seq keep : Nat) : Decidable (s.Resets turns taskId seq keep) :=
  inferInstanceAs (Decidable (∀ parts ∈ partsOf (turns taskId).messageId s.messages, _))

instance (cursors : Nat → Option Cursor) (s : LiveChat α) (rows : List (HistoryRow α)) :
    Decidable (s.Loads turns cursors rows) :=
  inferInstanceAs (Decidable (∀ r ∈ rows, ∀ c ∈ cursors r.id, _))

instance (s : LiveChat α) (e : GapEvent α) : Decidable (s.Replays turns e) := inferInstanceAs (Decidable (_ = true → _))

instance (s : LiveChat α) (taskId seq : Nat) : (e : TurnEvent α) → Decidable (s.Delivers turns taskId seq e)
  | .gated (.delta _ _) => inferInstanceAs (Decidable (_ = _ → _ ∧ True))
  | .gated (.toolInputStart _ _) => inferInstanceAs (Decidable (_ = _ → _ ∧ _ ∧ _))
  | .gated (.toolCall _ _ _) => inferInstanceAs (Decidable (_ = _ → _ ∧ _ ∧ _))
  | .gated (.toolResult _ _ _) => inferInstanceAs (Decidable (_ = _ → _ ∧ _ ∧ _))
  | .gated (.toolApproval _ _) => inferInstanceAs (Decidable (_ = _ → _ ∧ _ ∧ _))
  | .ask _ _ => inferInstanceAs (Decidable (_ ∧ _))
  | .reset _ => inferInstanceAs (Decidable (_ ∧ _))

instance (cfg : LiveConfig α) (s : LiveChat α) : (a : LiveAct α) → Decidable (Sound cfg turns s a)
  | .start taskId => inferInstanceAs (Decidable (_ ∧ s.Starts turns _ taskId _))
  | .deliver taskId seq => inferInstanceAs (Decidable (∀ e ∈ (turns taskId).event? seq, s.Delivers turns taskId seq e))
  | .elicit _ _ _ => inferInstanceAs (Decidable (_ ∧ _))
  | .truncated _ => isTrue trivial
  | .finish _ => inferInstanceAs (Decidable (s.Flushes s.pacer.queue))
  | .notice => inferInstanceAs (Decidable (s.Flushes s.pacer.queue))
  | .tick _ => inferInstanceAs (Decidable (s.Flushes _))
  | .render => isTrue trivial
  | .elapse _ => isTrue trivial
  | .retry => isTrue trivial
  | .loadHistory history => inferInstanceAs (Decidable (s.Loads turns _ history))
  | .refreshTurn tail => inferInstanceAs (Decidable (s.Loads turns _ tail))
  | .drain => inferInstanceAs (Decidable (∀ e ∈ List.takeWhile _ _, s.Replays turns e))

end Decidable

/-- What holds along a sound run: shown and queued text together are the fold up to the cursor. -/
def Inv (turns : Nat → Live.Turn α) (s : LiveChat α) : Prop :=
  ∀ m parts c, partsOf m s.messages = some parts → s.cursors m = some c →
    (turns c.turn).messageId = m ∧ settle m s.pacer.queue parts = (turns c.turn).fold c.seq

namespace FidelityAux

variable {cfg : LiveConfig α} {turns : Nat → Live.Turn α}

/-! ### What the recovery leaves alone -/

/-- The two states differ in nothing but what the recovery keeps. -/
structure Same (s t : LiveChat α) : Prop where
  messages : t.messages = s.messages
  rendered : t.rendered = s.rendered
  cursors : t.cursors = s.cursors
  pacer : t.pacer = s.pacer

variable {s : LiveChat α}

theorem Same.inv {t : LiveChat α} (h : Same s t) (hI : Inv turns s) : Inv turns t := by
  intro m parts c hp hc
  rw [h.messages] at hp
  rw [h.cursors] at hc
  rw [h.pacer]
  exact hI m parts c hp hc

theorem reconcile_same (cfg : LiveConfig α) (s : LiveChat α) : Same s (reconcile cfg s) := by
  unfold reconcile
  split
  · exact ⟨rfl, rfl, rfl, rfl⟩
  · dsimp only
    split
    · split
      · exact ⟨rfl, rfl, rfl, rfl⟩
      · exact ⟨rfl, rfl, rfl, rfl⟩
    · exact ⟨rfl, rfl, rfl, rfl⟩

theorem hold_same (cfg : LiveConfig α) (e : GapEvent α) (s : LiveChat α) : Same s (hold cfg e s) := by
  unfold hold
  obtain ⟨hm, hr, hc, hp⟩ := reconcile_same cfg
    { s with
      recovery :=
        { s.recovery with
          buffer := (if MAX_GAP_BUFFER ≤ s.recovery.buffer.length then [] else s.recovery.buffer) ++ [e] } }
  exact ⟨hm, hr, hc, hp⟩

theorem drop_same (m : Nat) (s : LiveChat α) : Same s (drop m s) := by
  unfold drop
  dsimp only
  split
  · exact ⟨rfl, rfl, rfl, rfl⟩
  · exact ⟨rfl, rfl, rfl, rfl⟩

/-! ### What the pacer hands on -/

/-- The result of handing pieces on: every reply in the copy gets its own, in order. -/
structure HandedOn (pieces : List (Paced α)) (s t : LiveChat α) : Prop where
  parts : ∀ m, partsOf m t.messages = (partsOf m s.messages).map (settle m pieces)
  cursors : t.cursors = s.cursors
  rendered : t.rendered = s.rendered
  pacer : t.pacer = s.pacer

theorem applyOrHold_handedOn (cfg : LiveConfig α) {d : Paced α} (h : s.Rendered d.messageId) :
    HandedOn [d] s (applyOrHold cfg (.ofPaced d) s) := by
  unfold applyOrHold
  split
  · refine ⟨fun m => ?_, rfl, rfl, rfl⟩
    change partsOf m (updateRow d.messageId (appendRun d.type d.delta) s.messages) = _
    rw [partsOf_updateRow]
    cases hp : partsOf m s.messages with
    | none => simp
    | some parts => by_cases hm : d.messageId = m <;> simp [settle_cons, hm]
  · rename_i hr
    have hsame := hold_same cfg (.ofPaced d) s
    refine ⟨fun m => ?_, hsame.cursors, hsame.rendered, hsame.pacer⟩
    rw [hsame.messages]
    cases hp : partsOf m s.messages with
    | none => rfl
    | some parts =>
      have hm : ¬d.messageId = m := by
        rintro rfl
        exact hr (h (by simp [hp]))
      simp [settle_cons, hm]

theorem showAll_handedOn (cfg : LiveConfig α) {pieces : List (Paced α)} (h : s.Flushes pieces) :
    HandedOn pieces s (showAll cfg pieces s) := by
  induction pieces generalizing s with
  | nil =>
    refine ⟨fun m => ?_, rfl, rfl, rfl⟩
    cases hp : partsOf m s.messages <;> simp [showAll, hp]
  | cons d rest ih =>
    have hone := applyOrHold_handedOn cfg (h d List.mem_cons_self)
    have hrest : (applyOrHold cfg (.ofPaced d) s).Flushes rest := by
      intro d' hd' hsome
      rw [hone.rendered]
      rw [hone.parts, Option.isSome_map] at hsome
      exact h d' (List.mem_cons_of_mem d hd') hsome
    have hall := ih hrest
    refine ⟨fun m => ?_, hall.cursors.trans hone.cursors, hall.rendered.trans hone.rendered, hall.pacer.trans hone.pacer⟩
    rw [showAll, hall.parts, hone.parts, Option.map_map]
    rfl

theorem flush_handedOn (cfg : LiveConfig α) (h : s.Flushes s.pacer.queue) :
    (∀ m, partsOf m (flush cfg s).messages = (partsOf m s.messages).map (settle m s.pacer.queue)) ∧
      (flush cfg s).cursors = s.cursors ∧ (flush cfg s).rendered = s.rendered ∧ (flush cfg s).pacer.queue = [] := by
  unfold flush
  have hall := showAll_handedOn cfg
    (s := { s with
      pacer :=
        { queue := []
          held := false
          runSinceWs := s.pacer.queue.foldl (fun n d => note cfg.letters d.delta n) s.pacer.runSinceWs
          timer := false } }) h
  exact ⟨hall.parts, hall.cursors, hall.rendered, by rw [hall.pacer]⟩

theorem inv_flush (cfg : LiveConfig α) (hI : Inv turns s) (h : s.Flushes s.pacer.queue) : Inv turns (flush cfg s) := by
  obtain ⟨hparts, hcursors, _, hqueue⟩ := flush_handedOn cfg h
  intro m parts c hp hc
  rw [hparts, Option.map_eq_some_iff] at hp
  obtain ⟨parts₀, hp₀, rfl⟩ := hp
  rw [hcursors] at hc
  rw [hqueue]
  exact hI m parts₀ c hp₀ hc

theorem inv_tick {chars : Nat} (hI : Inv turns s)
    (h : s.Flushes (release cfg.letters s.pacer.queue chars s.pacer.runSinceWs).shown) : Inv turns (tick cfg chars s) := by
  unfold tick
  dsimp only
  have hall := showAll_handedOn cfg
    (s := { s with
      pacer :=
        { queue := (release cfg.letters s.pacer.queue chars s.pacer.runSinceWs).queue
          held := (release cfg.letters s.pacer.queue chars s.pacer.runSinceWs).held
          runSinceWs := (release cfg.letters s.pacer.queue chars s.pacer.runSinceWs).runSinceWs
          timer := !(release cfg.letters s.pacer.queue chars s.pacer.runSinceWs).queue.isEmpty &&
            !(release cfg.letters s.pacer.queue chars s.pacer.runSinceWs).held } }) h
  intro m parts c hp hc
  rw [hall.parts, Option.map_eq_some_iff] at hp
  obtain ⟨parts₀, hp₀, rfl⟩ := hp
  rw [hall.cursors] at hc
  rw [hall.pacer, ← settle_append, release_settle]
  exact hI m parts₀ c hp₀ hc

/-! ### A counted event -/

variable {cursors : Nat → Option Cursor} {e : GapEvent α} {c : Cursor}

theorem count_self (h : cursors e.messageId = some c) :
    count e cursors e.messageId = some { seq := e.seq, turn := c.turn } := by
  simp [count, h]

variable {m : Nat}

theorem count_of_ne (h : m ≠ e.messageId) :
    count e cursors m = cursors m := by
  simp [count, h]

variable {seq : Nat}

theorem classify_apply {cursor : Option Cursor} (h : classifyStreamEvent cursor seq = .apply) :
    (cursor = none ∧ seq = 0) ∨ ∃ c, cursor = some c ∧ seq = c.seq + 1 := by
  cases cursor with
  | none =>
    simp only [classifyStreamEvent] at h
    split at h
    · rename_i h0
      exact .inl ⟨rfl, h0⟩
    · cases h
  | some c =>
    simp only [classifyStreamEvent, Stream.classifyStreamEvent] at h
    split at h
    · cases h
    · split at h
      · rename_i hseq
        exact .inr ⟨c, rfl, hseq⟩
      · cases h

theorem event_pos {t : Live.Turn α} {e : TurnEvent α} (h : t.event? seq = some e) : seq ≠ 0 := by
  rintro rfl
  simp [Turn.event?] at h

theorem inv_counted {t : LiveChat α} (hI : Inv turns s) (hc : s.cursors e.messageId = some c)
    (hseq : e.seq = c.seq + 1) (hev : (turns e.taskId).event? e.seq = some (.gated e.body)) (hturn : s.Counted e.messageId e.taskId)
    (hcursors : t.cursors = count e s.cursors)
    (hparts : ∀ m parts', partsOf m t.messages = some parts' → ∃ parts, partsOf m s.messages = some parts ∧
      settle m t.pacer.queue parts' =
        if e.messageId = m then e.body.apply (settle m s.pacer.queue parts) else settle m s.pacer.queue parts) :
    Inv turns t := by
  intro m parts' c' hp hc'
  obtain ⟨parts, hparts₀, hsettle⟩ := hparts m parts' hp
  rw [hcursors] at hc'
  rw [hsettle]
  by_cases hm : e.messageId = m
  · subst hm
    obtain ⟨hid, hfold⟩ := hI e.messageId parts c hparts₀ hc
    rw [count_self hc] at hc'
    obtain rfl := Option.some.inj hc'
    have hsame : c.turn = e.taskId := hturn (by simp [hparts₀]) c hc
    rw [if_pos rfl, hfold]
    refine ⟨hid, ?_⟩
    rw [hsame, hseq]
    rw [hseq] at hev
    exact (Turn.fold_next hev).symm
  · rw [if_neg hm]
    rw [count_of_ne (Ne.symm hm)] at hc'
    exact hI m parts c' hparts₀ hc'

theorem inv_paced {type : RunType} {delta : List α} (hI : Inv turns s)
    (hc : s.cursors e.messageId = some c) (hseq : e.seq = c.seq + 1)
    (hev : (turns e.taskId).event? e.seq = some (.gated e.body)) (hturn : s.Counted e.messageId e.taskId)
    (hbody : e.body = .delta type delta) :
    Inv turns
      { s with
        cursors := count e s.cursors
        pacer := s.pacer.enqueue
          { messageId := e.messageId, taskId := e.taskId, seq := e.seq, type := type, delta := delta } } := by
  refine inv_counted hI hc hseq hev hturn rfl ?_
  intro m parts hp
  refine ⟨parts, hp, ?_⟩
  change settle m (enqueueTo _ s.pacer.queue) parts = _
  rw [settle_enqueueTo, settle_cons, settle_nil, hbody]
  rfl

theorem inv_applied (hI : Inv turns s)
    (hc : s.cursors e.messageId = some c) (hseq : e.seq = c.seq + 1)
    (hev : (turns e.taskId).event? e.seq = some (.gated e.body)) (hturn : s.Counted e.messageId e.taskId)
    (hflush : s.Flushes s.pacer.queue) (hrendered : s.Rendered e.messageId) :
    Inv turns (applyOrHold cfg e (flush cfg { s with cursors := count e s.cursors })) := by
  obtain ⟨hparts, hcursors, hr, hqueue⟩ := flush_handedOn cfg (s := { s with cursors := count e s.cursors }) hflush
  refine inv_counted (e := e) hI hc hseq hev hturn ?_ ?_
  · unfold applyOrHold
    split
    · exact hcursors
    · exact (hold_same cfg e _).cursors.trans hcursors
  · intro m parts' hp
    unfold applyOrHold at hp ⊢
    split at hp
    · rename_i hmem
      rw [if_pos hmem]
      simp only [applyGated, partsOf_updateRow, hparts] at hp
      change ∃ parts, _ ∧ settle m (flush cfg { s with cursors := count e s.cursors }).pacer.queue parts' = _
      rw [hqueue]
      cases hp₀ : partsOf m s.messages with
      | none => simp [hp₀] at hp
      | some parts =>
        refine ⟨parts, rfl, ?_⟩
        rw [hp₀] at hp
        split at hp
        · rename_i hm
          rw [if_pos hm]
          exact (Option.some.inj hp).symm
        · rename_i hm
          rw [if_neg hm]
          exact (Option.some.inj hp).symm
    · rename_i hmem
      rw [if_neg hmem]
      rw [hr] at hmem
      have hsame := hold_same cfg e (flush cfg { s with cursors := count e s.cursors })
      rw [hsame.messages, hparts] at hp
      rw [hsame.pacer, hqueue]
      cases hp₀ : partsOf m s.messages with
      | none =>
        rw [hp₀] at hp
        cases hp
      | some parts =>
        refine ⟨parts, rfl, ?_⟩
        rw [hp₀] at hp
        have hm : ¬e.messageId = m := by
          rintro rfl
          exact hmem (hrendered (by simp [hp₀]))
        rw [if_neg hm]
        exact (Option.some.inj hp).symm

theorem inv_onGated (hI : Inv turns s)
    (hev : (turns e.taskId).event? e.seq = some (.gated e.body))
    (hok : classifyStreamEvent (s.cursors e.messageId) e.seq = .apply → s.Counted e.messageId e.taskId ∧
      match e.body with
      | .delta _ _ => True
      | _ => s.Flushes s.pacer.queue ∧ s.Rendered e.messageId) : Inv turns (onGated cfg e s) := by
  unfold onGated
  split
  · exact hI
  · exact (hold_same cfg e s).inv hI
  · rename_i happly
    obtain ⟨hturn, hbody⟩ := hok happly
    rcases classify_apply happly with ⟨_, h0⟩ | ⟨c, hc, hseq⟩
    · exact absurd h0 (event_pos hev)
    · split
      · rename_i hdelta
        exact inv_paced hI hc hseq hev hturn hdelta
      · rename_i hother
        have hboth : s.Flushes s.pacer.queue ∧ s.Rendered e.messageId := by
          cases hb : e.body with
          | delta type delta => exact absurd hb (hother type delta)
          | _ =>
            rw [hb] at hbody
            exact hbody
        exact inv_applied hI hc hseq hev hturn hboth.1 hboth.2

/-! ### Starts, questions, resets, loads -/

theorem partsOf_onStart (m taskId seq : Nat) (s : LiveChat α) (m' : Nat) :
    partsOf m' (onStart m taskId seq s).messages =
      if m = m' then some ((partsOf m s.messages).getD []) else partsOf m' s.messages := by
  have hsome := partsOf_isSome m s.messages
  unfold onStart
  dsimp only
  split
  · rename_i hany
    rw [hany] at hsome
    obtain ⟨parts, hp⟩ := Option.isSome_iff_exists.mp hsome
    split
    · rename_i hm
      subst hm
      rw [hp]
      rfl
    · rfl
  · rename_i hany
    rw [Bool.not_eq_true] at hany
    rw [hany, Option.isSome_eq_false_iff, Option.isNone_iff_eq_none] at hsome
    rw [partsOf_append]
    by_cases hm : m = m'
    · subst hm
      simp [hsome, partsOf]
    · simp [partsOf, hm]

theorem update_of_ne {m' : Nat} {c : Option Cursor} (h : ¬m = m') :
    Function.update cursors m c m' = cursors m' :=
  Function.update_of_ne (Ne.symm h) c cursors

theorem inv_onStart {taskId : Nat} (hI : Inv turns s) (hid : (turns taskId).messageId = m)
    (hflush : s.Flushes s.pacer.queue) (hok : s.Starts turns m taskId seq) :
    Inv turns (onStart m taskId seq (flush cfg s)) := by
  have hIf := inv_flush cfg hI hflush
  obtain ⟨hparts, hcursors, _, hqueue⟩ := flush_handedOn cfg hflush
  intro m' parts c hp hc
  rw [partsOf_onStart] at hp
  change Function.update (flush cfg s).cursors m _ m' = some c at hc
  change _ ∧ settle m' (flush cfg s).pacer.queue parts = _
  by_cases hm : m = m'
  · subst hm
    rw [if_pos rfl] at hp
    rw [Function.update_self, hcursors] at hc
    have hcopy : parts = s.copyOf m := by
      rw [← Option.some.inj hp, hparts]
      rfl
    rw [hqueue, settle_nil]
    -- The cursor is set to the turn's start unless it is there or further on already.
    have hraised : (∀ c' ∈ s.cursors m, c'.seq < seq) → c = { seq := seq, turn := taskId } →
        (turns c.turn).messageId = m ∧ parts = (turns c.turn).fold c.seq := by
      rintro hlow rfl
      exact ⟨hid, hcopy.trans (hok.fresh hlow)⟩
    cases hcur : s.cursors m with
    | none =>
      rw [hcur] at hc
      refine hraised (fun c' hc' => ?_) (Option.some.inj hc).symm
      rw [hcur] at hc'
      cases hc'
    | some c₀ =>
      rw [hcur] at hc
      simp only at hc
      split at hc
      · rename_i hle
        obtain rfl := Option.some.inj hc
        cases hrow : partsOf m s.messages with
        | none =>
          obtain ⟨hid', hfold⟩ := hok.late c₀ hcur hle (by simp [hrow])
          refine ⟨hid', ?_⟩
          rw [hfold, hcopy]
          simp [copyOf, hrow]
        | some parts₀ =>
          obtain ⟨hid', hfold⟩ := hI m parts₀ c₀ hrow hcur
          refine ⟨hid', ?_⟩
          rw [← hfold, hcopy]
          simp [copyOf, hrow]
      · rename_i hlt
        refine hraised (fun c' hc' => ?_) (Option.some.inj hc).symm
        rw [hcur] at hc'
        cases hc'
        exact Nat.not_le.mp hlt
  · rw [if_neg hm] at hp
    rw [update_of_ne hm] at hc
    exact hIf m' parts c hp hc

theorem inv_onAsk {toolCallId form : Nat} (hI : Inv turns s) (hflush : s.Flushes s.pacer.queue)
    (hok : s.Asks m toolCallId form) : Inv turns (onAsk m toolCallId form (flush cfg s)) := by
  have hIf := inv_flush cfg hI hflush
  obtain ⟨hparts, hcursors, _, _⟩ := flush_handedOn cfg hflush
  intro m' parts c hp hc
  refine hIf m' parts c ?_ hc
  change (flush cfg s).cursors m' = some c at hc
  rw [hcursors] at hc
  simp only [onAsk, partsOf_updateRow, hparts] at hp
  rw [hparts]
  split at hp
  · rename_i hm
    subst hm
    rw [Option.map_map, Option.map_eq_some_iff] at hp
    obtain ⟨parts₀, hp₀, rfl⟩ := hp
    rw [hp₀]
    exact congrArg some (hok (by simp [hc]) parts₀ hp₀).symm
  · exact hp

theorem inv_onReset {taskId keep : Nat} (hI : Inv turns s) (hid : (turns taskId).messageId = m)
    (hev : (turns taskId).event? seq = some (.reset keep)) (hflush : s.Flushes s.pacer.queue)
    (hok : s.Resets turns taskId seq keep) : Inv turns (onReset m taskId seq keep (flush cfg s)) := by
  have hIf := inv_flush cfg hI hflush
  obtain ⟨hparts, hcursors, _, hqueue⟩ := flush_handedOn cfg hflush
  intro m' parts c hp hc
  simp only [onReset, partsOf_updateRow] at hp
  change Function.update (flush cfg s).cursors m _ m' = some c at hc
  by_cases hm : m = m'
  · subst hm
    rw [Function.update_self] at hc
    obtain rfl := Option.some.inj hc
    rw [if_pos rfl, hparts, Option.map_map, Option.map_eq_some_iff] at hp
    obtain ⟨parts₀, hp₀, rfl⟩ := hp
    refine ⟨hid, ?_⟩
    change settle m (flush cfg s).pacer.queue _ = _
    rw [hqueue, settle_nil]
    obtain ⟨n, rfl⟩ := Nat.exists_eq_succ_of_ne_zero (event_pos hev)
    rw [Turn.fold_next hev]
    rw [← hid] at hp₀
    have hkeep := hok parts₀ hp₀
    rw [hid] at hkeep
    exact hkeep
  · rw [if_neg hm] at hp
    rw [update_of_ne hm] at hc
    exact hIf m' parts c hp hc

theorem inv_onFinish {messageId : Option Nat} (hI : Inv turns s) : Inv turns (onFinish messageId s) := by
  unfold onFinish
  split
  · rename_i m
    refine (drop_same m _).inv ?_
    intro m' parts c hp hc
    refine hI m' parts c hp ?_
    by_cases hm : m = m'
    · subst hm
      simp at hc
    · exact (update_of_ne hm).symm.trans hc
  · exact hI

theorem partsOf_ofHistory {rows : List (HistoryRow α)} {parts : List (Live.Part α)}
    (h : partsOf m (rows.map ofHistory) = some parts) : ∃ r ∈ rows, r.id = m ∧ r.parts = parts := by
  obtain ⟨row, hrow, hid, hparts⟩ := mem_of_partsOf h
  obtain ⟨r, hr, rfl⟩ := List.mem_map.mp hrow
  exact ⟨r, hr, hid, hparts⟩

theorem loaded {rows : List (HistoryRow α)} (hok : s.Loads turns cursors rows)
    {r : HistoryRow α} (hr : r ∈ rows) (hc : cursors r.id = some c) :
    (turns c.turn).messageId = r.id ∧ settle r.id s.pacer.queue r.parts = (turns c.turn).fold c.seq := by
  obtain ⟨hid, hparts, hsettled⟩ := hok r hr c hc
  exact ⟨hid, (settle_of_free hsettled r.parts).trans hparts⟩

theorem inv_adopt {history : List (HistoryRow α)} (hI : Inv turns s)
    (hok : s.Loads turns (adopt history s).cursors history) : Inv turns (adopt history s) := by
  intro m parts c hp hc
  change partsOf m (if history.isEmpty then s.messages else history.map ofHistory) = some parts at hp
  split at hp
  · rename_i hempty
    rw [List.isEmpty_iff] at hempty
    subst hempty
    exact hI m parts c hp hc
  · obtain ⟨r, hr, rfl, rfl⟩ := partsOf_ofHistory hp
    exact loaded hok hr hc

theorem partsOf_splice {tail : List (HistoryRow α)} {rows : List (ChatRow α)}
    {parts : List (Live.Part α)} (hc : (cursors m).isSome = true) (h : partsOf m (splice tail cursors rows) = some parts) :
    partsOf m rows = some parts ∨ ∃ r ∈ tail, r.id = m ∧ r.parts = parts := by
  unfold splice at h
  split at h
  · exact .inl h
  · split at h
    · exact .inl h
    · rename_i i hi
      have hsplit : partsOf m rows = (partsOf m (rows.take i)).or (partsOf m (rows.drop i)) := by
        rw [← partsOf_append, List.take_append_drop]
      rw [partsOf_append, partsOf_append] at h
      cases hbefore : partsOf m (rows.take i) with
      | some parts₀ =>
        rw [hbefore] at h
        exact .inl (by rw [hsplit, hbefore]; exact h)
      | none =>
        rw [hbefore, Option.none_or] at h
        cases htail : partsOf m (tail.map ofHistory) with
        | some parts₀ =>
          rw [htail] at h
          obtain rfl := Option.some.inj h
          exact .inr (partsOf_ofHistory htail)
        | none =>
          rw [htail, Option.none_or] at h
          refine .inl ?_
          rw [hsplit, hbefore, Option.none_or, ← h]
          -- No row of the tail has this id, so the filter keeps the rows that do.
          have hkeep : ∀ rows' : List (ChatRow α), partsOf m rows' =
              partsOf m (rows'.filter fun r => tail.all (fun t => t.id ≠ r.id) && (cursors r.id).isSome) := by
            intro rows'
            induction rows' with
            | nil => rfl
            | cons r rows' ih =>
              by_cases hr : r.id = m
              · have hall : (tail.all (fun t => t.id ≠ r.id) && (cursors r.id).isSome) = true := by
                  rw [Bool.and_eq_true, List.all_eq_true, hr]
                  refine ⟨fun t ht => ?_, hc⟩
                  have hnone := partsOf_isSome m (tail.map ofHistory)
                  rw [htail, Option.isSome_none] at hnone
                  have hfalse := List.any_eq_false.mp hnone.symm (ofHistory t) (List.mem_map_of_mem ht)
                  exact decide_eq_true (of_decide_eq_false (Bool.eq_false_iff.mpr hfalse))
                rw [List.filter_cons, if_pos hall, partsOf, partsOf, if_pos hr, if_pos hr]
              · rw [partsOf, if_neg hr, List.filter_cons, ih]
                split
                · rw [partsOf, if_neg hr]
                · rfl
          exact hkeep _

theorem inv_refresh {tail : List (HistoryRow α)} (hI : Inv turns s) (hok : s.Loads turns s.cursors tail) :
    Inv turns (refresh tail s) := by
  unfold refresh
  split
  · exact hI
  · intro m parts c hp hc
    rcases partsOf_splice (by simp [show s.cursors m = some c from hc]) hp with hp | ⟨r, hr, rfl, rfl⟩
    · exact hI m parts c hp hc
    · exact loaded hok hr hc

/-! ### The drain -/

theorem inv_replayed (hI : Inv turns s)
    (happly : classifyStreamEvent (s.cursors e.messageId) e.seq = .apply) (hok : s.Replays turns e) :
    Inv turns { applyGated e s with cursors := count e s.cursors } := by
  have hmsg : ∀ m parts', partsOf m (updateRow e.messageId e.body.apply s.messages) = some parts' →
      ∃ parts, partsOf m s.messages = some parts ∧ parts' = if e.messageId = m then e.body.apply parts else parts := by
    intro m parts' hp
    rw [partsOf_updateRow] at hp
    split at hp
    · rename_i hm
      obtain ⟨parts, hp₀, rfl⟩ := Option.map_eq_some_iff.mp hp
      exact ⟨parts, hp₀, by rw [if_pos hm]⟩
    · rename_i hm
      exact ⟨parts', hp, by rw [if_neg hm]⟩
  cases hrow : partsOf e.messageId s.messages with
  | none =>
    -- The row is gone: only a cursor of a reply that is not drawn moves.
    intro m parts' c hp hc
    obtain ⟨parts, hp₀, rfl⟩ := hmsg m parts' hp
    have hm : ¬e.messageId = m := by
      rintro rfl
      rw [hrow] at hp₀
      cases hp₀
    rw [if_neg hm]
    change count e s.cursors m = some c at hc
    rw [count_of_ne (Ne.symm hm)] at hc
    exact hI m parts c hp₀ hc
  | some parts₀ =>
    obtain ⟨hev, hturn, hsettled⟩ := hok (by simp [hrow])
    rcases classify_apply happly with ⟨_, h0⟩ | ⟨c, hc, hseq⟩
    · exact absurd h0 (event_pos hev)
    · refine inv_counted hI hc hseq hev hturn rfl ?_
      intro m parts' hp
      obtain ⟨parts, hp₀, rfl⟩ := hmsg m parts' hp
      refine ⟨parts, hp₀, ?_⟩
      change settle m s.pacer.queue _ = _
      split
      · rename_i hm
        subst hm
        rw [settle_of_free hsettled, settle_of_free hsettled]
      · rfl

theorem replays_next {e' : GapEvent α}
    (happly : classifyStreamEvent (s.cursors e.messageId) e.seq = .apply) (hok : s.Replays turns e) (h : s.Replays turns e') :
    Replays turns { applyGated e s with cursors := count e s.cursors } e' := by
  intro hsome
  change (partsOf e'.messageId (updateRow e.messageId e.body.apply s.messages)).isSome = true at hsome
  have hsome' : (partsOf e'.messageId s.messages).isSome = true := by
    rw [partsOf_updateRow] at hsome
    split at hsome
    · simpa using hsome
    · exact hsome
  obtain ⟨hev, hcount, hsettled⟩ := h hsome'
  refine ⟨hev, ?_, hsettled⟩
  intro _ c hc
  change count e s.cursors e'.messageId = some c at hc
  by_cases hm : e'.messageId = e.messageId
  · cases hcur : s.cursors e.messageId with
    | none =>
      rw [hcur] at happly
      rcases classify_apply happly with ⟨_, h0⟩ | ⟨c', hc', _⟩
      · rw [hm] at hsome'
        exact absurd h0 (event_pos (hok hsome').1)
      · cases hc'
    | some c₀ =>
      rw [hm, count_self hcur] at hc
      obtain rfl := Option.some.inj hc
      exact hcount hsome' c₀ (by rw [hm]; exact hcur)
  · rw [count_of_ne hm] at hc
    exact hcount hsome' c hc

theorem inv_replay (turns : Nat → Live.Turn α) (buffer : List (GapEvent α)) (hI : Inv turns s)
    (hok : ∀ e ∈ (planGapDrain s.cursors buffer).1.takeWhile (fun e => s.rendered.contains e.messageId), s.Replays turns e) :
    Inv turns (replay (planGapDrain s.cursors buffer).1 s) := by
  induction buffer generalizing s with
  | nil => exact hI
  | cons e rest ih =>
    unfold planGapDrain at hok ⊢
    split
    · rename_i hignore
      rw [hignore] at hok
      exact ih hI hok
    · exact hI
    · rename_i happly
      rw [happly] at hok
      dsimp only at hok ⊢
      unfold replay
      split
      · rename_i hmem
        have htrue : s.rendered.contains e.messageId = true := List.contains_iff_mem.mpr hmem
        rw [List.takeWhile_cons_of_pos (p := fun e : GapEvent α => s.rendered.contains e.messageId) htrue] at hok
        have he := hok e List.mem_cons_self
        refine ih (s := { applyGated e s with cursors := count e s.cursors }) (inv_replayed hI happly he) ?_
        intro e' he'
        exact replays_next happly he (hok e' (List.mem_cons_of_mem e he'))
      · exact hI

theorem inv_drain (hI : Inv turns s)
    (hok : ∀ e ∈ (planGapDrain s.cursors s.recovery.buffer).1.takeWhile (fun e => s.rendered.contains e.messageId),
      s.Replays turns e) : Inv turns (drain cfg s) := by
  have hreplay := inv_replay turns s.recovery.buffer
    (s := { s with
      recovery :=
        { s.recovery with
          buffer := (planGapDrain s.cursors s.recovery.buffer).2, reloading := false, lastReloadAt := some s.now } }) hI hok
  unfold drain
  dsimp only
  split
  · split
    · exact hreplay
    · exact (reconcile_same cfg _).inv hreplay
  · exact (reconcile_same cfg _).inv hreplay

end FidelityAux

open FidelityAux

/-- One sound step keeps shown and queued text together the fold up to the cursor. -/
theorem inv_step {cfg : LiveConfig α} {turns : Nat → Live.Turn α} {s t : LiveChat α} {a : LiveAct α} (hI : Inv turns s)
    (hok : Sound cfg turns s a) (h : step cfg turns s a = some t) : Inv turns t := by
  cases a with
  | start taskId =>
    cases h
    exact inv_onStart hI rfl hok.1 hok.2
  | deliver taskId seq =>
    simp only [step] at h
    split at h
    · rename_i body hev
      cases h
      exact inv_onGated hI hev (hok _ hev)
    · rename_i i form hev
      cases h
      obtain ⟨hflush, hasks⟩ := hok _ hev
      exact inv_onAsk hI hflush hasks
    · rename_i keep hev
      cases h
      obtain ⟨hflush, hresets⟩ := hok _ hev
      exact inv_onReset hI rfl hev hflush hresets
    · cases h
  | elicit m i form =>
    cases h
    exact inv_onAsk hI hok.1 hok.2
  | truncated m =>
    cases h
    exact (reconcile_same cfg _).inv hI
  | finish messageId =>
    cases h
    exact inv_onFinish (inv_flush cfg hI hok)
  | notice =>
    cases h
    exact inv_flush cfg hI hok
  | tick chars =>
    simp only [step] at h
    split at h
    · cases h
      exact inv_tick hI hok
    · cases h
  | render =>
    cases h
    exact hI
  | elapse ms =>
    cases h
    exact hI
  | retry =>
    simp only [step] at h
    split at h
    · split at h
      · cases h
        exact (reconcile_same cfg _).inv hI
      · cases h
    · cases h
  | loadHistory history =>
    cases h
    exact inv_adopt hI hok
  | refreshTurn tail =>
    cases h
    exact inv_refresh hI hok
  | drain =>
    simp only [step] at h
    split at h
    · cases h
      exact inv_drain hI hok
    · cases h

/-- Along every run whose steps find what they rely on, whatever is delivered, dropped, redelivered or loaded and in whatever order,
every reply with a cursor shows, once the queue is empty, the fold of the published events up to it; and before that what is shown and
what is queued make up that fold, so that no delta is applied twice and none over a hole. -/
theorem live_transcript_faithful_of_sound {cfg : LiveConfig α} {turns : Nat → Live.Turn α} {messages : List (ChatRow α)}
    {s : LiveChat α} (h : Steps.Reaches (step cfg turns) (Sound cfg turns) (opened messages) s) : s.Faithful turns := by
  have hI : Inv turns s := by
    refine h.invariant (fun x a y hx hok hy => inv_step hx hok hy) ?_
    intro m parts c _ hc
    cases hc
  refine ⟨fun hqueue m parts c hp hc => ?_, hI⟩
  obtain ⟨hid, hfold⟩ := hI m parts c hp hc
  rw [hqueue] at hfold
  exact ⟨hid, hfold⟩

/-- A chat whose characters are numbers, 0 the blank. -/
def plain : LiveConfig Nat where
  letters := { isSpace := fun c => c = 0, isHighSurrogate := fun _ => false }
  minIntervalMs := 250

/-- A turn that writes two words, calls a tool, and writes one more. -/
def talk : Live.Turn Nat where
  messageId := 1
  base := []
  start := 0
  events := [.gated (.delta .text [5, 0]), .gated (.delta .text [6, 0]), .gated (.toolCall 9 3 4), .gated (.delta .text [7, 0])]

/-- A run whose third event is lost and whose fourth is held: the reload finds the pacer empty, and the drain replays the rest. -/
theorem live_transcript_faithful_recovered :
    ∃ s : LiveChat Nat, Steps.Reaches (step plain fun _ => talk) (Sound plain fun _ => talk) (opened []) s ∧
      (s.pacer.queue = [] ∧ s.cursors 1 = some { seq := 4, turn := 1 } ∧
        partsOf 1 s.messages = some (talk.fold 4)) ∧ s.Faithful fun _ => talk := by
  obtain ⟨s, hreach, hend⟩ := Steps.exists_of_execOk (step plain fun _ => talk) (Sound plain fun _ => talk) (opened [])
    [.start 1, .render, .deliver 1 1, .tick 1, .deliver 1 2, .tick 9, .deliver 1 4,
      .loadHistory [{ id := 1, parts := talk.fold 3, running := true, taskId := 1, streamSeq := some 3 }], .drain]
    (P := fun s => s.pacer.queue = [] ∧ s.cursors 1 = some { seq := 4, turn := 1 } ∧ partsOf 1 s.messages = some (talk.fold 4))
    (by decide)
  exact ⟨s, hreach, hend, live_transcript_faithful_of_sound hreach⟩

/-- A reload lands while the pacer still holds a delta its snapshot covers: the next tick applies that delta a second time. -/
theorem live_transcript_faithful_false :
    ¬∀ s : LiveChat Nat, Steps.Reaches (step plain fun _ => talk) Steps.Free (opened []) s → s.Faithful fun _ => talk := by
  intro h
  obtain ⟨s, hreach, hqueue, hcursor, hparts⟩ := Steps.exists_of_exec (step plain fun _ => talk) (opened [])
    [.start 1, .render, .deliver 1 1,
      .loadHistory [{ id := 1, parts := talk.fold 1, running := true, taskId := 1, streamSeq := some 1 }], .tick 9]
    (P := fun s => s.pacer.queue = [] ∧ s.cursors 1 = some { seq := 1, turn := 1 } ∧
      partsOf 1 s.messages = some [.run .text [5, 0, 5, 0]]) (by decide)
  exact absurd ((h s hreach).shown hqueue 1 _ _ hparts hcursor).2 (by decide)

end LiveChat

end Capka

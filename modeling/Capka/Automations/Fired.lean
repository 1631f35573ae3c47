import Mathlib
import Capka.Automations.Firings

/-!
# What a firing does next

The statements of a firing, one after the other: most turn its phase, two take and give back its hold, and the transaction may name a turn
of its own. The list is made once here, and the invariants of the firings are read off it.
-/

namespace Capka.AutomationRuns

/-- The firing may have a hold. -/
def Phase.holding : Phase → Bool
  | .gate _ => true
  | .gateRelease _ => true
  | .transaction _ => true
  | .release _ => true
  | .done (.fired _) => true
  | _ => false

namespace FiredAux

/-- Where the turn of a firing goes. -/
structure FiredTo (s t : State) (i : Nat) (c : Call) (locked : Row) (chatId : Nat) : Prop where
  row : ∃ r turnId, t.row = some r ∧ r.lastTaskId = some turnId ∧
    r.threadChatId = (if c.snapshot.single && (s.thread c.snapshot.single locked.threadChatId).isNone then some chatId
      else locked.threadChatId) ∧
    ((t.tasks = s.tasks ++ [⟨c.taskId, chatId, .queued, some c.snapshot.single⟩] ∧ turnId = c.taskId ∧
        (∀ u ∈ s.tasks, u.chatId = chatId → u.status ≠ .queued) ∧ t.calls = s.calls.set i { c with phase := .done (.fired chatId) }) ∨
      (t.tasks = s.tasks ∧ (∃ u ∈ s.tasks, u.chatId = chatId) ∧ t.calls = s.calls.set i { c with phase := .release (.fired chatId) }))
  chats : (∃ x, s.thread c.snapshot.single locked.threadChatId = some x ∧ chatId = x.id ∧ t.chats.map Chat.id = s.chats.map Chat.id) ∨
    (s.thread c.snapshot.single locked.threadChatId = none ∧ chatId = s.nextId ∧ t.chats.map Chat.id = s.chats.map Chat.id ++ [chatId])
  holds : t.holds = s.holds
  waiting : ∀ w ∈ t.waiting, w ∈ s.waiting
  next : t.nextId = s.nextId + 2

/-- The row is the same but for its skips. -/
def KeepsRow (s t : State) : Prop :=
  ∀ r', t.row = some r' → ∃ r, s.row = some r ∧ r'.threadChatId = r.threadChatId ∧ r'.lastTaskId = r.lastTaskId

/-- The next statement of a firing. -/
inductive Advanced (s : State) (i : Nat) (c : Call) (t : State) : Prop
  | plain (p : Phase) (hq : c.phase.holding = true → p.holding = true ∧ ∀ x, p ≠ .done x) (hd : ∀ x, p ≠ .release (.fired x))
      (hf : ∀ x, p ≠ .done (.fired x)) (hc : ∀ x, c.phase ≠ .done x) (hcalls : t.calls = s.calls.set i { c with phase := p })
      (htasks : t.tasks = s.tasks) (hchats : t.chats = s.chats) (hholds : t.holds = s.holds) (hwaiting : t.waiting = s.waiting)
      (hnext : t.nextId = s.nextId) (hrow : KeepsRow s t)
  | took (today : Nat) (hc : c.phase = .reserve today)
      (ht : t = { s with holds := s.holds ++ [c.taskId] }.setCall i { c with phase := .gate today })
  | freed (p : Phase) (hc : ∀ x, c.phase ≠ .done x) (hn : ∀ today, c.phase ≠ .transaction today)
      (ht : t = (s.releaseHold c.taskId).setCall i { c with phase := p })
  | fired (today chatId : Nat) (locked : Row) (hc : c.phase = .transaction today) (hrow : s.row = some locked)
      (hfree : s.previousRunBlocks locked.lastTaskId c.snapshot.single = false) (hto : FiredTo s t i c locked chatId)

theorem keepsRow_stampSkip (s : State) (reason : SkipReason) (today : Option Nat) : KeepsRow s (s.stampSkip reason today) := by
  intro r' hr'
  cases hr : s.row with
  | none => simp [State.stampSkip, State.stamp, hr] at hr'
  | some r =>
    simp only [State.stampSkip, State.stamp, hr, Option.some.injEq] at hr'
    subst hr'
    cases today <;> exact ⟨r, rfl, rfl, rfl⟩

@[simp] theorem stamp_tasks (s : State) (x : Option Stamp) (f : Row → Row) : (s.stamp x f).tasks = s.tasks := by
  unfold State.stamp
  split <;> rfl

@[simp] theorem stamp_chats (s : State) (x : Option Stamp) (f : Row → Row) : (s.stamp x f).chats = s.chats := by
  unfold State.stamp
  split <;> rfl

@[simp] theorem stamp_holds (s : State) (x : Option Stamp) (f : Row → Row) : (s.stamp x f).holds = s.holds := by
  unfold State.stamp
  split <;> rfl

@[simp] theorem stamp_waiting (s : State) (x : Option Stamp) (f : Row → Row) : (s.stamp x f).waiting = s.waiting := by
  unfold State.stamp
  split <;> rfl

@[simp] theorem stamp_calls (s : State) (x : Option Stamp) (f : Row → Row) : (s.stamp x f).calls = s.calls := by
  unfold State.stamp
  split <;> rfl

@[simp] theorem stamp_nextId (s : State) (x : Option Stamp) (f : Row → Row) : (s.stamp x f).nextId = s.nextId := by
  unfold State.stamp
  split <;> rfl

@[simp] theorem append_tasks (s : State) (thread : Option Chat) (chatId messageId : Nat) :
    (s.append thread chatId messageId).tasks = s.tasks := by
  simp only [State.append]
  split <;> rfl

@[simp] theorem append_holds (s : State) (thread : Option Chat) (chatId messageId : Nat) :
    (s.append thread chatId messageId).holds = s.holds := by
  simp only [State.append]
  split <;> rfl

@[simp] theorem append_calls (s : State) (thread : Option Chat) (chatId messageId : Nat) :
    (s.append thread chatId messageId).calls = s.calls := by
  simp only [State.append]
  split <;> rfl

theorem append_chats (s : State) (thread : Option Chat) (chatId messageId : Nat) :
    (s.append thread chatId messageId).chats.map Chat.id =
      if thread.isSome then s.chats.map Chat.id else s.chats.map Chat.id ++ [chatId] := by
  have hmap : ∀ l : List Chat, (l.map (fun c => if c.id = chatId then { c with activeLeafId := some messageId } else c)).map Chat.id =
      l.map Chat.id := by
    intro l
    rw [List.map_map]
    refine List.map_congr_left (fun x _ => ?_)
    simp only [Function.comp_apply]
    split <;> rfl
  have hchats : (s.append thread chatId messageId).chats =
      (if thread.isSome then s.chats else s.chats ++ [⟨chatId, none⟩]).map
        (fun c => if c.id = chatId then { c with activeLeafId := some messageId } else c) := by
    simp only [State.append]
    split <;> rfl
  rw [hchats, hmap]
  split <;> simp

theorem append_waiting (s : State) (thread : Option Chat) (chatId messageId : Nat) :
    ∀ w ∈ (s.append thread chatId messageId).waiting, w ∈ s.waiting := by
  intro w hw
  simp only [State.append] at hw
  split at hw
  · exact hw
  · exact (List.mem_filter.mp hw).1

theorem enqueueTask_cases (s : State) (id chatId : Nat) (firing : Option Bool) :
    (∃ u ∈ s.tasks, u.chatId = chatId ∧ s.enqueueTask id chatId firing = (s, u.id, false)) ∨
      ((∀ u ∈ s.tasks, u.chatId = chatId → u.status ≠ .queued) ∧
        s.enqueueTask id chatId firing = ({ s with tasks := s.tasks ++ [⟨id, chatId, .queued, firing⟩] }, id, true)) := by
  cases h : s.tasks.find? (fun t => t.chatId = chatId && t.status == .queued) with
  | some u =>
    have hp := List.find?_some h
    simp only [Bool.and_eq_true, decide_eq_true_eq] at hp
    exact .inl ⟨u, List.mem_of_find?_eq_some h, hp.1, by simp only [State.enqueueTask, h]⟩
  | none =>
    refine .inr ⟨?_, by simp only [State.enqueueTask, h]⟩
    intro u hu hchat hq
    have := List.find?_eq_none.mp h u hu
    simp [hchat, hq] at this

theorem thread_spec {s : State} {single : Bool} {threadChatId : Option Nat} {x : Chat} (h : s.thread single threadChatId = some x) :
    single = true ∧ threadChatId = some x.id ∧ x ∈ s.chats := by
  unfold State.thread at h
  split at h
  · rename_i hs
    obtain ⟨id, hid, hx⟩ := Option.bind_eq_some_iff.mp h
    have := List.find?_some hx
    simp only [decide_eq_true_eq] at this
    exact ⟨hs, by rw [hid, this], List.mem_of_find?_eq_some hx⟩
  · cases h

theorem firedTo_of_fire {s : State} {i : Nat} {c : Call} {locked : Row} {today : Nat} (hrow : s.row = some locked)
    (hfull : c.full locked today = false) (hfree : s.previousRunBlocks locked.lastTaskId c.snapshot.single = false) :
    ∃ chatId, FiredTo s ((s.fire c today false).1.setCall i
      { c with phase := if (s.fire c today false).2.2 then .done (s.fire c today false).2.1 else .release (s.fire c today false).2.1 })
      i c locked chatId := by
  simp only [State.fire, hrow, hfull, hfree, Bool.false_eq_true, if_false]
  generalize hth : s.thread c.snapshot.single locked.threadChatId = thread
  generalize hid : (thread.map Chat.id).getD s.nextId = chatId
  generalize hwr : ({ s.append thread chatId (s.nextId + 1) with nextId := s.nextId + 2 } : State) = written
  have htasks : written.tasks = s.tasks := by rw [← hwr]; exact append_tasks s thread chatId _
  have hcalls : written.calls = s.calls := by rw [← hwr]; exact append_calls s thread chatId _
  have hholds : written.holds = s.holds := by rw [← hwr]; exact append_holds s thread chatId _
  have hnext : written.nextId = s.nextId + 2 := by rw [← hwr]
  have hwaiting : ∀ w ∈ written.waiting, w ∈ s.waiting := by rw [← hwr]; exact append_waiting s thread chatId _
  have hwrow : written.row = some locked := by rw [← hwr]; exact (State.append_row s thread chatId _).trans hrow
  have hchats : written.chats.map Chat.id = if thread.isSome then s.chats.map Chat.id else s.chats.map Chat.id ++ [chatId] := by
    rw [← hwr]; exact append_chats s thread chatId _
  have hwhere : (∃ x, thread = some x ∧ chatId = x.id ∧ written.chats.map Chat.id = s.chats.map Chat.id) ∨
      (thread = none ∧ chatId = s.nextId ∧ written.chats.map Chat.id = s.chats.map Chat.id ++ [chatId]) := by
    cases thread with
    | none => exact .inr ⟨rfl, hid.symm, by simpa using hchats⟩
    | some x => exact .inl ⟨x, rfl, hid.symm, by simpa using hchats⟩
  refine ⟨chatId, ?_⟩
  rcases enqueueTask_cases written c.taskId chatId (some c.snapshot.single) with ⟨u, hu, hchat, heq⟩ | ⟨hnone, heq⟩
  · rw [heq]
    simp only [Bool.false_eq_true, if_false]
    refine ⟨⟨locked.stampFired u.id (if c.snapshot.single && thread.isNone then some chatId else none) today, u.id,
      by simp [State.stamp, hwrow], rfl, ?_, .inr ⟨?_, ?_, ?_⟩⟩, ?_, ?_, ?_, ?_⟩
    · simp only [Row.stampFired, hth]
      by_cases hb : (c.snapshot.single && thread.isNone) = true
      · simp only [hb, if_true, Option.some_or]
      · simp only [hb, if_false, Option.none_or, Bool.false_eq_true]
    · simp [State.setCall, htasks]
    · exact ⟨u, htasks ▸ hu, hchat⟩
    · simp [State.setCall, hcalls]
    · rw [hth]
      simpa [State.setCall] using hwhere
    · simp [State.setCall, hholds]
    · simpa [State.setCall] using hwaiting
    · simp [State.setCall, hnext]
  · rw [heq]
    simp only [if_true]
    refine ⟨⟨locked.stampFired c.taskId (if c.snapshot.single && thread.isNone then some chatId else none) today, c.taskId,
      by simp [State.stamp, hwrow], rfl, ?_, .inl ⟨?_, rfl, ?_, ?_⟩⟩, ?_, ?_, ?_, ?_⟩
    · simp only [Row.stampFired, hth]
      by_cases hb : (c.snapshot.single && thread.isNone) = true
      · simp only [hb, if_true, Option.some_or]
      · simp only [hb, if_false, Option.none_or, Bool.false_eq_true]
    · simp [State.setCall, htasks]
    · rw [← htasks]
      exact hnone
    · simp [State.setCall, hcalls]
    · rw [hth]
      simpa [State.setCall] using hwhere
    · simp [State.setCall, hholds]
    · simpa [State.setCall] using hwaiting
    · simp [State.setCall, hnext]

theorem advanced_of_stampSkip {s : State} {i : Nat} {c : Call} (reason : SkipReason) (today : Option Nat) (p : Phase)
    (hq : c.phase.holding = true → p.holding = true ∧ ∀ x, p ≠ .done x) (hd : ∀ x, p ≠ .release (.fired x))
    (hf : ∀ x, p ≠ .done (.fired x)) (hc : ∀ x, c.phase ≠ .done x) :
    Advanced s i c ((s.stampSkip reason today).setCall i { c with phase := p }) := by
  refine .plain p hq hd hf hc ?_ ?_ ?_ ?_ ?_ ?_ (keepsRow_stampSkip s reason today) <;> simp [State.setCall, State.stampSkip]

theorem advanced_of_advance {localDayOf : Nat → Nat → Nat} {s t : State} {i : Nat} {c : Call} {o : Outside}
    (h : s.advance localDayOf i c o = some t) : Advanced s i c t := by
  have hsame : KeepsRow s s := fun r hr => ⟨r, hr, rfl, rfl⟩
  unfold State.advance at h
  cases hp : c.phase with
  | called =>
    simp only [hp, Option.some.injEq] at h
    subst h
    exact .plain _ (by simp [hp, Phase.holding]) (by simp) (by simp) (by simp [hp]) rfl rfl rfl rfl rfl rfl hsame
  | ceiling today | overlap today =>
    simp only [hp, Option.some.injEq] at h
    subst h
    refine .plain _ (by simp [hp, Phase.holding]) ?_ ?_ (by simp [hp]) rfl rfl rfl rfl rfl rfl hsame <;> (intro x; split <;> simp)
  | ceilingSkip today | overlapSkip | gateSkip today =>
    simp only [hp, Option.some.injEq] at h
    subst h
    exact advanced_of_stampSkip _ _ (.done _) (by simp [hp, Phase.holding]) (by simp) (by simp) (by simp [hp])
  | reserve today =>
    simp only [hp] at h
    split at h
    · obtain rfl := Option.some.inj h
      exact .plain _ (by simp [hp, Phase.holding]) (by simp) (by simp) (by simp [hp]) rfl rfl rfl rfl rfl rfl hsame
    · split at h
      · obtain rfl := Option.some.inj h
        exact .took today hp rfl
      · obtain rfl := Option.some.inj h
        refine .plain _ (by simp [hp, Phase.holding]) (by simp) ?_ (by simp [hp]) rfl rfl rfl rfl rfl rfl hsame
        intro x
        split <;> simp
  | gate today =>
    simp only [hp, Option.some.injEq] at h
    subst h
    refine .plain _ ?_ ?_ ?_ (by simp [hp]) rfl rfl rfl rfl rfl rfl hsame
    · intro _
      split <;> simp [Phase.holding]
    · intro x
      split <;> simp
    · intro x
      split <;> simp
  | gateRelease today | release answer =>
    simp only [hp, Option.some.injEq] at h
    subst h
    exact .freed _ (by simp [hp]) (by simp [hp]) rfl
  | transaction today =>
    simp only [hp, Option.some.injEq] at h
    cases hr : s.row with
    | none =>
      simp only [State.fire, hr, Bool.false_eq_true, if_false] at h
      subst h
      exact .plain (.release .gone) (by simp [Phase.holding]) (by simp) (by simp) (by simp [hp]) rfl rfl rfl rfl rfl rfl hsame
    | some locked =>
      cases hfull : c.full locked today with
      | true =>
        simp only [State.fire, hr, hfull, if_true, Bool.false_eq_true, if_false] at h
        subst h
        exact advanced_of_stampSkip _ _ (.release .dailyLimit) (by simp [Phase.holding]) (by simp) (by simp) (by simp [hp])
      | false =>
        cases hfree : s.previousRunBlocks locked.lastTaskId c.snapshot.single with
        | true =>
          simp only [State.fire, hr, hfull, hfree, if_true, Bool.false_eq_true, if_false] at h
          subst h
          exact advanced_of_stampSkip _ _ (.release .busy) (by simp [Phase.holding]) (by simp) (by simp) (by simp [hp])
        | false =>
          cases hfails : o.fails with
          | true =>
            simp only [State.fire, hr, hfull, hfree, hfails, if_true, Bool.false_eq_true, if_false] at h
            subst h
            exact .plain (.release .threw) (by simp [Phase.holding]) (by simp) (by simp) (by simp [hp]) rfl rfl rfl rfl rfl rfl hsame
          | false =>
            obtain ⟨chatId, hto⟩ := firedTo_of_fire (i := i) hr hfull hfree
            rw [hfails] at h
            subst h
            exact .fired today chatId locked hp hr hfree hto
  | done answer =>
    simp [hp] at h

end FiredAux

end Capka.AutomationRuns

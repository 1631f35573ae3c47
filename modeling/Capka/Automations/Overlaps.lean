import Mathlib
import Capka.Automations.Fired

/-!
# Runs side by side

The transaction of a firing locks the row, looks at the run the row names, and names its own. An automation that opens a chat for each
run has one run of its firings alive at most; one that keeps a thread may queue a run behind the one that works, in the same chat. A hold
taken on the way is kept by the turn that was created, and by nothing else.
-/

namespace Capka.AutomationRuns

/-- The turn waits or works. -/
def Task.live (t : Task) : Bool := t.status == .queued || t.status == .running

/-- Every firing is called for an automation that opens a chat for each run. -/
def FreshMode (s : State) (a : Act) : Bool :=
  match a with
  | .call _ => s.row.all (fun r => !r.single)
  | _ => true

/-- What holds of the turns and the holds: a chat has one queued turn and one running one at most, and a firing that ended has a hold only
if it fired. -/
structure Orderly (s : State) : Prop where
  ids : (s.tasks.map Task.id).Nodup
  queued : ∀ t ∈ s.tasks, ∀ u ∈ s.tasks, t.chatId = u.chatId → t.status = .queued → u.status = .queued → t = u
  running : ∀ t ∈ s.tasks, ∀ u ∈ s.tasks, t.chatId = u.chatId → t.status = .running → u.status = .running → t = u
  holds : ∀ c ∈ s.calls, c.taskId ∈ s.holds → ∀ x, c.phase = .done x → ∃ chatId, x = .fired chatId

/-- One turn of the automation's firings is alive at most. -/
def OneLive (s : State) : Prop :=
  ∀ t ∈ s.tasks, ∀ u ∈ s.tasks, t.firing.isSome → u.firing.isSome → t.live → u.live → t = u

/-- The thread of the row is there. -/
def State.HasThread (s : State) (id : Nat) : Prop := (∃ r, s.row = some r ∧ r.threadChatId = some id) ∧ ∃ x ∈ s.chats, x.id = id

/-- What holds of a step. When a firing ends, the hold it took is there if and only if its turn is; a firing in one-thread mode goes to the
thread that is there, or opens one and records it; the thread of the row stays while its chat is there and the mode is kept; and no chat
appears but by a firing. -/
structure Fires (s t : State) (a : Act) : Prop where
  held : ∀ i o c c' x, a = .advance i o → s.calls[i]? = some c → t.calls[i]? = some c' → c'.phase = .done x →
    (c.taskId ∈ t.holds ↔ c.taskId ∈ s.holds ∧ ∃ u ∈ t.tasks, u.id = c.taskId)
  follows : ∀ i o c c' today chatId, a = .advance i o → s.calls[i]? = some c → c.phase = .transaction today → t.calls[i]? = some c' →
    (c'.phase = .done (.fired chatId) ∨ c'.phase = .release (.fired chatId)) → c.snapshot.single = true →
    (∃ r, t.row = some r ∧ r.threadChatId = some chatId) ∧ ∀ id, s.HasThread id → chatId = id
  keeps : ∀ id, s.HasThread id → (∀ trigger most runWhen, a ≠ .patch trigger most runWhen (some false)) →
    ∀ r, t.row = some r → r.threadChatId = some id
  opens : ∀ x ∈ t.chats, (∀ y ∈ s.chats, y.id ≠ x.id) → ∃ i o c, a = .advance i o ∧ s.calls[i]? = some c ∧
    (c.snapshot.single = true → ∃ r, t.row = some r ∧ r.threadChatId = some x.id)

namespace OverlapsAux

open FiredAux

/-- The invariant of the turns, the firings and the holds. -/
structure Books (s : State) : Prop where
  ids : (s.tasks.map Task.id).Nodup
  fresh : ∀ t ∈ s.tasks, t.id < s.nextId ∧ t.chatId < s.nextId
  chats : ∀ x ∈ s.chats, x.id < s.nextId
  waiting : ∀ w ∈ s.waiting, w.chatId < s.nextId
  held : ∀ id ∈ s.holds, id < s.nextId
  drawn : ∀ c ∈ s.calls, c.taskId < s.nextId
  apart : ∀ (i j : Nat) (c d : Call), s.calls[i]? = some c → s.calls[j]? = some d → c.taskId = d.taskId → i = j
  unfired : ∀ c ∈ s.calls, ∀ t ∈ s.tasks, t.id = c.taskId → ∃ x, c.phase = .done (.fired x)
  holding : ∀ c ∈ s.calls, c.taskId ∈ s.holds → c.phase.holding = true
  queued : ∀ t ∈ s.tasks, ∀ u ∈ s.tasks, t.chatId = u.chatId → t.status = .queued → u.status = .queued → t = u
  running : ∀ t ∈ s.tasks, ∀ u ∈ s.tasks, t.chatId = u.chatId → t.status = .running → u.status = .running → t = u

variable {s t : State}

theorem Books.frame (h : Books s) (htasks : t.tasks = s.tasks) (hchats : t.chats = s.chats)
    (hwaiting : t.waiting = s.waiting) (hholds : t.holds = s.holds) (hcalls : t.calls = s.calls) (hnext : t.nextId = s.nextId) :
    Books t := by
  constructor
  · rw [htasks]; exact h.ids
  · rw [htasks, hnext]; exact h.fresh
  · rw [hchats, hnext]; exact h.chats
  · rw [hwaiting, hnext]; exact h.waiting
  · rw [hholds, hnext]; exact h.held
  · rw [hcalls, hnext]; exact h.drawn
  · rw [hcalls]; exact h.apart
  · rw [hcalls, htasks]; exact h.unfired
  · rw [hcalls, hholds]; exact h.holding
  · rw [htasks]; exact h.queued
  · rw [htasks]; exact h.running

theorem Books.later (h : Books s) {n : Nat} (hn : s.nextId ≤ n) : Books { s with nextId := n } where
  ids := h.ids
  fresh t ht := ⟨Nat.lt_of_lt_of_le (h.fresh t ht).1 hn, Nat.lt_of_lt_of_le (h.fresh t ht).2 hn⟩
  chats x hx := Nat.lt_of_lt_of_le (h.chats x hx) hn
  waiting w hw := Nat.lt_of_lt_of_le (h.waiting w hw) hn
  held id hid := Nat.lt_of_lt_of_le (h.held id hid) hn
  drawn c hc := Nat.lt_of_lt_of_le (h.drawn c hc) hn
  apart := h.apart
  unfired := h.unfired
  holding := h.holding
  queued := h.queued
  running := h.running

theorem Books.drop (h : Books s) {holds : List Nat} (hsub : ∀ id ∈ holds, id ∈ s.holds) : Books { s with holds := holds } where
  ids := h.ids
  fresh := h.fresh
  chats := h.chats
  waiting := h.waiting
  held id hid := h.held id (hsub id hid)
  drawn := h.drawn
  apart := h.apart
  unfired := h.unfired
  holding c hc hid := h.holding c hc (hsub _ hid)
  queued := h.queued
  running := h.running

theorem Books.shrink (h : Books s) {tasks : List Task} {chats : List Chat} {waiting : List Waiting}
    (htasks : tasks.Sublist s.tasks) (hchats : ∀ x ∈ chats, x ∈ s.chats) (hwaiting : ∀ w ∈ waiting, w ∈ s.waiting) :
    Books { s with tasks := tasks, chats := chats, waiting := waiting } where
  ids := (htasks.map Task.id).nodup h.ids
  fresh t ht := h.fresh t (htasks.subset ht)
  chats x hx := h.chats x (hchats x hx)
  waiting w hw := h.waiting w (hwaiting w hw)
  held := h.held
  drawn := h.drawn
  apart := h.apart
  unfired c hc t ht := h.unfired c hc t (htasks.subset ht)
  holding := h.holding
  queued t ht u hu := h.queued t (htasks.subset ht) u (htasks.subset hu)
  running t ht u hu := h.running t (htasks.subset ht) u (htasks.subset hu)

variable {i : Nat} {c : Call}

theorem taskId_of_set {calls : List Call} (hc : calls[i]? = some c) (p : Phase) {j : Nat} {d : Call}
    (hd : (calls.set i { c with phase := p })[j]? = some d) : ∃ d₀, calls[j]? = some d₀ ∧ d₀.taskId = d.taskId := by
  by_cases hij : i = j
  · subst hij
    have hlt : i < calls.length := (List.getElem?_eq_some_iff.mp hc).1
    rw [List.getElem?_set_self hlt] at hd
    obtain rfl := Option.some.inj hd
    exact ⟨c, hc, rfl⟩
  · rw [List.getElem?_set_ne hij] at hd
    exact ⟨d, hd, rfl⟩

theorem Books.set (h : Books s) (hc : s.calls[i]? = some c) {p : Phase}
    (hfired : ∀ t ∈ s.tasks, t.id = c.taskId → ∃ x, p = .done (.fired x)) (hhold : c.taskId ∈ s.holds → p.holding = true) :
    Books { s with calls := s.calls.set i { c with phase := p } } where
  ids := h.ids
  fresh := h.fresh
  chats := h.chats
  waiting := h.waiting
  held := h.held
  drawn d hd := by
    rcases List.mem_or_eq_of_mem_set hd with hd | rfl
    · exact h.drawn d hd
    · exact h.drawn c (List.mem_of_getElem? hc)
  apart j k d e hd he heq := by
    obtain ⟨d₀, hd₀, hid⟩ := taskId_of_set hc p hd
    obtain ⟨e₀, he₀, hie⟩ := taskId_of_set hc p he
    exact h.apart j k d₀ e₀ hd₀ he₀ (by rw [hid, hie, heq])
  unfired d hd t ht hid := by
    rcases List.mem_or_eq_of_mem_set hd with hd | rfl
    · exact h.unfired d hd t ht hid
    · exact hfired t ht hid
  holding d hd hid := by
    rcases List.mem_or_eq_of_mem_set hd with hd | rfl
    · exact h.holding d hd hid
    · exact hhold hid
  queued := h.queued
  running := h.running

theorem Books.push (h : Books s) {u : Task} (hid : u.id < s.nextId) (hchat : u.chatId < s.nextId)
    (hnew : ∀ t ∈ s.tasks, t.id ≠ u.id) (hcalls : ∀ c ∈ s.calls, c.taskId = u.id → ∃ x, c.phase = .done (.fired x))
    (hq : ∀ t ∈ s.tasks, t.chatId = u.chatId → t.status ≠ .queued) (hst : u.status = .queued) :
    Books { s with tasks := s.tasks ++ [u] } where
  ids := by
    rw [List.map_append, List.map_singleton]
    refine List.nodup_append.mpr ⟨h.ids, List.nodup_singleton _, ?_⟩
    intro a ha b hb
    obtain ⟨t, ht, rfl⟩ := List.mem_map.mp ha
    obtain rfl := List.mem_singleton.mp hb
    exact hnew t ht
  fresh t ht := by
    rcases List.mem_append.mp ht with ht | ht
    · exact h.fresh t ht
    · obtain rfl := List.mem_singleton.mp ht
      exact ⟨hid, hchat⟩
  chats := h.chats
  waiting := h.waiting
  held := h.held
  drawn := h.drawn
  apart := h.apart
  unfired c hc t ht heq := by
    rcases List.mem_append.mp ht with ht | ht
    · exact h.unfired c hc t ht heq
    · obtain rfl := List.mem_singleton.mp ht
      exact hcalls c hc heq.symm
  holding := h.holding
  queued t ht v hv heq hqt hqv := by
    rcases List.mem_append.mp ht with hold | hnew <;> rcases List.mem_append.mp hv with hold' | hnew'
    · exact h.queued t hold v hold' heq hqt hqv
    · rw [List.mem_singleton.mp hnew'] at heq
      exact absurd hqt (hq t hold heq)
    · rw [List.mem_singleton.mp hnew] at heq
      exact absurd hqv (hq v hold' heq.symm)
    · rw [List.mem_singleton.mp hnew, List.mem_singleton.mp hnew']
  running t ht v hv heq hqt hqv := by
    rcases List.mem_append.mp ht with ht | ht
    · rcases List.mem_append.mp hv with hv | hv
      · exact h.running t ht v hv heq hqt hqv
      · rw [List.mem_singleton.mp hv, hst] at hqv
        cases hqv
    · rw [List.mem_singleton.mp ht, hst] at hqt
      cases hqt

variable {id chatId : Nat}

theorem Books.enqueue (h : Books s) (firing : Option Bool) (hid : id < s.nextId) (hchat : chatId < s.nextId)
    (hnew : ∀ t ∈ s.tasks, t.id ≠ id) (hcalls : ∀ c ∈ s.calls, c.taskId ≠ id) : Books (s.enqueueTask id chatId firing).1 := by
  rcases enqueueTask_cases s id chatId firing with ⟨u, _, _, heq⟩ | ⟨hq, heq⟩
  · rw [heq]
    exact h
  · rw [heq]
    exact h.push hid hchat hnew (fun c hc heq => absurd heq (hcalls c hc)) hq rfl

theorem books_of_advanced (h : Books s) (hc : s.calls[i]? = some c) (hadv : Advanced s i c t) :
    Books t := by
  have hmem := List.mem_of_getElem? hc
  cases hadv with
  | plain p hq hd hf hcd hcalls htasks hchats hholds hwaiting hnext hrow =>
    refine (h.set hc (p := p) ?_ ?_).frame htasks hchats hwaiting hholds hcalls hnext
    · intro u hu hid
      obtain ⟨x, hx⟩ := h.unfired c hmem u hu hid
      exact absurd hx (hcd _)
    · exact fun hid => (hq (h.holding c hmem hid)).1
  | took today hcp ht =>
    subst ht
    have hset : Books { s with calls := s.calls.set i { c with phase := .gate today } } := by
      refine h.set hc ?_ (fun _ => rfl)
      intro u hu hid
      obtain ⟨x, hx⟩ := h.unfired c hmem u hu hid
      simp [hcp] at hx
    refine ⟨hset.ids, hset.fresh, hset.chats, hset.waiting, ?_, hset.drawn, hset.apart, hset.unfired, ?_, hset.queued, hset.running⟩
    · intro id hid
      rcases List.mem_append.mp hid with hid | hid
      · exact h.held id hid
      · obtain rfl := List.mem_singleton.mp hid
        exact h.drawn c hmem
    · intro d hd hid
      rcases List.mem_append.mp hid with hid | hid
      · exact hset.holding d hd hid
      · obtain ⟨j, hj⟩ := List.mem_iff_getElem?.mp hd
        obtain ⟨d₀, hd₀, hdid⟩ := taskId_of_set hc _ hj
        have hji : j = i := h.apart j i d₀ c hd₀ hc (by rw [hdid]; simpa using hid)
        subst hji
        simp only [State.setCall] at hj
        rw [List.getElem?_set_self (List.getElem?_eq_some_iff.mp hc).1] at hj
        obtain rfl := Option.some.inj hj
        rfl
  | freed p hcd hn ht =>
    subst ht
    have hdrop : Books (s.releaseHold c.taskId) := h.drop (fun id hid => (List.mem_filter.mp hid).1)
    refine hdrop.set hc ?_ ?_
    · intro u hu hid
      obtain ⟨x, hx⟩ := h.unfired c hmem u hu hid
      exact absurd hx (hcd _)
    · intro hid
      have := (List.mem_filter.mp hid).2
      simp at this
  | fired today chatId locked hcp hrow hfree hto =>
    have hno : ∀ u ∈ s.tasks, u.id ≠ c.taskId := by
      intro u hu hid
      obtain ⟨x, hx⟩ := h.unfired c hmem u hu hid
      simp [hcp] at hx
    have hlater := h.later (Nat.le_add_right s.nextId 2)
    have hchatId : chatId < s.nextId + 2 := by
      rcases hto.chats with ⟨x, hx, rfl, _⟩ | ⟨_, rfl, _⟩
      · have := h.chats x (thread_spec hx).2.2
        omega
      · omega
    have hchats : ∀ x ∈ t.chats, x.id < s.nextId + 2 := by
      intro x hx
      have hin : x.id ∈ t.chats.map Chat.id := List.mem_map_of_mem hx
      have hold : ∀ id ∈ s.chats.map Chat.id, id < s.nextId + 2 := by
        intro id hid
        obtain ⟨y, hy, rfl⟩ := List.mem_map.mp hid
        have := h.chats y hy
        omega
      rcases hto.chats with ⟨_, _, _, heq⟩ | ⟨_, _, heq⟩
      · exact hold _ (heq ▸ hin)
      · rw [heq] at hin
        rcases List.mem_append.mp hin with hin | hin
        · exact hold _ hin
        · rw [List.mem_singleton.mp hin]
          exact hchatId
    obtain ⟨r, turnId, _, _, _, ⟨htasks, _, hq, hcalls⟩ | ⟨htasks, _, hcalls⟩⟩ := hto.row
    · have hset := hlater.set (s := { s with nextId := s.nextId + 2 }) hc (p := .done (.fired chatId)) (fun _ _ _ => ⟨chatId, rfl⟩)
        (fun _ => rfl)
      have hpush := hset.push (u := ⟨c.taskId, chatId, .queued, some c.snapshot.single⟩)
        (Nat.lt_of_lt_of_le (h.drawn c hmem) (Nat.le_add_right _ 2)) hchatId hno ?_ hq rfl
      · refine ⟨?_, ?_, ?_, ?_, ?_, ?_, ?_, ?_, ?_, ?_, ?_⟩
        · rw [htasks]; exact hpush.ids
        · rw [htasks, hto.next]; exact hpush.fresh
        · rw [hto.next]; exact hchats
        · intro w hw
          rw [hto.next]
          exact hpush.waiting w (hto.waiting w hw)
        · rw [hto.holds, hto.next]; exact hpush.held
        · rw [hcalls, hto.next]; exact hpush.drawn
        · rw [hcalls]; exact hpush.apart
        · rw [hcalls, htasks]; exact hpush.unfired
        · rw [hcalls, hto.holds]; exact hpush.holding
        · rw [htasks]; exact hpush.queued
        · rw [htasks]; exact hpush.running
      · intro d hd hid
        obtain ⟨j, hj⟩ := List.mem_iff_getElem?.mp hd
        obtain ⟨d₀, hd₀, hdid⟩ := taskId_of_set hc _ hj
        have hji : j = i := h.apart j i d₀ c hd₀ hc (by rw [hdid]; exact hid)
        subst hji
        rw [List.getElem?_set_self (List.getElem?_eq_some_iff.mp hc).1] at hj
        obtain rfl := Option.some.inj hj
        exact ⟨chatId, rfl⟩
    · have hset := hlater.set (s := { s with nextId := s.nextId + 2 }) hc (p := .release (.fired chatId))
        (fun u hu hid => absurd hid (hno u hu)) (fun _ => rfl)
      refine ⟨?_, ?_, ?_, ?_, ?_, ?_, ?_, ?_, ?_, ?_, ?_⟩
      · rw [htasks]; exact hset.ids
      · rw [htasks, hto.next]; exact hset.fresh
      · rw [hto.next]; exact hchats
      · intro w hw
        rw [hto.next]
        exact hset.waiting w (hto.waiting w hw)
      · rw [hto.holds, hto.next]; exact hset.held
      · rw [hcalls, hto.next]; exact hset.drawn
      · rw [hcalls]; exact hset.apart
      · rw [hcalls, htasks]; exact hset.unfired
      · rw [hcalls, hto.holds]; exact hset.holding
      · rw [htasks]; exact hset.queued
      · rw [htasks]; exact hset.running

theorem books_move (h : Books s) {x : Task} (hx : x ∈ s.tasks) {status : TaskStatus} (hmay : s.mayMove x status = true) :
    Books { s with tasks := s.tasks.map (fun u => if u.id = x.id then { u with status := status } else u) } := by
  have hself : ∀ u ∈ s.tasks, u.id = x.id → u = x := fun u hu hid => List.inj_on_of_nodup_map h.ids hu hx hid
  have hback : ∀ u ∈ s.tasks.map (fun u => if u.id = x.id then { u with status := status } else u),
      (u = { x with status := status }) ∨ (u ∈ s.tasks ∧ u.id ≠ x.id) := by
    intro u hu
    obtain ⟨v, hv, rfl⟩ := List.mem_map.mp hu
    by_cases hid : v.id = x.id
    · rw [if_pos hid, hself v hv hid]
      exact .inl rfl
    · rw [if_neg hid]
      exact .inr ⟨hv, hid⟩
  have hids : (s.tasks.map (fun u => if u.id = x.id then { u with status := status } else u)).map Task.id = s.tasks.map Task.id := by
    rw [List.map_map]
    refine List.map_congr_left (fun u _ => ?_)
    simp only [Function.comp_apply]
    split <;> rfl
  -- the chat has no other turn of the status the turn moves to
  have hother : ∀ v ∈ s.tasks, v.id ≠ x.id → x.chatId = v.chatId →
      (status = .queued → v.status ≠ .queued) ∧ (status = .running → v.status ≠ .running) := by
    intro v hv hne hchat
    cases status with
    | queued =>
      refine ⟨fun _ hq => ?_, fun hr => (by cases hr)⟩
      cases hs : x.status <;> simp only [State.mayMove, hs, Bool.false_eq_true] at hmay
      have := List.all_eq_true.mp hmay v hv
      simp [hchat, hq] at this
    | running =>
      refine ⟨fun hr => (by cases hr), fun _ hq => ?_⟩
      cases hs : x.status <;> simp only [State.mayMove, hs, Bool.false_eq_true] at hmay
      have := List.all_eq_true.mp hmay v hv
      simp [hchat, hq] at this
    | completed | failed | cancelled => exact ⟨fun hr => (by cases hr), fun hr => (by cases hr)⟩
  refine ⟨by rw [hids]; exact h.ids, ?_, h.chats, h.waiting, h.held, h.drawn, h.apart, ?_, h.holding, ?_, ?_⟩
  · intro u hu
    rcases hback u hu with rfl | ⟨hu, _⟩
    · exact h.fresh x hx
    · exact h.fresh u hu
  · intro c hc u hu hid
    rcases hback u hu with rfl | ⟨hu, _⟩
    · exact h.unfired c hc x hx hid
    · exact h.unfired c hc u hu hid
  · intro u hu v hv hchat hqu hqv
    rcases hback u hu with rfl | ⟨hu, hnu⟩ <;> rcases hback v hv with rfl | ⟨hv, hnv⟩
    · rfl
    · exact absurd hqv ((hother v hv hnv hchat).1 hqu)
    · exact absurd hqu ((hother u hu hnu hchat.symm).1 hqv)
    · exact h.queued u hu v hv hchat hqu hqv
  · intro u hu v hv hchat hqu hqv
    rcases hback u hu with rfl | ⟨hu, hnu⟩ <;> rcases hback v hv with rfl | ⟨hv, hnv⟩
    · rfl
    · exact absurd hqv ((hother v hv hnv hchat).2 hqu)
    · exact absurd hqu ((hother u hu hnu hchat.symm).2 hqv)
    · exact h.running u hu v hv hchat hqu hqv

theorem books_call (h : Books s) (r : Row) (manual : Bool) :
    Books { s with calls := s.calls ++ [⟨r, manual, s.nextId, .called⟩], nextId := s.nextId + 1 } := by
  have hlater := h.later (Nat.le_succ s.nextId)
  have hback : ∀ c ∈ s.calls ++ [⟨r, manual, s.nextId, .called⟩], c ∈ s.calls ∨ c = ⟨r, manual, s.nextId, .called⟩ := by
    intro c hc
    simpa using hc
  refine ⟨h.ids, hlater.fresh, hlater.chats, hlater.waiting, hlater.held, ?_, ?_, ?_, ?_, h.queued, h.running⟩
  · intro c hc
    rcases hback c hc with hc | rfl
    · exact hlater.drawn c hc
    · exact Nat.lt_succ_self _
  · intro i j c d hc hd hid
    have hold : ∀ (k : Nat) (e : Call), (s.calls ++ [⟨r, manual, s.nextId, .called⟩])[k]? = some e →
        s.calls[k]? = some e ∨ (k = s.calls.length ∧ e.taskId = s.nextId) := by
      intro k e he
      rcases Nat.lt_trichotomy k s.calls.length with hlt | rfl | hgt
      · rw [List.getElem?_append_left hlt] at he
        exact .inl he
      · simp only [List.getElem?_append_right (Nat.le_refl _), Nat.sub_self, List.getElem?_cons_zero, Option.some.injEq] at he
        exact .inr ⟨rfl, by rw [← he]⟩
      · rw [List.getElem?_append_right (Nat.le_of_lt hgt), List.getElem?_eq_none (by simp; omega)] at he
        cases he
    rcases hold i c hc with hc | ⟨rfl, hci⟩ <;> rcases hold j d hd with hd | ⟨rfl, hdi⟩
    · exact h.apart i j c d hc hd hid
    · have := h.drawn c (List.mem_of_getElem? hc)
      omega
    · have := h.drawn d (List.mem_of_getElem? hd)
      omega
    · rfl
  · intro c hc t ht hid
    rcases hback c hc with hc | rfl
    · exact h.unfired c hc t ht hid
    · exact absurd hid (Nat.ne_of_lt (h.fresh t ht).1)
  · intro c hc hid
    rcases hback c hc with hc | rfl
    · exact h.holding c hc hid
    · exact absurd (h.held _ hid) (Nat.lt_irrefl _)

theorem books_send (h : Books s) {x : Chat} (hx : x ∈ s.chats) :
    Books (({ s.append (some x) x.id s.nextId with nextId := s.nextId + 2 }).enqueueTask (s.nextId + 1) x.id none).1 := by
  have hlater := h.later (Nat.le_add_right s.nextId 2)
  have happ : Books { s.append (some x) x.id s.nextId with nextId := s.nextId + 2 } := by
    refine ⟨?_, ?_, ?_, ?_, ?_, ?_, ?_, ?_, ?_, ?_, ?_⟩ <;> simp only [append_tasks, append_holds, append_calls]
    · exact hlater.ids
    · exact hlater.fresh
    · intro y hy
      have hin : y.id ∈ (s.append (some x) x.id s.nextId).chats.map Chat.id := List.mem_map_of_mem hy
      rw [append_chats] at hin
      obtain ⟨z, hz, heq⟩ := List.mem_map.mp (by simpa using hin)
      rw [← heq]
      exact hlater.chats z hz
    · exact fun w hw => hlater.waiting w (append_waiting s _ _ _ w hw)
    · exact hlater.held
    · exact hlater.drawn
    · exact hlater.apart
    · exact hlater.unfired
    · exact hlater.holding
    · exact hlater.queued
    · exact hlater.running
  have hlt := h.chats x hx
  refine happ.enqueue none (Nat.lt_succ_self _) (by simp only; omega) ?_ ?_
  · intro t ht
    simp only [append_tasks] at ht
    have := (h.fresh t ht).1
    omega
  · intro c hc
    simp only [append_calls] at hc
    have := h.drawn c hc
    omega

variable {localDayOf : Nat → Nat → Nat} {a : Act}

theorem books_of_step (h : Books s) (hstep : step localDayOf s a = some t) :
    Books t := by
  cases a with
  | call manual =>
    obtain ⟨r, _, rfl⟩ := Option.map_eq_some_iff.mp hstep
    exact books_call h r manual
  | advance i o =>
    obtain ⟨c, hc, hadv⟩ := Option.bind_eq_some_iff.mp hstep
    exact books_of_advanced h hc (advanced_of_advance hadv)
  | quiet | patch trigger most runWhen single =>
    obtain ⟨r, _, rfl⟩ := Option.map_eq_some_iff.mp hstep
    exact h.frame rfl rfl rfl rfl rfl rfl
  | settleQuiet i =>
    obtain ⟨today, _, rfl⟩ := Option.map_eq_some_iff.mp hstep
    exact h.frame (stamp_tasks s _ _) (stamp_chats s _ _) (stamp_waiting s _ _) (stamp_holds s _ _) (stamp_calls s _ _)
      (stamp_nextId s _ _)
  | delete | wait ms =>
    obtain rfl := Option.some.inj hstep
    exact h.frame rfl rfl rfl rfl rfl rfl
  | move id status =>
    obtain ⟨x, hx, hstep⟩ := Option.bind_eq_some_iff.mp hstep
    have hid : x.id = id := by simpa using List.find?_some hx
    split at hstep
    · rename_i hmay
      obtain rfl := Option.some.inj hstep
      rw [← hid]
      exact books_move h (List.mem_of_find?_eq_some hx) hmay
    · cases hstep
  | suspend messageId chatId =>
    simp only [step] at hstep
    split at hstep
    · rename_i hany
      obtain rfl := Option.some.inj hstep
      refine ⟨h.ids, h.fresh, h.chats, ?_, h.held, h.drawn, h.apart, h.unfired, h.holding, h.queued, h.running⟩
      intro w hw
      rcases List.mem_append.mp hw with hw | hw
      · exact h.waiting w hw
      · obtain ⟨x, hx, hid⟩ := List.any_eq_true.mp hany
        obtain rfl := List.mem_singleton.mp hw
        simp only [decide_eq_true_eq] at hid
        rw [← hid]
        exact h.chats x hx
    · cases hstep
  | decide messageId =>
    obtain ⟨w, hw, rfl⟩ := Option.map_eq_some_iff.mp hstep
    have hrest : Books { s with waiting := s.waiting.filter (fun v => v.messageId ≠ messageId), nextId := s.nextId + 1 } :=
      (h.shrink (List.Sublist.refl _) (fun _ hx => hx) (fun v hv => (List.mem_filter.mp hv).1)).later (Nat.le_succ s.nextId)
    refine hrest.enqueue none (Nat.lt_succ_self _) ?_ ?_ ?_
    · have := h.waiting w (List.mem_of_find?_eq_some hw)
      simp only
      omega
    · exact fun t ht => Nat.ne_of_lt (h.fresh t ht).1
    · exact fun c hc => Nat.ne_of_lt (h.drawn c hc)
  | send chatId =>
    obtain ⟨x, hx, rfl⟩ := Option.map_eq_some_iff.mp hstep
    have hid : x.id = chatId := by simpa using List.find?_some hx
    rw [← hid]
    exact books_send h (List.mem_of_find?_eq_some hx)
  | deleteChat id =>
    obtain rfl := Option.some.inj hstep
    exact h.shrink List.filter_sublist (fun x hx => (List.mem_filter.mp hx).1) (fun w hw => (List.mem_filter.mp hw).1)
  | dropHold id =>
    obtain rfl := Option.some.inj hstep
    exact h.drop (fun x hx => (List.mem_filter.mp hx).1)

theorem books_initial (now nextId : Nat) (row : Row) : Books (initial now nextId row) := by
  refine ⟨List.nodup_nil, ?_, ?_, ?_, ?_, ?_, ?_, ?_, ?_, ?_, ?_⟩ <;> simp [initial]

variable {locked : Row}

theorem thread_of_hasThread (hrow : s.row = some locked) (h : s.HasThread id) :
    locked.threadChatId = some id ∧ ∃ x, s.thread true locked.threadChatId = some x ∧ x.id = id := by
  obtain ⟨⟨r, hr, hid⟩, x, hx, hxid⟩ := h
  obtain rfl := Option.some.inj (hr.symm.trans hrow)
  refine ⟨hid, ?_⟩
  simp only [State.thread, if_true, hid, Option.bind_some]
  cases hfind : s.chats.find? (fun c => c.id = id) with
  | some y => exact ⟨y, rfl, by simpa using List.find?_some hfind⟩
  | none =>
    have := List.find?_eq_none.mp hfind x hx
    simp [hxid] at this

theorem keepsRow_of_step (hstep : step localDayOf s a = some t)
    (hadv : ∀ i o, a ≠ .advance i o) (hpatch : ∀ trigger most runWhen, a ≠ .patch trigger most runWhen (some false)) : KeepsRow s t := by
  have hsame : ∀ t' : State, t'.row = s.row → KeepsRow s t' := fun t' heq r hr => ⟨r, heq ▸ hr, rfl, rfl⟩
  cases a with
  | call manual | quiet =>
    obtain ⟨r, _, rfl⟩ := Option.map_eq_some_iff.mp hstep
    exact hsame _ rfl
  | advance i o => exact absurd rfl (hadv i o)
  | settleQuiet i =>
    obtain ⟨today, _, rfl⟩ := Option.map_eq_some_iff.mp hstep
    intro r' hr'
    cases hr : s.row with
    | none => simp [State.stamp, hr] at hr'
    | some r =>
      simp only [State.stamp, hr, Option.some.injEq] at hr'
      subst hr'
      exact ⟨r, rfl, rfl, rfl⟩
  | patch trigger most runWhen single =>
    obtain ⟨r, hr, rfl⟩ := Option.map_eq_some_iff.mp hstep
    intro r' hr'
    obtain rfl := Option.some.inj hr'
    refine ⟨r, hr, ?_, rfl⟩
    have hne : single ≠ some false := by
      rintro rfl
      exact hpatch trigger most runWhen rfl
    simp [Row.patched, hne]
  | delete =>
    obtain rfl := Option.some.inj hstep
    intro r' hr'
    cases hr'
  | move id status =>
    obtain ⟨x, _, hstep⟩ := Option.bind_eq_some_iff.mp hstep
    split at hstep
    · obtain rfl := Option.some.inj hstep
      exact hsame _ rfl
    · cases hstep
  | suspend messageId chatId =>
    simp only [step] at hstep
    split at hstep
    · obtain rfl := Option.some.inj hstep
      exact hsame _ rfl
    · cases hstep
  | decide messageId =>
    obtain ⟨w, _, rfl⟩ := Option.map_eq_some_iff.mp hstep
    exact hsame _ (State.enqueueTask_row _ _ _ _)
  | send chatId =>
    obtain ⟨x, _, rfl⟩ := Option.map_eq_some_iff.mp hstep
    exact hsame _ ((State.enqueueTask_row _ _ _ _).trans (State.append_row _ _ _ _))
  | deleteChat id | dropHold id | wait ms =>
    obtain rfl := Option.some.inj hstep
    exact hsame _ rfl

theorem row_of_fired (hto : FiredTo s t i c locked chatId) {r : Row}
    (hr : t.row = some r) : r.threadChatId =
      (if c.snapshot.single && (s.thread c.snapshot.single locked.threadChatId).isNone then some chatId else locked.threadChatId) := by
  obtain ⟨r', turnId, hr', _, hth, _⟩ := hto.row
  obtain rfl := Option.some.inj (hr'.symm.trans hr)
  exact hth

theorem keeps_of_advanced (hadv : Advanced s i c t) (h : s.HasThread id) {r : Row}
    (hr : t.row = some r) : r.threadChatId = some id := by
  have hof : ∀ r₀, s.row = some r₀ → r₀.threadChatId = some id := by
    intro r₀ hr₀
    obtain ⟨⟨x, hx, hid⟩, _⟩ := h
    obtain rfl := Option.some.inj (hx.symm.trans hr₀)
    exact hid
  cases hadv with
  | plain p hq hd hf hcd hcalls htasks hchats hholds hwaiting hnext hrow =>
    obtain ⟨r₀, hr₀, hth, _⟩ := hrow r hr
    rw [hth]
    exact hof r₀ hr₀
  | took today hcp ht =>
    subst ht
    exact hof r hr
  | freed p hcd hn ht =>
    subst ht
    exact hof r hr
  | fired today chatId locked hcp hrow hfree hto =>
    rw [row_of_fired hto hr]
    obtain ⟨hth, x, hx, _⟩ := thread_of_hasThread hrow h
    cases hs : c.snapshot.single with
    | false => simpa using hth
    | true => simpa [hx] using hth

theorem follows_of_fired (hrow : s.row = some locked)
    (hs : c.snapshot.single = true) (hto : FiredTo s t i c locked chatId) :
    (∃ r, t.row = some r ∧ r.threadChatId = some chatId) ∧ ∀ id, s.HasThread id → chatId = id := by
  obtain ⟨r, turnId, hr, _, hth, _⟩ := hto.row
  rw [hs] at hth
  rcases hto.chats with ⟨x, hx, rfl, _⟩ | ⟨hnone, _, _⟩
  · rw [hs] at hx
    refine ⟨⟨r, hr, ?_⟩, ?_⟩
    · rw [hth, hx]
      simpa using (thread_spec hx).2.1
    · intro id hid
      obtain ⟨_, y, hy, hyid⟩ := thread_of_hasThread hrow hid
      obtain rfl := Option.some.inj (hx.symm.trans hy)
      exact hyid
  · rw [hs] at hnone
    refine ⟨⟨r, hr, by simp [hth, hnone]⟩, ?_⟩
    intro id hid
    obtain ⟨_, y, hy, _⟩ := thread_of_hasThread hrow hid
    rw [hnone] at hy
    cases hy

theorem phase_of_set {calls : List Call} {c' : Call} {p : Phase} (hc : calls[i]? = some c)
    (hc' : (calls.set i { c with phase := p })[i]? = some c') : c'.phase = p := by
  rw [List.getElem?_set_self (List.getElem?_eq_some_iff.mp hc).1] at hc'
  rw [← Option.some.inj hc']

theorem held_of_advanced (h : Books s) {c' : Call} (hc : s.calls[i]? = some c) (hadv : Advanced s i c t)
    (hc' : t.calls[i]? = some c') {x : Answer} (hdone : c'.phase = .done x) :
    c.taskId ∈ t.holds ↔ c.taskId ∈ s.holds ∧ ∃ u ∈ t.tasks, u.id = c.taskId := by
  have hmem := List.mem_of_getElem? hc
  cases hadv with
  | plain p hq hd hf hcd hcalls htasks hchats hholds hwaiting hnext hrow =>
    rw [hcalls] at hc'
    rw [phase_of_set hc hc'] at hdone
    have hno : c.taskId ∉ s.holds := fun hid => (hq (h.holding c hmem hid)).2 x hdone
    rw [hholds]
    exact ⟨fun hid => absurd hid hno, fun hid => absurd hid.1 hno⟩
  | took today hcp ht =>
    subst ht
    rw [phase_of_set hc hc'] at hdone
    cases hdone
  | freed p hcd hn ht =>
    subst ht
    constructor
    · intro hid
      have := (List.mem_filter.mp hid).2
      simp at this
    · rintro ⟨_, u, hu, hid⟩
      obtain ⟨y, hy⟩ := h.unfired c hmem u hu hid
      exact absurd hy (hcd _)
  | fired today chatId locked hcp hrow hfree hto =>
    obtain ⟨r, turnId, _, _, _, ⟨htasks, _, _, hcalls⟩ | ⟨_, _, hcalls⟩⟩ := hto.row
    · rw [hto.holds, htasks]
      refine ⟨fun hid => ⟨hid, ⟨_, List.mem_append_right _ List.mem_cons_self, rfl⟩⟩, fun hid => hid.1⟩
    · rw [hcalls] at hc'
      rw [phase_of_set hc hc'] at hdone
      cases hdone

theorem chats_of_step (hstep : step localDayOf s a = some t)
    (hadv : ∀ i o, a ≠ .advance i o) : ∀ x ∈ t.chats, ∃ y ∈ s.chats, y.id = x.id := by
  have hsame : ∀ t' : State, t'.chats = s.chats → ∀ x ∈ t'.chats, ∃ y ∈ s.chats, y.id = x.id := by
    intro t' heq x hx
    exact ⟨x, heq ▸ hx, rfl⟩
  have henq : ∀ (r : State) (id chatId : Nat) (firing : Option Bool), (r.enqueueTask id chatId firing).1.chats = r.chats := by
    intro r id chatId firing
    unfold State.enqueueTask
    split <;> rfl
  cases a with
  | call manual | quiet =>
    obtain ⟨r, _, rfl⟩ := Option.map_eq_some_iff.mp hstep
    exact hsame _ rfl
  | advance i o => exact absurd rfl (hadv i o)
  | settleQuiet i =>
    obtain ⟨today, _, rfl⟩ := Option.map_eq_some_iff.mp hstep
    exact hsame _ (stamp_chats s _ _)
  | patch trigger most runWhen single =>
    obtain ⟨r, hr, rfl⟩ := Option.map_eq_some_iff.mp hstep
    exact hsame _ rfl
  | delete | dropHold id | wait ms =>
    obtain rfl := Option.some.inj hstep
    exact hsame _ rfl
  | move id status =>
    obtain ⟨x, _, hstep⟩ := Option.bind_eq_some_iff.mp hstep
    split at hstep
    · obtain rfl := Option.some.inj hstep
      exact hsame _ rfl
    · cases hstep
  | suspend messageId chatId =>
    simp only [step] at hstep
    split at hstep
    · obtain rfl := Option.some.inj hstep
      exact hsame _ rfl
    · cases hstep
  | decide messageId =>
    obtain ⟨w, _, rfl⟩ := Option.map_eq_some_iff.mp hstep
    exact hsame _ (henq _ _ _ _)
  | send chatId =>
    obtain ⟨x, _, rfl⟩ := Option.map_eq_some_iff.mp hstep
    intro y hy
    rw [henq] at hy
    have hin : y.id ∈ (s.append (some x) chatId s.nextId).chats.map Chat.id := List.mem_map_of_mem hy
    rw [append_chats] at hin
    obtain ⟨z, hz, heq⟩ := List.mem_map.mp (by simpa using hin)
    exact ⟨z, hz, heq⟩
  | deleteChat id =>
    obtain rfl := Option.some.inj hstep
    exact fun x hx => ⟨x, (List.mem_filter.mp hx).1, rfl⟩

theorem opens_of_advanced (hadv : Advanced s i c t) {x : Chat} (hx : x ∈ t.chats)
    (hnew : ∀ y ∈ s.chats, y.id ≠ x.id) (hs : c.snapshot.single = true) : ∃ r, t.row = some r ∧ r.threadChatId = some x.id := by
  cases hadv with
  | plain p hq hd hf hcd hcalls htasks hchats hholds hwaiting hnext hrow => exact absurd rfl (hnew x (hchats ▸ hx))
  | took today hcp ht =>
    subst ht
    exact absurd rfl (hnew x hx)
  | freed p hcd hn ht =>
    subst ht
    exact absurd rfl (hnew x hx)
  | fired today chatId locked hcp hrow hfree hto =>
    have hin : x.id ∈ t.chats.map Chat.id := List.mem_map_of_mem hx
    have hold : x.id ∉ s.chats.map Chat.id := by
      intro hid
      obtain ⟨y, hy, heq⟩ := List.mem_map.mp hid
      exact hnew y hy heq
    have hchat : x.id = chatId := by
      rcases hto.chats with ⟨_, _, _, heq⟩ | ⟨_, _, heq⟩
      · exact absurd (heq ▸ hin) hold
      · rw [heq] at hin
        simpa [hold] using hin
    rw [hchat]
    exact (follows_of_fired hrow hs hto).1

theorem fires_of_step (h : Books s) (hstep : step localDayOf s a = some t) :
    Fires s t a := by
  have hadvanced : ∀ i o c, a = .advance i o → s.calls[i]? = some c → Advanced s i c t := by
    rintro i o c rfl hc
    obtain ⟨c', hc', hadv⟩ := Option.bind_eq_some_iff.mp hstep
    obtain rfl := Option.some.inj (hc.symm.trans hc')
    exact advanced_of_advance hadv
  refine ⟨?_, ?_, ?_, ?_⟩
  · intro i o c c' x ha hc hc' hdone
    exact held_of_advanced h hc (hadvanced i o c ha hc) hc' hdone
  · intro i o c c' today chatId ha hc hcp hc' hphase hs
    cases hadvanced i o c ha hc with
    | plain p hq hd hf hcd hcalls htasks hchats hholds hwaiting hnext hrow =>
      rw [hcalls] at hc'
      rw [phase_of_set hc hc'] at hphase
      rcases hphase with hp | hp
      · exact absurd hp (hf chatId)
      · exact absurd hp (hd chatId)
    | took today' hcp' ht =>
      rw [hcp] at hcp'
      cases hcp'
    | freed p hcd hn ht => exact absurd hcp (hn today)
    | fired today' chatId' locked hcp' hrow hfree hto =>
      have heq : chatId = chatId' := by
        obtain ⟨r, turnId, _, _, _, ⟨_, _, _, hcalls⟩ | ⟨_, _, hcalls⟩⟩ := hto.row
        · rw [hcalls] at hc'
          rw [phase_of_set hc hc'] at hphase
          exact (by simpa using hphase : chatId' = chatId).symm
        · rw [hcalls] at hc'
          rw [phase_of_set hc hc'] at hphase
          exact (by simpa using hphase : chatId' = chatId).symm
      rw [heq]
      exact follows_of_fired hrow hs hto
  · intro id hid hpatch r hr
    by_cases hadv : ∃ i o, a = .advance i o
    · obtain ⟨i, o, rfl⟩ := hadv
      obtain ⟨c, hc, _⟩ := Option.bind_eq_some_iff.mp hstep
      exact keeps_of_advanced (hadvanced i o c rfl hc) hid hr
    · obtain ⟨r₀, hr₀, hth, _⟩ := keepsRow_of_step hstep (fun i o ha => hadv ⟨i, o, ha⟩) hpatch r hr
      obtain ⟨⟨r₁, hr₁, hid₁⟩, _⟩ := hid
      obtain rfl := Option.some.inj (hr₁.symm.trans hr₀)
      rw [hth, hid₁]
  · intro x hx hnew
    by_cases hadv : ∃ i o, a = .advance i o
    · obtain ⟨i, o, rfl⟩ := hadv
      obtain ⟨c, hc, _⟩ := Option.bind_eq_some_iff.mp hstep
      exact ⟨i, o, c, rfl, hc, fun hs => opens_of_advanced (hadvanced i o c rfl hc) hx hnew hs⟩
    · obtain ⟨y, hy, heq⟩ := chats_of_step hstep (fun i o ha => hadv ⟨i, o, ha⟩) x hx
      exact absurd heq (hnew y hy)

/-- The invariant of an automation that opens a chat for each run: the turn of a firing that is alive is the one the row names. -/
structure Lone (s : State) : Prop where
  one : ∀ t ∈ s.tasks, ∀ u ∈ s.tasks, t.firing.isSome → u.firing.isSome → t.live → u.live → t.id = u.id
  named : ∀ t ∈ s.tasks, t.firing.isSome → t.live → ∀ r, s.row = some r → r.lastTaskId = some t.id
  fresh : ∀ c ∈ s.calls, c.snapshot.single = false

theorem Lone.mono (h : Lone s)
    (hsub : ∀ u ∈ t.tasks, u.firing.isSome → u.live → ∃ v ∈ s.tasks, v.firing.isSome ∧ v.live ∧ v.id = u.id)
    (hrow : ∀ r', t.row = some r' → ∃ r, s.row = some r ∧ r'.lastTaskId = r.lastTaskId)
    (hcalls : ∀ c ∈ t.calls, c.snapshot.single = false) : Lone t := by
  refine ⟨?_, ?_, hcalls⟩
  · intro u hu v hv hfu hfv hlu hlv
    obtain ⟨u', hu', hfu', hlu', hidu⟩ := hsub u hu hfu hlu
    obtain ⟨v', hv', hfv', hlv', hidv⟩ := hsub v hv hfv hlv
    rw [← hidu, ← hidv]
    exact h.one _ hu' _ hv' hfu' hfv' hlu' hlv'
  · intro u hu hfu hlu r' hr'
    obtain ⟨v, hv, hfv, hlv, hid⟩ := hsub u hu hfu hlu
    obtain ⟨r, hr, hlast⟩ := hrow r' hr'
    rw [hlast, ← hid]
    exact h.named v hv hfv hlv r hr

theorem blocks_of_live (h : Books s) {u : Task} (hu : u ∈ s.tasks) (hlive : u.live = true) :
    s.previousRunBlocks (some u.id) false = true := by
  have hfind : s.tasks.find? (fun t => t.id = u.id) = some u := by
    cases hf : s.tasks.find? (fun t => t.id = u.id) with
    | some v =>
      have hid : v.id = u.id := by simpa using List.find?_some hf
      rw [List.inj_on_of_nodup_map h.ids (List.mem_of_find?_eq_some hf) hu hid]
    | none =>
      have := List.find?_eq_none.mp hf u hu
      simp at this
  simp only [State.previousRunBlocks, Option.bind_some, hfind]
  cases hs : u.status <;> simp [Task.live, hs] at hlive ⊢

theorem lone_of_advanced (h : Books s) (hl : Lone s) (hc : s.calls[i]? = some c)
    (hadv : Advanced s i c t) : Lone t := by
  have hfresh : c.snapshot.single = false := hl.fresh c (List.mem_of_getElem? hc)
  have hset : ∀ p, ∀ d ∈ s.calls.set i { c with phase := p }, d.snapshot.single = false := by
    intro p d hd
    rcases List.mem_or_eq_of_mem_set hd with hd | rfl
    · exact hl.fresh d hd
    · exact hfresh
  have hself : ∀ u ∈ s.tasks, u.firing.isSome → u.live → ∃ v ∈ s.tasks, v.firing.isSome ∧ v.live ∧ v.id = u.id :=
    fun u hu hf hlive => ⟨u, hu, hf, hlive, rfl⟩
  cases hadv with
  | plain p hq hd hf hcd hcalls htasks hchats hholds hwaiting hnext hrow =>
    refine hl.mono (by rw [htasks]; exact hself) ?_ (by rw [hcalls]; exact hset p)
    intro r' hr'
    obtain ⟨r, hr, _, hlast⟩ := hrow r' hr'
    exact ⟨r, hr, hlast⟩
  | took today hcp ht | freed p hcd hn ht =>
    subst ht
    exact hl.mono hself (fun r hr => ⟨r, hr, rfl⟩) (hset _)
  | fired today chatId locked hcp hrow hfree hto =>
    rw [hfresh] at hfree
    -- the row would name a turn that is alive, and the guard would have seen it
    have hnone : ∀ u ∈ s.tasks, u.firing.isSome → u.live ≠ true := by
      intro u hu hf hlive
      rw [hl.named u hu hf hlive locked hrow, blocks_of_live h hu hlive] at hfree
      cases hfree
    have hchat : chatId = s.nextId := by
      rcases hto.chats with ⟨x, hx, _, _⟩ | ⟨_, hid, _⟩
      · rw [hfresh] at hx
        simp [State.thread] at hx
      · exact hid
    obtain ⟨r, turnId, hr, hlast, _, ⟨htasks, hturn, _, hcalls⟩ | ⟨_, ⟨u, hu, hid⟩, _⟩⟩ := hto.row
    · have hnew : ∀ u ∈ t.tasks, u.firing.isSome → u.live → u.id = c.taskId := by
        intro u hu hf hlive
        rw [htasks] at hu
        rcases List.mem_append.mp hu with hu | hu
        · exact absurd hlive (hnone u hu hf)
        · rw [List.mem_singleton.mp hu]
      refine ⟨?_, ?_, by rw [hcalls]; exact hset _⟩
      · intro u hu v hv hfu hfv hlu hlv
        rw [hnew u hu hfu hlu, hnew v hv hfv hlv]
      · intro u hu hf hlive r' hr'
        obtain rfl := Option.some.inj (hr.symm.trans hr')
        rw [hlast, hturn, hnew u hu hf hlive]
    · have := (h.fresh u hu).2
      omega

theorem firing_of_enqueue : ∀ u ∈ (s.enqueueTask id chatId none).1.tasks, u.firing.isSome → u ∈ s.tasks := by
  intro u hu hf
  rcases enqueueTask_cases s id chatId none with ⟨_, _, _, heq⟩ | ⟨_, heq⟩
  · rwa [heq] at hu
  · rw [heq] at hu
    rcases List.mem_append.mp hu with hu | hu
    · exact hu
    · rw [List.mem_singleton.mp hu] at hf
      cases hf

theorem calls_enqueueTask (s : State) (id chatId : Nat) (firing : Option Bool) : (s.enqueueTask id chatId firing).1.calls = s.calls := by
  unfold State.enqueueTask
  split <;> rfl

theorem lone_of_step (h : Books s) (hl : Lone s) (hok : FreshMode s a = true)
    (hstep : step localDayOf s a = some t) : Lone t := by
  have hself : ∀ u ∈ s.tasks, u.firing.isSome → u.live → ∃ v ∈ s.tasks, v.firing.isSome ∧ v.live ∧ v.id = u.id :=
    fun u hu hf hlive => ⟨u, hu, hf, hlive, rfl⟩
  have hsame : ∀ r', s.row = some r' → ∃ r, s.row = some r ∧ r'.lastTaskId = r.lastTaskId := fun r hr => ⟨r, hr, rfl⟩
  cases a with
  | call manual =>
    obtain ⟨r, hr, rfl⟩ := Option.map_eq_some_iff.mp hstep
    refine hl.mono hself hsame ?_
    intro c hc
    rcases List.mem_append.mp hc with hc | hc
    · exact hl.fresh c hc
    · rw [List.mem_singleton.mp hc]
      simpa [FreshMode, hr] using hok
  | advance i o =>
    obtain ⟨c, hc, hadv⟩ := Option.bind_eq_some_iff.mp hstep
    exact lone_of_advanced h hl hc (advanced_of_advance hadv)
  | quiet =>
    obtain ⟨r, _, rfl⟩ := Option.map_eq_some_iff.mp hstep
    exact hl.mono hself hsame hl.fresh
  | settleQuiet i =>
    have hkeeps := keepsRow_of_step hstep (by simp) (by simp)
    obtain ⟨today, _, rfl⟩ := Option.map_eq_some_iff.mp hstep
    refine hl.mono ?_ ?_ ?_
    · simp only [stamp_tasks]
      exact hself
    · intro r' hr'
      obtain ⟨r, hr, _, hlast⟩ := hkeeps r' hr'
      exact ⟨r, hr, hlast⟩
    · simp only [stamp_calls]
      exact hl.fresh
  | patch trigger most runWhen single =>
    obtain ⟨r, hr, rfl⟩ := Option.map_eq_some_iff.mp hstep
    refine hl.mono hself ?_ hl.fresh
    intro r' hr'
    obtain rfl := Option.some.inj hr'
    exact ⟨r, hr, rfl⟩
  | delete =>
    obtain rfl := Option.some.inj hstep
    exact hl.mono hself (fun r' hr' => by cases hr') hl.fresh
  | move id status =>
    obtain ⟨x, hx, hstep⟩ := Option.bind_eq_some_iff.mp hstep
    have hxmem := List.mem_of_find?_eq_some hx
    have hxid : x.id = id := by simpa using List.find?_some hx
    split at hstep
    · rename_i hmay
      obtain rfl := Option.some.inj hstep
      refine hl.mono ?_ hsame hl.fresh
      intro u hu hf hlive
      obtain ⟨v, hv, rfl⟩ := List.mem_map.mp hu
      by_cases hid : v.id = id
      · rw [if_pos hid] at hf
        obtain rfl : v = x := List.inj_on_of_nodup_map h.ids hv hxmem (hid.trans hxid.symm)
        refine ⟨v, hv, hf, ?_, by rw [if_pos hid]⟩
        cases hs : v.status <;> simp [State.mayMove, hs] at hmay <;> simp [Task.live, hs]
      · rw [if_neg hid] at hf hlive
        exact ⟨v, hv, hf, hlive, by rw [if_neg hid]⟩
    · cases hstep
  | suspend messageId chatId =>
    simp only [step] at hstep
    split at hstep
    · obtain rfl := Option.some.inj hstep
      exact hl.mono hself hsame hl.fresh
    · cases hstep
  | decide messageId =>
    obtain ⟨w, _, rfl⟩ := Option.map_eq_some_iff.mp hstep
    refine hl.mono (fun u hu hf hlive => ?_) ?_ ?_
    · have hmem := firing_of_enqueue
        (s := { s with waiting := s.waiting.filter (fun v => v.messageId ≠ messageId), nextId := s.nextId + 1 }) u hu hf
      exact hself u hmem hf hlive
    · rw [State.enqueueTask_row]
      exact hsame
    · rw [calls_enqueueTask]
      exact hl.fresh
  | send chatId =>
    obtain ⟨x, _, rfl⟩ := Option.map_eq_some_iff.mp hstep
    refine hl.mono (fun u hu hf hlive => ?_) ?_ ?_
    · have hmem := firing_of_enqueue u hu hf
      simp only [append_tasks] at hmem
      exact hself u hmem hf hlive
    · rw [State.enqueueTask_row]
      simp only [State.append_row]
      exact hsame
    · rw [calls_enqueueTask]
      simp only [append_calls]
      exact hl.fresh
  | deleteChat id =>
    obtain rfl := Option.some.inj hstep
    exact hl.mono (fun u hu hf hlive => hself u (List.mem_filter.mp hu).1 hf hlive) hsame hl.fresh
  | dropHold id | wait ms =>
    obtain rfl := Option.some.inj hstep
    exact hl.mono hself hsame hl.fresh

end OverlapsAux

open OverlapsAux

/-- However firings, turns, edits and people interleave, a chat has one queued and one running turn at most, a firing's hold goes with the
turn it created, and the firings in one-thread mode share the thread that is there; and where every firing opens a chat, one turn of them
is alive at most. -/
theorem firings_orderly (localDayOf : Nat → Nat → Nat) (now nextId : Nat) (row : Row) :
    (∀ s, Steps.Reaches (step localDayOf) Steps.Free (initial now nextId row) s →
      Orderly s ∧ ∀ a t, step localDayOf s a = some t → Fires s t a) ∧
    ∀ s, Steps.Reaches (step localDayOf) (fun s a => FreshMode s a = true) (initial now nextId row) s → OneLive s := by
  constructor
  · intro s h
    have hbooks : Books s := h.invariant (fun _ _ _ hx _ hy => books_of_step hx hy) (books_initial now nextId row)
    refine ⟨⟨hbooks.ids, hbooks.queued, hbooks.running, ?_⟩, fun a t hstep => fires_of_step hbooks hstep⟩
    intro c hc hid x hx
    have hhold := hbooks.holding c hc hid
    rw [hx] at hhold
    cases x <;> simp_all [Phase.holding]
  · intro s h
    have hboth : Books s ∧ Lone s := by
      refine h.invariant (I := fun s => Books s ∧ Lone s) ?_ ⟨books_initial now nextId row, ?_⟩
      · rintro x a y ⟨hb, hl⟩ hok hy
        exact ⟨books_of_step hb hy, lone_of_step hb hl hok hy⟩
      · refine ⟨?_, ?_, ?_⟩ <;> simp [initial]
    intro u hu v hv hfu hfv hlu hlv
    exact List.inj_on_of_nodup_map hboth.1.ids hu hv (hboth.2.one u hu v hv hfu hfv hlu hlv)

namespace OverlapRun

/-- An hourly automation without a ceiling. -/
def hourly (single : Bool) : Row := ⟨0, false, none, false, single, none, none, none, none, 0, 0, 0⟩

/-- A firing, all its statements, on the shared key. -/
def fires (i : Nat) : List Act := .call false :: List.replicate 6 (.advance i ⟨true, true, true, false⟩)

end OverlapRun

open OverlapRun

/-- Two firings of an automation that opens a chat for each run, while the first run is alive: the second is refused, and its hold is
released. -/
theorem firings_orderly_fresh : ∃ s,
    Steps.Reaches (step (fun _ _ => 0)) (fun s a => FreshMode s a = true) (initial 0 1 (hourly false)) s ∧
    (s.tasks.length = 1 ∧ s.calls.length = 2 ∧ s.holds.length = 2) ∧ OneLive s := by
  obtain ⟨s, hs, hr⟩ := Steps.exists_of_execOk (step (fun _ _ => 0)) (fun s a => FreshMode s a = true) (initial 0 1 (hourly false))
    (.call false :: .call false :: List.replicate 6 (.advance 0 ⟨true, true, true, false⟩) ++
      List.replicate 6 (.advance 1 ⟨true, true, true, false⟩))
    (P := fun s : State => s.tasks.length = 1 ∧ s.calls.length = 2 ∧ s.holds.length = 2) (by decide)
  exact ⟨s, hs, hr, (firings_orderly (fun _ _ => 0) 0 1 (hourly false)).2 s hs⟩

/-- In one-thread mode a second firing queues its turn behind the first one, which runs. -/
theorem firings_orderly_false : ¬ ∀ s, Steps.Reaches (step (fun _ _ => 0)) Steps.Free (initial 0 1 (hourly true)) s → OneLive s := by
  intro hall
  obtain ⟨s, hs, t, ht, u, hu, ⟨hft, hfu, hlt, hlu⟩, hne⟩ := Steps.exists_of_exec (step (fun _ _ => 0)) (initial 0 1 (hourly true))
    (fires 0 ++ [.move 1 .running] ++ fires 1)
    (P := fun s : State => ∃ t ∈ s.tasks, ∃ u ∈ s.tasks,
      (t.firing.isSome = true ∧ u.firing.isSome = true ∧ t.live = true ∧ u.live = true) ∧ t ≠ u) (by decide)
  exact hne (hall s hs t ht u hu hft hfu hlt hlu)

end Capka.AutomationRuns

import Capka.Realtime.Feed

/-!
# The feed is never deaf

A drop arms the reconnect timer unless a connect attempt is in flight, and an attempt that fails arms it only if the timer's own call awaits
it. So a connection that drops under the loop of an attempt a subscriber started leaves nobody to try again. Short of that, every channel
with a callback is heard, or somebody will connect.
-/

namespace Capka

namespace Realtime

/-- Every channel with a callback has its LISTEN on the current connection, or an attempt is in flight, or the reconnect timer is armed. -/
def NeverDeaf (s : Realtime) : Prop :=
  ∀ e ∈ s.chans, e.cbs ≠ [] →
    (∃ c ∈ s.clients, s.sub = some c.id ∧ c.hears e.channel = true) ∨ s.subConnecting.isSome = true ∨ s.reconnectTimer = true

/-- A call whose own LISTEN is in flight on a client. -/
def InFlight (s : Realtime) (client : Nat) (call : SubscribeCall) : Prop :=
  ∃ c ∈ s.clients, c.id = client ∧ call ∈ c.queue.filterMap FeedQuery.caller

/-- Every registered callback is of a call that the attempt takes along when it fails: one that awaits it, or, once it is connected, one
whose own LISTEN is in flight on its client. -/
def AllPending (s : Realtime) (a : ConnectAttempt) : Prop :=
  ∀ e ∈ s.chans, ∀ cb ∈ e.cbs, ⟨e.channel, cb⟩ ∈ a.callers ∨ (a.phase ≠ .connecting ∧ s.InFlight a.client ⟨e.channel, cb⟩)

/-- A failure of the attempt in flight, if there is one, leaves nobody behind: the timer is armed, or its own call awaits the attempt, or
the calls that fail with it are all there are. -/
def Heals (s : Realtime) : Prop :=
  s.reconnectTimer = true ∨ ∀ a ∈ s.subConnecting, a.timer = true ∨ s.AllPending a

/-- The steps of a sound run: the current connection drops only where a failing attempt leaves nobody behind. -/
def Sound (s : Realtime) : RealtimeAct → Prop
  | .drop client => s.sub = some client → s.Heals
  | .beat => ∀ h ∈ s.heartbeat, h.waiting = true → s.sub = some h.client → s.Heals
  | _ => True

instance (s : Realtime) : Decidable s.NeverDeaf :=
  inferInstanceAs (Decidable (∀ e ∈ s.chans, e.cbs ≠ [] →
    (∃ c ∈ s.clients, s.sub = some c.id ∧ c.hears e.channel = true) ∨ s.subConnecting.isSome = true ∨ s.reconnectTimer = true))

instance (s : Realtime) (client : Nat) (call : SubscribeCall) : Decidable (s.InFlight client call) :=
  inferInstanceAs (Decidable (∃ c ∈ s.clients, c.id = client ∧ call ∈ c.queue.filterMap FeedQuery.caller))

instance (s : Realtime) (a : ConnectAttempt) : Decidable (s.AllPending a) :=
  inferInstanceAs (Decidable (∀ e ∈ s.chans, ∀ cb ∈ e.cbs,
    ⟨e.channel, cb⟩ ∈ a.callers ∨ (a.phase ≠ .connecting ∧ s.InFlight a.client ⟨e.channel, cb⟩)))

instance (s : Realtime) : Decidable s.Heals :=
  inferInstanceAs (Decidable (s.reconnectTimer = true ∨ ∀ a ∈ s.subConnecting, a.timer = true ∨ s.AllPending a))

instance (s : Realtime) : (a : RealtimeAct) → Decidable (s.Sound a)
  | .drop client => inferInstanceAs (Decidable (s.sub = some client → s.Heals))
  | .beat => inferInstanceAs (Decidable (∀ h ∈ s.heartbeat, h.waiting = true → s.sub = some h.client → s.Heals))
  | .subscribe _ _ => isTrue trivial
  | .unsubscribe _ _ => isTrue trivial
  | .connected => isTrue trivial
  | .connectFails => isTrue trivial
  | .answer => isTrue trivial
  | .reject _ => isTrue trivial
  | .timer => isTrue trivial

end Realtime

namespace RealtimeAux

open Realtime

/-! ### Clients -/

theorem hears_enqueue (c : FeedClient) (q : FeedQuery) (channel : Nat) :
    (c.enqueue q).hears channel = q.effect channel (c.hears channel) := by
  unfold FeedClient.hears FeedClient.enqueue
  rw [List.foldl_append]
  rfl

theorem hears_enqueue_listen {c : FeedClient} {channel : Nat} (h : c.hears channel = true) (channel' : Nat) (call : Option SubscribeCall) :
    (c.enqueue (.listen channel' call)).hears channel = true := by
  rw [hears_enqueue, FeedQuery.effect, h, Bool.true_or]

theorem hears_answered (c : FeedClient) (channel : Nat) : c.answered.hears channel = c.hears channel := by
  unfold FeedClient.answered
  split
  · rfl
  · rename_i channel' call queue hq
    simp only [FeedClient.hears, hq, List.foldl_cons, FeedQuery.effect]
    congr 1
    simp only [List.mem_cons, Bool.decide_or, eq_comm (a := channel), Bool.or_comm]
  · rename_i channel' queue hq
    simp only [FeedClient.hears, hq, List.foldl_cons, FeedQuery.effect]
    congr 1
    simp only [List.mem_filter, decide_eq_true_eq, ne_eq, eq_comm (a := channel), Bool.decide_and]
  · rename_i queue hq
    simp only [FeedClient.hears, hq, List.foldl_cons, FeedQuery.effect]

/-! ### The channel map -/

/-- The map has shrunk: its channels were there, with at least the callbacks they have now. -/
def Shrinks (T T' : Channels) : Prop := ∀ e ∈ T', ∃ e₀ ∈ T, e₀.channel = e.channel ∧ ∀ cb ∈ e.cbs, cb ∈ e₀.cbs

theorem Shrinks.refl (T : Channels) : Shrinks T T := fun e he => ⟨e, he, rfl, fun _ h => h⟩

variable {T : Channels}

theorem Shrinks.trans {T' T'' : Channels} (h : Shrinks T T') (h' : Shrinks T' T'') : Shrinks T T'' := by
  intro e he
  obtain ⟨e₁, he₁, hch₁, hcbs₁⟩ := h' e he
  obtain ⟨e₀, he₀, hch₀, hcbs₀⟩ := h e₁ he₁
  exact ⟨e₀, he₀, hch₀.trans hch₁, fun cb hcb => hcbs₀ cb (hcbs₁ cb hcb)⟩

theorem shrinks_unregister (T : Channels) (call : SubscribeCall) : Shrinks T (T.unregister call) := by
  intro e he
  have hmod := (Table.mem_filter.mp he).1
  rcases Table.mem_modify.mp hmod with ⟨e₀, he₀, _, rfl⟩ | ⟨he, _⟩
  · exact ⟨e₀, he₀, rfl, fun cb hcb => (List.mem_filter.mp hcb).1⟩
  · exact ⟨e, he, rfl, fun _ h => h⟩

variable {call : SubscribeCall}

theorem not_mem_unregister {e : ChannelEntry} (he : e ∈ T.unregister call)
    (hch : e.channel = call.channel) : call.cb ∉ e.cbs := by
  have hmod := (Table.mem_filter.mp he).1
  rcases Table.mem_modify.mp hmod with ⟨e₀, _, _, rfl⟩ | ⟨_, hne⟩
  · simp [ChannelEntry.remove, List.mem_filter]
  · exact absurd hch hne

theorem shrinks_rollback (calls : List SubscribeCall) (T : Channels) :
    Shrinks T (calls.foldl Channels.unregister T) ∧
      ∀ e ∈ calls.foldl Channels.unregister T, ∀ call ∈ calls, call.channel = e.channel → call.cb ∉ e.cbs := by
  induction calls generalizing T with
  | nil => exact ⟨Shrinks.refl T, fun _ _ _ h => absurd h List.not_mem_nil⟩
  | cons call calls ih =>
    obtain ⟨hs, hout⟩ := ih (T.unregister call)
    refine ⟨(shrinks_unregister T call).trans hs, fun e he x hx hch => ?_⟩
    rcases List.mem_cons.mp hx with rfl | hx
    · obtain ⟨e₀, he₀, hch₀, hcbs⟩ := hs e he
      exact fun hin => not_mem_unregister he₀ (hch₀.trans hch.symm) (hcbs _ hin)
    · exact hout e he x hx hch

theorem mem_register {e : ChannelEntry} (he : e ∈ T.register call) :
    (e.channel = call.channel ∨ ∃ e₀ ∈ T, e₀.channel = e.channel) ∧
      ∀ cb ∈ e.cbs, (⟨e.channel, cb⟩ : SubscribeCall) = call ∨ ∃ e₀ ∈ T, e₀.channel = e.channel ∧ cb ∈ e₀.cbs := by
  unfold Channels.register at he
  split at he
  · rcases Table.mem_modify.mp he with ⟨e₀, he₀, hch, rfl⟩ | ⟨he, _⟩
    · refine ⟨.inl hch, fun cb hcb => ?_⟩
      unfold ChannelEntry.add at hcb ⊢
      dsimp only at hcb ⊢
      split at hcb
      · exact .inr ⟨e₀, he₀, rfl, hcb⟩
      · rcases List.mem_append.mp hcb with hcb | hcb
        · exact .inr ⟨e₀, he₀, rfl, hcb⟩
        · rw [List.mem_singleton] at hcb
          left
          rw [hcb, hch]
    · exact ⟨.inr ⟨e, he, rfl⟩, fun cb hcb => .inr ⟨e, he, rfl, hcb⟩⟩
  · rcases Table.mem_put.mp he with rfl | ⟨he, _⟩
    · refine ⟨.inl rfl, fun cb hcb => .inl ?_⟩
      rw [List.mem_singleton.mp hcb]
    · exact ⟨.inr ⟨e, he, rfl⟩, fun cb hcb => .inr ⟨e, he, rfl, hcb⟩⟩

/-! ### The invariant -/

/-- The invariant. The current connection stands, and hears every channel that the loop of an attempt will not visit any more. An attempt in
flight while there is a connection is the one that made it. Without a connection a failure of the attempt leaves nobody behind. -/
structure Inv (s : Realtime) : Prop where
  fresh : ∀ c ∈ s.clients, c.id < s.built
  heard : ∀ id, s.sub = some id → ∃ c ∈ s.clients, c.id = id ∧ c.dropped = false ∧ ∀ e ∈ s.chans, c.hears e.channel = true ∨
    ∃ a visited, s.subConnecting = some a ∧ a.phase = .relisten visited ∧ e.channel ∉ visited
  current : ∀ a, s.subConnecting = some a → ∀ id, s.sub = some id → a.client = id ∧ a.phase ≠ .connecting
  quiet : s.sub = none → s.reconnectTimer = true ∨
    (∃ a, s.subConnecting = some a ∧ (a.timer = true ∨ s.AllPending a)) ∨ ∀ e ∈ s.chans, e.cbs = []

variable {s : Realtime}

theorem neverDeaf_of_inv (hI : Inv s) : s.NeverDeaf := by
  intro e he hne
  cases hsub : s.sub with
  | some id =>
    obtain ⟨c, hc, hid, _, hears⟩ := hI.heard id hsub
    rcases hears e he with h | ⟨a, _, ha, _⟩
    · exact .inl ⟨c, hc, hid ▸ rfl, h⟩
    · exact .inr (.inl (by rw [ha, Option.isSome_some]))
  | none =>
    rcases hI.quiet hsub with h | ⟨a, ha, _⟩ | h
    · exact .inr (.inr h)
    · exact .inr (.inl (by rw [ha, Option.isSome_some]))
    · exact absurd (h e he) hne

theorem inv_of_sub_none (hsub : s.sub = none) (hfresh : ∀ c ∈ s.clients, c.id < s.built)
    (hquiet : s.reconnectTimer = true ∨ (∃ a, s.subConnecting = some a ∧ (a.timer = true ∨ s.AllPending a)) ∨ ∀ e ∈ s.chans, e.cbs = []) :
    Inv s := by
  refine ⟨hfresh, fun id h => ?_, fun _ _ id h => ?_, fun _ => hquiet⟩
  · rw [hsub] at h
    cases h
  · rw [hsub] at h
    cases h

theorem inv_of_sub_some (id : Nat) (hsub : s.sub = some id) (hfresh : ∀ c ∈ s.clients, c.id < s.built)
    (hheard : ∃ c ∈ s.clients, c.id = id ∧ c.dropped = false ∧ ∀ e ∈ s.chans, c.hears e.channel = true ∨
      ∃ a visited, s.subConnecting = some a ∧ a.phase = .relisten visited ∧ e.channel ∉ visited)
    (hcurrent : ∀ a, s.subConnecting = some a → a.client = id ∧ a.phase ≠ .connecting) : Inv s := by
  refine ⟨hfresh, fun id' h => ?_, fun a ha id' h => ?_, fun h => ?_⟩
  · rw [hsub, Option.some.injEq] at h
    exact h ▸ hheard
  · rw [hsub, Option.some.injEq] at h
    exact h ▸ hcurrent a ha
  · rw [hsub] at h
    cases h

/-! ### The parts of a step -/

theorem keep_client (channels : List Nat) (a : ConnectAttempt) : (a.keep channels).client = a.client := by
  unfold ConnectAttempt.keep
  split <;> rfl

theorem keep_callers (channels : List Nat) (a : ConnectAttempt) : (a.keep channels).callers = a.callers := by
  unfold ConnectAttempt.keep
  split <;> rfl

theorem keep_timer (channels : List Nat) (a : ConnectAttempt) : (a.keep channels).timer = a.timer := by
  unfold ConnectAttempt.keep
  split <;> rfl

theorem keep_connecting (channels : List Nat) (a : ConnectAttempt) : (a.keep channels).phase = .connecting ↔ a.phase = .connecting := by
  unfold ConnectAttempt.keep
  split
  · exact Iff.rfl
  · rename_i visited h
    rw [h]
    exact ⟨fun h => (by cases h), fun h => (by cases h)⟩

variable {a : ConnectAttempt}

theorem keep_relisten (channels : List Nat) {visited : List Nat} {channel : Nat} (h : a.phase = .relisten visited)
    (hch : channel ∉ visited) : ∃ visited', (a.keep channels).phase = .relisten visited' ∧ channel ∉ visited' := by
  unfold ConnectAttempt.keep
  rw [h]
  exact ⟨_, rfl, fun hin => hch (List.mem_filter.mp hin).1⟩

variable {t : Realtime}

theorem allPending_mono {b : ConnectAttempt} (h : s.AllPending a) (hT : Shrinks s.chans t.chans)
    (hcalls : ∀ call ∈ a.callers, call ∈ b.callers) (hphase : b.phase = .connecting → a.phase = .connecting)
    (hq : ∀ call, s.InFlight a.client call → t.InFlight b.client call) : t.AllPending b := by
  intro e he cb hcb
  obtain ⟨e₀, he₀, hch, hcbs⟩ := hT e he
  rcases h e₀ he₀ cb (hcbs cb hcb) with hin | ⟨hconn, hin⟩
  · exact .inl (hch ▸ hcalls _ hin)
  · exact .inr ⟨fun hb => hconn (hphase hb), hch ▸ hq _ hin⟩

theorem inv_setChans (hI : Inv s) (hT : Shrinks s.chans T) : Inv (s.setChans T) := by
  cases hsub : s.sub with
  | some id =>
    obtain ⟨c, hc, hid, hup, hears⟩ := hI.heard id hsub
    refine inv_of_sub_some id hsub hI.fresh ⟨c, hc, hid, hup, fun e he => ?_⟩ fun a ha => ?_
    · obtain ⟨e₀, he₀, hch, _⟩ := hT e he
      rcases hears e₀ he₀ with h | ⟨a, visited, ha, hphase, hnot⟩
      · exact .inl (hch ▸ h)
      · obtain ⟨visited', hphase', hnot'⟩ := keep_relisten T.keys hphase (hch ▸ hnot)
        refine .inr ⟨a.keep T.keys, visited', ?_, hphase', hnot'⟩
        rw [setChans, ha, Option.map_some]
    · obtain ⟨a₀, ha₀, rfl⟩ := Option.map_eq_some_iff.mp ha
      obtain ⟨hcl, hph⟩ := hI.current a₀ ha₀ id hsub
      exact ⟨(keep_client _ _).trans hcl, fun h => hph ((keep_connecting _ _).mp h)⟩
  | none =>
    refine inv_of_sub_none hsub hI.fresh ?_
    rcases hI.quiet hsub with h | ⟨a, ha, h⟩ | h
    · exact .inl h
    · refine .inr (.inl ⟨a.keep T.keys, by rw [setChans, ha, Option.map_some], ?_⟩)
      rcases h with h | h
      · exact .inl ((keep_timer _ _).trans h)
      · refine .inr (allPending_mono h hT (fun call hcall => (keep_callers _ _).symm ▸ hcall) (keep_connecting _ _).mp fun call hin => ?_)
        rw [keep_client]
        exact hin
    · refine .inr (.inr fun e he => ?_)
      obtain ⟨e₀, he₀, _, hcbs⟩ := hT e he
      refine List.eq_nil_iff_forall_not_mem.mpr fun cb hcb => ?_
      rw [h e₀ he₀] at hcbs
      exact absurd (hcbs cb hcb) List.not_mem_nil

variable {id client : Nat} {f : FeedClient → FeedClient}

theorem inFlight_modify (hf : ∀ c, (f c).id = c.id)
    (hq : ∀ c, ∀ x ∈ c.queue.filterMap FeedQuery.caller, x ∈ (f c).queue.filterMap FeedQuery.caller) (h : s.InFlight client call) :
    { s with clients := s.clients.modify id f hf }.InFlight client call := by
  obtain ⟨c, hc, hid, hin⟩ := h
  by_cases hk : c.id = id
  · exact ⟨f c, Table.mem_modify_of_key hf hc hk, (hf c).trans hid, hq c call hin⟩
  · exact ⟨c, (Table.mem_modify_of_ne hf hk).mpr hc, hid, hin⟩

theorem fresh_modify (hf : ∀ c, (f c).id = c.id) (h : ∀ c ∈ s.clients, c.id < s.built) :
    ∀ c ∈ s.clients.modify id f hf, c.id < s.built := by
  intro c hc
  rcases Table.mem_modify.mp hc with ⟨c₀, hc₀, _, rfl⟩ | ⟨hc, _⟩
  · rw [hf]
    exact h c₀ hc₀
  · exact h c hc

theorem inv_modify (hf : ∀ c, (f c).id = c.id) (hI : Inv s)
    (hup : ∀ c, (f c).dropped = c.dropped) (hears : ∀ c, ∀ e ∈ s.chans, c.hears e.channel = true → (f c).hears e.channel = true)
    (hq : s.sub = none → ∀ c, ∀ x ∈ c.queue.filterMap FeedQuery.caller, x ∈ (f c).queue.filterMap FeedQuery.caller) :
    Inv { s with clients := s.clients.modify id f hf } := by
  refine ⟨fresh_modify hf hI.fresh, fun x hsub => ?_, hI.current, fun hsub => ?_⟩
  · obtain ⟨c, hc, hid, hc', h⟩ := hI.heard x hsub
    by_cases hk : c.id = id
    · refine ⟨f c, Table.mem_modify_of_key hf hc hk, (hf c).trans hid, (hup c).trans hc', fun e he => ?_⟩
      exact (h e he).imp_left (hears c e he)
    · exact ⟨c, (Table.mem_modify_of_ne hf hk).mpr hc, hid, hc', h⟩
  · rcases hI.quiet hsub with h | ⟨a, ha, h⟩ | h
    · exact .inl h
    · refine .inr (.inl ⟨a, ha, h.imp_right fun h => ?_⟩)
      exact allPending_mono h (Shrinks.refl _) (fun _ h => h) (fun h => h) fun call hin => inFlight_modify hf (hq hsub) hin
    · exact .inr (.inr h)

theorem mem_caller_enqueue (q : FeedQuery) (c : FeedClient) (x : SubscribeCall) (h : x ∈ c.queue.filterMap FeedQuery.caller) :
    x ∈ (c.enqueue q).queue.filterMap FeedQuery.caller := by
  unfold FeedClient.enqueue
  rw [List.filterMap_append]
  exact List.mem_append_left _ h

theorem inv_send {q : FeedQuery} (hI : Inv s) (hq : ∀ e ∈ s.chans, q.effect e.channel true = true) :
    Inv (s.send client q) := by
  refine inv_modify _ hI (fun c => rfl) (fun c e he h => ?_) fun _ => mem_caller_enqueue q
  rw [hears_enqueue, h]
  exact hq e he

theorem inv_relisten (hI : Inv s) (hsub : s.sub = some id) : Inv s.relisten := by
  obtain ⟨c, hc, hid, hup, hears⟩ := hI.heard id hsub
  unfold relisten
  split
  · exact hI
  · rename_i a ha
    split
    · exact hI
    · rename_i visited hphase
      have hmem : ∀ e ∈ s.chans, c.hears e.channel = true ∨ e.channel ∉ visited := by
        intro e he
        refine (hears e he).imp_right ?_
        rintro ⟨a', visited', ha', hphase', hnot⟩
        rw [ha, Option.some.injEq] at ha'
        subst ha'
        rw [hphase] at hphase'
        cases hphase'
        exact hnot
      split
      · rename_i hnone
        refine inv_of_sub_some id hsub hI.fresh ⟨c, hc, hid, hup, fun e he => .inl ?_⟩ fun a' ha' => by cases ha'
        refine (hmem e he).resolve_right fun hnot => ?_
        exact List.find?_eq_none.mp hnone e.channel (Table.mem_keys_of_mem he) (by simpa using hnot)
      · rename_i channel hfind
        obtain ⟨hcl, _⟩ := hI.current a ha id hsub
        refine inv_of_sub_some id hsub (fresh_modify (FeedClient.enqueue_id _) hI.fresh) ?_ fun a' ha' => ?_
        · refine ⟨c.enqueue _, Table.mem_modify_of_key (FeedClient.enqueue_id _) hc (hid.trans hcl.symm), hid, hup, fun e he => ?_⟩
          rcases hmem e he with h | h
          · exact .inl (hears_enqueue_listen h channel none)
          · by_cases hch : e.channel = channel
            · left
              simp [hears_enqueue, FeedQuery.effect, hch]
            · exact .inr ⟨_, _, rfl, rfl, by simp [h, hch]⟩
        · cases ha'
          exact ⟨hcl, fun h => by cases h⟩

theorem scheduleReconnect_cases (s : Realtime) :
    s.scheduleReconnect = s ∧ (s.reconnectTimer = true ∨ s.subConnecting.isSome = true) ∨
      ∃ delay, s.scheduleReconnect = { s with reconnectDelay := delay, reconnectTimer := true } := by
  unfold scheduleReconnect
  split
  · rename_i h
    exact .inl ⟨rfl, h⟩
  · exact .inr ⟨_, rfl⟩

theorem inv_scheduleReconnect (hsub : s.sub = none) (hfresh : ∀ c ∈ s.clients, c.id < s.built)
    (h : s.reconnectTimer = true ∨ (∃ a, s.subConnecting = some a ∧ (a.timer = true ∨ s.AllPending a)) ∨
      s.subConnecting = none ∨ ∀ e ∈ s.chans, e.cbs = []) : Inv s.scheduleReconnect := by
  rcases scheduleReconnect_cases s with ⟨heq, harmed⟩ | ⟨delay, heq⟩
  · rw [heq]
    refine inv_of_sub_none hsub hfresh ?_
    rcases h with h | h | h | h
    · exact .inl h
    · exact .inr (.inl h)
    · exact .inl (harmed.resolve_right (by rw [h, Option.isSome_none]; exact Bool.false_ne_true))
    · exact .inr (.inr h)
  · rw [heq]
    exact inv_of_sub_none hsub hfresh (.inl rfl)

theorem inv_failConnect (hsub : s.sub = none) (hfresh : ∀ c ∈ s.clients, c.id < s.built)
    (h : s.reconnectTimer = true ∨ a.timer = true ∨ ∀ e ∈ s.chans, ∀ cb ∈ e.cbs, ⟨e.channel, cb⟩ ∈ a.callers) : Inv (s.failConnect a) := by
  obtain ⟨hT, hout⟩ := shrinks_rollback a.callers s.chans
  have hempty : (∀ e ∈ s.chans, ∀ cb ∈ e.cbs, (⟨e.channel, cb⟩ : SubscribeCall) ∈ a.callers) →
      ∀ e ∈ a.callers.foldl Channels.unregister s.chans, e.cbs = [] := by
    refine fun h e he => List.eq_nil_iff_forall_not_mem.mpr fun cb hcb => ?_
    obtain ⟨e₀, he₀, hch, hcbs⟩ := hT e he
    exact hout e he _ (h e₀ he₀ cb (hcbs cb hcb)) hch hcb
  unfold failConnect
  dsimp only
  split
  · exact inv_scheduleReconnect hsub hfresh (.inr (.inr (.inl rfl)))
  · rename_i htimer
    refine inv_of_sub_none hsub hfresh ?_
    rcases h with h | h | h
    · exact .inl h
    · exact absurd h htimer
    · exact .inr (.inr (hempty h))

theorem inv_startConnect {callers : List SubscribeCall} {timer : Bool} (hsub : s.sub = none)
    (hfresh : ∀ c ∈ s.clients, c.id < s.built)
    (h : s.reconnectTimer = true ∨ timer = true ∨ ∀ e ∈ s.chans, ∀ cb ∈ e.cbs, ⟨e.channel, cb⟩ ∈ callers) :
    Inv (s.startConnect callers timer) := by
  refine inv_of_sub_none hsub (fun c hc => ?_) ?_
  · rcases Table.mem_put.mp hc with rfl | ⟨hc, _⟩
    · exact Nat.lt_succ_self _
    · exact Nat.lt_succ_of_lt (hfresh c hc)
  · rcases h with h | h | h
    · exact .inl h
    · exact .inr (.inl ⟨_, rfl, .inl h⟩)
    · exact .inr (.inl ⟨_, rfl, .inr fun e he cb hcb => .inl (h e he cb hcb)⟩)

/-! ### Steps -/

theorem inv_subscribe (hI : Inv s) : Inv (s.subscribe call) := by
  have hreg := fun e (he : e ∈ s.chans.register call) => mem_register he
  unfold subscribe
  dsimp only
  split
  · rename_i client hsub
    have hsub' : s.sub = some client := hsub
    obtain ⟨c, hc, hid, hup, hears⟩ := hI.heard client hsub'
    refine inv_of_sub_some client hsub' (fresh_modify (FeedClient.enqueue_id _) hI.fresh) ?_ fun a ha => ?_
    · refine ⟨c.enqueue _, Table.mem_modify_of_key (FeedClient.enqueue_id _) hc hid, hid, hup, fun e he => ?_⟩
      rcases (hreg e he).1 with hch | ⟨e₀, he₀, hch⟩
      · left
        simp [hears_enqueue, FeedQuery.effect, hch]
      · rcases hears e₀ he₀ with h | ⟨a, visited, ha, hphase, hnot⟩
        · exact .inl (hears_enqueue_listen (hch ▸ h) call.channel (some call))
        · obtain ⟨visited', hphase', hnot'⟩ := keep_relisten (s.chans.register call).keys hphase (hch ▸ hnot)
          refine .inr ⟨a.keep (s.chans.register call).keys, visited', ?_, hphase', hnot'⟩
          simp only [send, setChans, ha, Option.map_some]
    · obtain ⟨a₀, ha₀, rfl⟩ := Option.map_eq_some_iff.mp ha
      obtain ⟨hcl, hph⟩ := hI.current a₀ ha₀ client hsub'
      exact ⟨(keep_client _ _).trans hcl, fun h => hph ((keep_connecting _ _).mp h)⟩
  · rename_i hsub
    have hsub' : s.sub = none := hsub
    split
    · rename_i a ha
      obtain ⟨a₀, ha₀, rfl⟩ := Option.map_eq_some_iff.mp ha
      refine inv_of_sub_none hsub' hI.fresh ?_
      rcases hI.quiet hsub' with h | ⟨a', ha', h | h⟩ | h
      · exact .inl h
      · rw [ha₀, Option.some.injEq] at ha'
        subst ha'
        exact .inr (.inl ⟨_, rfl, .inl ((keep_timer _ _).trans h)⟩)
      · rw [ha₀, Option.some.injEq] at ha'
        subst ha'
        refine .inr (.inl ⟨_, rfl, .inr fun e he cb hcb => ?_⟩)
        rcases (hreg e he).2 cb hcb with heq | ⟨e₀, he₀, hch, hcb₀⟩
        · exact .inl (List.mem_append_right _ (List.mem_singleton.mpr heq))
        · rcases h e₀ he₀ cb hcb₀ with hin | ⟨hconn, hin⟩
          · exact .inl (List.mem_append_left _ ((keep_callers _ _).symm ▸ hch ▸ hin))
          · refine .inr ⟨fun h => hconn ((keep_connecting _ _).mp h), ?_⟩
            dsimp only
            rw [keep_client, ← hch]
            exact hin
      · refine .inr (.inl ⟨_, rfl, .inr fun e he cb hcb => ?_⟩)
        rcases (hreg e he).2 cb hcb with heq | ⟨e₀, he₀, _, hcb₀⟩
        · exact .inl (List.mem_append_right _ (List.mem_singleton.mpr heq))
        · rw [h e₀ he₀] at hcb₀
          exact absurd hcb₀ List.not_mem_nil
    · rename_i hnone
      have hnone' : s.subConnecting = none := Option.map_eq_none_iff.mp hnone
      refine inv_startConnect hsub' hI.fresh ?_
      rcases hI.quiet hsub' with h | ⟨a, ha, _⟩ | h
      · exact .inl h
      · rw [hnone'] at ha
        cases ha
      · refine .inr (.inr fun e he cb hcb => ?_)
        rcases (hreg e he).2 cb hcb with heq | ⟨e₀, he₀, _, hcb₀⟩
        · exact List.mem_singleton.mpr heq
        · rw [h e₀ he₀] at hcb₀
          exact absurd hcb₀ List.not_mem_nil

theorem inv_unsubscribe (hI : Inv s) : Inv (s.unsubscribe call) := by
  have hT := inv_setChans hI (shrinks_unregister s.chans call)
  unfold unsubscribe
  dsimp only
  split
  · rename_i hgone
    split
    · refine inv_send hT fun e he => ?_
      have hne : call.channel ≠ e.channel := fun heq => hgone.2 (heq ▸ Table.mem_keys_of_mem he)
      simp [FeedQuery.effect, hne]
    · exact hT
  · exact hT

theorem inv_timerFires (hI : Inv s) : Inv s.timerFires := by
  unfold timerFires
  dsimp only
  split
  · rename_i hsome
    obtain ⟨id, hsub⟩ := Option.isSome_iff_exists.mp hsome
    exact inv_of_sub_some id hsub hI.fresh (hI.heard id hsub) fun a ha => hI.current a ha id hsub
  · rename_i hnone
    have hsub : s.sub = none := Option.not_isSome_iff_eq_none.mp hnone
    split
    · rename_i a _
      exact inv_of_sub_none hsub hI.fresh (.inr (.inl ⟨{ a with timer := true }, rfl, .inl rfl⟩))
    · exact inv_startConnect hsub hI.fresh (.inr (.inl rfl))

theorem inv_connected (hI : Inv s) (h : s.connected = some t) : Inv t := by
  unfold connected at h
  split at h
  · rename_i a ha
    obtain ⟨⟨_, c, hc, hid, hup⟩, h⟩ := Option.ite_none_right_eq_some.mp h
    cases h
    refine inv_relisten ?_ (Eq.refl (some a.client))
    refine inv_of_sub_some a.client rfl hI.fresh ⟨c, hc, hid, hup, fun e _ => .inr ⟨_, [], rfl, rfl, List.not_mem_nil⟩⟩ fun a' ha' => ?_
    cases ha'
    exact ⟨rfl, fun h => by cases h⟩
  · cases h

theorem inv_connectFails (hI : Inv s) (h : s.connectFails = some t) : Inv t := by
  unfold connectFails at h
  split at h
  · rename_i a ha
    obtain ⟨hphase, h⟩ := Option.ite_none_right_eq_some.mp h
    cases h
    have hsub : s.sub = none := by
      cases hs : s.sub with
      | none => rfl
      | some id => exact absurd hphase (hI.current a ha id hs).2
    refine inv_failConnect hsub hI.fresh ?_
    rcases hI.quiet hsub with h | ⟨a', ha', h⟩ | h
    · exact .inl h
    · rw [ha, Option.some.injEq] at ha'
      subst ha'
      refine .inr (h.imp_right fun h e he cb hcb => ?_)
      exact (h e he cb hcb).resolve_right fun hin => hin.1 hphase
    · refine .inr (.inr fun e he cb hcb => ?_)
      rw [h e he] at hcb
      exact absurd hcb List.not_mem_nil
  · cases h

theorem inv_answer (hI : Inv s) (h : s.answer = some t) : Inv t := by
  obtain ⟨client, hsub, h⟩ := Option.bind_eq_some_iff.mp h
  obtain ⟨c, _, h⟩ := Option.bind_eq_some_iff.mp h
  obtain ⟨q, _, rfl⟩ := Option.map_eq_some_iff.mp h
  have hanswered : Inv { s with clients := s.clients.modify client FeedClient.answered FeedClient.answered_id } := by
    refine inv_modify FeedClient.answered_id hI (fun c => ?_) (fun c e _ he => (hears_answered c e.channel).trans he) fun hnone => ?_
    · unfold FeedClient.answered
      split <;> rfl
    · rw [hsub] at hnone
      cases hnone
  unfold resume
  split
  · exact inv_relisten hanswered hsub
  · exact ⟨hanswered.fresh, hanswered.heard, hanswered.current, hanswered.quiet⟩
  · exact hanswered

theorem inv_drop (hI : Inv s) (hok : s.sub = some client → s.Heals) (h : s.drop client = some t) : Inv t := by
  obtain ⟨_, h⟩ := Option.ite_none_right_eq_some.mp h
  cases h
  have hfresh : ∀ c ∈ s.clients.modify client FeedClient.setDropped FeedClient.setDropped_id, c.id < s.built := fresh_modify _ hI.fresh
  have hpending : ∀ a, s.AllPending a →
      { s with clients := s.clients.modify client FeedClient.setDropped FeedClient.setDropped_id }.AllPending a := fun a h =>
    allPending_mono h (Shrinks.refl _) (fun _ h => h) (fun h => h) fun call hin =>
      inFlight_modify FeedClient.setDropped_id (fun _ _ hx => hx) hin
  unfold handleSubDrop
  dsimp only
  split
  · rename_i hstale
    obtain ⟨id, hsub⟩ := Option.isSome_iff_exists.mp hstale.1
    have hne : id ≠ client := fun heq => hstale.2 (heq ▸ hsub)
    obtain ⟨c, hc, hid, hup, hears⟩ := hI.heard id hsub
    refine inv_of_sub_some id hsub hfresh ?_ fun a ha => hI.current a ha id hsub
    exact ⟨c, (Table.mem_modify_of_ne FeedClient.setDropped_id (hid.symm ▸ hne)).mpr hc, hid, hup, hears⟩
  · rename_i hdrop
    have hquiet : s.reconnectTimer = true ∨ (∃ a, s.subConnecting = some a ∧ (a.timer = true ∨ s.AllPending a)) ∨
        s.subConnecting = none ∨ ∀ e ∈ s.chans, e.cbs = [] := by
      cases hsub : s.sub with
      | none => exact (hI.quiet hsub).imp_right fun h => h.imp_right .inr
      | some id =>
        have hid : id = client := by
          by_contra hne
          exact hdrop ⟨by rw [hsub, Option.isSome_some], fun heq => hne (Option.some.inj (hsub.symm.trans heq))⟩
        refine (hok (hid ▸ hsub)).imp_right fun h => ?_
        cases ha : s.subConnecting with
        | none => exact .inr (.inl rfl)
        | some a => exact .inl ⟨a, rfl, h a ha⟩
    split
    · refine inv_scheduleReconnect rfl hfresh (hquiet.imp_right fun h => h.imp_left ?_)
      rintro ⟨a, ha, h⟩
      exact ⟨a, ha, h.imp_right (hpending a)⟩
    · rename_i hlen
      refine inv_of_sub_none rfl hfresh (.inr (.inr fun e he => ?_))
      exact absurd (List.length_pos_of_mem he) hlen

/-- The rejections on a dropped client: its own calls fail, and the attempt that loops on it. -/
theorem inv_reject (hI : Inv s) (h : s.reject client = some t) : Inv t := by
  obtain ⟨c, hget, h⟩ := Option.bind_eq_some_iff.mp h
  obtain ⟨hc, rfl⟩ := Table.get_eq_some_iff.mp hget
  obtain ⟨hdropped, h⟩ := Option.ite_none_right_eq_some.mp h
  have hsub : s.sub ≠ some c.id := by
    intro hsub
    obtain ⟨c', hc', hid, hup, _⟩ := hI.heard c.id hsub
    rw [Table.eq_of_key hc' hc hid, hdropped] at hup
    cases hup
  have hfresh : ∀ x ∈ s.clients.modify c.id FeedClient.clearQueue FeedClient.clearQueue_id, x.id < s.built := fresh_modify _ hI.fresh
  obtain ⟨hT, hout⟩ := shrinks_rollback (c.queue.filterMap FeedQuery.caller) s.chans
  -- Who stays registered did not wait for the rejected queries.
  have hrest : ∀ a, s.AllPending a → ∀ e ∈ (c.queue.filterMap FeedQuery.caller).foldl Channels.unregister s.chans, ∀ cb ∈ e.cbs,
      ⟨e.channel, cb⟩ ∈ a.callers ∨ (a.phase ≠ .connecting ∧ a.client ≠ c.id ∧ s.InFlight a.client ⟨e.channel, cb⟩) := by
    intro a ha e he cb hcb
    obtain ⟨e₀, he₀, hch, hcbs⟩ := hT e he
    rcases ha e₀ he₀ cb (hcbs cb hcb) with hin | ⟨hconn, c', hc', hid, hin⟩
    · exact .inl (hch ▸ hin)
    · rw [hch] at hin
      refine .inr ⟨hconn, fun heq => ?_, c', hc', hid, hin⟩
      rw [Table.eq_of_key hc' hc (hid.trans heq)] at hin
      exact hout e he _ hin rfl hcb
  have hflight : ∀ client call, client ≠ c.id → s.InFlight client call →
      { s with clients := s.clients.modify c.id FeedClient.clearQueue FeedClient.clearQueue_id }.InFlight client call := by
    rintro client call hne ⟨c', hc', hid, hin⟩
    exact ⟨c', (Table.mem_modify_of_ne FeedClient.clearQueue_id (hid ▸ hne)).mpr hc', hid, hin⟩
  rcases Option.eq_none_or_eq_some s.sub with hnone | ⟨id, hsome⟩
  · have hnobody : (∀ e ∈ s.chans, e.cbs = []) →
        ∀ e ∈ (c.queue.filterMap FeedQuery.caller).foldl Channels.unregister s.chans, ∀ cb, cb ∉ e.cbs := by
      intro h e he cb hcb
      obtain ⟨e₀, he₀, _, hcbs⟩ := hT e he
      have hin := hcbs cb hcb
      rw [h e₀ he₀] at hin
      exact List.not_mem_nil hin
    dsimp only at h
    split at h
    · rename_i a ha
      obtain ⟨a₀, ha₀, rfl⟩ := Option.map_eq_some_iff.mp ha
      have hquiet : s.reconnectTimer = true ∨ a₀.timer = true ∨ s.AllPending a₀ := by
        rcases hI.quiet hnone with h | ⟨a, ha, h⟩ | h
        · exact .inl h
        · rw [ha₀, Option.some.injEq] at ha
          exact .inr (ha ▸ h)
        · refine .inr (.inr fun e he cb hcb => ?_)
          rw [h e he] at hcb
          exact absurd hcb List.not_mem_nil
      cases h
      split
      · rename_i hfails
        rw [keep_client] at hfails
        refine inv_failConnect hnone hfresh (hquiet.imp_right fun h => h.imp (fun h => (keep_timer _ _).trans h) fun h e he cb hcb => ?_)
        rw [keep_callers]
        exact (hrest a₀ h e he cb hcb).resolve_right fun hin => hin.2.1 hfails.1
      · refine inv_of_sub_none hnone hfresh (hquiet.imp_right fun h => .inl ⟨_, ha, ?_⟩)
        refine h.imp (fun h => (keep_timer _ _).trans h) fun h e he cb hcb => ?_
        rw [keep_callers, keep_client]
        refine (hrest a₀ h e he cb hcb).imp_right fun hin => ⟨fun hph => hin.1 ((keep_connecting _ _).mp hph), ?_⟩
        exact hflight _ _ hin.2.1 hin.2.2
    · rename_i hnone'
      have hconn : s.subConnecting = none := Option.map_eq_none_iff.mp hnone'
      cases h
      refine inv_of_sub_none hnone hfresh ((hI.quiet hnone).imp_right fun h => .inr fun e he => ?_)
      rcases h with ⟨a, ha, _⟩ | h
      · rw [hconn] at ha
        cases ha
      · exact List.eq_nil_iff_forall_not_mem.mpr (hnobody h e he)
  · have hne : id ≠ c.id := fun heq => hsub (heq ▸ hsome)
    obtain ⟨c', hc', hid, hup, hears⟩ := hI.heard id hsome
    have hcleared : Inv { s with clients := s.clients.modify c.id FeedClient.clearQueue FeedClient.clearQueue_id } := by
      refine inv_of_sub_some id hsome hfresh ?_ fun a ha => hI.current a ha id hsome
      exact ⟨c', (Table.mem_modify_of_ne FeedClient.clearQueue_id (hid.symm ▸ hne)).mpr hc', hid, hup, hears⟩
    have hrolled := inv_setChans hcleared hT
    dsimp only at h
    split at h
    · rename_i a ha
      have hcl := (hrolled.current a ha id hsome).1
      rw [if_neg fun hboth => hne (hcl.symm.trans hboth.1)] at h
      cases h
      exact hrolled
    · cases h
      exact hrolled

theorem inv_beat (hI : Inv s) (hok : s.Sound .beat) (h : s.beat = some t) : Inv t := by
  obtain ⟨b, hb, h⟩ := Option.bind_eq_some_iff.mp h
  split at h
  · rename_i hwaiting
    exact inv_drop hI (hok b hb hwaiting) h
  · cases h
    have hI' : Inv { s with heartbeat := some { b with waiting := true } } := ⟨hI.fresh, hI.heard, hI.current, hI.quiet⟩
    exact inv_send hI' fun _ _ => rfl

theorem inv_step {a : RealtimeAct} (hI : Inv s) (hok : s.Sound a) (h : s.step a = some t) : Inv t := by
  cases a with
  | subscribe channel cb =>
    cases h
    exact inv_subscribe hI
  | unsubscribe channel cb =>
    cases h
    exact inv_unsubscribe hI
  | connected => exact inv_connected hI h
  | connectFails => exact inv_connectFails hI h
  | answer => exact inv_answer hI h
  | drop client => exact inv_drop hI hok h
  | reject client => exact inv_reject hI h
  | timer =>
    obtain ⟨_, h⟩ := Option.ite_none_right_eq_some.mp h
    cases h
    exact inv_timerFires hI
  | beat => exact inv_beat hI hok h

theorem inv_initial : Inv initial := by
  refine inv_of_sub_none rfl (fun c hc => ?_) (.inr (.inr fun e he => ?_))
  · exact absurd hc (Table.not_mem_empty c)
  · exact absurd he (Table.not_mem_empty e)

end RealtimeAux

open RealtimeAux

/-- In every run whose drops leave nobody behind, a channel with a callback is heard, or an attempt is in flight, or the timer is armed. -/
theorem Realtime.never_deaf_of_sound {s : Realtime} (h : Steps.Reaches Realtime.step Realtime.Sound .initial s) : s.NeverDeaf :=
  neverDeaf_of_inv (h.invariant (fun _ _ _ hx hok hy => inv_step hx hok hy) inv_initial)

/-- A connection drops and the timer's attempt hears the subscriber again, though a second one joined it and the first reconnect failed. -/
theorem Realtime.never_deaf_of_sound_reconnected :
    ∃ s : Realtime, Steps.Reaches Realtime.step Realtime.Sound .initial s ∧ s.NeverDeaf ∧ s.sub = some 2 := by
  obtain ⟨s, hs, hsub⟩ := Steps.exists_of_execOk Realtime.step Realtime.Sound .initial
    [.subscribe 1 1, .connected, .answer, .drop 0, .drop 0, .timer, .connectFails, .drop 1, .timer, .subscribe 2 2, .connected, .answer, .answer]
    (P := fun s : Realtime => s.sub = some 2) (by decide)
  exact ⟨s, hs, Realtime.never_deaf_of_sound hs, hsub⟩

/-- Two subscribers share the first connect; the second has its own LISTEN answered before the loop is done, and the connection drops: the
loop fails and only the first subscriber is told. -/
theorem Realtime.never_deaf_false :
    ∃ s : Realtime, Steps.Reaches Realtime.step Steps.Free .initial s ∧ ¬s.NeverDeaf :=
  Steps.exists_of_exec Realtime.step .initial [.subscribe 1 1, .connected, .subscribe 2 2, .answer, .answer, .drop 0, .drop 0, .reject 0]
    (P := fun s : Realtime => ¬s.NeverDeaf) (by decide)

end Capka

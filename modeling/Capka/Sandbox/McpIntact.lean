import Mathlib
import Capka.Sandbox.McpBridge

/-!
# The bridge keeps requests and replies together

A waiting call is one its process has still to answer, and of those there is one an id, as long as no client uses an id again before
its earlier call is answered. So the reply to a call finds that call waiting under its id, or nothing.
-/

namespace Capka.Mcp

namespace IntactAux

/-- What holds of the bridge at any moment of a careful run. -/
structure Kept (s : McpState) : Prop where
  intact : Intact s
  numbered : ∀ r ∈ s.sent, r.no < s.nextNo
  ended : ∀ o ∈ s.settled, o.no < s.nextNo
  read : ∀ o ∈ s.settled, ∀ line msg, o.outcome = .resolved line msg → line < s.lines
  waits : ∀ w ∈ s.pending, ∃ r ∈ s.sent, r.no = w.no ∧ r.proc = w.proc ∧ r.id = w.id ∧ r.no ∈ s.asked
  single : ∀ r ∈ s.sent, ∀ r' ∈ s.sent, r.no ∈ s.asked → r'.no ∈ s.asked → r.proc = r'.proc → r.id = r'.id → r.no = r'.no

/-! ## Tearing an entry down -/

theorem closeEntry_cases (key : ServerKey) (cause : Cause) (s : McpState) :
    (s.live.get key = none ∧ s.closeEntry key cause = s) ∨ ∃ e, s.live.get key = some e ∧ s.closeEntry key cause =
      { s with
        settled := (s.pending.rows.filter (fun w => w.proc = e.proc)).map (fun w => { no := w.no, outcome := .rejected cause }) ++ s.settled
        pending := s.pending.filter (fun w => w.proc ≠ e.proc)
        live := s.live.erase key
        removed := (e.proc, cause) :: s.removed } := by
  unfold McpState.closeEntry
  cases h : s.live.get key with
  | none => exact Or.inl ⟨rfl, rfl⟩
  | some e => exact Or.inr ⟨e, rfl, rfl⟩

/-- A teardown keeps the bridge as it should be, when a stream event finds no later process. -/
theorem Kept.closeEntry {s : McpState} (h : Kept s) {key : ServerKey} {cause : Cause}
    (hcause : ∀ proc, cause = .stream proc → ∀ e ∈ s.live, e.key = key → e.proc ≤ proc) : Kept (s.closeEntry key cause) := by
  rcases closeEntry_cases key cause s with ⟨_, heq⟩ | ⟨e, he, heq⟩
  · rw [heq]
    exact h
  · rw [heq]
    obtain ⟨hmem, hkey⟩ := Table.get_eq_some_iff.mp he
    -- a call that ends now is a waiting one of the entry
    have hnew : ∀ o ∈ (s.pending.rows.filter (fun w => w.proc = e.proc)).map (fun w => ({ no := w.no, outcome := .rejected cause } : Settled)),
        o.outcome = .rejected cause ∧ ∃ r ∈ s.sent, r.no = o.no ∧ r.proc = e.proc := by
      intro o ho
      obtain ⟨w, hw, rfl⟩ := List.mem_map.mp ho
      obtain ⟨hw, hproc⟩ := List.mem_filter.mp hw
      obtain ⟨r, hr, hno, hp, -, -⟩ := h.waits w hw
      exact ⟨rfl, r, hr, hno, hp.trans (by simpa using hproc)⟩
    refine { intact := { own := ?_, once := ?_, spared := ?_, kept := ?_ }, numbered := h.numbered, ended := ?_, read := ?_,
             waits := ?_, single := h.single }
    · intro o ho line msg hout
      rcases List.mem_append.mp ho with ho | ho
      · rw [(hnew o ho).1] at hout
        cases hout
      · exact h.intact.own o ho line msg hout
    · intro o ho o' ho' line msg msg' hout hout'
      rcases List.mem_append.mp ho with ho | ho
      · rw [(hnew o ho).1] at hout
        cases hout
      · rcases List.mem_append.mp ho' with ho' | ho'
        · rw [(hnew o' ho').1] at hout'
          cases hout'
        · exact h.intact.once o ho o' ho' line msg msg' hout hout'
    · intro o ho proc hout r hr hno
      rcases List.mem_append.mp ho with ho | ho
      · obtain ⟨hc, r', hr', hno', hproc⟩ := hnew o ho
        rw [hc] at hout
        obtain rfl : r = r' := Table.eq_of_key hr hr' (hno.trans hno'.symm)
        rw [hproc]
        exact hcause proc (by injection hout) e hmem hkey
      · exact h.intact.spared o ho proc hout r hr hno
    · intro q proc hq
      rcases List.mem_cons.mp hq with hq | hq
      · obtain ⟨rfl, hc⟩ := Prod.mk.inj hq
        exact hcause proc hc.symm e hmem hkey
      · exact h.intact.kept q proc hq
    · intro o ho
      rcases List.mem_append.mp ho with ho | ho
      · obtain ⟨_, r, hr, hno, _⟩ := hnew o ho
        rw [← hno]
        exact h.numbered r hr
      · exact h.ended o ho
    · intro o ho line msg hout
      rcases List.mem_append.mp ho with ho | ho
      · rw [(hnew o ho).1] at hout
        cases hout
      · exact h.read o ho line msg hout
    · intro w hw
      exact h.waits w (Table.mem_filter.mp hw).1

theorem Kept.stopAll {s : McpState} (h : Kept s) (entries : List BridgeEntry) :
    Kept (entries.foldl (fun s e => s.closeEntry e.key .stopAll) s) := by
  induction entries generalizing s with
  | nil => exact h
  | cons e entries ih => exact ih (h.closeEntry (fun proc hc => by cases hc))

/-! ## A line with an id -/

theorem Kept.deliver {s : McpState} (h : Kept s) {proc id : Nat} {msg : BridgeLine}
    (hown : ∀ w ∈ s.pending, w.slot = (proc, id) → msg = .reply w.no) : Kept (s.deliver proc id msg) := by
  unfold McpState.deliver
  cases hg : s.pending.get (proc, id) with
  | none =>
    dsimp only
    refine
      { intact := ⟨h.intact.own, h.intact.once, h.intact.spared, h.intact.kept⟩, numbered := h.numbered, ended := h.ended, read := ?_,
        waits := h.waits, single := h.single }
    intro o ho line msg hout
    exact Nat.lt_succ_of_lt (h.read o ho line msg hout)
  | some w =>
    obtain ⟨hw, hslot⟩ := Table.get_eq_some_iff.mp hg
    have hmsg := hown w hw hslot
    refine { intact := { own := ?_, once := ?_, spared := ?_, kept := h.intact.kept }, numbered := h.numbered, ended := ?_, read := ?_,
             waits := ?_, single := h.single }
    · intro o ho line msg' hout
      rcases List.mem_cons.mp ho with rfl | ho
      · injection hout with _ hout
        rw [← hout]
        exact hmsg
      · exact h.intact.own o ho line msg' hout
    · intro o ho o' ho' line m m' hout hout'
      rcases List.mem_cons.mp ho with rfl | ho
      · injection hout with hline _
        rcases List.mem_cons.mp ho' with rfl | ho'
        · rfl
        · have := h.read o' ho' line m' hout'
          omega
      · rcases List.mem_cons.mp ho' with rfl | ho'
        · injection hout' with hline _
          have := h.read o ho line m hout
          omega
        · exact h.intact.once o ho o' ho' line m m' hout hout'
    · intro o ho p hout r hr hno
      rcases List.mem_cons.mp ho with rfl | ho
      · cases hout
      · exact h.intact.spared o ho p hout r hr hno
    · intro o ho
      rcases List.mem_cons.mp ho with rfl | ho
      · obtain ⟨r, hr, hno, -⟩ := h.waits w hw
        dsimp only
        rw [← hno]
        exact h.numbered r hr
      · exact h.ended o ho
    · intro o ho line m hout
      rcases List.mem_cons.mp ho with rfl | ho
      · injection hout with hline _
        dsimp only
        omega
      · exact Nat.lt_succ_of_lt (h.read o ho line m hout)
    · intro w' hw'
      exact h.waits w' (Table.mem_erase.mp hw').1

theorem Kept.answered {s : McpState} (h : Kept s) {no : Nat} (hfree : ∀ w ∈ s.pending, w.no ≠ no) : Kept (s.answered no) := by
  have hless : ∀ i ∈ s.asked.filter (· ≠ no), i ∈ s.asked := fun i hi => (List.mem_filter.mp hi).1
  refine { intact := ⟨h.intact.own, h.intact.once, h.intact.spared, h.intact.kept⟩, numbered := h.numbered, ended := h.ended,
           read := h.read, waits := ?_, single := ?_ }
  · intro w hw
    obtain ⟨r, hr, hno, hp, hi, hask⟩ := h.waits w hw
    refine ⟨r, hr, hno, hp, hi, List.mem_filter.mpr ⟨hask, ?_⟩⟩
    have := hfree w hw
    simp [hno, this]
  · intro r hr r' hr' hask hask'
    exact h.single r hr r' hr' (hless _ hask) (hless _ hask')

theorem answered_deliver (s : McpState) (no proc id : Nat) (msg : BridgeLine) :
    (s.answered no).deliver proc id msg = (s.deliver proc id msg).answered no := by
  unfold McpState.deliver McpState.answered
  dsimp only
  split
  · rfl
  · rfl

theorem pending_deliver {s : McpState} {proc id : Nat} {msg : BridgeLine} {w : Waiter} (hw : w ∈ (s.deliver proc id msg).pending) :
    w ∈ s.pending ∧ w.slot ≠ (proc, id) := by
  unfold McpState.deliver at hw
  cases hg : s.pending.get (proc, id) with
  | none =>
    rw [hg] at hw
    exact ⟨hw, Table.get_eq_none_iff.mp hg w hw⟩
  | some w' =>
    rw [hg] at hw
    exact Table.mem_erase.mp hw

theorem Kept.reply {s : McpState} (h : Kept s) {r : Request} (hr : r ∈ s.sent) (hasked : r.no ∈ s.asked) :
    Kept ((s.answered r.no).deliver r.proc r.id (.reply r.no)) := by
  rw [answered_deliver]
  refine (h.deliver ?_).answered ?_
  · intro w hw hslot
    obtain ⟨hp, hi⟩ := Prod.mk.inj hslot
    obtain ⟨r', hr', hno, hproc, hid, hask⟩ := h.waits w hw
    rw [← hno, h.single r' hr' r hr hask hasked (hproc.trans hp) (hid.trans hi)]
  · intro w hw hno
    obtain ⟨hw, hslot⟩ := pending_deliver hw
    obtain ⟨r', hr', hno', hproc, hid, _⟩ := h.waits w hw
    obtain rfl : r' = r := Table.eq_of_key hr' hr (hno'.trans hno)
    exact hslot (Prod.ext hproc.symm hid.symm)

/-! ## A call -/

theorem Kept.ask {s : McpState} (h : Kept s) {e : BridgeEntry} {id : Nat}
    (hfresh : ∀ r ∈ s.sent, r.proc = e.proc → r.id = id → r.no ∉ s.asked) : Kept (s.ask e id) := by
  have hsent : ∀ {r}, r ∈ (s.ask e id).sent ↔ r = { no := s.nextNo, proc := e.proc, id := id } ∨ r ∈ s.sent := by
    intro r
    rw [McpState.ask, Table.mem_put]
    constructor
    · rintro (rfl | ⟨hr, _⟩)
      · exact Or.inl rfl
      · exact Or.inr hr
    · rintro (rfl | hr)
      · exact Or.inl rfl
      · exact Or.inr ⟨hr, Nat.ne_of_lt (h.numbered r hr)⟩
  have hold : ∀ r ∈ s.sent, r.no ∈ (s.ask e id).asked → r.no ∈ s.asked := by
    intro r hr hask
    rcases List.mem_cons.mp hask with heq | hask
    · have := h.numbered r hr
      omega
    · exact hask
  refine { intact := ⟨h.intact.own, h.intact.once, ?_, h.intact.kept⟩, numbered := ?_, ended := ?_, read := h.read, waits := ?_,
           single := ?_ }
  · intro o ho proc hout r hr hno
    rcases hsent.mp hr with rfl | hr
    · have := h.ended o ho
      dsimp only at hno
      omega
    · exact h.intact.spared o ho proc hout r hr hno
  · intro r hr
    rcases hsent.mp hr with rfl | hr
    · exact Nat.lt_succ_self _
    · exact Nat.lt_succ_of_lt (h.numbered r hr)
  · intro o ho
    exact Nat.lt_succ_of_lt (h.ended o ho)
  · intro w hw
    rcases Table.mem_put.mp hw with rfl | ⟨hw, _⟩
    · exact ⟨_, hsent.mpr (Or.inl rfl), rfl, rfl, rfl, List.mem_cons_self⟩
    · obtain ⟨r, hr, hno, hp, hi, hask⟩ := h.waits w hw
      exact ⟨r, hsent.mpr (Or.inr hr), hno, hp, hi, List.mem_cons_of_mem _ hask⟩
  · intro r hr r' hr' hask hask' hp hi
    rcases hsent.mp hr with rfl | hr
    · rcases hsent.mp hr' with rfl | hr'
      · rfl
      · exact absurd (hold r' hr' hask') (hfresh r' hr' hp.symm hi.symm)
    · rcases hsent.mp hr' with rfl | hr'
      · exact absurd (hold r hr hask) (hfresh r hr hp hi)
      · exact h.single r hr r' hr' (hold r hr hask) (hold r' hr' hask') hp hi

theorem Kept.expire {s : McpState} (h : Kept s) {r : Request} (hr : r ∈ s.sent) : Kept (s.expire r) := by
  refine { intact := { own := ?_, once := ?_, spared := ?_, kept := h.intact.kept }, numbered := h.numbered, ended := ?_, read := ?_,
           waits := ?_, single := h.single }
  · intro o ho line msg hout
    rcases List.mem_cons.mp ho with rfl | ho
    · cases hout
    · exact h.intact.own o ho line msg hout
  · intro o ho o' ho' line msg msg' hout hout'
    rcases List.mem_cons.mp ho with rfl | ho
    · cases hout
    · rcases List.mem_cons.mp ho' with rfl | ho'
      · cases hout'
      · exact h.intact.once o ho o' ho' line msg msg' hout hout'
  · intro o ho proc hout r' hr' hno
    rcases List.mem_cons.mp ho with rfl | ho
    · cases hout
    · exact h.intact.spared o ho proc hout r' hr' hno
  · intro o ho
    rcases List.mem_cons.mp ho with rfl | ho
    · exact h.numbered r hr
    · exact h.ended o ho
  · intro o ho line msg hout
    rcases List.mem_cons.mp ho with rfl | ho
    · cases hout
    · exact h.read o ho line msg hout
  · intro w hw
    exact h.waits w (Table.mem_erase.mp hw).1

/-! ## Every step -/

theorem Kept.of_same {s t : McpState} (h : Kept s) (hp : t.pending = s.pending) (hs : t.sent = s.sent) (ha : t.asked = s.asked)
    (ht : t.settled = s.settled) (hr : t.removed = s.removed) (hn : t.nextNo = s.nextNo) (hl : s.lines ≤ t.lines) : Kept t := by
  refine { intact := ⟨?_, ?_, ?_, ?_⟩, numbered := ?_, ended := ?_, read := ?_, waits := ?_, single := ?_ }
  · rw [ht]
    exact h.intact.own
  · rw [ht]
    exact h.intact.once
  · rw [ht, hs]
    exact h.intact.spared
  · rw [hr]
    exact h.intact.kept
  · rw [hs, hn]
    exact h.numbered
  · rw [ht, hn]
    exact h.ended
  · intro o ho line msg hout
    rw [ht] at ho
    exact Nat.lt_of_lt_of_le (h.read o ho line msg hout) hl
  · rw [hp, hs, ha]
    exact h.waits
  · rw [hs, ha]
    exact h.single

theorem Kept.step {s t : McpState} {a : McpAct} (h : Kept s) (hok : Careful s a) (hs : s.step a = some t) : Kept t := by
  cases a with
  | start key =>
    simp only [McpState.step] at hs
    split at hs
    · split at hs
      · obtain rfl := Option.some.inj hs
        exact h.of_same rfl rfl rfl rfl rfl rfl (Nat.le_refl _)
      · obtain rfl := Option.some.inj hs
        exact h
    · obtain rfl := Option.some.inj hs
      exact h.of_same rfl rfl rfl rfl rfl rfl (Nat.le_refl _)
  | started key =>
    simp only [McpState.step] at hs
    split at hs
    · obtain rfl := Option.some.inj hs
      exact h.of_same rfl rfl rfl rfl rfl rfl (Nat.le_refl _)
    · cases hs
  | startFailed key =>
    obtain rfl := Option.some.inj hs
    exact h.of_same rfl rfl rfl rfl rfl rfl (Nat.le_refl _)
  | rpc key id =>
    simp only [McpState.step] at hs
    split at hs
    · next e he =>
      split at hs
      · cases hs
      · cases id with
        | none =>
          obtain rfl := Option.some.inj hs
          exact h
        | some id =>
          obtain rfl := Option.some.inj hs
          obtain ⟨hmem, hkey⟩ := Table.get_eq_some_iff.mp he
          exact h.ask (hok e hmem hkey)
    · cases hs
  | timeout no =>
    simp only [McpState.step] at hs
    split at hs
    · next r hr =>
      split at hs
      · obtain rfl := Option.some.inj hs
        exact h.expire (Table.get_eq_some_iff.mp hr).1
      · cases hs
    · cases hs
  | line proc msg =>
    cases msg with
    | reply no =>
      simp only [McpState.step] at hs
      split at hs
      · next r hr =>
        split at hs
        · next hg =>
          obtain rfl := Option.some.inj hs
          obtain ⟨hmem, hno⟩ := Table.get_eq_some_iff.mp hr
          rw [← hno, ← hg.1]
          exact h.reply hmem (hno ▸ hg.2)
        · cases hs
      · cases hs
    | message id =>
      obtain rfl := Option.some.inj hs
      exact h.deliver (fun w hw hslot => absurd hslot (hok w hw))
    | notification =>
      obtain rfl := Option.some.inj hs
      exact h.of_same rfl rfl rfl rfl rfl rfl (Nat.le_succ _)
  | streamEvent proc =>
    obtain ⟨p, hp, rfl⟩ := Option.map_eq_some_iff.mp hs
    obtain ⟨hp, hproc⟩ := Table.get_eq_some_iff.mp hp
    refine h.closeEntry ?_
    rintro q hq e he hkey
    injection hq with hq
    rw [← hq]
    exact hok p hp hproc e he hkey
  | stopAll handle =>
    obtain rfl := Option.some.inj hs
    exact h.stopAll _

theorem kept_new : Kept McpState.new := by
  refine { intact := ⟨?_, ?_, ?_, ?_⟩, numbered := ?_, ended := ?_, read := ?_, waits := ?_, single := ?_ }
  · intro o ho
    cases ho
  · intro o ho
    cases ho
  · intro o ho
    cases ho
  · intro q proc hq
    cases hq
  · intro r hr
    exact absurd hr (Table.not_mem_empty r)
  · intro o ho
    cases ho
  · intro o ho
    cases ho
  · intro w hw
    exact absurd hw (Table.not_mem_empty w)
  · intro r hr
    exact absurd hr (Table.not_mem_empty r)

end IntactAux

open IntactAux

/-- In every careful run the bridge keeps requests and replies together. -/
theorem bridge_intact_of_careful {s : McpState} (h : Steps.Reaches McpState.step Careful McpState.new s) : Intact s :=
  (h.invariant (I := Kept) (fun _ _ _ hx hok hstep => hx.step hok hstep) kept_new).intact

namespace IntactRun

/-- The server of the runs. -/
def key : ServerKey where
  handle := "box"
  name := "files"

/-- Two clients, one after the other, each with its first call; the first was answered. -/
def acts : List McpAct := [.start key, .started key, .rpc key (some 0), .line 0 (.reply 0), .rpc key (some 0), .line 0 (.reply 1)]

/-- The reply to the first client's call comes after its timer ran out, when the second client's waits under the same id. -/
def late : List McpAct := [.start key, .started key, .rpc key (some 0), .timeout 0, .rpc key (some 0), .line 0 (.reply 0)]

/-- The first process reports its end twice, and between the two the server is started again. -/
def twice : List McpAct :=
  [.start key, .started key, .streamEvent 0, .start key, .started key, .rpc key (some 0), .streamEvent 0]

end IntactRun

open IntactRun

/-- The careful run in which both clients get their reply. -/
theorem bridge_intact_of_careful_answered : ∃ s, Steps.Reaches McpState.step Careful McpState.new s ∧ s.settled.length = 2 ∧ Intact s := by
  obtain ⟨s, hs, hlen⟩ := Steps.exists_of_execOk McpState.step Careful McpState.new acts (P := fun s => s.settled.length = 2) (by decide)
  exact ⟨s, hs, hlen, bridge_intact_of_careful hs⟩

/-- A late reply resolves the call of another client, and a stream event of an ended process tears down the one started after it. -/
theorem bridge_intact_false :
    (∃ s, Steps.Reaches McpState.step Steps.Free McpState.new s ∧ { no := 1, outcome := .resolved 0 (.reply 0) } ∈ s.settled ∧ ¬ Intact s) ∧
      ∃ s, Steps.Reaches McpState.step Steps.Free McpState.new s ∧ (1, Cause.stream 0) ∈ s.removed ∧ ¬ Intact s := by
  constructor
  · obtain ⟨s, hs, hin⟩ := Steps.exists_of_exec McpState.step McpState.new late
      (P := fun s => { no := 1, outcome := .resolved 0 (.reply 0) } ∈ s.settled) (by decide)
    refine ⟨s, hs, hin, ?_⟩
    intro h
    have := h.own _ hin 0 (.reply 0) rfl
    cases this
  · obtain ⟨s, hs, hin⟩ := Steps.exists_of_exec McpState.step McpState.new twice (P := fun s => (1, Cause.stream 0) ∈ s.removed) (by decide)
    refine ⟨s, hs, hin, ?_⟩
    intro h
    have := h.kept 1 0 hin
    omega

end Capka.Mcp

import Capka.Sandbox.Sessions

/-!
# Reconciling the session rows with the containers

On boot the controller compares the two stores. A row whose container runs and was built as one would be built today keeps it; any
other row loses its handle and the container found for it is destroyed; a container whose session has no row is destroyed. The
container of a row is looked up by session id in a map, where of several containers of one session the last one listed stays.
-/

namespace Capka.Sandbox

/-- What a container would be built with today, where the caller of `reconcile` says so: the posture fingerprint for a network
mode, and the network a container on a given network should be on. -/
structure Posture where
  currentSpec : Option (Option String → String)
  desiredMode : Option (Option String → String)

/-- The container was built by another spec, or is on another network, than it would be today. -/
def Posture.stale (p : Posture) (b : Container) : Bool :=
  p.currentSpec.any (fun currentSpec => b.spec != some (currentSpec b.networkMode)) ||
    p.desiredMode.any fun desiredMode => b.networkMode != some (desiredMode b.networkMode)

/-- The container is left running for its session. -/
def Posture.keeps (p : Posture) (b : Container) : Bool := b.running && !p.stale b

/-- The map from sessions to the containers listed: a later entry replaces an earlier one. -/
def bySession (live : List Container) (sessionId : String) : Option Container :=
  live.reverse.find? fun b => b.sessionId = sessionId

/-- The two stores, and the summary a pass returns. -/
structure Pass where
  rows : Sessions
  containers : Containers
  kept : List String := []
  stopped : List String := []
  outdated : List String := []
  destroyedOrphans : List String := []

/-- The step for one row. -/
def reconcileRow (p : Posture) (d : Daemon) (live : List Container) (s : Pass) (rec : SessionRow) : Pass :=
  let rows := if rec.handle.isSome then setStopped rec.sessionId s.rows else s.rows
  match bySession live rec.sessionId with
  | none => { s with rows, stopped := s.stopped ++ [rec.sessionId] }
  | some b =>
    if p.keeps b then { s with kept := s.kept ++ [rec.sessionId] }
    else
      let containers := destroy d b.handle s.containers
      if p.stale b then { s with rows, containers, outdated := s.outdated ++ [rec.sessionId] }
      else { s with rows, containers, stopped := s.stopped ++ [rec.sessionId] }

/-- The step for one container listed. -/
def reconcileContainer (d : Daemon) (recordIds : List String) (s : Pass) (b : Container) : Pass :=
  if b.sessionId ∈ recordIds then s
  else { s with containers := destroy d b.handle s.containers, destroyedOrphans := s.destroyedOrphans ++ [b.sessionId] }

/-- The pass: the rows and the containers are read first, then each row and each container listed gets its step. -/
def reconcile (p : Posture) (d : Daemon) (rows : Sessions) (containers : Containers) : Pass :=
  let records := rows.rows
  let live := containers.rows
  live.foldl (reconcileContainer d (records.map SessionRow.sessionId))
    (records.foldl (reconcileRow p d live) { rows, containers })

/-! ## What a pass does to each store -/

namespace ReconcileAux

/-- The container destroyed for a row. -/
def victim (p : Posture) (live : List Container) (rec : SessionRow) : Option String :=
  ((bySession live rec.sessionId).filter fun b => !p.keeps b).map Container.handle

/-- The row loses its handle. -/
def stops (p : Posture) (live : List Container) (rec : SessionRow) : Bool :=
  rec.handle.isSome && !(bySession live rec.sessionId).any p.keeps

/-- The handles of the containers destroyed because their session has no row. -/
def orphans (records : List SessionRow) (live : List Container) : List String :=
  (live.filter fun b => decide (b.sessionId ∉ records.map SessionRow.sessionId)).map Container.handle

theorem rows_foldl (p : Posture) (d : Daemon) (live : List Container) (records : List SessionRow) (s : Pass) :
    (records.foldl (reconcileRow p d live) s).rows =
        stopAll ((records.filter (stops p live)).map SessionRow.sessionId) s.rows ∧
      (records.foldl (reconcileRow p d live) s).containers = destroyAll d (records.filterMap (victim p live)) s.containers := by
  induction records generalizing s with
  | nil => exact ⟨rfl, rfl⟩
  | cons rec records ih =>
    obtain ⟨hrows, hcontainers⟩ := ih (reconcileRow p d live s rec)
    rw [List.foldl_cons, hrows, hcontainers]
    cases hb : bySession live rec.sessionId with
    | none =>
      have hv : victim p live rec = none := by simp [victim, hb]
      cases hh : rec.handle <;> simp [reconcileRow, hb, hv, stops, hh, stopAll]
    | some b =>
      by_cases hk : p.keeps b = true
      · have hv : victim p live rec = none := by simp [victim, hb, hk]
        simp [reconcileRow, hb, hk, hv, stops]
      · have hv : victim p live rec = some b.handle := by simp [victim, hb, hk]
        by_cases hs : p.stale b = true <;> cases hh : rec.handle <;>
          simp [reconcileRow, hb, hk, hv, hs, stops, hh, stopAll, destroyAll]

theorem containers_foldl (d : Daemon) (records : List SessionRow) (live : List Container) (s : Pass) :
    (live.foldl (reconcileContainer d (records.map SessionRow.sessionId)) s).rows = s.rows ∧
      (live.foldl (reconcileContainer d (records.map SessionRow.sessionId)) s).containers =
        destroyAll d (orphans records live) s.containers := by
  induction live generalizing s with
  | nil => exact ⟨rfl, rfl⟩
  | cons b live ih =>
    obtain ⟨hrows, hcontainers⟩ := ih (reconcileContainer d (records.map SessionRow.sessionId) s b)
    rw [List.foldl_cons, hrows, hcontainers]
    by_cases hb : b.sessionId ∈ records.map SessionRow.sessionId
    · simp only [reconcileContainer, orphans, hb, if_true, not_true, decide_false, List.filter_cons, Bool.false_eq_true, if_false,
        and_self]
    · simp only [reconcileContainer, orphans, hb, if_false, not_false_iff, decide_true, List.filter_cons, if_true, List.map_cons,
        destroyAll, List.foldl_cons, and_self]

end ReconcileAux

open ReconcileAux

theorem reconcile_rows (p : Posture) (d : Daemon) (rows : Sessions) (containers : Containers) :
    (reconcile p d rows containers).rows =
      stopAll ((rows.rows.filter (stops p containers.rows)).map SessionRow.sessionId) rows := by
  unfold reconcile
  rw [(containers_foldl d rows.rows containers.rows _).1, (rows_foldl p d containers.rows rows.rows _).1]

theorem reconcile_containers (p : Posture) (d : Daemon) (rows : Sessions) (containers : Containers) :
    (reconcile p d rows containers).containers =
      destroyAll d (rows.rows.filterMap (victim p containers.rows) ++ orphans rows.rows containers.rows) containers := by
  unfold reconcile
  rw [(containers_foldl d rows.rows containers.rows _).2, (rows_foldl p d containers.rows rows.rows _).2]
  simp only [destroyAll, List.foldl_append]

variable {b : Container}

theorem bySession_some {live : List Container} {id : String} (h : bySession live id = some b) :
    b ∈ live ∧ b.sessionId = id := by
  have hmem := List.mem_of_find?_eq_some h
  have hid := List.find?_some h
  exact ⟨List.mem_reverse.mp hmem, by simpa using hid⟩

theorem exists_bySession {live : List Container} (h : b ∈ live) : ∃ b', bySession live b.sessionId = some b' := by
  cases hb : bySession live b.sessionId with
  | some b' => exact ⟨b', rfl⟩
  | none =>
    have hnone := List.find?_eq_none.mp hb b (List.mem_reverse.mpr h)
    simp at hnone

/-- A container the pass asks to destroy: its session has no row, or it is the one the map holds for a row that does not keep it. -/
def Doomed (p : Posture) (rows : Sessions) (containers : Containers) (b : Container) : Prop :=
  (∀ r ∈ rows, r.sessionId ≠ b.sessionId) ∨ ∃ r ∈ rows, bySession containers.rows r.sessionId = some b ∧ p.keeps b = false

theorem mem_doomed {p : Posture} {rows : Sessions} {containers : Containers} (hb : b ∈ containers) :
    b.handle ∈ rows.rows.filterMap (victim p containers.rows) ++ orphans rows.rows containers.rows ↔ Doomed p rows containers b := by
  rw [List.mem_append, or_comm]
  refine or_congr ?_ ?_
  · constructor
    · intro h r hr hid
      obtain ⟨b', hb', hh⟩ := List.mem_map.mp h
      obtain ⟨hmem, hnot⟩ := List.mem_filter.mp hb'
      have : b' = b := Table.eq_of_key hmem hb hh
      subst this
      exact of_decide_eq_true hnot (List.mem_map.mpr ⟨r, hr, hid⟩)
    · intro h
      refine List.mem_map.mpr ⟨b, List.mem_filter.mpr ⟨hb, decide_eq_true ?_⟩, rfl⟩
      intro hin
      obtain ⟨r, hr, hid⟩ := List.mem_map.mp hin
      exact h r hr hid
  · constructor
    · intro h
      obtain ⟨r, hr, hv⟩ := List.mem_filterMap.mp h
      obtain ⟨b', hb', hh⟩ := Option.map_eq_some_iff.mp hv
      obtain ⟨hfound, hkeep⟩ := Option.filter_eq_some_iff.mp hb'
      have : b' = b := Table.eq_of_key (bySession_some hfound).1 hb hh
      subst this
      exact ⟨r, hr, hfound, by simpa using hkeep⟩
    · rintro ⟨r, hr, hfound, hkeep⟩
      refine List.mem_filterMap.mpr ⟨r, hr, Option.map_eq_some_iff.mpr ⟨b, ?_, rfl⟩⟩
      exact Option.filter_eq_some_iff.mpr ⟨hfound, by simp [hkeep]⟩

theorem mem_stopped {p : Posture} {rows : Sessions} {containers : Containers} {r : SessionRow} (hr : r ∈ rows) :
    r.sessionId ∈ (rows.rows.filter (stops p containers.rows)).map SessionRow.sessionId ↔
      r.handle ≠ none ∧ ∀ b, bySession containers.rows r.sessionId = some b → p.keeps b = false := by
  constructor
  · intro h
    obtain ⟨r', hr', hid⟩ := List.mem_map.mp h
    obtain ⟨hmem, hstop⟩ := List.mem_filter.mp hr'
    have : r' = r := Table.eq_of_key hmem hr hid
    subst this
    obtain ⟨hsome, hnone⟩ := Bool.and_eq_true_iff.mp hstop
    refine ⟨fun hn => by simp [hn] at hsome, fun b hb => ?_⟩
    simpa [hb] using hnone
  · rintro ⟨hsome, hnone⟩
    refine List.mem_map.mpr ⟨r, List.mem_filter.mpr ⟨hr, ?_⟩, rfl⟩
    have hany : (bySession containers.rows r.sessionId).any p.keeps = false := by
      cases hb : bySession containers.rows r.sessionId with
      | none => rfl
      | some b => exact hnone b hb
    simp [stops, hany, Option.isSome_iff_ne_none, hsome]

/-! ## Agreement -/

/-- The two stores agree: every container is the one its session's row names, and every row that names a container names one of
its session's that is there. -/
structure Agreed (rows : Sessions) (containers : Containers) : Prop where
  named : ∀ b ∈ containers, ∃ r ∈ rows, r.sessionId = b.sessionId ∧ r.handle = some b.handle
  there : ∀ r ∈ rows, ∀ h ∈ r.handle, ∃ b ∈ containers, b.handle = h ∧ b.sessionId = r.sessionId

/-- What reconciling is for: the stores agree, no row is lost, every container listed that no row names is gone, and a further pass,
whatever the daemon answers to it, changes nothing. -/
structure Reconciles (p : Posture) (d : Daemon) (rows : Sessions) (containers : Containers) : Prop where
  agreed : Agreed (reconcile p d rows containers).rows (reconcile p d rows containers).containers
  rows_kept : ∀ r ∈ rows, r ∈ (reconcile p d rows containers).rows ∨ r.stopped ∈ (reconcile p d rows containers).rows
  others_gone : ∀ b ∈ containers, (∀ r ∈ (reconcile p d rows containers).rows, r.handle ≠ some b.handle) →
    ∀ b' ∈ (reconcile p d rows containers).containers, b'.handle ≠ b.handle
  settled : ∀ d' : Daemon,
    (reconcile p d' (reconcile p d rows containers).rows (reconcile p d rows containers).containers).rows =
        (reconcile p d rows containers).rows ∧
      (reconcile p d' (reconcile p d rows containers).rows (reconcile p d rows containers).containers).containers =
        (reconcile p d rows containers).containers

/-- The stores can be joined by session: no session with a row has two containers, a row names the container of its session that is
to be kept, and the daemon removes every container that is not. -/
structure Joinable (p : Posture) (d : Daemon) (rows : Sessions) (containers : Containers) : Prop where
  single : ∀ r ∈ rows, ∀ b ∈ containers, ∀ b' ∈ containers, b.sessionId = r.sessionId → b'.sessionId = r.sessionId → b = b'
  named : ∀ r ∈ rows, ∀ b ∈ containers, b.sessionId = r.sessionId → p.keeps b = true → r.handle = some b.handle
  removed : ∀ b ∈ containers, (∀ r ∈ rows, r.sessionId = b.sessionId → p.keeps b = false) → d.removes b.handle = true

namespace ReconcileAux

variable {p : Posture} {d : Daemon} {rows : Sessions} {containers : Containers}

variable {b : Container}

theorem stays (hb : b ∈ containers) (h : ¬Doomed p rows containers b) :
    b ∈ (reconcile p d rows containers).containers := by
  rw [reconcile_containers]
  exact mem_destroyAll.mpr (.inl ⟨hb, fun hin => h ((mem_doomed hb).mp hin)⟩)

theorem comes (hb : b ∈ (reconcile p d rows containers).containers) :
    (b ∈ containers ∧ ¬Doomed p rows containers b) ∨
      ∃ b₀ ∈ containers, Doomed p rows containers b₀ ∧ d.removes b₀.handle = false ∧ b = d.left b₀ := by
  rw [reconcile_containers] at hb
  rcases mem_destroyAll.mp hb with ⟨hb, hnot⟩ | ⟨hin, hr, b₀, hb₀, rfl⟩
  · exact .inl ⟨hb, fun h => hnot ((mem_doomed hb).mpr h)⟩
  · rw [d.left_handle] at hin hr
    exact .inr ⟨b₀, hb₀, (mem_doomed hb₀).mp hin, hr, rfl⟩

theorem left_stays (hb : b ∈ containers) (hd : Doomed p rows containers b) (hr : d.removes b.handle = false) :
    d.left b ∈ (reconcile p d rows containers).containers := by
  rw [reconcile_containers]
  refine mem_destroyAll.mpr (.inr ⟨?_, by rwa [d.left_handle], b, hb, rfl⟩)
  rw [d.left_handle]
  exact (mem_doomed hb).mpr hd

variable {r : SessionRow}

theorem row_stays (hr : r ∈ rows)
    (h : r.handle = none ∨ ∃ b, bySession containers.rows r.sessionId = some b ∧ p.keeps b = true) :
    r ∈ (reconcile p d rows containers).rows := by
  rw [reconcile_rows]
  refine mem_stopAll.mpr (.inl ⟨hr, fun hin => ?_⟩)
  obtain ⟨hne, hnone⟩ := (mem_stopped hr).mp hin
  rcases h with hn | ⟨b, hb, hk⟩
  · exact hne hn
  · rw [hnone b hb] at hk
    cases hk

theorem row_comes (hr : r ∈ (reconcile p d rows containers).rows) :
    (r ∈ rows ∧ (r.handle = none ∨ ∃ b, bySession containers.rows r.sessionId = some b ∧ p.keeps b = true)) ∨
      ∃ r₀ ∈ rows, r = r₀.stopped := by
  rw [reconcile_rows] at hr
  rcases mem_stopAll.mp hr with ⟨hr, hnot⟩ | ⟨_, r₀, hr₀, rfl⟩
  · refine .inl ⟨hr, or_iff_not_imp_left.mpr fun hne => ?_⟩
    by_contra hk
    refine hnot ((mem_stopped hr).mpr ⟨hne, fun b hb => ?_⟩)
    by_contra hkeep
    exact hk ⟨b, hb, by simpa using hkeep⟩
  · exact .inr ⟨r₀, hr₀, rfl⟩

theorem row_kept (hr : r ∈ rows) :
    r ∈ (reconcile p d rows containers).rows ∨ r.stopped ∈ (reconcile p d rows containers).rows := by
  rw [reconcile_rows]
  by_cases hin : r.sessionId ∈ (rows.rows.filter (stops p containers.rows)).map SessionRow.sessionId
  · exact .inr (mem_stopAll.mpr (.inr ⟨hin, r, hr, rfl⟩))
  · exact .inl (mem_stopAll.mpr (.inl ⟨hr, hin⟩))

theorem not_doomed (hr : r ∈ rows) (hid : r.sessionId = b.sessionId) (hk : p.keeps b = true) :
    ¬Doomed p rows containers b := by
  rintro (hnone | ⟨_, _, _, hnot⟩)
  · exact hnone r hr hid
  · rw [hk] at hnot
    cases hnot

/-- The row names the container, which is the one the map holds for it and is kept. -/
structure Serves (p : Posture) (containers : Containers) (r : SessionRow) (b : Container) : Prop where
  session : r.sessionId = b.sessionId
  handle : r.handle = some b.handle
  found : bySession containers.rows r.sessionId = some b
  keeps : p.keeps b = true

theorem serves_of_agreed (h : Agreed (reconcile p d rows containers).rows (reconcile p d rows containers).containers)
    (hb : b ∈ (reconcile p d rows containers).containers) : ∃ r ∈ rows, Serves p containers r b := by
  obtain ⟨r, hr, hid, hh⟩ := h.named b hb
  rcases row_comes hr with ⟨hr₀, hnone | ⟨b₁, hb₁, hk⟩⟩ | ⟨r₀, _, rfl⟩
  · rw [hnone] at hh
    cases hh
  · -- the kept container is there too, so the row names it, and the row names one container only
    have hid₁ : r.sessionId = b₁.sessionId := (bySession_some hb₁).2.symm
    have hstay := stays (d := d) (bySession_some hb₁).1 (not_doomed hr₀ hid₁ hk)
    obtain ⟨r₁, hr₁, hid', hh₁⟩ := h.named b₁ hstay
    have hrow : r₁ = r := Table.eq_of_key hr₁ hr (hid'.trans hid₁.symm)
    rw [hrow, hh] at hh₁
    have hb₁b : b₁ = b := Table.eq_of_key hstay hb (Option.some.inj hh₁).symm
    subst hb₁b
    exact ⟨r, hr₀, hid, hh, hb₁, hk⟩
  · cases hh

theorem found_of_agreed (h : Agreed (reconcile p d rows containers).rows (reconcile p d rows containers).containers)
    (hr : r ∈ rows) (hb : b ∈ containers) (hid : b.sessionId = r.sessionId) :
    bySession containers.rows r.sessionId = some b := by
  have hrow : ∀ r' ∈ rows, r'.sessionId = b.sessionId → r' = r := fun r' hr' h' => Table.eq_of_key hr' hr (h'.trans hid)
  by_cases hd : Doomed p rows containers b
  · rcases hd with hnone | ⟨r', hr', hfound, _⟩
    · exact absurd hid.symm (hnone r hr)
    · rw [← hrow r' hr' (bySession_some hfound).2.symm]
      exact hfound
  · obtain ⟨r', hr', hs⟩ := serves_of_agreed h (stays (d := d) hb hd)
    rw [← hrow r' hr' hs.session]
    exact hs.found

theorem serves_of_joinable (h : Joinable p d rows containers)
    (hb : b ∈ (reconcile p d rows containers).containers) : b ∈ containers ∧ ∃ r ∈ rows, Serves p containers r b := by
  rcases comes hb with ⟨hb, hnot⟩ | ⟨b₀, hb₀, hd, hr, _⟩
  · obtain ⟨hrow, hkeep⟩ := not_or.mp hnot
    push Not at hrow hkeep
    obtain ⟨r, hr, hid⟩ := hrow
    obtain ⟨b', hb'⟩ := exists_bySession hb
    rw [← hid] at hb'
    have hsame : b' = b := h.single r hr b' (bySession_some hb').1 b hb (bySession_some hb').2 hid.symm
    subst hsame
    have hk : p.keeps b' = true := by simpa using hkeep r hr hb'
    exact ⟨hb, r, hr, hid, h.named r hr b' hb hid.symm hk, hb', hk⟩
  · have hall : ∀ r ∈ rows, r.sessionId = b₀.sessionId → p.keeps b₀ = false := by
      intro r hr' hid
      rcases hd with hnone | ⟨_, _, _, hk⟩
      · exact absurd hid (hnone r hr')
      · exact hk
    rw [h.removed b₀ hb₀ hall] at hr
    cases hr

theorem row_of_serves (hr : r ∈ rows) (h : Serves p containers r b) :
    r ∈ (reconcile p d rows containers).rows :=
  row_stays hr (.inr ⟨b, h.found, h.keeps⟩)

theorem agreed_of_joinable (h : Joinable p d rows containers) :
    Agreed (reconcile p d rows containers).rows (reconcile p d rows containers).containers := by
  constructor
  · intro b hb
    obtain ⟨_, r, hr, hs⟩ := serves_of_joinable h hb
    exact ⟨r, row_of_serves hr hs, hs.session, hs.handle⟩
  · intro r hr id hid
    rcases row_comes hr with ⟨hr₀, hnone | ⟨b, hb, hk⟩⟩ | ⟨r₀, _, rfl⟩
    · rw [hnone] at hid
      cases hid
    · have hsession := (bySession_some hb).2
      have hnamed := h.named r hr₀ b (bySession_some hb).1 hsession hk
      rw [Option.mem_def, hnamed] at hid
      exact ⟨b, stays (bySession_some hb).1 (not_doomed hr₀ hsession.symm hk), Option.some.inj hid, hsession⟩
    · cases hid

theorem settled_of_agreed (d' : Daemon) (h : Agreed rows containers) (hk : ∀ b ∈ containers, p.keeps b = true) :
    (reconcile p d' rows containers).rows = rows ∧ (reconcile p d' rows containers).containers = containers := by
  have hstop : rows.rows.filter (stops p containers.rows) = [] := by
    refine List.filter_eq_nil_iff.mpr fun r hr hs => ?_
    obtain ⟨hsome, hnone⟩ := Bool.and_eq_true_iff.mp hs
    obtain ⟨id, hid⟩ := Option.isSome_iff_exists.mp hsome
    obtain ⟨b, hb, _, hsession⟩ := h.there r hr id hid
    obtain ⟨b', hb'⟩ := exists_bySession hb
    rw [hsession] at hb'
    simp [hb', hk b' (bySession_some hb').1] at hnone
  have hvictim : rows.rows.filterMap (victim p containers.rows) = [] := by
    refine List.filterMap_eq_nil_iff.mpr fun r _ => ?_
    cases hb : bySession containers.rows r.sessionId with
    | none => simp [victim, hb]
    | some b => simp [victim, hb, hk b (bySession_some hb).1]
  have horphan : orphans rows.rows containers.rows = [] := by
    refine List.map_eq_nil_iff.mpr (List.filter_eq_nil_iff.mpr fun b hb hnot => ?_)
    obtain ⟨r, hr, hid, _⟩ := h.named b hb
    exact of_decide_eq_true hnot (List.mem_map.mpr ⟨r, hr, hid⟩)
  rw [reconcile_rows, reconcile_containers, hstop, hvictim, horphan]
  exact ⟨rfl, rfl⟩

end ReconcileAux

/-- A pass over any rows and any containers reaches agreement if and only if the two stores can be joined by session. -/
theorem reconciles_iff (p : Posture) (d : Daemon) (rows : Sessions) (containers : Containers) :
    Reconciles p d rows containers ↔ Joinable p d rows containers := by
  constructor
  · intro h
    have hfound := fun {r b} => found_of_agreed (r := r) (b := b) h.agreed
    refine ⟨?_, ?_, ?_⟩
    · intro r hr b hb b' hb' hid hid'
      have hb₁ := hfound hr hb hid
      rw [hfound hr hb' hid'] at hb₁
      exact (Option.some.inj hb₁).symm
    · intro r hr b hb hid hk
      obtain ⟨r', hr', hs⟩ := serves_of_agreed h.agreed (stays (d := d) hb (not_doomed hr hid.symm hk))
      have hrow : r' = r := Table.eq_of_key hr' hr (hs.session.trans hid)
      rw [← hrow]
      exact hs.handle
    · intro b hb hnot
      by_contra hr
      have hd : Doomed p rows containers b := by
        by_cases hrow : ∃ r ∈ rows, r.sessionId = b.sessionId
        · obtain ⟨r, hr', hid⟩ := hrow
          exact .inr ⟨r, hr', hfound hr' hb hid.symm, hnot r hr' hid⟩
        · push Not at hrow
          exact .inl hrow
      obtain ⟨r, hr', hs⟩ := serves_of_agreed h.agreed (left_stays (d := d) hb hd (by simpa using hr))
      have hsame : d.left b = b := Table.eq_of_key (bySession_some hs.found).1 hb (d.left_handle b)
      have hk := hs.keeps
      rw [hsame, hnot r hr' (hs.session.trans (d.left_sessionId b))] at hk
      cases hk
  · intro h
    have hagreed := agreed_of_joinable h
    refine ⟨hagreed, fun r hr => row_kept hr, ?_, ?_⟩
    · intro b _ hnone b' hb' hh
      obtain ⟨_, r, hr, hs⟩ := serves_of_joinable h hb'
      refine hnone r (row_of_serves hr hs) ?_
      rw [hs.handle, hh]
    · intro d'
      refine settled_of_agreed d' hagreed fun b hb => ?_
      obtain ⟨_, _, _, hs⟩ := serves_of_joinable h hb
      exact hs.keeps

namespace ReconcileRun

/-- A session whose row names no container. -/
def bare : SessionRow where
  sessionId := "s1"
  userId := "u1"
  handle := none
  networkMode := "none"
  mounts := []
  lastActivity := 0
  createdAt := 0
  busySince := none
  busyUntil := none

def live (handle : String) : Container where
  handle := handle
  sessionId := "s1"
  userId := "u1"
  spec := none
  networkMode := some "none"
  running := true

/-- Every container is built as it would be today. -/
def anyPosture : Posture := ⟨none, none⟩

/-- The daemon removes what it is asked to remove. -/
def obeying : Daemon := ⟨fun _ => true, fun _ => true⟩

def rowsOf (r : SessionRow) : Sessions := ⟨[r], by simp⟩

/-- One container of the session. -/
def one : Containers := ⟨[live "c1"], by decide⟩

/-- Two containers of the session. -/
def two : Containers := ⟨[live "c1", live "c2"], by decide⟩

end ReconcileRun

open ReconcileRun

/-- A running container of a session whose row names none is left running and unnamed, and of two containers of one session
the first listed is: neither kept for the row nor destroyed. -/
theorem reconciles_false :
    ¬Reconciles anyPosture obeying (rowsOf bare) one ∧
      ¬Reconciles anyPosture obeying (rowsOf { bare with handle := some "c2" }) two := by
  have hunnamed : ∀ r ∈ (reconcile anyPosture obeying (rowsOf bare) one).rows, r.handle ≠ some "c1" := by decide
  have hsecond : ∀ r ∈ (reconcile anyPosture obeying (rowsOf { bare with handle := some "c2" }) two).rows,
      r.handle ≠ some "c1" := by decide
  constructor
  · intro h
    obtain ⟨r, hr, _, hh⟩ := h.agreed.named (ReconcileRun.live "c1") (by decide)
    exact hunnamed r hr hh
  · intro h
    obtain ⟨r, hr, _, hh⟩ := h.agreed.named (ReconcileRun.live "c1") (by decide)
    exact hsecond r hr hh

end Capka.Sandbox

import Mathlib
import Capka.Lib.Table

/-!
# Sandbox sessions and their containers

A session row stands for a workspace; its `handle` names the container that serves it and is null while there is none. The
containers live in the backend, a store of its own that the row's handle only points into: a row may name a container that is gone,
and a container may have no row. The backend swallows the errors of a removal, so a container it failed to remove is still there.
-/

namespace Capka.Sandbox

/-- A host folder attached to a session. -/
structure Mount where
  hostPath : String
  name : String
  ro : Bool
  deriving DecidableEq, Repr

/-- A row of `sandbox_sessions`. -/
structure SessionRow where
  sessionId : String
  userId : String
  handle : Option String
  networkMode : String
  mounts : List Mount
  lastActivity : Nat
  createdAt : Nat
  busySince : Option Nat
  busyUntil : Option Nat
  deriving DecidableEq, Repr

/-- The row after its compute was reclaimed: the workspace stays, no container serves it. -/
def SessionRow.stopped (r : SessionRow) : SessionRow := { r with handle := none }

@[simp] theorem SessionRow.stopped_sessionId (r : SessionRow) : r.stopped.sessionId = r.sessionId := rfl

@[simp] theorem SessionRow.stopped_handle (r : SessionRow) : r.stopped.handle = none := rfl

/-- A container as the backend lists it, with the labels it was created under. -/
structure Container where
  handle : String
  sessionId : String
  userId : String
  spec : Option String
  networkMode : Option String
  running : Bool
  deriving DecidableEq, Repr

/-- The container after its processes ended. -/
def Container.halted (b : Container) : Container := { b with running := false }

@[simp] theorem Container.halted_handle (b : Container) : b.halted.handle = b.handle := rfl

@[simp] theorem Container.halted_sessionId (b : Container) : b.halted.sessionId = b.sessionId := rfl

/-- The rows, by session. -/
abbrev Sessions := Table SessionRow SessionRow.sessionId

/-- The containers, by their ids. -/
abbrev Containers := Table Container Container.handle

/-- Reclaim a session's compute: its row no longer names a container. -/
def setStopped (sessionId : String) (rows : Sessions) : Sessions :=
  rows.modify sessionId SessionRow.stopped fun _ => rfl

theorem mem_setStopped {id : String} {T : Sessions} {r : SessionRow} :
    r ∈ setStopped id T ↔ (∃ r₀ ∈ T, r₀.sessionId = id ∧ r = r₀.stopped) ∨ (r ∈ T ∧ r.sessionId ≠ id) :=
  Table.mem_modify

/-- What the container daemon does when asked to remove a container: it may fail to, and may still have stopped it. -/
structure Daemon where
  removes : String → Bool
  stops : String → Bool

/-- What is left of a container that could not be removed. -/
def Daemon.left (d : Daemon) (b : Container) : Container := if d.stops b.handle then b.halted else b

@[simp] theorem Daemon.left_handle (d : Daemon) (b : Container) : (d.left b).handle = b.handle := by
  unfold Daemon.left
  split <;> rfl

@[simp] theorem Daemon.left_sessionId (d : Daemon) (b : Container) : (d.left b).sessionId = b.sessionId := by
  unfold Daemon.left
  split <;> rfl

@[simp] theorem Daemon.left_left (d : Daemon) (b : Container) : d.left (d.left b) = d.left b := by
  by_cases h : d.stops b.handle = true
  · simp [Daemon.left, h, Container.halted]
  · simp [Daemon.left, h]

/-- Destroy a container: stop it, then remove it, the errors of both ignored. -/
def destroy (d : Daemon) (handle : String) (containers : Containers) : Containers :=
  if d.removes handle then containers.erase handle else containers.modify handle d.left d.left_handle

theorem mem_destroy {d : Daemon} {h : String} {T : Containers} {b : Container} :
    b ∈ destroy d h T ↔ (b ∈ T ∧ b.handle ≠ h) ∨ (d.removes h = false ∧ ∃ b₀ ∈ T, b₀.handle = h ∧ b = d.left b₀) := by
  unfold destroy
  split
  · rename_i hr
    rw [Table.mem_erase]
    simp [hr]
  · rename_i hr
    rw [Table.mem_modify, or_comm]
    simp [hr]

/-- Destroy several containers, one after the other. -/
def destroyAll (d : Daemon) (handles : List String) (containers : Containers) : Containers :=
  handles.foldl (fun T h => destroy d h T) containers

theorem mem_destroyAll {d : Daemon} {hs : List String} {T : Containers} {b : Container} :
    b ∈ destroyAll d hs T ↔
      (b ∈ T ∧ b.handle ∉ hs) ∨ (b.handle ∈ hs ∧ d.removes b.handle = false ∧ ∃ b₀ ∈ T, b = d.left b₀) := by
  induction hs generalizing T with
  | nil => simp [destroyAll]
  | cons h hs ih =>
    have hcons : destroyAll d (h :: hs) T = destroyAll d hs (destroy d h T) := rfl
    rw [hcons, ih]
    simp only [mem_destroy, List.mem_cons, not_or]
    constructor
    · rintro (⟨⟨hb, hne⟩ | ⟨hr, b₀, hb₀, hh, rfl⟩, hnot⟩ | ⟨hin, hr, b₀, ⟨hb₀, hne⟩ | ⟨hr', b₁, hb₁, hh, rfl⟩, rfl⟩)
      · exact .inl ⟨hb, hne, hnot⟩
      · subst hh
        exact .inr ⟨.inl (d.left_handle b₀), by rw [d.left_handle]; exact hr, b₀, hb₀, rfl⟩
      · exact .inr ⟨.inr hin, hr, b₀, hb₀, rfl⟩
      · exact .inr ⟨.inr hin, hr, b₁, hb₁, d.left_left b₁⟩
    · rintro (⟨hb, hne, hnot⟩ | ⟨hin, hr, b₀, hb₀, rfl⟩)
      · exact .inl ⟨.inl ⟨hb, hne⟩, hnot⟩
      · rw [d.left_handle] at hin hr
        by_cases hh : b₀.handle = h
        · subst hh
          by_cases htl : b₀.handle ∈ hs
          · exact .inr ⟨by rwa [d.left_handle], by rwa [d.left_handle], d.left b₀, .inr ⟨hr, b₀, hb₀, rfl, rfl⟩, (d.left_left b₀).symm⟩
          · exact .inl ⟨.inr ⟨hr, b₀, hb₀, rfl, rfl⟩, by rwa [d.left_handle]⟩
        · have htl : b₀.handle ∈ hs := hin.resolve_left hh
          exact .inr ⟨by rwa [d.left_handle], by rwa [d.left_handle], b₀, .inl ⟨hb₀, hh⟩, rfl⟩

/-- Stop several sessions. -/
def stopAll (ids : List String) (rows : Sessions) : Sessions :=
  ids.foldl (fun T id => setStopped id T) rows

theorem mem_stopAll {ids : List String} {T : Sessions} {r : SessionRow} :
    r ∈ stopAll ids T ↔ (r ∈ T ∧ r.sessionId ∉ ids) ∨ (r.sessionId ∈ ids ∧ ∃ r₀ ∈ T, r = r₀.stopped) := by
  induction ids generalizing T with
  | nil => simp [stopAll]
  | cons id ids ih =>
    have hcons : stopAll (id :: ids) T = stopAll ids (setStopped id T) := rfl
    rw [hcons, ih]
    simp only [mem_setStopped, List.mem_cons, not_or]
    constructor
    · rintro (⟨⟨r₀, hr₀, rfl, rfl⟩ | ⟨hr, hne⟩, hnot⟩ | ⟨hin, r₀, ⟨r₁, hr₁, _, rfl⟩ | ⟨hr₀, _⟩, rfl⟩)
      · exact .inr ⟨.inl rfl, r₀, hr₀, rfl⟩
      · exact .inl ⟨hr, hne, hnot⟩
      · exact .inr ⟨.inr hin, r₁, hr₁, rfl⟩
      · exact .inr ⟨.inr hin, r₀, hr₀, rfl⟩
    · rintro (⟨hr, hne, hnot⟩ | ⟨hin, r₀, hr₀, rfl⟩)
      · exact .inl ⟨.inr ⟨hr, hne⟩, hnot⟩
      · by_cases htl : r₀.sessionId ∈ ids
        · by_cases hid : r₀.sessionId = id
          · exact .inr ⟨htl, r₀.stopped, .inl ⟨r₀, hr₀, hid, rfl⟩, rfl⟩
          · exact .inr ⟨htl, r₀, .inr ⟨hr₀, hid⟩, rfl⟩
        · exact .inl ⟨.inl ⟨r₀, hr₀, hin.resolve_right htl, rfl⟩, htl⟩

end Capka.Sandbox

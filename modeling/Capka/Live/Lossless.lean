import Mathlib
import Capka.Lib.Steps
import Capka.Live.Copy

/-!
# What the pacer hands on

The pacer receives deltas, and the other events of the stream in between; it hands on pieces of text and those events. Whatever the
ticks afford, the characters and the events leave it in the order they came in (`released_eq_received`), and no piece of a
well-formed text begins or ends inside a surrogate pair.
-/

namespace Capka

namespace Live

/-! ## UTF-16 -/

/-- The white space of a JavaScript regular expression. -/
def isSpace (u : UInt16) : Bool :=
  (0x9 ≤ u && u ≤ 0xd) || u == 0x20 || u == 0xa0 || u == 0x1680 || (0x2000 ≤ u && u ≤ 0x200a) || u == 0x2028 || u == 0x2029 ||
    u == 0x202f || u == 0x205f || u == 0x3000 || u == 0xfeff

def isHighSurrogate (u : UInt16) : Bool := 0xd800 ≤ u && u ≤ 0xdbff

def isLowSurrogate (u : UInt16) : Bool := 0xdc00 ≤ u && u ≤ 0xdfff

/-- The characters the pacer works on. -/
def codeUnits : Letters UInt16 where
  isSpace := isSpace
  isHighSurrogate := isHighSurrogate

/-- A text without a lone surrogate. -/
def WellFormed : List UInt16 → Bool
  | [] => true
  | [u] => !isHighSurrogate u && !isLowSurrogate u
  | u :: v :: rest =>
    if isHighSurrogate u then isLowSurrogate v && WellFormed rest else !isLowSurrogate u && WellFormed (v :: rest)

theorem not_high_of_low {u : UInt16} (h : isLowSurrogate u = true) : isHighSurrogate u = false := by
  simp only [isLowSurrogate, Bool.and_eq_true, decide_eq_true_eq] at h
  simp only [isHighSurrogate, Bool.and_eq_false_iff, decide_eq_false_iff_not]
  refine .inr fun hle => ?_
  have h₁ := UInt16.le_iff_toNat_le.mp h.1
  have h₂ := UInt16.le_iff_toNat_le.mp hle
  simp at h₁ h₂
  omega

theorem wellFormed_cons {u : UInt16} (hh : isHighSurrogate u = false) (hl : isLowSurrogate u = false) (s : List UInt16) :
    WellFormed (u :: s) = WellFormed s := by
  cases s with
  | nil => simp [WellFormed, hh, hl]
  | cons v rest => simp [WellFormed, hh, hl]

theorem wellFormed_append {a b : List UInt16} (ha : WellFormed a = true) (hb : WellFormed b = true) : WellFormed (a ++ b) = true := by
  induction a using WellFormed.induct with
  | case1 => exact hb
  | case2 u =>
    simp only [WellFormed, Bool.and_eq_true, Bool.not_eq_true'] at ha
    rw [List.singleton_append, wellFormed_cons ha.1 ha.2]
    exact hb
  | case3 u v rest hh ih =>
    rw [WellFormed, if_pos hh, Bool.and_eq_true] at ha
    rw [List.cons_append, List.cons_append, WellFormed, if_pos hh, ha.1, Bool.true_and]
    exact ih ha.2
  | case4 u v rest hh ih =>
    rw [WellFormed, if_neg hh, Bool.and_eq_true] at ha
    rw [List.cons_append, List.cons_append, WellFormed, if_neg hh, ha.1, Bool.true_and]
    exact ih ha.2

theorem low_after_high {s : List UInt16} (hs : WellFormed s = true) {i : Nat} {u : UInt16} (hi : s[i]? = some u)
    (hu : isHighSurrogate u = true) : ∃ v, s[i + 1]? = some v ∧ isLowSurrogate v = true := by
  induction s using WellFormed.induct generalizing i with
  | case1 => simp at hi
  | case2 w =>
    cases i with
    | zero =>
      cases hi
      simp [WellFormed, hu] at hs
    | succ i => simp at hi
  | case3 w v rest hh ih =>
    rw [WellFormed, if_pos hh, Bool.and_eq_true] at hs
    match i with
    | 0 => exact ⟨v, rfl, hs.1⟩
    | 1 =>
      cases hi
      rw [not_high_of_low hs.1] at hu
      cases hu
    | i + 2 => exact ih hs.2 hi
  | case4 w v rest hh ih =>
    rw [WellFormed, if_neg hh, Bool.and_eq_true] at hs
    cases i with
    | zero =>
      cases hi
      exact absurd hu hh
    | succ i => exact ih hs.2 hi

theorem wellFormed_cut {s : List UInt16} (hs : WellFormed s = true) {n : Nat}
    (hn : ∀ u, 0 < n → s[n - 1]? = some u → isHighSurrogate u = false) :
    WellFormed (s.take n) = true ∧ WellFormed (s.drop n) = true := by
  induction s using WellFormed.induct generalizing n with
  | case1 => simp [WellFormed]
  | case2 u =>
    cases n with
    | zero => exact ⟨rfl, hs⟩
    | succ n => exact ⟨by simpa using hs, by simp [WellFormed]⟩
  | case3 u v rest hh ih =>
    have hs' := hs
    rw [WellFormed, if_pos hh, Bool.and_eq_true] at hs'
    match n with
    | 0 => exact ⟨rfl, hs⟩
    | 1 =>
      have hu := hn u Nat.one_pos rfl
      rw [hh] at hu
      cases hu
    | n + 2 =>
      have hrest := ih hs'.2 (n := n) fun w hpos hw => hn w (Nat.succ_pos _) (by
        rw [← hw]
        cases n with
        | zero => exact absurd hpos (lt_irrefl 0)
        | succ n => rfl)
      refine ⟨?_, hrest.2⟩
      rw [List.take_succ_cons, List.take_succ_cons, WellFormed, if_pos hh, hs'.1, hrest.1]
      rfl
  | case4 u v rest hh ih =>
    have hs' := hs
    rw [WellFormed, if_neg hh, Bool.and_eq_true] at hs'
    cases n with
    | zero => exact ⟨rfl, hs⟩
    | succ n =>
      have hrest := ih hs'.2 (n := n) fun w hpos hw => hn w (Nat.succ_pos _) (by
        rw [← hw]
        cases n with
        | zero => exact absurd hpos (lt_irrefl 0)
        | succ n => rfl)
      refine ⟨?_, hrest.2⟩
      rw [List.take_succ_cons, wellFormed_cons (by simpa using hh) (by simpa using hs'.1)]
      exact hrest.1

/-! ## Where the pacer cuts -/

theorem blank_before_stub {α : Type*} (L : Letters α) (text : List α) (h : 0 < text.length - stubLength L text) :
    ∃ c, text[text.length - stubLength L text - 1]? = some c ∧ L.isSpace c = true := by
  obtain ⟨stub, hstub⟩ : ∃ stub, stub = text.reverse.takeWhile (fun c => !L.isSpace c) := ⟨_, rfl⟩
  obtain ⟨rest, hrest⟩ : ∃ rest, rest = text.reverse.dropWhile (fun c => !L.isSpace c) := ⟨_, rfl⟩
  have hsplit : text.reverse = stub ++ rest := by rw [hstub, hrest, List.takeWhile_append_dropWhile]
  have hlen : stubLength L text = stub.length := by rw [stubLength, hstub]
  have htext : text = rest.reverse ++ stub.reverse := by
    rw [← List.reverse_append, ← hsplit, List.reverse_reverse]
  have htotal : text.length = rest.length + stub.length := by
    have hcount := congrArg List.length htext
    simpa using hcount
  cases hcase : rest with
  | nil =>
    rw [hcase, List.length_nil] at htotal
    omega
  | cons c t =>
    have hc : L.isSpace c = true := by
      have hhead := List.head?_dropWhile_not (fun c => !L.isSpace c) text.reverse
      rw [← hrest, hcase] at hhead
      simpa using hhead
    refine ⟨c, ?_, hc⟩
    have hpos : text.length - stubLength L text - 1 = t.length := by
      rw [hcase, List.length_cons] at htotal
      omega
    rw [hpos, htext, hcase]
    simp

theorem not_high_of_space {u : UInt16} (h : isSpace u = true) : isHighSurrogate u = false := by
  by_contra hh
  simp only [isHighSurrogate, Bool.and_eq_true, decide_eq_true_eq, Bool.not_eq_false, UInt16.le_iff_toNat_le] at hh
  simp only [isSpace, Bool.or_eq_true, Bool.and_eq_true, decide_eq_true_eq, beq_iff_eq, UInt16.le_iff_toNat_le, ← UInt16.toNat_inj] at h
  simp at hh h
  omega

theorem available_wellFormed {s : List UInt16} (hs : WellFormed s = true) (n : Nat) :
    WellFormed (available codeUnits n s) = true ∧ WellFormed (s.drop (available codeUnits n s).length) = true := by
  unfold available
  dsimp only
  generalize stubLength codeUnits s + (if stubLength codeUnits s = s.length then n else 0) = runLen
  split
  · rw [List.length_take, Nat.min_eq_left (Nat.sub_le _ _)]
    refine wellFormed_cut hs fun u hpos hu => ?_
    obtain ⟨c, hc, hspace⟩ := blank_before_stub codeUnits s hpos
    rw [hc] at hu
    cases hu
    exact not_high_of_space hspace
  · rw [List.drop_length]
    exact ⟨hs, rfl⟩

theorem cutAt_eq {α : Type*} (L : Letters α) {s : List α} {budget : Nat} (hpos : 0 < budget) (hlt : budget < s.length) :
    ∃ cut, (cutAt L s budget = match s[cut - 1]? with
        | some c => if cut < s.length && L.isHighSurrogate c then cut + 1 else cut
        | none => cut) ∧ 0 < cut ∧ cut ≤ s.length := by
  unfold cutAt
  dsimp only
  refine ⟨_, rfl, ?_, ?_⟩
  · split
    · rename_i hany
      obtain ⟨c, hc, hspace⟩ := List.any_eq_true.mp hany
      have hstub : stubLength L (s.take budget) < (s.take budget).length := by
        unfold stubLength
        by_contra hge
        have hall := List.takeWhile_eq_self_iff.mp ((List.takeWhile_prefix _).eq_of_length_le (by
          rw [List.length_reverse]
          exact Nat.not_lt.mp hge))
        have hnot := hall c (List.mem_reverse.mpr hc)
        rw [hspace] at hnot
        cases hnot
      omega
    · split
      · omega
      · exact hpos
  · split
    · rw [List.length_take]
      omega
    · split
      · rename_i ws hws
        have hlt' := (List.findIdx?_eq_some_iff_getElem.mp hws).1
        rw [List.length_take, List.length_drop] at hlt'
        omega
      · omega

theorem cutAt_wellFormed {s : List UInt16} (hs : WellFormed s = true) {budget : Nat} (hpos : 0 < budget) (hlt : budget < s.length) :
    WellFormed (s.take (cutAt codeUnits s budget)) = true ∧ WellFormed (s.drop (cutAt codeUnits s budget)) = true := by
  refine wellFormed_cut hs fun u _ hu => ?_
  obtain ⟨cut, heq, hcut, hle⟩ := cutAt_eq codeUnits hpos hlt
  obtain ⟨c, hc⟩ : ∃ c, s[cut - 1]? = some c := ⟨_, List.getElem?_eq_getElem (by omega)⟩
  rw [hc] at heq
  simp only at heq
  split at heq
  · rename_i hhigh
    simp only [Bool.and_eq_true, decide_eq_true_eq] at hhigh
    obtain ⟨v, hv, hlow⟩ := low_after_high hs hc hhigh.2
    rw [Nat.sub_add_cancel hcut] at hv
    rw [heq, Nat.add_sub_cancel, hv] at hu
    cases hu
    exact not_high_of_low hlow
  · rename_i hnot
    rw [heq, hc] at hu
    obtain rfl := Option.some.inj hu
    by_contra hhigh
    have hhigh' : isHighSurrogate c = true := by simpa using hhigh
    have hcode : codeUnits.isHighSurrogate c = true := hhigh'
    obtain ⟨v, hv, _⟩ := low_after_high hs hc hhigh'
    rw [Nat.sub_add_cancel hcut] at hv
    have hlt' : cut < s.length := (List.getElem?_eq_some_iff.mp hv).1
    refine hnot ?_
    rw [hcode, decide_eq_true hlt']
    rfl

/-! ## Runs of the pacer -/

variable {α : Type*}

/-- What passes through the pacer: a piece of text, or an event of another kind. -/
inductive PacerItem (α : Type*)
  | delta (d : Paced α)
  | other (event : Nat)
  deriving Repr, DecidableEq

/-- The pacer with all it has been given and all it has handed on. -/
structure PacerRun (α : Type*) where
  pacer : Pacer α
  received : List (PacerItem α)
  applied : List (PacerItem α)

/-- What happens to a pacer: a delta arrives; a tick, with the characters it affords; a flush; an event of another kind, which
flushes first. Holding a stub back is part of a tick. -/
inductive PacerAct (α : Type*)
  | enqueue (d : Paced α)
  | tick (chars : Nat)
  | flush
  | other (event : Nat)

namespace PacerRun

/-- A pacer nothing was given to. -/
def idle : PacerRun α where
  pacer := { queue := [], held := false, runSinceWs := 0, timer := false }
  received := []
  applied := []

/-- `tick`: a stub held back waits for its continuation, not for a tick. -/
def tick (L : Letters α) (chars : Nat) (s : PacerRun α) : PacerRun α :=
  let r := release L s.pacer.queue chars s.pacer.runSinceWs
  { s with
    pacer := { queue := r.queue, held := r.held, runSinceWs := r.runSinceWs, timer := !r.queue.isEmpty && !r.held }
    applied := s.applied ++ r.shown.map .delta }

/-- `flush`: the whole backlog is handed on. -/
def flush (L : Letters α) (s : PacerRun α) : PacerRun α :=
  { s with
    pacer :=
      { queue := []
        held := false
        runSinceWs := s.pacer.queue.foldl (fun n d => note L d.delta n) s.pacer.runSinceWs
        timer := false }
    applied := s.applied ++ s.pacer.queue.map .delta }

/-- One event. A tick comes while the timer is armed and affords at least one character. -/
def step (L : Letters α) (s : PacerRun α) : PacerAct α → Option (PacerRun α)
  | .enqueue d => some { s with pacer := s.pacer.enqueue d, received := s.received ++ [.delta d] }
  | .tick chars => if s.pacer.timer = true ∧ 0 < chars then some (tick L chars s) else none
  | .flush => some (flush L s)
  | .other event =>
    some { flush L s with received := s.received ++ [.other event], applied := (flush L s).applied ++ [.other event] }

end PacerRun

/-- The part a delta belongs to. -/
def Paced.part (d : Paced α) : Nat × Nat × RunType := (d.messageId, d.taskId, d.type)

theorem Paced.sameKind_iff {a b : Paced α} : a.sameKind b = true ↔ a.part = b.part := by
  simp [Paced.sameKind, Paced.part]

/-- What a sequence of pieces and events says, character by character. -/
inductive Atom (α : Type*)
  | char (part : Nat × Nat × RunType) (c : α)
  | event (id : Nat)
  deriving Repr, DecidableEq

def Paced.atoms (d : Paced α) : List (Atom α) := d.delta.map (.char d.part)

def PacerItem.atoms : PacerItem α → List (Atom α)
  | .delta d => d.atoms
  | .other event => [.event event]

/-- The characters a queue or a transcript holds, and the events between them. -/
def atomsOf (items : List (PacerItem α)) : List (Atom α) := items.flatMap PacerItem.atoms

@[simp] theorem atomsOf_append (a b : List (PacerItem α)) : atomsOf (a ++ b) = atomsOf a ++ atomsOf b := List.flatMap_append

/-- The characters of a queue. -/
def queued (q : List (Paced α)) : List (Atom α) := q.flatMap Paced.atoms

@[simp] theorem queued_append (a b : List (Paced α)) : queued (a ++ b) = queued a ++ queued b := List.flatMap_append

@[simp] theorem atomsOf_map_delta (q : List (Paced α)) : atomsOf (q.map .delta) = queued q := by
  simp only [atomsOf, queued, List.flatMap_map]
  rfl

theorem atoms_cut (d : Paced α) {a b : List α} (h : a ++ b = d.delta) :
    ({ d with delta := a } : Paced α).atoms ++ ({ d with delta := b } : Paced α).atoms = d.atoms := by
  simp only [Paced.atoms, Paced.part, ← h, List.map_append]

/-- A delta put at the end of the queue says its characters after the others. -/
theorem queued_enqueueTo (event : Paced α) (q : List (Paced α)) : queued (enqueueTo event q) = queued q ++ event.atoms := by
  induction q with
  | nil => simp [enqueueTo, queued]
  | cons head rest ih =>
    cases rest with
    | cons head' rest' =>
      have hcons : enqueueTo event (head :: head' :: rest') = head :: enqueueTo event (head' :: rest') := rfl
      rw [hcons]
      change head.atoms ++ queued (enqueueTo event (head' :: rest')) = head.atoms ++ queued (head' :: rest') ++ event.atoms
      rw [ih, List.append_assoc]
    | nil =>
      unfold enqueueTo
      split
      · rename_i hsame
        have hpart := Paced.sameKind_iff.mp hsame
        simp only [queued, List.flatMap_cons, List.flatMap_nil, List.append_nil, Paced.atoms, List.map_append]
        rw [← hpart]
        rfl
      · simp [queued]

theorem release_queued (L : Letters α) (q : List (Paced α)) (budget runSinceWs : Nat) :
    queued (release L q budget runSinceWs).shown ++ queued (release L q budget runSinceWs).queue = queued q := by
  induction q generalizing budget runSinceWs with
  | nil => rfl
  | cons head rest ih =>
    unfold release
    have hprefix : (if rest = [] then available L runSinceWs head.delta else head.delta) <+: head.delta := by
      split
      · exact available_prefix L runSinceWs head.delta
      · exact List.prefix_refl _
    split
    · rfl
    · dsimp only
      generalize (if rest = [] then available L runSinceWs head.delta else head.delta) = avail at hprefix ⊢
      split
      · rfl
      · split
        · split
          · have hrest := ih (budget - avail.length) (note L avail runSinceWs)
            simp only [queued, List.flatMap_cons, List.append_assoc] at hrest ⊢
            rw [hrest]
          · have hcut := atoms_cut head (prefix_append_drop hprefix)
            simp only [queued, List.flatMap_cons, List.flatMap_nil, List.append_nil, ← List.append_assoc, hcut]
        · rename_i hlong
          have hcut := atoms_cut head ( take_append_drop_of_prefix hprefix (cutAt_le L (Nat.not_le.mp hlong)))
          simp only [queued, List.flatMap_cons, List.flatMap_nil, List.append_nil, ← List.append_assoc, hcut]

/-- Every delta of a queue is well formed. -/
def Sound (q : List (Paced UInt16)) : Prop := ∀ d ∈ q, WellFormed d.delta = true

theorem sound_enqueueTo {event : Paced UInt16} {q : List (Paced UInt16)} (hq : Sound q) (he : WellFormed event.delta = true) :
    Sound (enqueueTo event q) := by
  induction q with
  | nil => simpa [enqueueTo, Sound] using he
  | cons head rest ih =>
    cases rest with
    | cons head' rest' =>
      intro d hd
      rcases List.mem_cons.mp hd with rfl | hd
      · exact hq d List.mem_cons_self
      · exact ih (fun d' hd' => hq d' (List.mem_cons_of_mem _ hd')) d hd
    | nil =>
      have hhead := hq head List.mem_cons_self
      unfold enqueueTo
      split
      · intro d hd
        rw [List.mem_singleton.mp hd]
        exact wellFormed_append hhead he
      · intro d hd
        rcases List.mem_cons.mp hd with rfl | hd
        · exact hhead
        · rw [List.mem_singleton.mp hd]
          exact he

/-- A release cuts between characters: the pieces it shows, and what it leaves, are well formed. -/
theorem release_sound {q : List (Paced UInt16)} (hq : Sound q) (budget runSinceWs : Nat) :
    Sound (release codeUnits q budget runSinceWs).shown ∧ Sound (release codeUnits q budget runSinceWs).queue := by
  have hnil : Sound [] := fun _ hd => by cases hd
  induction q generalizing budget runSinceWs with
  | nil => exact ⟨hnil, hnil⟩
  | cons head rest ih =>
    have hhead := hq head List.mem_cons_self
    have hrest : Sound rest := fun d hd => hq d (List.mem_cons_of_mem _ hd)
    have hpair : ∀ {a b : List UInt16}, WellFormed a = true → WellFormed b = true →
        Sound [{ head with delta := a }] ∧ Sound ({ head with delta := b } :: rest) := by
      intro a b ha hb
      refine ⟨fun d hd => ?_, fun d hd => ?_⟩
      · rw [List.mem_singleton.mp hd]
        exact ha
      · rcases List.mem_cons.mp hd with rfl | hd
        · exact hb
        · exact hrest d hd
    have havail : WellFormed (if rest = [] then available codeUnits runSinceWs head.delta else head.delta) = true ∧
        WellFormed (head.delta.drop (if rest = [] then available codeUnits runSinceWs head.delta else head.delta).length) = true := by
      split
      · exact available_wellFormed hhead runSinceWs
      · rw [List.drop_length]
        exact ⟨hhead, rfl⟩
    have hprefix : (if rest = [] then available codeUnits runSinceWs head.delta else head.delta) <+: head.delta := by
      split
      · exact available_prefix codeUnits runSinceWs head.delta
      · exact List.prefix_refl _
    unfold release
    split
    · exact ⟨hnil, hq⟩
    · rename_i hpos
      dsimp only
      generalize (if rest = [] then available codeUnits runSinceWs head.delta else head.delta) = avail at havail hprefix ⊢
      split
      · exact ⟨hnil, hq⟩
      · split
        · split
          · obtain ⟨hshown, hqueue⟩ := ih hrest (budget - avail.length) (note codeUnits avail runSinceWs)
            refine ⟨fun d hd => ?_, hqueue⟩
            rcases List.mem_cons.mp hd with rfl | hd
            · exact hhead
            · exact hshown d hd
          · exact hpair havail.1 havail.2
        · rename_i hlong
          obtain ⟨htake, hdrop⟩ := cutAt_wellFormed havail.1 (Nat.pos_of_ne_zero hpos) (Nat.not_le.mp hlong)
          refine hpair htake ?_
          -- what follows the cut: the rest of what may be shown, and the stub held back
          have hsplit : head.delta.drop (cutAt codeUnits avail budget) =
              avail.drop (cutAt codeUnits avail budget) ++ head.delta.drop avail.length := by
            obtain ⟨stub, hstub⟩ := hprefix
            rw [← hstub, List.drop_append_of_le_length (cutAt_le codeUnits (Nat.not_le.mp hlong)), List.drop_left]
          rw [hsplit]
          exact wellFormed_append hdrop havail.2

namespace PacerRun

/-- The characters handed on and those still queued are the characters received, and so are the events between them. -/
theorem applied_queued {L : Letters α} {s : PacerRun α} (h : Steps.Reaches (step L) Steps.Free idle s) :
    atomsOf s.applied ++ queued s.pacer.queue = atomsOf s.received := by
  refine h.invariant (I := fun s : PacerRun α => atomsOf s.applied ++ queued s.pacer.queue = atomsOf s.received) ?_ rfl
  intro x a y hx _ hy
  have hflush : atomsOf (flush L x).applied = atomsOf x.received := by
    rw [← hx, flush, atomsOf_append, atomsOf_map_delta]
  cases a with
  | enqueue d =>
    cases hy
    rw [Pacer.enqueue, queued_enqueueTo, ← List.append_assoc, hx, atomsOf_append]
    simp [atomsOf, PacerItem.atoms]
  | tick chars =>
    simp only [step] at hy
    split at hy
    · cases hy
      rw [tick, atomsOf_append, atomsOf_map_delta, List.append_assoc, release_queued]
      exact hx
    · cases hy
  | flush =>
    cases hy
    rw [hflush]
    simp [flush, queued]
  | other event =>
    cases hy
    rw [atomsOf_append, atomsOf_append, hflush]
    simp [flush, queued]

/-- Every delta given to the pacer is a well-formed text. -/
def WellFed (s : PacerRun UInt16) : Prop := ∀ d, .delta d ∈ s.received → WellFormed d.delta = true

theorem applied_wellFormed {s : PacerRun UInt16} (h : Steps.Reaches (step codeUnits) Steps.Free idle s) (hs : WellFed s) :
    (∀ d, .delta d ∈ s.applied → WellFormed d.delta = true) ∧ Sound s.pacer.queue := by
  have hinv : WellFed s → (∀ d, .delta d ∈ s.applied → WellFormed d.delta = true) ∧ Sound s.pacer.queue := by
    refine h.invariant (I := fun s : PacerRun UInt16 => WellFed s →
      (∀ d, .delta d ∈ s.applied → WellFormed d.delta = true) ∧ Sound s.pacer.queue) ?_ ?_
    · intro x a y hx _ hy hfed
      have hshow : ∀ {shown : List (Paced UInt16)}, Sound shown → (∀ d, .delta d ∈ x.applied → WellFormed d.delta = true) →
          ∀ d, .delta d ∈ x.applied ++ shown.map .delta → WellFormed d.delta = true := by
        intro shown hshown happlied d hd
        rcases List.mem_append.mp hd with hd | hd
        · exact happlied d hd
        · obtain ⟨d', hd', heq⟩ := List.mem_map.mp hd
          cases heq
          exact hshown d hd'
      have hnil : Sound [] := fun _ hd => by cases hd
      cases a with
      | enqueue d =>
        cases hy
        obtain ⟨happlied, hqueue⟩ := hx fun d' hd' => hfed d' (List.mem_append_left _ hd')
        exact ⟨happlied, sound_enqueueTo hqueue (hfed d (List.mem_append_right _ List.mem_cons_self))⟩
      | tick chars =>
        simp only [step] at hy
        split at hy
        · cases hy
          obtain ⟨happlied, hqueue⟩ := hx hfed
          obtain ⟨hshown, hleft⟩ := release_sound hqueue chars x.pacer.runSinceWs
          exact ⟨hshow hshown happlied, hleft⟩
        · cases hy
      | flush =>
        cases hy
        obtain ⟨happlied, hqueue⟩ := hx hfed
        exact ⟨hshow hqueue happlied, hnil⟩
      | other event =>
        cases hy
        obtain ⟨happlied, hqueue⟩ := hx fun d' hd' => hfed d' (List.mem_append_left _ hd')
        refine ⟨fun d hd => ?_, hnil⟩
        rcases List.mem_append.mp hd with hd | hd
        · exact hshow hqueue happlied d hd
        · cases List.mem_singleton.mp hd
    · intro _
      refine ⟨fun d hd => ?_, fun d hd => ?_⟩
      · cases hd
      · cases hd
  exact hinv hs

end PacerRun

/-! ## Nothing lost, nothing moved -/

/-- The text of one part in a sequence of pieces and events. -/
def textOf (part : Nat × Nat × RunType) (items : List (PacerItem α)) : List α :=
  items.flatMap fun
    | .delta d => if d.part = part then d.delta else []
    | .other _ => []

/-- The events in a sequence of pieces and events. -/
def eventsOf (items : List (PacerItem α)) : List Nat :=
  items.filterMap fun
    | .delta _ => none
    | .other event => some event

/-- The character, when it belongs to the part. -/
def Atom.charOf (part : Nat × Nat × RunType) : Atom α → Option α
  | .char part' c => if part' = part then some c else none
  | .event _ => none

def Atom.eventOf : Atom α → Option Nat
  | .char _ _ => none
  | .event id => some id

theorem textOf_eq (part : Nat × Nat × RunType) (items : List (PacerItem α)) :
    textOf part items = (atomsOf items).filterMap (Atom.charOf part) := by
  induction items with
  | nil => rfl
  | cons item items ih =>
    have hcons : textOf part (item :: items) = textOf part [item] ++ textOf part items := by simp [textOf]
    have hitem : textOf part [item] = item.atoms.filterMap (Atom.charOf part) := by
      cases item with
      | other event => rfl
      | delta d =>
        by_cases hp : d.part = part
        · simp [textOf, PacerItem.atoms, Paced.atoms, List.filterMap_map, Function.comp_def, Atom.charOf, hp]
        · simp [textOf, PacerItem.atoms, Paced.atoms, List.filterMap_map, Function.comp_def, Atom.charOf, hp]
    have hatoms : atomsOf (item :: items) = item.atoms ++ atomsOf items := rfl
    rw [hcons, hitem, ih, hatoms, List.filterMap_append]

theorem eventsOf_eq (items : List (PacerItem α)) : eventsOf items = (atomsOf items).filterMap Atom.eventOf := by
  induction items with
  | nil => rfl
  | cons item items ih =>
    cases item with
    | other event => simpa [eventsOf, atomsOf, PacerItem.atoms, Atom.eventOf] using ih
    | delta d =>
      simpa [eventsOf, atomsOf, PacerItem.atoms, Paced.atoms, List.filterMap_map, Function.comp_def, Atom.eventOf] using ih

theorem exists_split {items : List (PacerItem α)} {x y : List (Atom α)} {event : Nat} (h : atomsOf items = x ++ .event event :: y) :
    ∃ before after, items = before ++ .other event :: after ∧ atomsOf before = x ∧ atomsOf after = y := by
  induction items generalizing x with
  | nil => simp [atomsOf] at h
  | cons item items ih =>
    have hcons : atomsOf (item :: items) = item.atoms ++ atomsOf items := rfl
    rw [hcons] at h
    have hdrop : ∀ {x' : List (Atom α)}, x = item.atoms ++ x' → atomsOf items = x' ++ .event event :: y →
        ∃ before after, item :: items = before ++ .other event :: after ∧ atomsOf before = x ∧ atomsOf after = y := by
      intro x' hx h'
      obtain ⟨before, after, rfl, hb, ha⟩ := ih h'
      exact ⟨item :: before, after, rfl, by rw [hx, ← hb]; rfl, ha⟩
    rcases List.append_eq_append_iff.mp h with ⟨x', hx, h'⟩ | ⟨rest, hitem, h'⟩
    · exact hdrop hx h'
    · cases rest with
      | nil =>
        rw [List.append_nil] at hitem
        exact @hdrop [] (by rw [hitem, List.append_nil]) h'.symm
      | cons a rest =>
        obtain ⟨rfl, hy⟩ := List.cons.inj h'
        cases item with
        | delta d =>
          have hmem : Atom.event event ∈ d.atoms := by
            have hd : d.atoms = x ++ .event event :: rest := hitem
            rw [hd]
            exact List.mem_append_right _ List.mem_cons_self
          obtain ⟨c, _, hc⟩ := List.mem_map.mp hmem
          cases hc
        | other event' =>
          have hsingle : [Atom.event event'] = x ++ .event event :: rest := hitem
          cases x with
          | nil =>
            obtain ⟨hev, hrest⟩ := List.cons.inj hsingle
            cases hev
            rw [← hrest] at hy
            exact ⟨[], items, rfl, rfl, hy.symm⟩
          | cons _ x => simp at hsingle

/-- What the pacer owes its caller. Part by part, what was handed on and what is still queued is what was received; every event was
handed on, with the text of each part before it handed on before it, and the text after it after it or still to come; and where the
deltas received are well formed, so is every piece handed on: none begins or ends inside a surrogate pair. -/
structure Lossless (s : PacerRun UInt16) : Prop where
  text : ∀ part, textOf part s.applied ++ textOf part (s.pacer.queue.map .delta) = textOf part s.received
  events : eventsOf s.applied = eventsOf s.received
  order : ∀ before event after, s.applied = before ++ .other event :: after →
    ∃ before' after', s.received = before' ++ .other event :: after' ∧ eventsOf before = eventsOf before' ∧
      (∀ part, textOf part before = textOf part before') ∧
      ∀ part, textOf part after ++ textOf part (s.pacer.queue.map .delta) = textOf part after'
  pairs : s.WellFed → ∀ d, .delta d ∈ s.applied → WellFormed d.delta = true

/-- Whatever is enqueued, whatever the ticks afford and whenever the pacer is flushed, nothing is lost and nothing is moved. -/
theorem pacer_lossless (s : PacerRun UInt16) :
    Steps.Reaches (PacerRun.step codeUnits) Steps.Free PacerRun.idle s → Lossless s := by
  intro h
  have hatoms := PacerRun.applied_queued h
  rw [← atomsOf_map_delta] at hatoms
  refine ⟨?_, ?_, ?_, fun hs => (PacerRun.applied_wellFormed h hs).1⟩
  · intro part
    rw [textOf_eq, textOf_eq, textOf_eq, ← List.filterMap_append, hatoms]
  · have hqueue : eventsOf (s.pacer.queue.map PacerItem.delta) = [] := by
      simp [eventsOf, List.filterMap_map]
    rw [eventsOf_eq s.received, ← hatoms, List.filterMap_append, ← eventsOf_eq, ← eventsOf_eq, hqueue, List.append_nil]
  · intro before event after happlied
    have hsplit : atomsOf s.received =
        atomsOf before ++ .event event :: (atomsOf after ++ atomsOf (s.pacer.queue.map .delta)) := by
      rw [← hatoms, happlied, atomsOf_append, List.append_assoc]
      rfl
    obtain ⟨before', after', hreceived, hb, ha⟩ := exists_split hsplit
    refine ⟨before', after', hreceived, ?_, ?_, ?_⟩
    · rw [eventsOf_eq, eventsOf_eq, hb]
    · intro part
      rw [textOf_eq, textOf_eq, hb]
    · intro part
      rw [textOf_eq, textOf_eq, textOf_eq, ha, List.filterMap_append]

namespace LosslessRun

/-- A delta of the one part of the run. -/
def delta (seq : Nat) (text : List UInt16) : Paced UInt16 := ⟨0, 0, seq, .text, text⟩

/-- Two deltas that meet inside a word, a tick that affords part of the text, an event, and a delta with a surrogate pair. -/
def acts : List (PacerAct UInt16) :=
  [.enqueue (delta 0 [0x61, 0x20, 0x62]), .enqueue (delta 1 [0x63, 0x20]), .tick 2, .other 7,
    .enqueue (delta 2 [0x61, 0xd83d, 0xde00, 0x62, 0x20]), .tick 2]

end LosslessRun

/-- In a run that glues, cuts and flushes, what was handed on and what is queued is what was received. -/
theorem pacer_lossless_cut :
    ∃ s : PacerRun UInt16, Lossless s ∧ (s.applied.length = 4 ∧ s.received.length = 4) := by
  obtain ⟨s, hs, hlen⟩ := Steps.exists_of_exec (PacerRun.step codeUnits) PacerRun.idle LosslessRun.acts
    (P := fun s : PacerRun UInt16 => s.applied.length = 4 ∧ s.received.length = 4) (by decide)
  exact ⟨s, pacer_lossless s hs, hlen⟩

end Live

end Capka

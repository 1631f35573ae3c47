import Capka.Lib.JsonText
import Capka.Lib.Trim

/-!
# Concatenated tool input

A model that runs several objects together in one tool call gets the first of them. The end of the first is found by counting brackets
outside of strings, and it is where JSON has it: the machine that reads JSON has as many arrays and objects open as the count says.
-/

namespace Capka

namespace ToolRepair

open Ecma

/-- The variables of the scan. -/
structure Scan where
  depth : Nat
  inString : Bool
  escaped : Bool
  deriving DecidableEq

/-- The scan before a value. -/
def Scan.start : Scan where
  depth := 0
  inString := false
  escaped := false

/-- One turn of the loop, and whether the value ends here. -/
def Scan.next (s : Scan) (u : UInt16) : Scan × Bool :=
  if s.inString then
    if s.escaped then ({ s with escaped := false }, false)
    else if u = 0x5c then ({ s with escaped := true }, false)
    else if u = 0x22 then ({ s with inString := false }, false)
    else (s, false)
  else if u = 0x22 then ({ s with inString := true }, false)
  else if u = 0x7b || u = 0x5b then ({ s with depth := s.depth + 1 }, false)
  else if u = 0x7d || u = 0x5d then ({ s with depth := s.depth - 1 }, s.depth - 1 = 0)
  else (s, false)

/-- The loop: how many units there are up to the end of the value. -/
def Scan.loop (s : Scan) : Units → Option Nat
  | [] => none
  | u :: rest => if (s.next u).2 then some 1 else ((s.next u).1.loop rest).map (· + 1)

/-- `firstJsonValue`: the value, and where it ends. -/
def firstJsonValue (N : Numbers) (text : Units) : Option (Value × Nat) :=
  let start := (text.takeWhile isSpace).length
  let body := text.dropWhile isSpace
  if body.head? = some 0x7b ∨ body.head? = some 0x5b then
    match Scan.start.loop body with
    | none => none
    | some n => (parse N (body.take n)).map fun v => (v, start + n)
  else none

variable {text : Units} {n : Nat}

theorem loop_spec {s : Scan} (h : s.loop text = some n) :
    0 < n ∧ n ≤ text.length ∧ ((text.take n).getLast? = some 0x7d ∨ (text.take n).getLast? = some 0x5d) := by
  induction text generalizing s n with
  | nil => cases h
  | cons u rest ih =>
    rw [Scan.loop] at h
    split at h
    · rename_i hend
      obtain rfl := Option.some.inj h
      refine ⟨Nat.one_pos, Nat.succ_le_succ (Nat.zero_le _), ?_⟩
      unfold Scan.next at hend
      split_ifs at hend with _ _ _ _ _ _ hclose
      rw [List.take_succ_cons, List.take_zero, List.getLast?_singleton, Option.some.injEq, Option.some.injEq]
      simpa using hclose
    · obtain ⟨m, hm, rfl⟩ := Option.map_eq_some_iff.1 h
      obtain ⟨hpos, hle, hlast⟩ := ih hm
      refine ⟨Nat.succ_pos _, Nat.succ_le_succ hle, ?_⟩
      have hne : rest.take m ≠ [] := fun hnil => by
        rw [hnil] at hlast
        simp at hlast
      rwa [List.take_succ_cons, List.getLast?_cons_of_ne_nil hne]

variable {N : Numbers} {v : Value}

theorem firstJsonValue_pos (h : firstJsonValue N text = some (v, n)) :
    0 < n ∧ n ≤ text.length := by
  simp only [firstJsonValue] at h
  split at h
  · split at h
    · cases h
    · rename_i k hk
      obtain ⟨w, -, hw⟩ := Option.map_eq_some_iff.1 h
      obtain ⟨-, rfl⟩ := Prod.mk.inj hw
      obtain ⟨hpos, hle, -⟩ := loop_spec hk
      have hlen := congrArg List.length (List.takeWhile_append_dropWhile (p := isSpace) (l := text))
      rw [List.length_append] at hlen
      omega
  · cases h

/-- The loop over what is left: there are values, and nothing else. -/
def allValues (N : Numbers) (rest : Units) : Bool :=
  if rest = [] then true
  else
    match _h : firstJsonValue N rest with
    | none => false
    | some (_, n) => allValues N (Trim.trim isSpace (rest.drop n))
termination_by rest.length
decreasing_by
  have hpos := firstJsonValue_pos _h
  have htrim := (Trim.trim_sublist isSpace (rest.drop n)).length_le
  rw [List.length_drop] at htrim
  omega

/-- The text of an array or an object, with nothing around it. -/
structure Complete (N : Numbers) (text : Units) (v : Value) : Prop where
  parsed : parse N text = some v
  opens : text.head? = some 0x7b ∨ text.head? = some 0x5b
  bare : ∀ u ∈ text.getLast?, isSpace u = false

/-- Complete values, with white space between and around them. -/
inductive Values (N : Numbers) : Units → List Value → Prop
  | nil {space : Units} : (∀ u ∈ space, isSpace u = true) → Values N space []
  | cons {space text rest : Units} {v : Value} {vs : List Value} :
      (∀ u ∈ space, isSpace u = true) → Complete N text v → Values N rest vs → Values N (space ++ (text ++ rest)) (v :: vs)

/-! ## The scan follows the machine -/

/-- The count of what is open, and whether a string is. -/
def scanOf (m : Machine) : Scan where
  depth := m.stack.length
  inString :=
    match m.mode with
    | .str _ _ => true
    | _ => false
  escaped :=
    match m.mode with
    | .str _ .back => true
    | _ => false

/-- An array or an object is open. -/
structure Within (m : Machine) : Prop where
  stack : m.stack ≠ []
  mode : ∀ v, m.mode ≠ .done v

/-- An array or an object is complete. -/
def Ended (m : Machine) : Prop := m.stack = [] ∧ ∃ v, m.mode = .done v ∧ v.isObject = true

namespace ToolRepairAux

variable {N : Numbers}

def outside (depth : Nat) : Scan where
  depth := depth
  inString := false
  escaped := false

/-- A step of the machine is a turn of the loop, and the loop ends where the value does. -/
structure Agrees (s : Scan) (u : UInt16) (m : Machine) : Prop where
  next : s.next u = (scanOf m, m.stack.isEmpty)
  stays : Within m ∨ Ended m

/-- A unit that is neither a quote nor a bracket. -/
def isOrdinary (u : UInt16) : Bool := !(u = 0x22 || u = 0x7b || u = 0x5b || u = 0x7d || u = 0x5d)

variable {u : UInt16}

theorem isOrdinary_of_jsonSpace (h : isJsonSpace u = true) : isOrdinary u = true := by
  simp only [isJsonSpace, Bool.or_eq_true, decide_eq_true_eq] at h
  rcases h with ((rfl | rfl) | rfl) | rfl <;> rfl

theorem isOrdinary_of_word (h : isWord u = true) : isOrdinary u = true := by
  simp only [isWord, Bool.not_eq_true', Bool.or_eq_false_iff] at h
  simp only [isOrdinary, Bool.not_eq_true', Bool.or_eq_false_iff]
  obtain ⟨⟨⟨⟨⟨⟨⟨-, h1⟩, h2⟩, h3⟩, h4⟩, -⟩, -⟩, h5⟩ := h
  exact ⟨⟨⟨⟨h5, h1⟩, h3⟩, h2⟩, h4⟩

theorem next_ordinary (h : isOrdinary u = true) (depth : Nat) : (outside depth).next u = (outside depth, false) := by
  simp only [isOrdinary, Bool.not_eq_true', Bool.or_eq_false_iff, decide_eq_false_iff_not] at h
  obtain ⟨⟨⟨⟨h1, h2⟩, h3⟩, h4⟩, h5⟩ := h
  simp [Scan.next, outside, h1, h2, h3, h4, h5]

theorem scanOf_complete (v : Value) (stack : List Frame) : scanOf (complete v stack) = outside stack.length := by
  cases stack with
  | nil => rfl
  | cons f stack => cases f <;> rfl

variable {stack : List Frame}

theorem within_complete (v : Value) (h : stack ≠ []) : Within (complete v stack) := by
  cases stack with
  | nil => exact absurd rfl h
  | cons f stack => cases f <;> exact ⟨List.cons_ne_nil _ _, nofun⟩

theorem isEmpty_complete (v : Value) (stack : List Frame) : (complete v stack).stack.isEmpty = stack.isEmpty := by
  cases stack with
  | nil => rfl
  | cons f stack => cases f <;> rfl

variable {v : Value}

theorem stays_complete (hv : v.isObject = true) (stack : List Frame) :
    Within (complete v stack) ∨ Ended (complete v stack) := by
  cases stack with
  | nil => exact .inr ⟨rfl, v, rfl, hv⟩
  | cons f stack => exact .inl (within_complete v (List.cons_ne_nil _ _))

theorem agrees_open {s t : Scan} {mode : Mode} (hstack : stack ≠ []) (hmode : ∀ v, mode ≠ .done v)
    (hscan : scanOf { stack, mode } = t) (hnext : s.next u = (t, false)) : Agrees s u { stack, mode } where
  next := by
    have hempty : stack.isEmpty = false := List.isEmpty_eq_false_iff.2 hstack
    rw [hnext, hscan, hempty]
  stays := .inl ⟨hstack, hmode⟩

theorem agrees_close (hu : u = 0x7d ∨ u = 0x5d) (hv : v.isObject = true) (stack : List Frame) :
    Agrees (outside (stack.length + 1)) u (complete v stack) where
  next := by
    rw [scanOf_complete, isEmpty_complete]
    have hempty : stack.isEmpty = decide (stack.length = 0) := by cases stack <;> rfl
    rw [hempty]
    rcases hu with rfl | rfl <;> rfl
  stays := stays_complete hv stack

variable {m : Machine}

theorem agrees_begins (hstack : stack ≠ []) (h : begins u stack = some m) :
    Agrees (outside stack.length) u m := by
  unfold begins at h
  split at h
  · rename_i hu
    obtain rfl := Option.some.inj h
    exact agrees_open hstack nofun rfl (by rw [hu]; rfl)
  split at h
  · rename_i hu
    obtain rfl := Option.some.inj h
    exact agrees_open (List.cons_ne_nil _ _) nofun rfl (by rw [hu]; rfl)
  split at h
  · rename_i hu
    obtain rfl := Option.some.inj h
    exact agrees_open (List.cons_ne_nil _ _) nofun rfl (by rw [hu]; rfl)
  split at h
  · rename_i hu
    obtain rfl := Option.some.inj h
    exact agrees_open hstack nofun rfl (next_ordinary (isOrdinary_of_word hu) _)
  · cases h

theorem agrees_closes (h : closes u stack = some m) :
    Agrees (outside stack.length) u m := by
  cases stack with
  | nil => cases h
  | cons f stack =>
    cases f with
    | arr items =>
      simp only [closes] at h
      split at h
      · rename_i hu
        obtain rfl := Option.some.inj h
        exact agrees_close (.inr hu) rfl stack
      · cases h
    | obj fields key =>
      simp only [closes] at h
      split at h
      · rename_i hu
        obtain rfl := Option.some.inj h
        exact agrees_close (.inl hu) rfl stack
      · cases h

theorem agrees_follows (h : follows u stack = some m) :
    Agrees (outside stack.length) u m := by
  unfold follows at h
  split at h
  · split at h
    · rename_i hu
      obtain rfl := Option.some.inj h
      exact agrees_open (List.cons_ne_nil _ _) nofun rfl (by rw [hu]; rfl)
    · exact agrees_closes h
  · split at h
    · rename_i hu
      obtain rfl := Option.some.inj h
      exact agrees_open (List.cons_ne_nil _ _) nofun rfl (by rw [hu]; rfl)
    · exact agrees_closes h
  · cases h

variable {m' : Machine}

theorem agrees_plainStep (hm : Within m) (hscan : scanOf m = outside m.stack.length)
    (h : plainStep m u = some m') : Agrees (outside m.stack.length) u m' := by
  obtain ⟨stack, mode⟩ := m
  unfold plainStep at h
  split at h
  · rename_i hu
    obtain rfl := Option.some.inj h
    exact agrees_open hm.stack hm.mode hscan (next_ordinary (isOrdinary_of_jsonSpace hu) _)
  · cases mode with
    | value => exact agrees_begins hm.stack h
    | item =>
      simp only at h
      split at h
      · exact agrees_closes h
      · exact agrees_begins hm.stack h
    | name | colon =>
      simp only at h
      split at h
      · rename_i hu
        obtain rfl := Option.some.inj h
        exact agrees_open hm.stack nofun rfl (by rw [hu]; rfl)
      · cases h
    | member =>
      simp only at h
      split at h
      · rename_i hu
        obtain rfl := Option.some.inj h
        exact agrees_open hm.stack nofun rfl (by rw [hu]; rfl)
      · exact agrees_closes h
    | more => exact agrees_follows h
    | str _ _ | word _ | done _ => cases h

theorem agrees_closeString (s : Units) (hstack : stack ≠ []) :
    Agrees { depth := stack.length, inString := true, escaped := false } 0x22 (closeString s stack) := by
  unfold closeString
  split
  · exact agrees_open (List.cons_ne_nil _ _) (fun _ h => Mode.noConfusion h) rfl rfl
  · have hempty : stack.isEmpty = false := List.isEmpty_eq_false_iff.2 hstack
    refine ⟨?_, .inl (within_complete _ hstack)⟩
    rw [scanOf_complete, isEmpty_complete, hempty]
    rfl

theorem ne_of_hexOf {d : Nat} (h : hexOf u = some d) : u ≠ 0x5c ∧ u ≠ 0x22 := by
  have hback : hexOf 0x5c = none := by decide
  have hquote : hexOf 0x22 = none := by decide
  constructor
  · rintro rfl
    rw [hback] at h
    cases h
  · rintro rfl
    rw [hquote] at h
    cases h

theorem agrees_stringStep {read : Units} {escape : Escape} (hstack : stack ≠ [])
    (h : stringStep stack read u escape = some m) : Agrees (scanOf { stack, mode := .str read escape }) u m := by
  cases escape with
  | plain =>
    simp only [stringStep] at h
    split at h
    · rename_i hu
      obtain rfl := Option.some.inj h
      subst hu
      exact agrees_closeString read hstack
    rename_i hquote
    split at h
    · rename_i hu
      obtain rfl := Option.some.inj h
      exact agrees_open hstack (fun _ h => Mode.noConfusion h) rfl (by rw [hu]; rfl)
    rename_i hback
    split at h
    · cases h
    · obtain rfl := Option.some.inj h
      refine agrees_open hstack (fun _ h => Mode.noConfusion h) rfl ?_
      simp [Scan.next, scanOf, hquote, hback]
  | back =>
    simp only [stringStep] at h
    split at h
    · obtain rfl := Option.some.inj h
      exact agrees_open hstack (fun _ h => Mode.noConfusion h) rfl rfl
    split at h
    · obtain rfl := Option.some.inj h
      exact agrees_open hstack (fun _ h => Mode.noConfusion h) rfl rfl
    · cases h
  | hex count value =>
    simp only [stringStep] at h
    split at h
    · cases h
    · rename_i d hd
      obtain ⟨hback, hquote⟩ := ne_of_hexOf hd
      have hnext : (scanOf { stack, mode := .str read (.hex count value) }).next u =
          ({ depth := stack.length, inString := true, escaped := false }, false) := by
        simp [Scan.next, scanOf, hquote, hback]
      split at h
      · obtain rfl := Option.some.inj h
        exact agrees_open hstack (fun _ h => Mode.noConfusion h) rfl hnext
      · obtain rfl := Option.some.inj h
        exact agrees_open hstack (fun _ h => Mode.noConfusion h) rfl hnext

theorem agrees_step (hm : Within m) (h : step N m u = some m') : Agrees (scanOf m) u m' := by
  obtain ⟨stack, mode⟩ := m
  cases mode with
  | str read escape => exact agrees_stringStep hm.stack h
  | word read =>
    simp only [step] at h
    split at h
    · rename_i hu
      obtain rfl := Option.some.inj h
      exact agrees_open hm.stack (fun _ h => Mode.noConfusion h) rfl (next_ordinary (isOrdinary_of_word hu) _)
    · obtain ⟨v, -, hv⟩ := Option.bind_eq_some_iff.1 h
      -- The word is complete, and what is open around it is still counted.
      have hcount : (complete v stack).stack.length = stack.length := congrArg Scan.depth (scanOf_complete v stack)
      have hplain := agrees_plainStep (within_complete v hm.stack) (by rw [scanOf_complete, hcount]) hv
      rwa [hcount] at hplain
  | value | item | name | member | colon | more => exact agrees_plainStep hm rfl h
  | done v => exact absurd rfl (hm.mode v)

theorem run_ended {text : Units} (hm : Ended m) (h : run N m text = some m') : ∀ u ∈ text, isJsonSpace u = true := by
  induction text with
  | nil => exact fun u hu => absurd hu List.not_mem_nil
  | cons u text ih =>
    obtain ⟨m1, hstep, hrun⟩ := Option.bind_eq_some_iff.1 h
    obtain ⟨hstack, v, hmode, hv⟩ := hm
    have hplain : plainStep m u = some m1 := by
      simp only [step, hmode] at hstep
      exact hstep
    unfold plainStep at hplain
    split at hplain
    · rename_i hu
      obtain rfl := Option.some.inj hplain
      intro x hx
      rcases List.mem_cons.1 hx with rfl | hx
      · exact hu
      · exact ih hrun x hx
    · rw [hmode] at hplain
      cases hplain

theorem isSpace_of_jsonSpace (h : isJsonSpace u = true) : isSpace u = true := by
  simp only [isJsonSpace, Bool.or_eq_true, decide_eq_true_eq] at h
  rcases h with ((rfl | rfl) | rfl) | rfl <;> rfl

/-- A text that completes what is open, and does not end in white space, is what the loop takes, whatever stands behind it. -/
theorem loop_of_run {text : Units} (hm : Within m) (hrun : run N m text = some m')
    (hv : m'.value N = some v) (hlast : ∀ u ∈ text.getLast?, isSpace u = false) (rest : Units) :
    (scanOf m).loop (text ++ rest) = some text.length ∧ v.isObject = true := by
  induction text generalizing m with
  | nil =>
    obtain rfl := Option.some.inj hrun
    unfold Machine.value at hv
    split at hv
    · rename_i w hmode
      exact absurd hmode (hm.mode w)
    · rw [if_neg (fun h => hm.stack (List.isEmpty_iff.1 h))] at hv
      cases hv
    · cases hv
  | cons u text ih =>
    obtain ⟨m1, hstep, hrun⟩ := Option.bind_eq_some_iff.1 hrun
    have hagrees := agrees_step hm hstep
    rw [List.cons_append, Scan.loop, hagrees.next]
    rcases hagrees.stays with hwithin | hended
    · have hempty : m1.stack.isEmpty = false := List.isEmpty_eq_false_iff.2 hwithin.stack
      have hlast' : ∀ x ∈ text.getLast?, isSpace x = false := fun x hx =>
        hlast x (by rw [List.getLast?_cons, Option.mem_def.1 hx]; rfl)
      obtain ⟨hloop, hobject⟩ := ih hwithin hrun hlast'
      rw [hempty, if_neg Bool.false_ne_true, hloop]
      exact ⟨rfl, hobject⟩
    · have hspace := run_ended hended hrun
      have hnil : text = [] := by
        cases hcase : text.getLast? with
        | none => exact List.getLast?_eq_none_iff.1 hcase
        | some x =>
          have hx := hlast x (by rw [List.getLast?_cons, hcase]; rfl)
          rw [isSpace_of_jsonSpace (hspace x (List.mem_of_getLast? hcase))] at hx
          cases hx
      obtain ⟨hstack, w, hmode, hw⟩ := hended
      subst hnil
      obtain rfl := Option.some.inj hrun
      have hwv : w = v := by
        unfold Machine.value at hv
        rw [hmode] at hv
        exact Option.some.inj hv
      rw [hstack]
      exact ⟨rfl, hwv ▸ hw⟩

end ToolRepairAux

/-! ## Where a value ends -/

/-- The loop ends where a value does, whatever stands behind it. -/
theorem Complete.loop (h : Complete N text v) (rest : Units) :
    Scan.start.loop (text ++ rest) = some text.length ∧ v.isObject = true := by
  obtain ⟨m, hrun, hv⟩ := Option.bind_eq_some_iff.1 h.parsed
  cases text with
  | nil => exact absurd h.opens (by simp)
  | cons u text =>
    obtain ⟨m1, hstep, hrun⟩ := Option.bind_eq_some_iff.1 hrun
    -- The first unit opens.
    have hopen : ToolRepairAux.Agrees Scan.start u m1 ∧ m1.stack ≠ [] := by
      rcases h.opens with hu | hu
      · obtain rfl : u = 0x7b := Option.some.inj hu
        obtain rfl := Option.some.inj hstep
        exact ⟨ToolRepairAux.agrees_open (List.cons_ne_nil _ _) nofun rfl rfl, List.cons_ne_nil _ _⟩
      · obtain rfl : u = 0x5b := Option.some.inj hu
        obtain rfl := Option.some.inj hstep
        exact ⟨ToolRepairAux.agrees_open (List.cons_ne_nil _ _) nofun rfl rfl, List.cons_ne_nil _ _⟩
    obtain ⟨hagrees, hstack⟩ := hopen
    have hwithin : Within m1 := hagrees.stays.resolve_right fun hended => hstack hended.1
    have hlast : ∀ x ∈ text.getLast?, isSpace x = false := fun x hx => h.bare x (by rw [List.getLast?_cons, Option.mem_def.1 hx]; rfl)
    obtain ⟨hloop, hobject⟩ := ToolRepairAux.loop_of_run hwithin hrun hv hlast rest
    have hempty : m1.stack.isEmpty = false := List.isEmpty_eq_false_iff.2 hstack
    rw [List.cons_append, Scan.loop, hagrees.next, hempty, if_neg Bool.false_ne_true, hloop]
    exact ⟨rfl, hobject⟩

theorem Complete.trimmed (h : Complete N text v) : Trim.Bare isSpace text where
  head := by
    intro u hu
    rcases h.opens with hopens | hopens
    · rw [hopens] at hu
      obtain rfl := Option.some.inj hu
      rfl
    · rw [hopens] at hu
      obtain rfl := Option.some.inj hu
      rfl
  last := h.bare

theorem Complete.ne_nil (h : Complete N text v) : text ≠ [] := by
  rintro rfl
  exact absurd h.opens (by simp)

theorem firstJsonValue_of_complete {N : Numbers} {space text : Units} {v : Value} (hspace : ∀ u ∈ space, isSpace u = true)
    (h : Complete N text v) (rest : Units) : firstJsonValue N (space ++ (text ++ rest)) = some (v, space.length + text.length) := by
  have hhead : (text ++ rest).head? = text.head? := List.head?_append_of_ne_nil _ h.ne_nil
  have hdrop : (text ++ rest).dropWhile isSpace = text ++ rest :=
    Trim.dropWhile_eq_self_iff.2 fun u hu => h.trimmed.head u (hhead ▸ hu)
  have htake : (text ++ rest).takeWhile isSpace = [] := by
    have hsplit := List.takeWhile_append_dropWhile (p := isSpace) (l := text ++ rest)
    rw [hdrop] at hsplit
    exact List.append_left_eq_self.1 hsplit
  have hopens : (text ++ rest).head? = some 0x7b ∨ (text ++ rest).head? = some 0x5b := hhead ▸ h.opens
  simp only [firstJsonValue, List.takeWhile_append_of_pos hspace, List.dropWhile_append_of_pos hspace, hdrop, htake, List.append_nil,
    if_pos hopens, (h.loop rest).1, List.take_left', h.parsed, Option.map_some]

variable {input : Units}

theorem Values.space (h : Values N input []) : ∀ u ∈ input, isSpace u = true := by
  cases h with
  | nil hspace => exact hspace

variable {vs : List Value}

theorem allValues_eq {rest : Units} (h : firstJsonValue N rest = some (v, n)) :
    allValues N rest = allValues N (Trim.trim isSpace (rest.drop n)) := by
  have hne : rest ≠ [] := by
    rintro rfl
    obtain ⟨hpos, hle⟩ := firstJsonValue_pos h
    exact absurd (hpos.trans_le hle) (Nat.lt_irrefl 0)
  rw [allValues, if_neg hne]
  split
  · rename_i hnone
    rw [h] at hnone
    cases hnone
  · rename_i w k hsome
    rw [h] at hsome
    obtain ⟨-, rfl⟩ := Prod.mk.inj (Option.some.inj hsome)
    rfl

theorem Values.allValues (h : Values N input vs) :
    allValues N (Trim.trim isSpace input) = true := by
  induction h with
  | nil hspace =>
    have hnil := Trim.trim_append_left (p := isSpace) (s := []) hspace
    rw [List.append_nil] at hnil
    rw [hnil, show Trim.trim isSpace ([] : Units) = [] from rfl, ToolRepair.allValues, if_pos rfl]
  | @cons space text rest v vs hlead hv _ ih =>
    rw [Trim.trim_append_left hlead, Trim.trim_append_of_bare hv.trimmed hv.ne_nil]
    have hfirst := @firstJsonValue_of_complete N [] text v (fun u hu => absurd hu List.not_mem_nil) hv (rest.rdropWhile isSpace)
    rw [List.nil_append, List.length_nil, Nat.zero_add] at hfirst
    rw [allValues_eq hfirst, List.drop_left, Trim.trim_rdropWhile]
    exact ih

theorem Values.firstJsonValue (h : Values N input (v :: vs)) :
    ∃ n, ToolRepair.firstJsonValue N input = some (v, n) ∧ parse N v.stringify = some v.written ∧ v.isObject = true ∧
      Values N (input.drop n) vs := by
  cases h with
  | @cons space text rest _ _ hlead hv hrest =>
    have hobject := (hv.loop rest).2
    refine ⟨space.length + text.length, firstJsonValue_of_complete hlead hv rest, parse_stringify (canon_of_parse hv.parsed) hobject,
      hobject, ?_⟩
    rwa [← List.drop_drop, List.drop_left, List.drop_left]

end ToolRepair

end Capka

import Mathlib
import Capka.Chat.StepControl

/-!
# The prompt of a stream grows at its end

Within one stream, while the boundary stands, each step sends what the step before sent and more behind it. The places of the steers are
indices into the list the SDK rebuilds, which only grows; the cut clears the same bodies as before, unless a result that arrives later
carries the id of one of them, which is then live again.
-/

namespace Capka

open StepControl

namespace StepControl

/-- What a part of an assistant's message keeps under the cut. -/
def AssistantPart.outline : AssistantPart → AssistantPart
  | .toolCall id name _ providerExecuted => .toolCall id name "" providerExecuted
  | .other json => .other json

/-- What a part of a tool message keeps under the cut. -/
def ToolContent.outline : ToolContent → ToolContent
  | .toolResult id name _ => .toolResult id name { type := .text, value := "" }
  | .approvalResponse json => .approvalResponse json

/-- What a message keeps under the cut: everything but the bodies of its calls and results. -/
def ModelMessage.outline : ModelMessage → ModelMessage
  | .assistant content => .assistant (content.map AssistantPart.outline)
  | .tool content => .tool (content.map ToolContent.outline)
  | .system content => .system content
  | .user content => .user content

/-- Every call of the list has its result behind it. -/
def Answered : List ModelMessage → Prop
  | [] => True
  | m :: ms => (∀ id ∈ m.callIds, id ∈ ms.flatMap ModelMessage.resultIds) ∧ Answered ms

instance decidableAnswered : ∀ ms, Decidable (Answered ms)
  | [] => isTrue trivial
  | m :: ms =>
    have := decidableAnswered ms
    inferInstanceAs (Decidable ((∀ id ∈ m.callIds, id ∈ ms.flatMap ModelMessage.resultIds) ∧ Answered ms))

end StepControl

namespace StreamRun

/-- The messages and the steers of a step's prompt, in its order. -/
def woven (s : StreamRun) : List (ModelMessage ⊕ PlacedSteer) := weave s.anchors 0 (pruneTurnToolTraffic s.base s.boundary)

/-- A step's prompt is the list with its old traffic cleared and the steers put in: each accepted steer once, behind messages whose calls
all have their results there; and the cut left every message its outline and its place. -/
structure WellPlaced (s : StreamRun) : Prop where
  prompt : s.prompt = (injectSteers (pruneTurnToolTraffic s.base s.boundary) s.anchors).1
  woven : s.prompt = s.woven.map emit
  once : (s.woven.filterMap Sum.getRight?).Perm s.anchors
  taken : s.anchors.map (fun p => (p.id, p.text)) = s.accepted
  between : ∀ x p y, s.woven = x ++ .inr p :: y → StepControl.Answered (x.filterMap Sum.getLeft?)
  outline : (pruneTurnToolTraffic s.base s.boundary).map ModelMessage.outline = s.base.map ModelMessage.outline

/-- What a step does to the one before: the boundary does not move back, and where it stands the prompt grows at its end. -/
structure Extends (s t : StreamRun) : Prop where
  forward : s.boundary ≤ t.boundary
  grows : s.boundary = t.boundary → s.prompt <+: t.prompt

/-- The boundary a step works with. -/
def next (s : StreamRun) (a : PrepareStep) : Nat :=
  armPruneBoundary s.triggerAt s.boundary a.lastStepContextTokens a.estimatedTokens (s.base ++ a.grown).length s.stepNumber a.armedEarlier

/-- The SDK starts a step once every call of the list has its result. -/
def Settled (s : StreamRun) (a : PrepareStep) : Prop := StepControl.Answered (s.base ++ a.grown)

/-- No result that arrives has the id of one whose body the cut clears, while the boundary stands. -/
def Unrepeated (s : StreamRun) (a : PrepareStep) : Prop :=
  s.next a = s.boundary → ∀ id ∈ a.grown.flatMap ModelMessage.resultIds, id ∉ staleIds s.base s.boundary

/-- The steps that keep the prompt stable. -/
def Stable (s : StreamRun) (a : PrepareStep) : Prop := s.Settled a ∧ s.Unrepeated a

instance (s : StreamRun) (a : PrepareStep) : Decidable (s.Settled a) := inferInstanceAs (Decidable (StepControl.Answered _))

instance (s : StreamRun) (a : PrepareStep) : Decidable (s.Unrepeated a) := inferInstanceAs (Decidable (_ → _))

instance (s : StreamRun) (a : PrepareStep) : Decidable (s.Stable a) := inferInstanceAs (Decidable (_ ∧ _))

end StreamRun

namespace StableAux

/-! ## Clearing keeps outlines -/

@[simp] theorem outline_clear (stale : List String) (m : ModelMessage) : (m.clear stale).outline = m.outline := by
  cases m with
  | system content => rfl
  | user content => rfl
  | assistant content =>
    simp only [ModelMessage.clear, ModelMessage.outline, List.map_map]
    congr 1
    apply List.map_congr_left
    intro p _
    cases p with
    | other json => rfl
    | toolCall id name input providerExecuted =>
      simp only [Function.comp_apply, AssistantPart.clear]
      split <;> rfl
  | tool content =>
    simp only [ModelMessage.clear, ModelMessage.outline, List.map_map]
    congr 1
    apply List.map_congr_left
    intro p _
    cases p with
    | approvalResponse json => rfl
    | toolResult id name output =>
      simp only [Function.comp_apply, ToolContent.clear]
      split <;> rfl

@[simp] theorem clear_nil (m : ModelMessage) : m.clear [] = m := by
  cases m with
  | system content => rfl
  | user content => rfl
  | assistant content =>
    have : AssistantPart.clear [] = id := by
      funext p
      cases p <;> simp [AssistantPart.clear]
    simp [ModelMessage.clear, this]
  | tool content =>
    have : ToolContent.clear [] = id := by
      funext p
      cases p <;> simp [ToolContent.clear]
    simp [ModelMessage.clear, this]

theorem map_clear_nil (ms : List ModelMessage) : ms.map (ModelMessage.clear []) = ms :=
  (List.map_congr_left (fun m _ => clear_nil m)).trans (List.map_id ms)

theorem callIds_outline (m : ModelMessage) : m.outline.callIds = m.callIds := by
  cases m with
  | system content => rfl
  | user content => rfl
  | tool content => rfl
  | assistant content =>
    simp only [ModelMessage.outline, ModelMessage.callIds, List.filterMap_map]
    congr 1
    funext p
    cases p <;> rfl

theorem resultIds_outline (m : ModelMessage) : m.outline.resultIds = m.resultIds := by
  cases m with
  | system content => rfl
  | user content => rfl
  | assistant content => rfl
  | tool content =>
    simp only [ModelMessage.outline, ModelMessage.resultIds, List.filterMap_map]
    congr 1
    funext p
    cases p <;> rfl

theorem answered_outline (ms : List ModelMessage) : StepControl.Answered (ms.map ModelMessage.outline) ↔ StepControl.Answered ms := by
  induction ms with
  | nil => exact Iff.rfl
  | cons m ms ih =>
    have hres : (ms.map ModelMessage.outline).flatMap ModelMessage.resultIds = ms.flatMap ModelMessage.resultIds := by
      rw [List.flatMap_map]
      simp only [resultIds_outline]
    rw [List.map_cons, StepControl.Answered, StepControl.Answered, callIds_outline, hres, ih]

/-! ## The cut -/

theorem prune_append {xs ys : List ModelMessage} (h : xs = [] ∨ ys ≠ []) :
    pruneTurnToolTraffic (xs ++ ys) xs.length = xs.map (ModelMessage.clear (staleIds (xs ++ ys) xs.length)) ++ ys := by
  unfold pruneTurnToolTraffic
  split
  · next hc =>
    cases xs with
    | nil => rfl
    | cons x xs =>
      rcases h with h | h
      · cases h
      · exfalso
        have := List.length_pos_iff.mpr h
        simp only [List.length_cons, List.length_append] at hc
        omega
  · split
    · next hs => rw [hs, map_clear_nil]
    · apply List.ext_getElem?
      intro i
      rw [List.getElem?_mapIdx]
      by_cases hi : i < xs.length
      · rw [List.getElem?_append_left hi, List.getElem?_append_left (by simpa using hi), List.getElem?_map]
        simp [Nat.not_le.mpr hi]
      · have hi := Nat.le_of_not_lt hi
        rw [List.getElem?_append_right hi, List.getElem?_append_right (by simpa using hi), List.length_map]
        simp [hi]

theorem outline_prune (messages : List ModelMessage) (boundary : Nat) :
    (pruneTurnToolTraffic messages boundary).map ModelMessage.outline = messages.map ModelMessage.outline := by
  unfold pruneTurnToolTraffic
  split
  · rfl
  · split
    · rfl
    · apply List.ext_getElem?
      intro i
      cases h : messages[i]? with
      | none => simp [List.getElem?_mapIdx, h]
      | some m =>
        simp only [List.getElem?_map, List.getElem?_mapIdx, h, Option.map_some]
        split
        · rfl
        · rw [outline_clear]

theorem length_prune (messages : List ModelMessage) (boundary : Nat) :
    (pruneTurnToolTraffic messages boundary).length = messages.length := by
  have := congrArg List.length (outline_prune messages boundary)
  simpa using this

/-! ## Steers between messages -/

/-- The end of a loop whose first index is past its steers. -/
def weaveRest (placed : List PlacedSteer) (i : Nat) : List ModelMessage → List (ModelMessage ⊕ PlacedSteer)
  | [] => []
  | m :: ms => .inl m :: weave placed (i + 1) ms

theorem weave_append (placed : List PlacedSteer) (i : Nat) (xs ys : List ModelMessage) :
    weave placed i (xs ++ ys) = weave placed i xs ++ weaveRest placed (i + xs.length) ys := by
  induction xs generalizing i with
  | nil =>
    cases ys with
    | nil => simp [weave, weaveRest]
    | cons y ys => simp [weave, weaveRest]
  | cons x xs ih =>
    have hi : i + 1 + xs.length = i + (xs.length + 1) := by omega
    rw [List.cons_append, weave, weave, ih, List.length_cons, hi, List.append_assoc, List.cons_append]

theorem lefts_weave (placed : List PlacedSteer) (i : Nat) (ms : List ModelMessage) : (weave placed i ms).filterMap Sum.getLeft? = ms := by
  have hnone : ∀ steers : List PlacedSteer, (steers.map (Sum.inr (α := ModelMessage))).filterMap Sum.getLeft? = [] := by
    intro steers
    rw [List.filterMap_map, List.filterMap_eq_nil_iff]
    intro s _
    rfl
  induction ms generalizing i with
  | nil => exact hnone _
  | cons m ms ih =>
    rw [weave, List.filterMap_append, hnone, List.nil_append]
    have hm : (Sum.inl m : ModelMessage ⊕ PlacedSteer).getLeft? = some m := rfl
    rw [List.filterMap_cons_some hm, ih]

theorem rights_weave (placed : List PlacedSteer) (i : Nat) (ms : List ModelMessage) :
    ((weave placed i ms).filterMap Sum.getRight?).Perm
      (placed.filter (fun s => s.index.any (fun j => i ≤ j && j ≤ i + ms.length))) := by
  have hall : ∀ steers : List PlacedSteer, (steers.map (Sum.inr (α := ModelMessage))).filterMap Sum.getRight? = steers := by
    intro steers
    rw [List.filterMap_map]
    exact List.filterMap_some
  induction ms generalizing i with
  | nil =>
    rw [weave, hall, steersAt]
    refine List.Perm.of_eq (List.filter_congr ?_)
    intro s _
    cases h : s.index with
    | none => rfl
    | some j =>
      simp only [Option.some.injEq, List.length_nil, Nat.add_zero, Option.any_some]
      rw [Bool.eq_iff_iff, decide_eq_true_eq, Bool.and_eq_true, decide_eq_true_eq, decide_eq_true_eq]
      omega
  | cons m ms ih =>
    rw [weave, List.filterMap_append, hall, List.filterMap_cons_none rfl]
    have hperm := List.filter_append_perm (fun s : PlacedSteer => s.index = some i)
      (placed.filter (fun s => s.index.any (fun j => i ≤ j && j ≤ i + (m :: ms).length)))
    refine ((List.Perm.append_left _ (ih (i + 1))).trans (List.Perm.of_eq ?_)).trans hperm
    rw [List.filter_filter, List.filter_filter, steersAt]
    congr 1
    · apply List.filter_congr
      intro s _
      cases h : s.index with
      | none => rfl
      | some j =>
        simp only [Option.some.injEq, Option.any_some, List.length_cons]
        rw [Bool.eq_iff_iff]
        simp only [decide_eq_true_eq, Bool.and_eq_true]
        omega
    · apply List.filter_congr
      intro s _
      cases h : s.index with
      | none => rfl
      | some j =>
        simp only [Option.some.injEq, Option.any_some, List.length_cons]
        rw [Bool.eq_iff_iff]
        simp only [decide_eq_true_eq, Bool.and_eq_true, Bool.not_eq_true', decide_eq_false_iff_not]
        omega

variable {placed : List PlacedSteer} {i : Nat} {ms : List ModelMessage}

theorem weave_congr {placed' : List PlacedSteer}
    (h : ∀ j, i ≤ j → j ≤ i + ms.length → steersAt placed j = steersAt placed' j) : weave placed i ms = weave placed' i ms := by
  induction ms generalizing i with
  | nil => rw [weave, weave, h i (Nat.le_refl _) (Nat.le_add_right _ _)]
  | cons m ms ih =>
    rw [weave, weave, h i (Nat.le_refl _) (Nat.le_add_right _ _), ih]
    intro j hj hj'
    rw [List.length_cons] at h
    exact h j (by omega) (by omega)

theorem weave_fresh {fresh : List PlacedSteer} (h : ∀ s ∈ fresh, s.index = some (i + ms.length)) :
    weave (placed ++ fresh) i ms = weave placed i ms ++ fresh.map .inr := by
  have hat : ∀ j, j ≠ i + ms.length → steersAt (placed ++ fresh) j = steersAt placed j := by
    intro j hj
    have hnone : steersAt fresh j = [] := by
      rw [steersAt, List.filter_eq_nil_iff]
      intro s hs
      rw [h s hs, decide_eq_true_eq, Option.some.injEq]
      exact fun heq => hj heq.symm
    rw [steersAt, List.filter_append, ← steersAt, ← steersAt, hnone, List.append_nil]
  induction ms generalizing i with
  | nil =>
    have hall : steersAt fresh i = fresh := by
      rw [steersAt, List.filter_eq_self]
      intro s hs
      simpa using h s hs
    rw [weave, weave, steersAt, List.filter_append, ← steersAt, ← steersAt, hall, List.map_append]
  | cons m ms ih =>
    rw [List.length_cons] at h hat
    rw [weave, weave, hat i (by omega), ih]
    · simp
    · intro s hs
      rw [h s hs]
      congr 1
      omega
    · intro j hj
      exact hat j (by omega)

theorem before_steer {x y : List (ModelMessage ⊕ PlacedSteer)} {p : PlacedSteer}
    (h : weave placed i ms = x ++ .inr p :: y) : ∃ j, i ≤ j ∧ p ∈ placed ∧ p.index = some j ∧ x.filterMap Sum.getLeft? = ms.take (j - i) := by
  have hat : ∀ {k : Nat} {x rest : List (ModelMessage ⊕ PlacedSteer)}, (steersAt placed k).map .inr = x ++ .inr p :: rest →
      p ∈ placed ∧ p.index = some k ∧ x.filterMap Sum.getLeft? = [] := by
    intro k x rest hk
    have hmem : (Sum.inr p : ModelMessage ⊕ PlacedSteer) ∈ (steersAt placed k).map .inr := by
      rw [hk]
      simp
    obtain ⟨q, hq, hqp⟩ := List.mem_map.mp hmem
    obtain rfl : q = p := Sum.inr.inj hqp
    obtain ⟨hq, hidx⟩ := List.mem_filter.mp hq
    refine ⟨hq, by simpa using hidx, ?_⟩
    rw [List.filterMap_eq_nil_iff]
    intro item hitem
    have hin : item ∈ (steersAt placed k).map (Sum.inr (α := ModelMessage)) := by
      rw [hk]
      exact List.mem_append_left _ hitem
    obtain ⟨q', _, rfl⟩ := List.mem_map.mp hin
    rfl
  induction ms generalizing i x with
  | nil =>
    rw [weave] at h
    obtain ⟨hp, hidx, hx⟩ := hat h
    exact ⟨i, Nat.le_refl _, hp, hidx, by rw [hx, List.take_nil]⟩
  | cons m ms ih =>
    rw [weave] at h
    rcases List.append_eq_append_iff.mp h with ⟨x', rfl, hrest⟩ | ⟨rest, hsteers, hend⟩
    · cases x' with
      | nil => cases hrest
      | cons item x' =>
        obtain ⟨hitem, htail⟩ := List.cons.inj hrest
        subst hitem
        obtain ⟨j, hj, hp, hidx, hx⟩ := ih htail
        refine ⟨j, by omega, hp, hidx, ?_⟩
        have hsteers : ((steersAt placed i).map (Sum.inr (α := ModelMessage))).filterMap Sum.getLeft? = [] := by
          rw [List.filterMap_eq_nil_iff]
          intro item hitem
          obtain ⟨q, _, rfl⟩ := List.mem_map.mp hitem
          rfl
        have hm : (Sum.inl m : ModelMessage ⊕ PlacedSteer).getLeft? = some m := rfl
        have hsub : j - i = (j - (i + 1)) + 1 := by omega
        rw [List.filterMap_append, hsteers, List.nil_append, List.filterMap_cons_some hm, hx, hsub, List.take_succ_cons]
    · cases rest with
      | nil => cases hend
      | cons item rest =>
        obtain ⟨hitem, _⟩ := List.cons.inj hend
        subst hitem
        obtain ⟨hp, hidx, hx⟩ := hat hsteers
        exact ⟨i, Nat.le_refl _, hp, hidx, by rw [hx, Nat.sub_self, List.take_zero]⟩

theorem length_items (items : List (ModelMessage ⊕ PlacedSteer)) :
    items.length = (items.filterMap Sum.getLeft?).length + (items.filterMap Sum.getRight?).length := by
  induction items with
  | nil => rfl
  | cons item items ih =>
    cases item with
    | inl m =>
      have hl : (Sum.inl m : ModelMessage ⊕ PlacedSteer).getLeft? = some m := rfl
      have hr : (Sum.inl m : ModelMessage ⊕ PlacedSteer).getRight? = none := rfl
      rw [List.filterMap_cons_some hl, List.filterMap_cons_none hr, List.length_cons, List.length_cons]
      omega
    | inr s =>
      have hl : (Sum.inr s : ModelMessage ⊕ PlacedSteer).getLeft? = none := rfl
      have hr : (Sum.inr s : ModelMessage ⊕ PlacedSteer).getRight? = some s := rfl
      rw [List.filterMap_cons_none hl, List.filterMap_cons_some hr, List.length_cons, List.length_cons]
      omega

theorem flatMap_emit {f : ModelMessage → List String} (hf : ∀ content, f (.user content) = []) (items : List (ModelMessage ⊕ PlacedSteer)) :
    (items.map emit).flatMap f = (items.filterMap Sum.getLeft?).flatMap f := by
  induction items with
  | nil => rfl
  | cons item items ih =>
    cases item with
    | inl m =>
      have hl : (Sum.inl m : ModelMessage ⊕ PlacedSteer).getLeft? = some m := rfl
      rw [List.filterMap_cons_some hl, List.map_cons, List.flatMap_cons, List.flatMap_cons, ih]
      rfl
    | inr s =>
      have hl : (Sum.inr s : ModelMessage ⊕ PlacedSteer).getLeft? = none := rfl
      have he : f (emit (.inr s)) = [] := hf _
      rw [List.filterMap_cons_none hl, List.map_cons, List.flatMap_cons, ih, he, List.nil_append]

theorem map_clear_emit (stale : List String) (placed : List PlacedSteer) (i : Nat) (ms : List ModelMessage) :
    ((weave placed i ms).map emit).map (ModelMessage.clear stale) = (weave placed i (ms.map (ModelMessage.clear stale))).map emit := by
  have hsteers : ∀ steers : List PlacedSteer, ((steers.map (Sum.inr (α := ModelMessage))).map emit).map (ModelMessage.clear stale) =
      (steers.map (Sum.inr (α := ModelMessage))).map emit := by
    intro steers
    simp only [List.map_map]
    apply List.map_congr_left
    intro s _
    rfl
  induction ms generalizing i with
  | nil => exact hsteers _
  | cons m ms ih =>
    rw [List.map_cons, weave, weave, List.map_append, List.map_append, List.map_append, hsteers, List.map_cons, List.map_cons, List.map_cons, ih]
    rfl

theorem lefts_weaveRest (placed : List PlacedSteer) (i : Nat) (ms : List ModelMessage) :
    (weaveRest placed i ms).filterMap Sum.getLeft? = ms := by
  cases ms with
  | nil => rfl
  | cons m ms =>
    have hm : (Sum.inl m : ModelMessage ⊕ PlacedSteer).getLeft? = some m := rfl
    rw [weaveRest, List.filterMap_cons_some hm, lefts_weave]

theorem length_weave (hplaced : ∀ s ∈ placed, ∃ j, s.index = some j) (ms : List ModelMessage) :
    (weave placed 0 ms).length = ms.length + placed.countP (fun p => p.index.getD 0 ≤ ms.length) := by
  rw [length_items, lefts_weave, (rights_weave placed 0 ms).length_eq, ← List.countP_eq_length_filter]
  congr 1
  apply List.countP_congr
  intro s hs
  obtain ⟨j, hj⟩ := hplaced s hs
  simp [hj]

theorem staleIds_weave (placed : List PlacedSteer) (xs ys : List ModelMessage) :
    staleIds ((weave placed 0 xs).map emit ++ (weaveRest placed xs.length ys).map emit) ((weave placed 0 xs).map emit).length =
      staleIds (xs ++ ys) xs.length := by
  simp only [staleIds, List.take_left, List.drop_left]
  rw [flatMap_emit (fun _ => rfl), flatMap_emit (fun _ => rfl), lefts_weave, lefts_weaveRest]

theorem prune_weave {base : List ModelMessage} {boundary : Nat}
    (hplaced : ∀ s ∈ placed, ∃ j, s.index = some j) (hb : boundary = 0 ∨ boundary < base.length) :
    pruneTurnToolTraffic ((weave placed 0 base).map emit) (boundary + placed.countP (fun p => p.index.getD 0 ≤ boundary)) =
      (weave placed 0 (pruneTurnToolTraffic base boundary)).map emit := by
  obtain ⟨xs, ys, rfl, rfl⟩ : ∃ xs ys, base = xs ++ ys ∧ boundary = xs.length := by
    refine ⟨base.take boundary, base.drop boundary, (List.take_append_drop _ _).symm, ?_⟩
    rw [List.length_take]
    omega
  have hys : xs = [] ∨ ys ≠ [] := by
    rcases hb with hb | hb
    · exact Or.inl (List.length_eq_zero_iff.mp hb)
    · right
      rintro rfl
      simp at hb
  rw [← length_weave hplaced, ← List.length_map (f := emit), prune_append hys, weave_append, List.map_append, Nat.zero_add]
  have hright : (weave placed 0 (xs.map (ModelMessage.clear (staleIds (xs ++ ys) xs.length)) ++ ys)).map emit =
      ((weave placed 0 xs).map emit).map (ModelMessage.clear (staleIds (xs ++ ys) xs.length)) ++ (weaveRest placed xs.length ys).map emit := by
    rw [weave_append, List.map_append, map_clear_emit, List.length_map, Nat.zero_add]
  rw [hright]
  by_cases hrest : (weaveRest placed xs.length ys).map emit = []
  · -- nothing stands behind the cut, so there is nothing before it either
    have hnil : ys = [] := by
      cases ys with
      | nil => rfl
      | cons y ys => simp [weaveRest] at hrest
    have hxs : xs = [] := hys.resolve_right (fun h => h hnil)
    subst hxs hnil
    have hstale : staleIds ([] ++ []) 0 = [] := rfl
    have hend : (weaveRest placed 0 []).map emit = [] := rfl
    rw [List.length_nil, hstale, map_clear_nil, hend, List.append_nil, pruneTurnToolTraffic, if_pos (Or.inr (Nat.le_refl _))]
  · rw [prune_append (Or.inr hrest), staleIds_weave]

theorem prune_grown {base grown : List ModelMessage} {boundary : Nat} (hb : boundary = 0 ∨ boundary < base.length)
    (hfresh : ∀ id ∈ grown.flatMap ModelMessage.resultIds, id ∉ staleIds base boundary) :
    pruneTurnToolTraffic (base ++ grown) boundary = pruneTurnToolTraffic base boundary ++ grown := by
  obtain ⟨xs, ys, rfl, rfl⟩ : ∃ xs ys, base = xs ++ ys ∧ boundary = xs.length := by
    refine ⟨base.take boundary, base.drop boundary, (List.take_append_drop _ _).symm, ?_⟩
    rw [List.length_take]
    omega
  have hys : xs = [] ∨ ys ≠ [] := by
    rcases hb with hb | hb
    · exact Or.inl (List.length_eq_zero_iff.mp hb)
    · right
      rintro rfl
      simp at hb
  have hstale : staleIds (xs ++ (ys ++ grown)) xs.length = staleIds (xs ++ ys) xs.length := by
    simp only [staleIds, List.take_left, List.drop_left] at hfresh ⊢
    apply List.filter_congr
    intro id hid
    rw [List.flatMap_append, decide_eq_decide, List.mem_append, not_or, and_iff_left_iff_imp]
    intro hlive hin
    exact hfresh id hin (List.mem_filter.mpr ⟨hid, by simpa using hlive⟩)
  have hys' : xs = [] ∨ ys ++ grown ≠ [] := by
    rcases hys with h | h
    · exact Or.inl h
    · exact Or.inr (fun hn => h (List.append_eq_nil_iff.mp hn).1)
  rw [List.append_assoc, prune_append hys', hstale, prune_append hys, List.append_assoc]

/-! ## Every step -/

theorem injectSteers_eq (messages : List ModelMessage) (steers : List PlacedSteer) :
    injectSteers messages steers =
      ((weave (steers.map (PlacedSteer.place messages.length)) 0 messages).map emit, steers.map (PlacedSteer.place messages.length)) := by
  unfold injectSteers
  split
  · next h =>
    subst h
    have hplain : ∀ i, (weave [] i messages).map emit = messages := by
      induction messages with
      | nil => intro i; rfl
      | cons m ms ih => intro i; exact congrArg (m :: ·) (ih (i + 1))
    rw [List.map_nil, hplain]
  · rfl

theorem armPruneBoundary_cases (triggerAt boundary last estimated count stepNumber : Nat) (armedEarlier : Bool) :
    (triggerAt = 0 ∧ armPruneBoundary triggerAt boundary last estimated count stepNumber armedEarlier = 0) ∨
      armPruneBoundary triggerAt boundary last estimated count stepNumber armedEarlier = boundary ∨
        armPruneBoundary triggerAt boundary last estimated count stepNumber armedEarlier = max boundary (count - keptMessages) := by
  unfold armPruneBoundary
  dsimp only
  split
  · next h => exact Or.inl ⟨h, rfl⟩
  · right
    generalize (if (if stepNumber = 0 then 0 else last) ≠ 0 then (if stepNumber = 0 then 0 else last) else estimated) = size
    split
    · exact Or.inl rfl
    · split
      · exact Or.inl rfl
      · exact Or.inr rfl

/-- What holds between the steps of a stream. -/
structure Kept (s : StreamRun) : Prop where
  taken : s.anchors.map (fun p => (p.id, p.text)) = s.accepted
  places : ∀ p ∈ s.anchors, ∀ j, p.index = some j → j ≤ s.base.length ∧ StepControl.Answered (s.base.take j)
  boundary : s.boundary = 0 ∨ s.boundary < s.base.length
  untriggered : s.triggerAt = 0 → s.boundary = 0
  prompt : s.prompt = [] ∨ (∀ p ∈ s.anchors, ∃ j, p.index = some j) ∧ s.prompt = s.woven.map emit

variable {s t : StreamRun} {a : PrepareStep}

theorem step_spec (h : Kept s) (hs : s.step a = some t) :
    t.triggerAt = s.triggerAt ∧ t.base = s.base ++ a.grown ∧ t.boundary = s.next a ∧ t.accepted = s.accepted ++ a.fresh ∧
      t.anchors = (s.anchors ++ a.fresh.map (fun f => ({ id := f.1, text := f.2, index := none } : PlacedSteer))).map
        (PlacedSteer.place (s.base ++ a.grown).length) ∧
      (∀ p ∈ t.anchors, ∃ j, p.index = some j) ∧ (t.boundary = 0 ∨ t.boundary < t.base.length) ∧ (t.triggerAt = 0 → t.boundary = 0) ∧
      t.prompt = t.woven.map emit := by
  obtain rfl := Option.some.inj hs
  have hplaced : ∀ p ∈ (s.anchors ++ a.fresh.map (fun f => ({ id := f.1, text := f.2, index := none } : PlacedSteer))).map
      (PlacedSteer.place (s.base ++ a.grown).length), ∃ j, p.index = some j := by
    intro p hp
    obtain ⟨q, _, rfl⟩ := List.mem_map.mp hp
    exact ⟨_, rfl⟩
  have hzero : s.triggerAt = 0 → s.next a = 0 := by
    intro ht
    simp [StreamRun.next, armPruneBoundary, ht]
  have hbound : s.next a = 0 ∨ s.next a < (s.base ++ a.grown).length := by
    have hold := h.boundary
    have hlen : (s.base ++ a.grown).length = s.base.length + a.grown.length := List.length_append
    rcases armPruneBoundary_cases s.triggerAt s.boundary a.lastStepContextTokens a.estimatedTokens (s.base ++ a.grown).length s.stepNumber
      a.armedEarlier with ⟨_, hc⟩ | hc | hc
    · exact Or.inl hc
    · rw [StreamRun.next, hc, hlen]
      omega
    · rw [StreamRun.next, hc, keptMessages, hlen]
      omega
  refine ⟨rfl, rfl, rfl, rfl, by rw [injectSteers_eq], by rw [injectSteers_eq]; exact hplaced, hbound, hzero, ?_⟩
  simp only [StreamRun.woven, injectSteers_eq]
  split
  · next ht =>
    have hb : s.next a = 0 := hzero ht
    rw [StreamRun.next] at hb
    rw [hb, pruneTurnToolTraffic, if_pos (Or.inl rfl)]
  · exact prune_weave hplaced hbound

theorem Kept.step (h : Kept s) (hok : s.Settled a) (hs : s.step a = some t) : Kept t := by
  obtain ⟨-, hbase, -, hacc, hanchors, hplaced, hbound, hzero, hprompt⟩ := step_spec h hs
  refine { taken := ?_, places := ?_, boundary := hbound, untriggered := hzero, prompt := Or.inr ⟨hplaced, hprompt⟩ }
  · rw [hanchors, hacc, ← h.taken]
    simp only [List.map_map, List.map_append]
    congr 1
    refine (List.map_congr_left ?_).trans (List.map_id _)
    intro f _
    rfl
  · intro p hp j hj
    rw [hanchors] at hp
    obtain ⟨q, hq, rfl⟩ := List.mem_map.mp hp
    rw [hbase]
    have hj : q.index.getD (s.base ++ a.grown).length = j := Option.some.inj hj
    cases hidx : q.index with
    | none =>
      rw [hidx, Option.getD_none] at hj
      rw [← hj, List.take_length]
      exact ⟨Nat.le_refl _, hok⟩
    | some i =>
      rw [hidx, Option.getD_some] at hj
      subst hj
      rcases List.mem_append.mp hq with hq | hq
      · obtain ⟨hle, hans⟩ := h.places q hq i hidx
        rw [List.take_append_of_le_length hle, List.length_append]
        exact ⟨Nat.le_add_right_of_le hle, hans⟩
      · obtain ⟨f, _, rfl⟩ := List.mem_map.mp hq
        cases hidx

theorem wellPlaced (h : Kept s) (hok : s.Settled a) (hs : s.step a = some t) : t.WellPlaced := by
  have ht := h.step hok hs
  obtain ⟨-, -, -, -, -, hplaced, -, -, hprompt⟩ := step_spec h hs
  have hsame : t.anchors.map (PlacedSteer.place (pruneTurnToolTraffic t.base t.boundary).length) = t.anchors := by
    refine (List.map_congr_left ?_).trans (List.map_id _)
    intro p hp
    obtain ⟨j, hj⟩ := hplaced p hp
    simp only [PlacedSteer.place, hj, Option.getD_some, id_eq]
    rw [← hj]
  refine { prompt := ?_, woven := hprompt, once := ?_, taken := ht.taken, between := ?_, outline := outline_prune _ _ }
  · rw [injectSteers_eq, hsame]
    exact hprompt
  · refine (rights_weave t.anchors 0 _).trans (List.Perm.of_eq ?_)
    rw [List.filter_eq_self]
    intro p hp
    obtain ⟨j, hj⟩ := hplaced p hp
    have hle := (ht.places p hp j hj).1
    rw [hj, Option.any_some, length_prune]
    simpa using hle
  · intro x p y hsplit
    obtain ⟨j, -, hp, hj, hx⟩ := before_steer hsplit
    rw [hx, Nat.sub_zero, ← answered_outline, List.map_take, outline_prune, ← List.map_take, answered_outline]
    exact (ht.places p hp j hj).2

theorem extends_of_stable (h : Kept s) (hok : s.Stable a) (hs : s.step a = some t) : s.Extends t := by
  obtain ⟨-, hbase, hnext, -, hanchors, -, -, -, hprompt⟩ := step_spec h hs
  refine { forward := ?_, grows := ?_ }
  · rw [hnext]
    rcases armPruneBoundary_cases s.triggerAt s.boundary a.lastStepContextTokens a.estimatedTokens (s.base ++ a.grown).length s.stepNumber
      a.armedEarlier with ⟨ht, _⟩ | hc | hc
    · rw [h.untriggered ht]
      exact Nat.zero_le _
    · rw [StreamRun.next, hc]
    · rw [StreamRun.next, hc]
      exact Nat.le_max_left _ _
  · intro hsame
    rcases h.prompt with hnil | ⟨hplaced, hprev⟩
    · rw [hnil]
      exact List.nil_prefix
    · have hpruned : pruneTurnToolTraffic t.base t.boundary = pruneTurnToolTraffic s.base s.boundary ++ a.grown := by
        rw [hbase, ← hsame]
        exact prune_grown h.boundary (hok.2 (hnext.symm.trans hsame.symm))
      have hold : s.anchors.map (PlacedSteer.place (s.base ++ a.grown).length) = s.anchors := by
        refine (List.map_congr_left ?_).trans (List.map_id _)
        intro p hp
        obtain ⟨j, hj⟩ := hplaced p hp
        simp only [PlacedSteer.place, hj, Option.getD_some, id_eq]
        rw [← hj]
      have hlen : (pruneTurnToolTraffic s.base s.boundary).length = s.base.length := length_prune _ _
      obtain ⟨fresh, hfresh, hindex⟩ : ∃ fresh : List PlacedSteer, t.anchors = s.anchors ++ fresh ∧
          ∀ p ∈ fresh, p.index = some (s.base ++ a.grown).length := by
        refine ⟨_, by rw [hanchors, List.map_append, hold], ?_⟩
        intro p hp
        obtain ⟨q, hq, rfl⟩ := List.mem_map.mp hp
        obtain ⟨f, _, rfl⟩ := List.mem_map.mp hq
        rfl
      rw [hprev, hprompt]
      apply List.IsPrefix.map
      rw [StreamRun.woven, StreamRun.woven, hpruned, hfresh, weave_append]
      refine List.IsPrefix.trans ?_ (List.prefix_append _ _)
      by_cases hgrown : a.grown = []
      · rw [weave_fresh]
        · exact List.prefix_append _ _
        · intro p hp
          rw [hindex p hp, hgrown, List.append_nil, hlen, Nat.zero_add]
      · have hpos := List.length_pos_iff.mpr hgrown
        have hcongr : weave (s.anchors ++ fresh) 0 (pruneTurnToolTraffic s.base s.boundary) =
            weave s.anchors 0 (pruneTurnToolTraffic s.base s.boundary) := by
          apply weave_congr
          intro j _ hj
          have hnone : steersAt fresh j = [] := by
            rw [steersAt, List.filter_eq_nil_iff]
            intro p hp
            rw [hindex p hp, decide_eq_true_eq, Option.some.injEq, List.length_append]
            omega
          rw [steersAt, List.filter_append, ← steersAt, ← steersAt, hnone, List.append_nil]
        rw [hcongr]

theorem kept_begin (triggerAt : Nat) (base : List ModelMessage) (steers : List (String × String)) :
    Kept (StreamRun.begin triggerAt base steers) := by
  refine { taken := ?_, places := ?_, boundary := Or.inl rfl, untriggered := fun _ => rfl, prompt := Or.inl rfl }
  · simp only [StreamRun.begin, List.map_map]
    refine (List.map_congr_left ?_).trans (List.map_id _)
    intro f _
    rfl
  · intro p hp j hj
    obtain ⟨f, _, rfl⟩ := List.mem_map.mp hp
    cases hj

end StableAux

open StableAux

/-- In every stream whose steps repeat no cleared id, each step's prompt is well placed and extends that of the step before. -/
theorem prompt_stable_of_unrepeated {triggerAt : Nat} {base : List ModelMessage} {steers : List (String × String)} {s t : StreamRun}
    {a : PrepareStep} (h : Steps.Reaches StreamRun.step StreamRun.Stable (StreamRun.begin triggerAt base steers) s) (hok : s.Stable a)
    (hs : s.step a = some t) : t.WellPlaced ∧ s.Extends t := by
  have hkept : Kept s := h.invariant (I := Kept) (fun _ _ _ hx hok hstep => hx.step hok.1 hstep) (kept_begin triggerAt base steers)
  exact ⟨wellPlaced hkept hok.1 hs, extends_of_stable hkept hok hs⟩

namespace StableRun

/-- A call and its result. -/
def exchange (id : String) : List ModelMessage :=
  [.assistant [.toolCall id "upsert" "row" false], .tool [.toolResult id "upsert" { type := .text, value := "done" }]]

/-- The list a stream begins with: a request, and four exchanges an earlier stream made. -/
def base : List ModelMessage := .user "go" :: (exchange "a" ++ exchange "b" ++ exchange "c" ++ exchange "d")

/-- The first step of the stream crosses the trigger, and takes a steer. -/
def first : PrepareStep where
  grown := []
  fresh := [("s", "briefly")]
  lastStepContextTokens := 0
  estimatedTokens := 100
  armedEarlier := true

/-- The next step, after one more exchange. -/
def later (id : String) : PrepareStep where
  grown := exchange id
  fresh := []
  lastStepContextTokens := 10
  estimatedTokens := 0
  armedEarlier := true

end StableRun

open StableRun

/-- The stream whose next exchange has an id of its own. -/
theorem prompt_stable_of_unrepeated_fresh : ∃ s t, Steps.Reaches StreamRun.step StreamRun.Stable (StreamRun.begin 100 base []) s ∧
    s.boundary = 3 ∧ s.step (later "e") = some t ∧ t.WellPlaced ∧ s.Extends t := by
  obtain ⟨s, hs, hb, hok, ht⟩ := Steps.exists_of_execOk StreamRun.step StreamRun.Stable (StreamRun.begin 100 base []) [first]
    (P := fun s => s.boundary = 3 ∧ s.Stable (later "e") ∧ (s.step (later "e")).isSome) (by decide)
  obtain ⟨t, ht⟩ := Option.isSome_iff_exists.mp ht
  exact ⟨s, t, hs, hb, ht, prompt_stable_of_unrepeated hs hok ht⟩

/-- A provider that numbers the calls of each step from the same id again: the cleared exchange reappears in the prompt of the next step,
in the part that had been sent. -/
theorem prompt_stable_false : ∃ s t, Steps.Reaches StreamRun.step StreamRun.Settled (StreamRun.begin 100 base []) s ∧
    s.Settled (later "a") ∧ s.step (later "a") = some t ∧ s.boundary = t.boundary ∧ ¬ s.Extends t := by
  obtain ⟨s, hs, hok, hfalse⟩ := Steps.exists_of_execOk StreamRun.step StreamRun.Settled (StreamRun.begin 100 base []) [first]
    (P := fun s => s.Settled (later "a") ∧ (s.step (later "a")).any (fun t => s.boundary = t.boundary ∧ ¬ s.prompt <+: t.prompt)) (by decide)
  cases ht : s.step (later "a") with
  | none =>
    rw [ht] at hfalse
    cases hfalse
  | some t =>
    rw [ht, Option.any_some] at hfalse
    obtain ⟨hsame, hnot⟩ := of_decide_eq_true hfalse
    exact ⟨s, t, hs, hok, ht, hsame, fun h => hnot (h.grows hsame)⟩

end Capka

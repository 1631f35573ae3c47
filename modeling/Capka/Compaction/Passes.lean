import Capka.Compaction.Compactor

/-!
# What the summary was made of

However many of its requests overflow, a summary is the answer to the last of a few requests that went through, one for each piece of the
conversation, in order: each piece but the first opens on a user turn and is sent with the summary of the pieces before it in front.
-/

namespace Capka.Compactor

open Prompt

/-- A piece of the conversation with the summary of the pieces before it, where there are any. -/
def opened : Option String → List Message → List Message
  | none, piece => piece
  | some head, piece => carry head piece

/-- The piece opens on a user turn. -/
def OpensOnUser (piece : List Message) : Prop := ∃ first ∈ piece.head?, first.isUser = true

/-- The requests that went through, with their answers. -/
def answered (sent : Requests) : List (List Message × String) :=
  sent.filterMap fun r => match r.2 with
    | .ok text => some (r.1, text)
    | .error _ => none

/-- The requests that summarise the pieces of a conversation one after another, one request a piece, and the last answer. -/
inductive Passes (systemMessages : List Message) : Option String → List (List Message) → List (List Message × String) → String → Prop
  | last {head : Option String} {piece : List Message} {summary : String} :
      Passes systemMessages head [piece] [(buildCompactionMessages systemMessages (opened head piece), summary)] summary
  | next {head : Option String} {piece : List Message} {summary final : String} {pieces : List (List Message)}
      {sent : List (List Message × String)} (hne : summary ≠ "") (hopen : ∀ next ∈ pieces.head?, OpensOnUser next)
      (h : Passes systemMessages (some summary) pieces sent final) :
      Passes systemMessages head (piece :: pieces)
        ((buildCompactionMessages systemMessages (opened head piece), summary) :: sent) final

/-- A message without its reasoning and the bodies of its tool traffic. -/
def bare : Message → Message
  | .assistant (.parts ps) opts => .assistant (.parts (ps.filterMap fun p => match p with
    | .reasoning _ => none
    | .text t => some (.text t)
    | .part (.toolCall id name _ providerExecuted) => some (.part (.toolCall id name "" providerExecuted))
    | .part (.other json) => some (.part (.other json)))) opts
  | .assistant (.string s) opts => .assistant (.string s) opts
  | .tool content opts => .tool (content.map fun c => match c with
    | .toolResult id name _ => .toolResult id name ⟨.text, ""⟩
    | .approvalResponse json => .approvalResponse json) opts
  | .system content opts => .system content opts
  | .user content opts => .user content opts

/-- The message is more than reasoning. -/
def HasContent (m : Message) : Prop := (withoutReasoning m).isSome = true

instance : DecidablePred HasContent := fun m => inferInstanceAs (Decidable ((withoutReasoning m).isSome = true))

def roleOf : Message → String
  | .system _ _ => "system"
  | .user _ _ => "user"
  | .assistant _ _ => "assistant"
  | .tool _ _ => "tool"

namespace PassesAux

variable {model : LanguageModel} {estimatePromptTokens : List Message → Nat} {systemMessages : List Message}

/-! ### The cut -/

theorem nearestTurn_spec {conv : List Message} {total : Nat} (ms : List Message) : ∀ (done : List Message) (before : Nat)
    (best : Option (Nat × Nat)), conv = done ++ ms → (∀ b ∈ best, 0 < b.1 ∧ ∃ m, conv[b.1]? = some m ∧ m.isUser = true) →
      ∀ b ∈ nearestTurn estimatePromptTokens total done.length before best ms, 0 < b.1 ∧ ∃ m, conv[b.1]? = some m ∧ m.isUser = true := by
  induction ms with
  | nil => exact fun _ _ _ _ hbest => hbest
  | cons m ms ih =>
    intro done before best hconv hbest
    rw [nearestTurn]
    have hnext := ih (done ++ [m]) (before + estimatePromptTokens [m])
    rw [List.length_append, List.length_singleton] at hnext
    refine hnext _ (by rw [hconv, List.append_assoc, List.singleton_append]) ?_
    intro b hb
    split at hb
    · rename_i hturn
      obtain rfl := Option.some.inj hb
      refine ⟨hturn.1, m, ?_, hturn.2.1⟩
      rw [hconv, List.getElem?_append_right le_rfl, Nat.sub_self]
      rfl
    · exact hbest b hb

theorem cutOf_spec {conv : List Message} {cut : Nat} (h : cutOf estimatePromptTokens conv = some cut) :
    conv.take cut ≠ [] ∧ conv.drop cut ≠ [] ∧ OpensOnUser (conv.drop cut) := by
  obtain ⟨b, hb, rfl⟩ := Option.map_eq_some_iff.mp h
  obtain ⟨hpos, m, hm, huser⟩ := nearestTurn_spec conv [] 0 none rfl (by simp) b hb
  have hlen : b.1 < conv.length := (List.getElem?_eq_some_iff.mp hm).1
  refine ⟨?_, ?_, m, ?_, huser⟩
  · rw [Ne, List.take_eq_nil_iff]
    rintro (h | rfl)
    · omega
    · simp at hlen
  · rw [Ne, List.drop_eq_nil_iff]
    omega
  · rw [List.head?_drop]
    exact hm

/-! ### Passes -/

theorem passes_append {head : Option String} {pieces pieces' : List (List Message)} {sent sent' : List (List Message × String)}
    {summary final : String} (h : Passes systemMessages head pieces sent summary) (hne : summary ≠ "")
    (hopen : ∀ next ∈ pieces'.head?, OpensOnUser next) (h' : Passes systemMessages (some summary) pieces' sent' final) :
    Passes systemMessages head (pieces ++ pieces') (sent ++ sent') final := by
  induction h with
  | last => exact .next hne hopen h'
  | next hne₁ hopen₁ h₁ ih =>
    refine .next hne₁ ?_ (ih hne h')
    cases h₁ with
    | last => exact hopen₁
    | next _ _ _ => exact hopen₁

theorem passes_carry {head : String} {rest : List Message} {pieces : List (List Message)} {sent : List (List Message × String)}
    {final : String} (hrest : rest ≠ []) (hpieces : ∀ p ∈ pieces, p ≠ []) (hflat : pieces.flatten = carry head rest)
    (h : Passes systemMessages none pieces sent final) :
    ∃ pieces', pieces'.flatten = rest ∧ pieces'.length = pieces.length ∧ (∀ p ∈ pieces', p ≠ []) ∧
      Passes systemMessages (some head) pieces' sent final := by
  obtain ⟨first, rest, rfl⟩ := List.exists_cons_of_ne_nil hrest
  cases pieces with
  | nil => cases h
  | cons piece pieces =>
    obtain ⟨m, piece, rfl⟩ := List.exists_cons_of_ne_nil (hpieces piece List.mem_cons_self)
    rw [List.flatten_cons, List.cons_append, carry, List.cons.injEq] at hflat
    obtain ⟨rfl, hflat⟩ := hflat
    refine ⟨(first :: piece) :: pieces, by rw [List.flatten_cons, List.cons_append, hflat], rfl, ?_, ?_⟩
    · exact List.forall_mem_cons.mpr ⟨List.cons_ne_nil _ _, fun p hp => hpieces p (List.mem_cons_of_mem _ hp)⟩
    · cases h with
      | last => exact .last
      | next hne hopen h => exact .next hne hopen h

/-! ### The fold -/

theorem answered_append (sent more : Requests) : answered (sent ++ more) = answered sent ++ answered more := List.filterMap_append

/-- What the requests of a fold came to: how many they were, and where there is a summary, that they are passes over the conversation. -/
def Summarises (systemMessages conv : List Message) (left : Nat) (more : Requests) (result : Except Failure String) : Prop :=
  more.length + 1 ≤ 2 ^ (left + 1) ∧ ∀ summary, result = .ok summary →
    ∃ pieces : List (List Message), pieces.flatten = conv ∧ pieces.length ≤ 2 ^ left ∧ (conv ≠ [] → ∀ p ∈ pieces, p ≠ []) ∧
      Passes systemMessages none pieces (answered more) summary

theorem summarises_run {conv : List Message} (left : Nat) (summary : String) :
    Summarises systemMessages conv left [(buildCompactionMessages systemMessages conv, .ok summary)] (.ok summary) := by
  have hpow : 1 ≤ 2 ^ left := Nat.one_le_two_pow
  refine ⟨by rw [pow_succ, List.length_singleton]; omega, ?_⟩
  rintro _ ⟨⟩
  exact ⟨[conv], by simp, hpow, by simp, .last⟩

theorem summarises_error {conv : List Message} {left : Nat} {more : Requests} (e : Failure) (hlen : more.length + 1 ≤ 2 ^ (left + 1)) :
    Summarises systemMessages conv left more (.error e) := ⟨hlen, by simp⟩

theorem summarises_split {conv : List Message} {cut left : Nat} {request : List Message} {e : Failure} {more more' : Requests}
    {head : String} {result : Except Failure String} (hcut : cutOf estimatePromptTokens conv = some cut) (hne : head ≠ "")
    (hhead : Summarises systemMessages (conv.take cut) left more (.ok head))
    (htail : Summarises systemMessages (carry head (conv.drop cut)) left more' result) :
    Summarises systemMessages conv (left + 1) ((request, .error e) :: (more ++ more')) result := by
  obtain ⟨htake, hdrop, hopen⟩ := cutOf_spec hcut
  obtain ⟨hlen, hhead⟩ := hhead
  obtain ⟨hlen', htail⟩ := htail
  refine ⟨?_, fun summary hsummary => ?_⟩
  · have hpow : 2 ^ (left + 1 + 1) = 2 ^ (left + 1) + 2 ^ (left + 1) := by ring
    rw [List.length_cons, List.length_append]
    omega
  · obtain ⟨pieces, hflat, hcount, hpieces, hpasses⟩ := hhead head rfl
    obtain ⟨pieces', hflat', hcount', hpieces', hpasses'⟩ := htail summary hsummary
    have hcarry : carry head (conv.drop cut) ≠ [] := by
      obtain ⟨first, rest, heq⟩ := List.exists_cons_of_ne_nil hdrop
      rw [heq]
      exact List.cons_ne_nil _ _
    obtain ⟨pieces'', hflat'', hcount'', hpieces'', hpasses''⟩ := passes_carry hdrop (hpieces' hcarry) hflat' hpasses'
    have hopens : ∀ next ∈ pieces''.head?, OpensOnUser next := by
      intro next hnext
      obtain ⟨ps, rfl⟩ := List.head?_eq_some_iff.mp hnext
      obtain ⟨m, next', rfl⟩ := List.exists_cons_of_ne_nil (hpieces'' next List.mem_cons_self)
      rw [← hflat''] at hopen
      exact hopen
    refine ⟨pieces ++ pieces'', ?_, ?_, fun _ p hp => ?_, ?_⟩
    · rw [List.flatten_append, hflat, hflat'', List.take_append_drop]
    · rw [List.length_append, pow_succ]
      omega
    · exact (List.mem_append.mp hp).elim (hpieces htake p) (hpieces'' p)
    · have hanswered : answered ((request, .error e) :: (more ++ more')) = answered more ++ answered more' := by
        rw [← answered_append]
        rfl
      rw [hanswered]
      exact passes_append hpasses hne hopens hpasses''

theorem run_eq (model : LanguageModel) (msgs : List Message) (sent : Requests) : ∃ answer, run model msgs sent = (answer, sent ++ [(msgs, answer)]) := ⟨_, rfl⟩

/-- What a fold comes to. The induction is on the splits that are left. -/
theorem fold_spec (model : LanguageModel) (left : Nat) : ∀ (conv : List Message) (sent : Requests),
    ∃ more result, fold model estimatePromptTokens systemMessages left conv sent = (result, sent ++ more) ∧
      Summarises systemMessages conv left more result := by
  induction left with
  | zero =>
    intro conv sent
    obtain ⟨answer, hrun⟩ := run_eq model (buildCompactionMessages systemMessages conv) sent
    refine ⟨_, answer, hrun, ?_⟩
    cases answer with
    | ok summary => exact summarises_run 0 summary
    | error e => exact summarises_error e le_rfl
  | succ left ih =>
    intro conv sent
    obtain ⟨answer, hrun⟩ := run_eq model (buildCompactionMessages systemMessages conv) sent
    have hpow : 4 ≤ 2 ^ (left + 1 + 1) := by
      have hone : 1 ≤ 2 ^ left := Nat.one_le_two_pow
      rw [pow_succ, pow_succ]
      omega
    rw [fold, hrun]
    cases answer with
    | ok summary => exact ⟨_, _, rfl, summarises_run _ summary⟩
    | error e =>
      have hfails : ∀ e' : Failure, Summarises systemMessages conv (left + 1)
          [(buildCompactionMessages systemMessages conv, .error e)] (.error e') := by
        intro e'
        refine summarises_error e' ?_
        rw [List.length_singleton]
        omega
      dsimp only
      split
      · cases hcut : cutOf estimatePromptTokens conv with
        | none => exact ⟨_, _, rfl, hfails e⟩
        | some cut =>
          obtain ⟨more, result, hfold, hhead⟩ := ih (conv.take cut) (sent ++ [(buildCompactionMessages systemMessages conv, .error e)])
          have hshort : ∀ e' : Failure, Summarises systemMessages conv (left + 1)
              ((buildCompactionMessages systemMessages conv, .error e) :: more) (.error e') := by
            intro e'
            refine summarises_error e' ?_
            have hlen := hhead.1
            rw [List.length_cons, pow_succ]
            omega
          dsimp only
          rw [hfold]
          cases result with
          | error e' => exact ⟨_, _, by rw [List.append_assoc]; rfl, hshort e'⟩
          | ok head =>
            dsimp only
            split
            · exact ⟨_, _, by rw [List.append_assoc]; rfl, hshort e⟩
            · rename_i hne
              obtain ⟨more', result, hfold', htail⟩ := ih (carry head (conv.drop cut))
                (sent ++ [(buildCompactionMessages systemMessages conv, .error e)] ++ more)
              exact ⟨_, _, by rw [hfold', List.append_assoc, List.append_assoc]; rfl, summarises_split hcut hne hhead htail⟩
      · exact ⟨_, _, rfl, hfails e⟩

/-! ### The conversation that is folded -/

theorem bare_clear (stale : List String) (m : Message) : bare (m.clear stale) = bare m := by
  cases m with
  | system _ _ => rfl
  | user _ _ => rfl
  | assistant content _ =>
    cases content with
    | string _ => rfl
    | parts ps =>
      simp only [Message.clear, bare, List.filterMap_map]
      congr 2
      refine List.filterMap_congr fun p _ => ?_
      cases p with
      | text _ => rfl
      | reasoning _ => rfl
      | part p =>
        cases p with
        | other _ => rfl
        | toolCall id _ _ _ =>
          by_cases hid : id ∈ stale
          · simp [StepControl.AssistantPart.clear, hid]
          · simp [StepControl.AssistantPart.clear, hid]
  | tool content _ =>
    simp only [Message.clear, bare, List.map_map]
    congr 1
    refine List.map_congr_left fun c _ => ?_
    cases c with
    | approvalResponse _ => rfl
    | toolResult id _ _ =>
      by_cases hid : id ∈ stale
      · simp [StepControl.ToolContent.clear, hid]
      · simp [StepControl.ToolContent.clear, hid]

theorem bare_withoutReasoning {m m' : Message} (h : withoutReasoning m = some m') : bare m' = bare m := by
  cases m with
  | system _ _ =>
    cases h
    rfl
  | user _ _ =>
    cases h
    rfl
  | tool _ _ =>
    cases h
    rfl
  | assistant content opts =>
    cases content with
    | string _ =>
      cases h
      rfl
    | parts ps =>
      simp only [withoutReasoning] at h
      split at h
      · cases h
      · obtain rfl := Option.some.inj h
        simp only [bare, List.filterMap_filter]
        congr 2
        refine List.filterMap_congr fun p _ => ?_
        cases p <;> rfl

theorem dropLast_prune (ms : List Message) (last : Message) :
    ((pruneTurnToolTraffic (ms ++ [last]) ((ms ++ [last]).length - 1)).dropLast).map bare = ms.map bare := by
  unfold pruneTurnToolTraffic
  dsimp only
  generalize StepControl.staleIds _ _ = stale
  split
  · rw [List.dropLast_concat]
  · split
    · rw [List.dropLast_concat]
    · have hlen : (ms ++ [last]).length - 1 = ms.length := by simp
      rw [hlen, List.mapIdx_append, List.mapIdx_singleton, List.dropLast_concat]
      refine List.ext_getElem (by simp) fun i hi hi' => ?_
      rw [List.length_map] at hi'
      simp [Nat.not_le.mpr hi', bare_clear]

theorem bareMessages_bare (msgs : List Message) : (bareMessages msgs).map bare = (msgs.filter (HasContent ·)).map bare := by
  have hbuild : (buildCompactionMessages [] msgs).filterMap withoutReasoning =
      msgs.filterMap withoutReasoning ++ [.user (.string compactionInstruction) none] := by
    rw [buildCompactionMessages, List.nil_append, List.filterMap_append]
    rfl
  rw [bareMessages, hbuild, dropLast_prune]
  induction msgs with
  | nil => rfl
  | cons m msgs ih =>
    cases hm : withoutReasoning m with
    | none =>
      have hnone : ¬HasContent m := by simp [HasContent, hm]
      rw [List.filterMap_cons_none hm, List.filter_cons_of_neg (by simpa using hnone)]
      exact ih (by simp [buildCompactionMessages, withoutReasoning])
    | some m' =>
      have hsome : HasContent m := by simp [HasContent, hm]
      rw [List.filterMap_cons_some hm, List.filter_cons_of_pos (by simpa using hsome), List.map_cons, List.map_cons,
        bare_withoutReasoning hm]
      exact congrArg _ (ih (by simp [buildCompactionMessages, withoutReasoning]))

/-- What the requests of a compaction come to: they are few, and a summary is made of the conversation. -/
structure CompactSpec (systemMessages modelMessages : List Message) (sent : Requests) (result : Except Failure String) : Prop where
  few : sent.length ≤ 9
  passes : ∀ summary, result = .ok summary →
    answered sent = [(buildCompactionMessages systemMessages modelMessages, summary)] ∨
      answered sent = [(foldReasoningIntoText (buildCompactionMessages systemMessages modelMessages), summary)] ∨
      ∃ pieces : List (List Message), pieces.flatten.map bare = (modelMessages.filter (HasContent ·)).map bare ∧ pieces.length ≤ 4 ∧
        Passes systemMessages none pieces (answered sent) summary

theorem compactSpec_shed {modelMessages : List Message} (e : Failure) {sent : Requests} (hlen : sent.length ≤ 2) (hnone : answered sent = []) :
    ∃ sent' result, shed model estimatePromptTokens systemMessages modelMessages e sent = (result, sent') ∧
      CompactSpec systemMessages modelMessages sent' result := by
  rw [shed]
  split
  · obtain ⟨more, result, hfold, hfew, hpasses⟩ := fold_spec model 2 (bareMessages modelMessages) sent
    refine ⟨_, _, hfold, ?_, fun summary hsummary => .inr (.inr ?_)⟩
    · rw [List.length_append]
      omega
    · obtain ⟨pieces, hflat, hcount, -, h⟩ := hpasses summary hsummary
      refine ⟨pieces, by rw [hflat, bareMessages_bare], hcount, ?_⟩
      rwa [answered_append, hnone, List.nil_append]
  · exact ⟨_, _, rfl, by omega, by simp⟩

theorem compactSpec_attempt (model : LanguageModel) (modelMessages : List Message) :
    ∃ sent result, attempt model estimatePromptTokens systemMessages modelMessages = (result, sent) ∧
      CompactSpec systemMessages modelMessages sent result := by
  obtain ⟨answer, hrun⟩ := run_eq model (buildCompactionMessages systemMessages modelMessages) []
  rw [attempt, hrun]
  cases answer with
  | ok summary =>
    refine ⟨_, _, rfl, by simp, ?_⟩
    rintro _ ⟨⟩
    exact .inl rfl
  | error e =>
    dsimp only
    split
    · obtain ⟨answer, hrun⟩ := run_eq model (foldReasoningIntoText (buildCompactionMessages systemMessages modelMessages))
        [(buildCompactionMessages systemMessages modelMessages, .error e)]
      rw [List.nil_append, hrun]
      cases answer with
      | ok summary =>
        refine ⟨_, _, rfl, by simp, ?_⟩
        rintro _ ⟨⟩
        exact .inr (.inl rfl)
      | error e' => exact compactSpec_shed e' (by simp) rfl
    · exact compactSpec_shed e (by simp) rfl

end PassesAux

open PassesAux

/-- **Compaction stops and leaves no message out**, whatever the model answers and however sizes are estimated: at most nine requests are
made, and a summary is the answer to the one request for the conversation, with its reasoning as it is or in its text, or the last answer of
passes over the conversation without its reasoning and tool bodies, one request for each of at most four pieces. -/
theorem compactConversation_passes (model : LanguageModel) (estimatePromptTokens : List Message → Nat)
    (systemMessages modelMessages : List Message) (sourceTrust : Bool) :
    let r := compactConversation model estimatePromptTokens systemMessages modelMessages sourceTrust
    r.2.length ≤ 9 ∧ ∀ summary trust, r.1 = some (summary, trust) → summary ≠ "" ∧ trust = sourceTrust ∧
      (answered r.2 = [(buildCompactionMessages systemMessages modelMessages, summary)] ∨
        answered r.2 = [(foldReasoningIntoText (buildCompactionMessages systemMessages modelMessages), summary)] ∨
        ∃ pieces : List (List Message), pieces.flatten.map bare = (modelMessages.filter (HasContent ·)).map bare ∧ pieces.length ≤ 4 ∧
          Passes systemMessages none pieces (answered r.2) summary) := by
  obtain ⟨sent, result, hattempt, hfew, hpasses⟩ : ∃ sent result,
      attempt model estimatePromptTokens systemMessages modelMessages = (result, sent) ∧ _ := compactSpec_attempt model modelMessages
  dsimp only
  unfold compactConversation
  rw [hattempt]
  cases result with
  | error e => exact ⟨hfew, by simp⟩
  | ok text =>
    refine ⟨hfew, fun summary trust h => ?_⟩
    dsimp only at h
    split at h
    · cases h
    · rename_i hne
      cases h
      exact ⟨hne, rfl, hpasses _ rfl⟩

/-- A model whose first request overflows, and no other. -/
def overflowsOnce : LanguageModel := fun sent _ => if sent = [] then .error ⟨true, false⟩ else .ok "s"

/-- A reply that is reasoning and nothing else is in no request that goes through. -/
theorem compactConversation_false :
    ¬∀ (model : LanguageModel) (estimatePromptTokens : List Message → Nat) (systemMessages modelMessages : List Message)
        (sourceTrust : Bool), ∀ summary trust,
          (compactConversation model estimatePromptTokens systemMessages modelMessages sourceTrust).1 = some (summary, trust) →
            ∃ pieces : List (List Message), pieces.flatten.map roleOf = modelMessages.map roleOf ∧ Passes systemMessages none pieces
              (answered (compactConversation model estimatePromptTokens systemMessages modelMessages sourceTrust).2) summary := by
  intro h
  obtain ⟨pieces, hroles, hpasses⟩ := h overflowsOnce (fun _ => 0) []
    [.user (.string "a") none, .assistant (.parts [.reasoning "r"]) none] true "s" true (by decide +kernel)
  have hanswered : answered (compactConversation overflowsOnce (fun _ => 0) []
      [.user (.string "a") none, .assistant (.parts [.reasoning "r"]) none] true).2 =
        [([.user (.string "a") none, .user (.string compactionInstruction) none], "s")] := by decide +kernel
  rw [hanswered] at hpasses
  generalize hsent : [([Message.user (.string "a") none, .user (.string compactionInstruction) none], "s")] = sent at hpasses
  cases hpasses with
  | @last _ piece _ =>
    have hlen := congrArg (fun sent => sent.map fun r => r.1.length) hsent
    have hroles := congrArg List.length hroles
    simp [buildCompactionMessages, opened] at hlen hroles
    omega
  | next _ _ h =>
    obtain rfl := (List.cons.inj hsent).2
    cases h

end Capka.Compactor

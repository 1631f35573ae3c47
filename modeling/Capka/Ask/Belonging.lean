import Capka.Ask.Collect
import Mathlib.Data.List.Flatten
import Mathlib.Data.List.Nodup

/-!
# Answers belong to their question

A tap names a field and an option, a skip and a text name nothing, and a submission names a message. `Proper` is the condition that
each of them meets the question it was meant for. Under it every value a submission carries was given to a prompt of its question
and field, and no question is applied twice (`answers_belong_of_proper`); a button of a question that is over is enough to answer
another one (`answers_belong_false`).
-/

namespace Capka

namespace CollectState

def liveAt (s : CollectState) (chatId : Nat) : Option Collection := (live s.now chatId s.collections).1

/-- The user of the question gave the value to a prompt of the question and the field. -/
def GivenFor (s : CollectState) (q : Question) (id : String) (value : AskValue) : Prop :=
  ∃ g ∈ s.given, g.prompt ∈ s.prompts ∧ g.userId = q.userId ∧ g.prompt.question = q ∧
    (∃ field ∈ g.prompt.field, field.id = id) ∧ g.value = value

/-- Every value that is submitted was given for its question and field, and no question is submitted twice with outcome applied. -/
structure Upheld (s : CollectState) : Prop where
  inFlight : ∀ sub ∈ s.submissions, ∀ kv ∈ sub.values, s.GivenFor sub.collection.question kv.1 kv.2
  ended : ∀ e ∈ s.log, ∀ kv ∈ e.values, s.GivenFor e.question kv.1 kv.2
  once : ((s.log.filter (fun e => e.outcome = .applied)).map (fun e => e.question.id)).Nodup

/-- A tap on a prompt whose question is not the chat's current one records and skips nothing. -/
def StaleTapLeaves (s : CollectState) (a : CollectAct) (t : CollectState) : Prop :=
  match a with
  | .tap _ p _ _ =>
    (∀ c, s.liveAt p.chatId = some c → c.question ≠ p.question) →
      (∀ chatId, t.liveAt chatId = s.liveAt chatId) ∧ t.submissions = s.submissions ∧ t.log = s.log
  | _ => True

/-- A collection takes what a button carries. -/
def Takes (t : Option String → String → String) (c : Collection) : CallbackData → Prop
  | .choice fieldIdx optIdx =>
    c.cursor = fieldIdx ∧ (((c.field.bind (fieldOptions (t c.locale))).getD [])[optIdx]?).isSome
  | .skip => True

/-- A collection takes typed text. -/
def Typed (c : Collection) : Prop := ∃ field ∈ c.field, field.kind = .text ∨ field.kind = .number

/-- The collection is the one a prompt was sent for, still at its field. -/
def Prompts (c : Collection) (p : Prompt) : Prop := p.question = c.question ∧ p.cursor = c.cursor

/-- The message of a submission has no open question but the submission's own. -/
def Alone (s : CollectState) (i : Nat) : Prop :=
  ∀ sub ∈ s.submissions[i]?, ∀ id ∈ s.waiting sub.collection.question, id = sub.collection.question.id

/-- What a chat takes from its user was meant for the question it has. -/
def Proper (t : Option String → String → String) (s : CollectState) : CollectAct → Prop
  | .tap userId p data _ =>
    ∀ c ∈ s.liveAt p.chatId, c.question.userId = userId → Takes t c data → c.question = p.question
  | .text chatId userId _ seen _ =>
    ∀ c ∈ s.liveAt chatId, c.question.userId = userId → Typed c → ∃ p ∈ seen, Prompts c p
  | .read i => s.Alone i
  | .finish i outcome _ => outcome.records = true → s.Alone i
  | _ => True

/-- A collection of a question on record, whose values were all given for it. -/
def Sound (s : CollectState) (c : Collection) : Prop :=
  c.question ∈ s.asked ∧ ∀ kv ∈ c.collected, s.GivenFor c.question kv.1 kv.2

/-- Everything that is collected, on its way or submitted is sound, and every collection is at a field. -/
structure Held (s : CollectState) : Prop where
  collections : ∀ chatId c, s.collections chatId = some c → s.Sound c ∧ c.cursor < c.question.form.fields.length
  submissions : ∀ sub ∈ s.submissions, s.Sound sub.collection ∧ sub.collection.question.form.fields ≠ []
  log : ∀ e ∈ s.log, ∀ kv ∈ e.values, s.GivenFor e.question kv.1 kv.2

/-- Each answer on record went to its own question, which takes no other. -/
structure Once (s : CollectState) : Prop where
  ids : (s.asked.map Question.id).Nodup
  loaded : ∀ sub ∈ s.submissions, ∀ id rest, sub.loaded = some (id, rest) → id = sub.collection.question.id ∧ rest = []
  applied : ∀ e ∈ s.log, e.outcome = .applied → e.recorded = [e.question.id]
  closed : ∀ e ∈ s.log, ∀ id ∈ e.recorded, id ∉ s.unanswered ∧ ∃ q ∈ s.asked, q.id = id
  once : (s.log.flatMap Submitted.recorded).Nodup

namespace BelongingAux

/-! ### Looking at a chat -/

theorem live_fst (now chatId : Nat) (C : Collections) :
    (live now chatId C).1 = (C chatId).filter (fun c => !c.expired now) := by
  unfold live
  cases C chatId with
  | none => rfl
  | some c => by_cases hx : c.expired now <;> simp [hx, Option.filter_some]

variable {s : CollectState} {chatId : Nat} {c : Collection}

theorem collections_of_live (h : s.liveAt chatId = some c) :
    s.collections chatId = some c := by
  unfold liveAt at h
  rw [live_fst, Option.filter_eq_some_iff] at h
  exact h.1

theorem looked_collections (s : CollectState) (chatId id : Nat) :
    (s.looked chatId).collections id = if id = chatId then s.liveAt id else s.collections id := by
  simp only [looked, liveAt, live_fst]
  unfold live
  by_cases hid : id = chatId
  · subst hid
    cases hc : s.collections id with
    | none => simp [hc]
    | some c => by_cases hx : c.expired s.now <;> simp [hc, hx, Option.filter_some]
  · cases hc : s.collections chatId with
    | none => simp [hid]
    | some c => by_cases hx : c.expired s.now <;> simp [hid, hx]

theorem collections_of_looked {id : Nat}
    (h : (s.looked chatId).collections id = some c) : s.collections id = some c := by
  rw [looked_collections] at h
  split at h
  · exact collections_of_live h
  · exact h

theorem liveAt_looked (s : CollectState) (chatId id : Nat) : (s.looked chatId).liveAt id = s.liveAt id := by
  have hnow : (s.looked chatId).now = s.now := rfl
  unfold liveAt
  rw [live_fst, live_fst, looked_collections, hnow]
  split
  · rw [liveAt, live_fst, Option.filter_filter]
    simp
  · rfl

/-! ### What is held -/

variable {q : Question} {id : String} {value : AskValue}

theorem GivenFor.mono {t : CollectState} (hgiven : s.given ⊆ t.given) (hprompts : s.prompts ⊆ t.prompts)
    (h : s.GivenFor q id value) : t.GivenFor q id value := by
  obtain ⟨g, hg, hp, hrest⟩ := h
  exact ⟨g, hgiven hg, hprompts hp, hrest⟩

/-- `t` has at least what `s` has on record. -/
structure Grows (s t : CollectState) : Prop where
  asked : s.asked ⊆ t.asked
  given : s.given ⊆ t.given
  prompts : s.prompts ⊆ t.prompts

theorem Sound.mono {t : CollectState} (hG : Grows s t) (h : s.Sound c) : t.Sound c :=
  ⟨hG.asked h.1, fun kv hkv => GivenFor.mono hG.given hG.prompts (h.2 kv hkv)⟩

theorem held_grows {t : CollectState} (hH : Held s) (hG : Grows s t)
    (hC : ∀ chatId c, t.collections chatId = some c → s.collections chatId = some c) (hS : t.submissions = s.submissions)
    (hL : t.log = s.log) : Held t := by
  constructor
  · intro chatId c hc
    obtain ⟨hsound, hlt⟩ := hH.collections chatId c (hC chatId c hc)
    exact ⟨Sound.mono hG hsound, hlt⟩
  · rw [hS]
    exact fun sub hsub => ⟨Sound.mono hG (hH.submissions sub hsub).1, (hH.submissions sub hsub).2⟩
  · rw [hL]
    exact fun e he kv hkv => GivenFor.mono hG.given hG.prompts (hH.log e he kv hkv)

theorem grows_promptField (s : CollectState) (chatId : Nat) (c : Collection) (sent : Bool) :
    Grows s (s.promptField chatId c sent) := by
  refine ⟨List.Subset.refl _, List.Subset.refl _, ?_⟩
  unfold promptField
  split
  · exact List.subset_append_left _ _
  · exact List.Subset.refl _

theorem held_looked (hH : Held s) (chatId : Nat) : Held (s.looked chatId) :=
  held_grows hH (t := s.looked chatId) ⟨List.Subset.refl _, List.Subset.refl _, List.Subset.refl _⟩
    (fun _ _ hc => collections_of_looked hc) rfl rfl

theorem held_promptField (hH : Held s) (chatId : Nat) (c : Collection) (sent : Bool) :
    Held (s.promptField chatId c sent) :=
  held_grows hH (grows_promptField s chatId c sent) (fun _ _ hc => hc) rfl rfl

theorem held_put (hH : Held s) (hc : s.Sound c)
    (hlt : c.cursor < c.question.form.fields.length) : Held (s.put chatId c) := by
  refine ⟨?_, hH.submissions, hH.log⟩
  intro id c' h
  simp only [put, Function.update_apply] at h
  split at h
  · cases h
    exact ⟨hc, hlt⟩
  · exact hH.collections id c' h

theorem held_submit (hH : Held s) (action : AskAction) (hc : s.Sound c)
    (hne : c.question.form.fields ≠ []) : Held (s.submit chatId c action) := by
  refine ⟨?_, ?_, hH.log⟩
  · intro id c' h
    simp only [submit, Function.update_apply] at h
    split at h
    · cases h
    · exact hH.collections id c' h
  · intro sub hsub
    rcases List.mem_append.mp hsub with hsub | hsub
    · exact hH.submissions sub hsub
    · rw [List.mem_singleton.mp hsub]
      exact ⟨hc, hne⟩

theorem held_advance (hH : Held s) (sent : Bool) (hc : s.Sound c)
    (hne : c.question.form.fields ≠ []) : Held (s.advance chatId c sent) := by
  unfold advance
  dsimp only
  split
  · exact held_submit hH .submit hc hne
  · rename_i hlt
    exact held_promptField (held_put (c := { c with cursor := c.cursor + 1 }) hH hc (Nat.lt_of_not_le hlt)) _ _ _

theorem mem_assign {kv : String × AskValue}
    (h : kv ∈ (c.assign id value).collected) : kv ∈ c.collected ∨ kv = (id, value) := by
  unfold Collection.assign at h
  split at h
  · exact .inl h
  · split at h
    · obtain ⟨kv', hkv', heq⟩ := List.mem_map.mp h
      split at heq
      · exact .inr heq.symm
      · subst heq
        exact .inl hkv'
    · rcases List.mem_append.mp h with h | h
      · exact .inl h
      · exact .inr (List.mem_singleton.mp h)

@[simp] theorem assign_question (c : Collection) (id : String) (value : AskValue) : (c.assign id value).question = c.question := by
  unfold Collection.assign
  split
  · rfl
  · split <;> rfl

theorem sound_assign (hc : s.Sound c)
    (hv : s.GivenFor c.question id value) : s.Sound (c.assign id value) := by
  constructor
  · rw [assign_question]
    exact hc.1
  · rw [assign_question]
    intro kv hkv
    rcases mem_assign hkv with hkv | rfl
    · exact hc.2 kv hkv
    · exact hv

variable {sent : Bool}

theorem held_start (hH : Held s) {locale : Option String} {ttlMs : Option Nat}
    (hq : q ∈ s.asked) : Held (s.startAskCollection chatId q locale ttlMs sent) := by
  unfold startAskCollection
  split
  · exact hH
  · rename_i hne
    apply held_promptField
    apply held_put
    · refine held_grows hH ⟨List.Subset.refl _, List.Subset.refl _, List.Subset.refl _⟩ ?_ rfl rfl
      intro id c hc
      dsimp only at hc
      rw [Option.filter_eq_some_iff] at hc
      exact hc.1
    · exact ⟨hq, fun kv hkv => absurd hkv List.not_mem_nil⟩
    · exact List.length_pos_iff.mpr hne

/-! ### Taps and texts -/

theorem fieldOptions_values (t t' : String → String) (field : AskField) :
    ((fieldOptions t field).getD []).map AskOption.value = ((fieldOptions t' field).getD []).map AskOption.value := by
  unfold fieldOptions
  cases field.kind <;> rfl

variable {t : Option String → String → String} {p : Prompt}

theorem cursor_of_button {fieldIdx optIdx : Nat}
    (h : .choice fieldIdx optIdx ∈ (p.buttons t).map Prod.snd) : fieldIdx = p.cursor := by
  unfold Prompt.buttons at h
  simp only [List.map_append, List.map_map, List.mem_append, List.mem_map, List.map_cons, List.map_nil, List.mem_singleton,
    reduceCtorEq, or_false] at h
  obtain ⟨⟨op, i⟩, _, heq⟩ := h
  cases heq
  rfl

theorem onTap_cases (t : Option String → String → String) (s : CollectState) (userId : Nat) (p : Prompt) (data : CallbackData)
    (sent : Bool) :
    (s.onTap t userId p data sent = s.looked p.chatId ∧
        ∀ c ∈ s.liveAt p.chatId, c.question.userId = userId → ¬Takes t c data) ∨
      ∃ c ∈ s.liveAt p.chatId, c.question.userId = userId ∧ Takes t c data ∧
        ((∃ optIdx field op, data = .choice c.cursor optIdx ∧ c.field = some field ∧
            ((fieldOptions (t c.locale) field).getD [])[optIdx]? = some op ∧
            s.onTap t userId p data sent =
              (s.looked p.chatId).advance p.chatId (c.assign field.id (.one op.value)) sent) ∨
          (data = .skip ∧ s.onTap t userId p data sent = (s.looked p.chatId).submit p.chatId c .skip)) := by
  cases data with
  | skip =>
    dsimp only [onTap, onAskSkip]
    cases hc : s.liveAt p.chatId with
    | none =>
      simp only [liveAt] at hc
      rw [hc]
      exact .inl ⟨rfl, nofun⟩
    | some c =>
      simp only [liveAt] at hc
      rw [hc]
      by_cases howner : c.question.userId = userId
      · exact .inr ⟨c, rfl, howner, trivial, .inr ⟨rfl, by simp [howner]⟩⟩
      · refine .inl ⟨by simp [howner], ?_⟩
        rintro c' hc' howner'
        cases hc'
        exact absurd howner' howner
  | choice fieldIdx optIdx =>
    dsimp only [onTap, onAskChoice]
    cases hc : s.liveAt p.chatId with
    | none =>
      simp only [liveAt] at hc
      rw [hc]
      exact .inl ⟨rfl, nofun⟩
    | some c =>
      simp only [liveAt] at hc
      rw [hc]
      by_cases hgo : c.question.userId = userId ∧ Takes t c (.choice fieldIdx optIdx)
      · obtain ⟨howner, hcursor, hop⟩ := hgo
        obtain ⟨op, hop⟩ := Option.isSome_iff_exists.mp hop
        cases hf : c.field with
        | none => simp [hf] at hop
        | some field =>
          simp only [hf, Option.bind_some] at hop
          refine .inr ⟨c, rfl, howner, ⟨hcursor, by simp [hf, hop]⟩, .inl ⟨optIdx, field, op, by rw [hcursor], hf, hop, ?_⟩⟩
          simp [howner, hcursor, hf, hop]
      · refine .inl ⟨?_, ?_⟩
        · dsimp only
          split
          · rfl
          · rename_i hboth
            rw [not_or, Decidable.not_not, Decidable.not_not] at hboth
            cases hf : c.field with
            | none => rfl
            | some field =>
              dsimp only
              cases hop : ((fieldOptions (t c.locale) field).getD [])[optIdx]? with
              | none => rfl
              | some op => exact absurd ⟨hboth.1, hboth.2, by simp [hf, hop]⟩ hgo
        · rintro c' hc' howner htakes
          cases hc'
          exact hgo ⟨howner, htakes⟩

theorem onAskText_cases (s : CollectState) (chatId userId : Nat) (text : String) (sent : Bool) :
    (s.onAskText chatId userId text sent).1 = s.looked chatId ∨
      ∃ c ∈ s.liveAt chatId, c.question.userId = userId ∧ Typed c ∧ ∃ field, c.field = some field ∧
        (s.onAskText chatId userId text sent).1 =
          (s.looked chatId).advance chatId (c.assign field.id (.one text)) sent := by
  unfold onAskText
  cases hc : s.liveAt chatId with
  | none =>
    simp only [liveAt] at hc
    rw [hc]
    exact .inl rfl
  | some c =>
    simp only [liveAt] at hc
    rw [hc]
    dsimp only
    split
    · exact .inl rfl
    · rename_i howner
      split
      · exact .inl rfl
      · rename_i field hf
        split
        · exact .inl rfl
        · rename_i hkind
          rw [not_and_or, Decidable.not_not, Decidable.not_not] at hkind
          exact .inr ⟨c, rfl, Decidable.not_not.mp howner, ⟨field, hf, hkind⟩, field, hf, rfl⟩

theorem field_of_prompts (h : Prompts c p) : p.field = c.field := by
  unfold Prompt.field Collection.field
  rw [h.1, h.2]

variable {s' : CollectState}

theorem held_tap {userId : Nat} {data : CallbackData}
    (hH : Held s) (hok : s.Proper t (.tap userId p data sent))
    (h : s.step t (.tap userId p data sent) = some s') : Held s' := by
  simp only [step, Option.ite_none_right_eq_some, Option.some.injEq] at h
  obtain ⟨⟨hp, hbutton⟩, rfl⟩ := h
  generalize hs₁ : ({ s with given := s.given ++ tapped t userId p data } : CollectState) = s₁
  have hG : Grows s s₁ := by
    rw [← hs₁]
    exact ⟨List.Subset.refl _, List.subset_append_left _ _, List.Subset.refl _⟩
  have hH₁ : Held s₁ := held_grows hH hG (by rw [← hs₁]; exact fun _ _ hc => hc) (by rw [← hs₁]) (by rw [← hs₁])
  have hlive : s₁.liveAt p.chatId = s.liveAt p.chatId := by rw [← hs₁]; rfl
  have hlooked := held_looked hH₁ p.chatId
  rcases onTap_cases t s₁ userId p data sent with ⟨heq, _⟩ | ⟨c, hc, howner, htakes, hcase⟩
  · rw [heq]
    exact hlooked
  · rw [hlive] at hc
    have hq : c.question = p.question := hok c hc howner htakes
    obtain ⟨⟨hasked, hvals⟩, hlt⟩ := hH.collections _ c (collections_of_live hc)
    have hsound : (s₁.looked p.chatId).Sound c := Sound.mono (t := s₁.looked p.chatId) ⟨hG.asked, hG.given, hG.prompts⟩ ⟨hasked, hvals⟩
    have hne : c.question.form.fields ≠ [] := List.length_pos_iff.mp (Nat.zero_lt_of_lt hlt)
    rcases hcase with ⟨optIdx, field, op, rfl, hf, hop, heq⟩ | ⟨_, heq⟩
    · rw [heq]
      have hprompts : Prompts c p := ⟨hq.symm, (cursor_of_button hbutton).symm⟩
      have hpf := (field_of_prompts hprompts).trans hf
      refine held_advance hlooked sent (sound_assign hsound ?_) (by rwa [assign_question])
      have hvalue : ((p.options t)[optIdx]?).map AskOption.value = some op.value := by
        have hvals := fieldOptions_values (t p.locale) (t c.locale) field
        rw [Prompt.options, hpf, Option.bind_some, ← List.getElem?_map, hvals, List.getElem?_map, hop]
        rfl
      obtain ⟨op', hop', hval⟩ := Option.map_eq_some_iff.mp hvalue
      refine ⟨⟨userId, p, .one op'.value⟩, ?_, hG.prompts hp, howner.symm, hq.symm, ⟨field, hpf, rfl⟩, by rw [hval]⟩
      have : (⟨userId, p, .one op'.value⟩ : Given) ∈ s₁.given := by
        rw [← hs₁]
        exact List.mem_append_right _ (by simp [tapped, hop'])
      exact this
    · rw [heq]
      exact held_submit hlooked .skip hsound hne

theorem held_text {userId : Nat} {text : String}
    {seen : Option Prompt} (hH : Held s) (hok : s.Proper t (.text chatId userId text seen sent))
    (h : s.step t (.text chatId userId text seen sent) = some s') : Held s' := by
  simp only [step, Option.ite_none_right_eq_some, Option.some.injEq] at h
  obtain ⟨hseen, rfl⟩ := h
  generalize hs₁ : ({ s with given := s.given ++ (seen.map (fun p => (⟨userId, p, .one text⟩ : Given))).toList } :
    CollectState) = s₁
  have hG : Grows s s₁ := by
    rw [← hs₁]
    exact ⟨List.Subset.refl _, List.subset_append_left _ _, List.Subset.refl _⟩
  have hH₁ : Held s₁ := held_grows hH hG (by rw [← hs₁]; exact fun _ _ hc => hc) (by rw [← hs₁]) (by rw [← hs₁])
  have hlive : s₁.liveAt chatId = s.liveAt chatId := by rw [← hs₁]; rfl
  have hlooked := held_looked hH₁ chatId
  rcases onAskText_cases s₁ chatId userId text sent with heq | ⟨c, hc, howner, htyped, field, hf, heq⟩
  · rw [heq]
    exact hlooked
  · rw [hlive] at hc
    obtain ⟨p, hp, hprompts⟩ := hok c hc howner htyped
    obtain ⟨⟨hasked, hvals⟩, hlt⟩ := hH.collections _ c (collections_of_live hc)
    have hsound : (s₁.looked chatId).Sound c := Sound.mono (t := s₁.looked chatId) ⟨hG.asked, hG.given, hG.prompts⟩ ⟨hasked, hvals⟩
    have hne : c.question.form.fields ≠ [] := List.length_pos_iff.mp (Nat.zero_lt_of_lt hlt)
    rw [heq]
    refine held_advance hlooked sent (sound_assign hsound ?_) (by rwa [assign_question])
    refine ⟨⟨userId, p, .one text⟩, ?_, hG.prompts (hseen p hp).1, howner.symm, hprompts.1,
      ⟨field, (field_of_prompts hprompts).trans hf, rfl⟩, rfl⟩
    have : (⟨userId, p, .one text⟩ : Given) ∈ s₁.given := by
      rw [← hs₁]
      rw [Option.mem_def] at hp
      exact List.mem_append_right _ (by simp [hp])
    exact this

/-! ### Submissions that end -/

variable {sub : Submission}

theorem mem_collected_of_values {kv : String × AskValue} (h : kv ∈ sub.values) :
    kv ∈ sub.collection.collected := by
  unfold Submission.values at h
  split at h
  · exact h
  · exact absurd h List.not_mem_nil

variable {i : Nat}

theorem held_ended (hH : Held s) (hsub : sub ∈ s.submissions)
    (outcome : AnswerOutcome) (recorded unanswered : List Nat) : Held (s.ended i sub outcome recorded unanswered) := by
  refine ⟨hH.collections, fun sub' hsub' => hH.submissions sub' (List.mem_of_mem_eraseIdx hsub'), ?_⟩
  intro e he kv hkv
  rcases List.mem_append.mp he with he | he
  · exact hH.log e he kv hkv
  · obtain rfl := List.mem_singleton.mp he
    exact (hH.submissions sub hsub).1.2 kv (mem_collected_of_values hkv)

theorem held_reoffer (hH : Held s) (sent : Bool) (hsound : s.Sound sub.collection)
    (hne : sub.collection.question.form.fields ≠ []) : Held (s.reoffer sub sent) := by
  unfold reoffer
  split
  · exact hH
  · apply held_promptField
    apply held_put hH
    · exact hsound
    · have hpos := List.length_pos_iff.mpr hne
      exact Nat.lt_of_le_of_lt (Nat.min_le_right _ _) (Nat.sub_lt hpos Nat.one_pos)

theorem held_read (hH : Held s) (h : s.read i = some s') : Held s' := by
  simp only [read, Option.bind_eq_some_iff, Option.ite_none_right_eq_some] at h
  obtain ⟨sub, hget, _, h⟩ := h
  have hsub := List.mem_of_getElem? hget
  split at h
  · cases h
    exact held_ended hH hsub _ _ _
  · cases h
    refine ⟨hH.collections, fun sub' hsub' => ?_, hH.log⟩
    rcases List.mem_or_eq_of_mem_set hsub' with hsub' | rfl
    · exact hH.submissions sub' hsub'
    · exact hH.submissions sub hsub

variable {outcome : AnswerOutcome}

theorem finishAsk_cases
    (h : s.finishAsk i sub outcome sent = some s') :
    (outcome.records = true ∧ ∃ id rest, sub.loaded = some (id, rest) ∧ s.waiting sub.collection.question ≠ [] ∧
        s' = s.ended i sub outcome [id]
          (s.unanswered.filter (fun id' => id' ∉ s.addressed sub.collection.question) ++ rest)) ∨
      (outcome.records = false ∧ (s' = s.ended i sub outcome [] s.unanswered ∨
        s' = (s.ended i sub outcome [] s.unanswered).reoffer sub sent)) := by
  unfold finishAsk at h
  split at h
  · simp only [Option.ite_none_right_eq_some, Option.some.injEq] at h
    obtain ⟨rfl, rfl⟩ := h
    exact .inr ⟨rfl, .inl rfl⟩
  · rename_i id rest hloaded
    split at h
    · rename_i hrec
      simp only [Option.ite_none_left_eq_some, Option.some.injEq] at h
      obtain ⟨hne, rfl⟩ := h
      exact .inl ⟨hrec, id, rest, hloaded, hne, rfl⟩
    · rename_i hrec
      rw [Bool.not_eq_true] at hrec
      split at h
      · cases h
        exact .inr ⟨hrec, .inr rfl⟩
      · cases h
        exact .inr ⟨hrec, .inl rfl⟩

theorem finishElicitation_cases
    (h : s.finishElicitation i sub outcome = some s') :
    (outcome = .applied ∧ s.waiting sub.collection.question ≠ [] ∧
        s' = s.ended i sub outcome (s.waiting sub.collection.question)
          (s.unanswered.filter (fun id => id ∉ s.waiting sub.collection.question))) ∨
      (outcome.records = false ∧ s' = s.ended i sub outcome [] s.unanswered) := by
  unfold finishElicitation at h
  cases outcome with
  | applied =>
    simp only [Option.ite_none_left_eq_some, Option.some.injEq] at h
    exact .inl ⟨rfl, h.1, h.2.symm⟩
  | gone =>
    simp only [Option.ite_none_right_eq_some, Option.some.injEq] at h
    exact .inr ⟨rfl, h.2.symm⟩
  | threw =>
    cases h
    exact .inr ⟨rfl, rfl⟩
  | failed => cases h
  | busy => cases h
  | budget => cases h
  | limited => cases h
  | lost => cases h

theorem held_finish (hH : Held s)
    (h : s.finish i outcome sent = some s') : Held s' := by
  simp only [finish, Option.bind_eq_some_iff] at h
  obtain ⟨sub, hget, h⟩ := h
  have hsub := List.mem_of_getElem? hget
  split at h
  · rcases finishAsk_cases h with ⟨_, _, _, _, _, rfl⟩ | ⟨_, rfl | rfl⟩
    · exact held_ended hH hsub _ _ _
    · exact held_ended hH hsub _ _ _
    · exact held_reoffer (held_ended hH hsub _ _ _) sent (hH.submissions sub hsub).1 (hH.submissions sub hsub).2
  · rcases finishElicitation_cases h with ⟨_, _, rfl⟩ | ⟨_, rfl⟩
    · exact held_ended hH hsub _ _ _
    · exact held_ended hH hsub _ _ _

variable {a : CollectAct}

theorem held_step (hH : Held s)
    (hok : s.Proper t a) (h : s.step t a = some s') : Held s' := by
  cases a with
  | tick ms | close id =>
    cases h
    exact held_grows hH ⟨List.Subset.refl _, List.Subset.refl _, List.Subset.refl _⟩ (fun _ _ hc => hc) rfl rfl
  | raise q =>
    simp only [step, Option.ite_none_right_eq_some, Option.some.injEq] at h
    obtain ⟨_, rfl⟩ := h
    exact held_grows hH ⟨List.subset_append_left _ _, List.Subset.refl _, List.Subset.refl _⟩ (fun _ _ hc => hc) rfl rfl
  | start chatId q locale ttlMs sent =>
    simp only [step, Option.ite_none_right_eq_some, Option.some.injEq] at h
    obtain ⟨hq, rfl⟩ := h
    exact held_start hH hq
  | tap userId p data sent => exact held_tap hH hok h
  | text chatId userId text seen sent => exact held_text hH hok h
  | read i => exact held_read hH h
  | finish i outcome sent => exact held_finish hH h

/-! ### At most once -/

/-- A step that only puts collections on their way. -/
structure Collects (s t : CollectState) : Prop where
  asked : t.asked = s.asked
  unanswered : t.unanswered = s.unanswered
  log : t.log = s.log
  submissions : ∀ sub ∈ t.submissions, sub ∈ s.submissions ∨ sub.loaded = none

theorem once_collects {t : CollectState} (hO : Once s) (hC : Collects s t) : Once t := by
  constructor
  · rw [hC.asked]
    exact hO.ids
  · intro sub hsub id rest hl
    rcases hC.submissions sub hsub with hsub | hnone
    · exact hO.loaded sub hsub id rest hl
    · rw [hnone] at hl
      cases hl
  · rw [hC.log]
    exact hO.applied
  · rw [hC.log, hC.unanswered, hC.asked]
    exact hO.closed
  · rw [hC.log]
    exact hO.once

theorem collects_advance (s : CollectState) (chatId : Nat) (c : Collection) (sent : Bool) :
    Collects s (s.advance chatId c sent) := by
  unfold advance
  dsimp only
  split
  · refine ⟨rfl, rfl, rfl, fun sub hsub => ?_⟩
    rcases List.mem_append.mp hsub with hsub | hsub
    · exact .inl hsub
    · rw [List.mem_singleton.mp hsub]
      exact .inr rfl
  · exact ⟨rfl, rfl, rfl, fun _ hsub => .inl hsub⟩

theorem collects_onTap (t : Option String → String → String) (s : CollectState) (userId : Nat) (p : Prompt)
    (data : CallbackData) (sent : Bool) : Collects s (s.onTap t userId p data sent) := by
  rcases onTap_cases t s userId p data sent with ⟨heq, _⟩ | ⟨c, _, _, _, ⟨_, _, _, _, _, _, heq⟩ | ⟨_, heq⟩⟩
  · rw [heq]
    exact ⟨rfl, rfl, rfl, fun _ hsub => .inl hsub⟩
  · rw [heq]
    obtain ⟨h₁, h₂, h₃, h₄⟩ := collects_advance (s.looked p.chatId) p.chatId (c.assign _ _) sent
    exact ⟨h₁, h₂, h₃, h₄⟩
  · rw [heq]
    refine ⟨rfl, rfl, rfl, fun sub hsub => ?_⟩
    rcases List.mem_append.mp hsub with hsub | hsub
    · exact .inl hsub
    · rw [List.mem_singleton.mp hsub]
      exact .inr rfl

theorem collects_onAskText (s : CollectState) (chatId userId : Nat) (text : String) (sent : Bool) :
    Collects s (s.onAskText chatId userId text sent).1 := by
  rcases onAskText_cases s chatId userId text sent with heq | ⟨c, _, _, _, _, _, heq⟩
  · rw [heq]
    exact ⟨rfl, rfl, rfl, fun _ hsub => .inl hsub⟩
  · rw [heq]
    obtain ⟨h₁, h₂, h₃, h₄⟩ := collects_advance (s.looked chatId) chatId (c.assign _ _) sent
    exact ⟨h₁, h₂, h₃, h₄⟩

theorem once_ended {recorded unanswered : List Nat}
    (hO : Once s) (happ : outcome = .applied → recorded = [sub.collection.question.id])
    (hrec : ∀ id ∈ recorded, id ∈ s.unanswered ∧ id ∉ unanswered ∧ ∃ q ∈ s.asked, q.id = id) (hnodup : recorded.Nodup)
    (hun : unanswered ⊆ s.unanswered) : Once (s.ended i sub outcome recorded unanswered) := by
  refine ⟨hO.ids, fun sub' hsub' => hO.loaded sub' (List.mem_of_mem_eraseIdx hsub'), ?_, ?_, ?_⟩
  · intro e he heq
    rcases List.mem_append.mp he with he | he
    · exact hO.applied e he heq
    · obtain rfl := List.mem_singleton.mp he
      exact happ heq
  · intro e he id hid
    rcases List.mem_append.mp he with he | he
    · obtain ⟨hnot, hq⟩ := hO.closed e he id hid
      exact ⟨fun hin => hnot (hun hin), hq⟩
    · obtain rfl := List.mem_singleton.mp he
      exact (hrec id hid).2
  · have hflat : (s.ended i sub outcome recorded unanswered).log.flatMap Submitted.recorded =
        s.log.flatMap Submitted.recorded ++ recorded := by
      simp [ended]
    rw [hflat, List.nodup_append]
    refine ⟨hO.once, hnodup, ?_⟩
    rintro id hid id' hid' rfl
    obtain ⟨e, he, hide⟩ := List.mem_flatMap.mp hid
    exact (hO.closed e he id hide).1 (hrec id hid').1

theorem mem_addressed (hq : q ∈ s.asked) : q.id ∈ s.addressed q :=
  List.mem_map.mpr ⟨q, List.mem_filter.mpr ⟨hq, by simp⟩, rfl⟩

theorem waiting_of_alone (hO : Once s) (hget : s.submissions[i]? = some sub)
    (hA : s.Alone i) (hne : s.waiting sub.collection.question ≠ []) :
    s.waiting sub.collection.question = [sub.collection.question.id] ∧ sub.collection.question.id ∈ s.unanswered := by
  have hall := hA sub hget
  have hnodup : (s.waiting sub.collection.question).Nodup :=
    (hO.ids.sublist (List.filter_sublist.map Question.id)).sublist List.filter_sublist
  have hrep := List.eq_replicate_of_mem hall
  have hle : (s.waiting sub.collection.question).length ≤ 1 := by
    rw [hrep] at hnodup
    exact List.nodup_replicate.mp hnodup
  have hlen : (s.waiting sub.collection.question).length = 1 := by
    have := List.length_pos_iff.mpr hne
    omega
  rw [hlen] at hrep
  refine ⟨hrep, ?_⟩
  have hmem : sub.collection.question.id ∈ s.waiting sub.collection.question := by
    rw [hrep]
    exact List.mem_cons_self
  exact of_decide_eq_true (List.mem_filter.mp hmem).2

theorem once_read (hO : Once s) (hA : s.Alone i) (h : s.read i = some s') : Once s' := by
  simp only [read, Option.bind_eq_some_iff, Option.ite_none_right_eq_some] at h
  obtain ⟨sub, hget, _, h⟩ := h
  split at h
  · cases h
    exact once_ended hO nofun (fun _ hid => absurd hid List.not_mem_nil) List.nodup_nil (List.Subset.refl _)
  · rename_i id rest hw
    cases h
    obtain ⟨hone, _⟩ := waiting_of_alone hO hget hA (by rw [hw]; simp)
    rw [hone] at hw
    cases hw
    refine ⟨hO.ids, fun sub' hsub' id rest hl => ?_, hO.applied, hO.closed, hO.once⟩
    rcases List.mem_or_eq_of_mem_set hsub' with hsub' | rfl
    · exact hO.loaded sub' hsub' id rest hl
    · cases hl
      exact ⟨rfl, rfl⟩

theorem once_finish (hH : Held s) (hO : Once s)
    (hA : outcome.records = true → s.Alone i) (h : s.finish i outcome sent = some s') : Once s' := by
  simp only [finish, Option.bind_eq_some_iff] at h
  obtain ⟨sub, hget, h⟩ := h
  have hsub := List.mem_of_getElem? hget
  have hasked := (hH.submissions sub hsub).1.1
  have hnone : outcome.records = false → Once (s.ended i sub outcome [] s.unanswered) := by
    intro hrec
    refine once_ended hO ?_ (fun _ hid => absurd hid List.not_mem_nil) List.nodup_nil (List.Subset.refl _)
    rintro rfl
    cases hrec
  split at h
  · rcases finishAsk_cases h with ⟨hrec, id, rest, hl, hne, rfl⟩ | ⟨hrec, rfl | rfl⟩
    · obtain ⟨hone, hin⟩ := waiting_of_alone hO hget (hA hrec) hne
      obtain ⟨rfl, rfl⟩ := hO.loaded sub hsub id rest hl
      rw [List.append_nil]
      refine once_ended hO (fun _ => rfl) ?_ (List.nodup_singleton _) (List.filter_subset_self _)
      intro id hid
      obtain rfl := List.mem_singleton.mp hid
      refine ⟨hin, fun hmem => ?_, sub.collection.question, hasked, rfl⟩
      exact of_decide_eq_true (List.mem_filter.mp hmem).2 (mem_addressed hasked)
    · exact hnone hrec
    · refine once_collects (hnone hrec) ?_
      unfold reoffer
      split
      · exact ⟨rfl, rfl, rfl, fun _ h => .inl h⟩
      · exact ⟨rfl, rfl, rfl, fun _ h => .inl h⟩
  · rcases finishElicitation_cases h with ⟨rfl, hne, rfl⟩ | ⟨hrec, rfl⟩
    · obtain ⟨hone, hin⟩ := waiting_of_alone hO hget (hA rfl) hne
      rw [hone]
      refine once_ended hO (fun _ => rfl) ?_ (List.nodup_singleton _) (List.filter_subset_self _)
      intro id hid
      obtain rfl := List.mem_singleton.mp hid
      refine ⟨hin, fun hmem => ?_, sub.collection.question, hasked, rfl⟩
      exact of_decide_eq_true (List.mem_filter.mp hmem).2 hid
    · exact hnone hrec

theorem once_step (hH : Held s) (hO : Once s)
    (hok : s.Proper t a) (h : s.step t a = some s') : Once s' := by
  cases a with
  | tick ms =>
    cases h
    exact once_collects hO ⟨rfl, rfl, rfl, fun _ h => .inl h⟩
  | raise q =>
    simp only [step, Option.ite_none_right_eq_some, Option.some.injEq] at h
    obtain ⟨hfresh, rfl⟩ := h
    refine ⟨?_, hO.loaded, hO.applied, ?_, hO.once⟩
    · rw [List.map_append, List.map_singleton, List.nodup_append]
      refine ⟨hO.ids, List.nodup_singleton _, ?_⟩
      intro id hid id' hid' heq
      obtain ⟨q', hq', rfl⟩ := List.mem_map.mp hid
      exact hfresh q' hq' (heq.trans (List.mem_singleton.mp hid'))
    · intro e he id hid
      obtain ⟨hnot, q', hq', rfl⟩ := hO.closed e he id hid
      refine ⟨fun hin => ?_, q', List.mem_append_left _ hq', rfl⟩
      rcases List.mem_append.mp hin with hin | hin
      · exact hnot hin
      · exact hfresh q' hq' (List.mem_singleton.mp hin)
  | close id =>
    cases h
    refine ⟨hO.ids, hO.loaded, hO.applied, fun e he id' hid => ?_, hO.once⟩
    obtain ⟨hnot, hq⟩ := hO.closed e he id' hid
    exact ⟨fun hin => hnot (List.mem_filter.mp hin).1, hq⟩
  | start chatId q locale ttlMs sent =>
    simp only [step, Option.ite_none_right_eq_some, Option.some.injEq] at h
    obtain ⟨_, rfl⟩ := h
    refine once_collects hO ?_
    unfold startAskCollection
    split
    · exact ⟨rfl, rfl, rfl, fun _ h => .inl h⟩
    · exact ⟨rfl, rfl, rfl, fun _ h => .inl h⟩
  | tap userId p data sent =>
    simp only [step, Option.ite_none_right_eq_some, Option.some.injEq] at h
    obtain ⟨_, rfl⟩ := h
    obtain ⟨h₁, h₂, h₃, h₄⟩ := collects_onTap t { s with given := s.given ++ tapped t userId p data } userId p data sent
    exact once_collects hO ⟨h₁, h₂, h₃, h₄⟩
  | text chatId userId text seen sent =>
    simp only [step, Option.ite_none_right_eq_some, Option.some.injEq] at h
    obtain ⟨_, rfl⟩ := h
    obtain ⟨h₁, h₂, h₃, h₄⟩ := collects_onAskText _ chatId userId text sent
    exact once_collects hO ⟨h₁, h₂, h₃, h₄⟩
  | read i => exact once_read hO hok h
  | finish i outcome sent => exact once_finish hH hO hok h

theorem applied_nodup (hO : Once s) :
    ((s.log.filter (fun e => e.outcome = .applied)).map (fun e => e.question.id)).Nodup := by
  have hflat : (s.log.filter (fun e => e.outcome = .applied)).map (fun e => e.question.id) =
      (s.log.filter (fun e => e.outcome = .applied)).flatMap Submitted.recorded := by
    rw [List.map_eq_flatMap]
    refine List.flatMap_congr fun e he => ?_
    obtain ⟨he, happ⟩ := List.mem_filter.mp he
    exact (hO.applied e he (of_decide_eq_true happ)).symm
  rw [hflat]
  exact hO.once.sublist (List.filter_sublist.flatMap _)

theorem staleTapLeaves_step
    (hok : s.Proper t a) (h : s.step t a = some s') : s.StaleTapLeaves a s' := by
  cases a with
  | tap userId p data sent =>
    intro hstale
    simp only [step, Option.ite_none_right_eq_some, Option.some.injEq] at h
    obtain ⟨_, rfl⟩ := h
    rcases onTap_cases t { s with given := s.given ++ tapped t userId p data } userId p data sent with
      ⟨heq, _⟩ | ⟨c, hc, howner, htakes, _⟩
    · rw [heq]
      exact ⟨fun chatId => liveAt_looked _ _ chatId, rfl, rfl⟩
    · exact absurd (hok c hc howner htakes) (hstale c hc)
  | _ => trivial

theorem held_init : Held init :=
  ⟨nofun, fun _ h => absurd h List.not_mem_nil, fun _ h => absurd h List.not_mem_nil⟩

theorem once_init : Once init :=
  ⟨List.nodup_nil, fun _ h => absurd h List.not_mem_nil, fun _ h => absurd h List.not_mem_nil,
    fun _ h => absurd h List.not_mem_nil, List.nodup_nil⟩

end BelongingAux

open BelongingAux

/-- In every run whose steps are all proper, every value submitted was given by the question's user to a prompt of the question and
field, no question is submitted twice with outcome applied, and a tap on a prompt of a question that is not current leaves the
chat as it is. -/
theorem answers_belong_of_proper {t : Option String → String → String} {s : CollectState}
    (h : Steps.Reaches (step t) (Proper t) init s) :
    s.Upheld ∧ ∀ a s', s.Proper t a → s.step t a = some s' → s.StaleTapLeaves a s' := by
  obtain ⟨hH, hO⟩ := h.invariant (I := fun x => Held x ∧ Once x)
    (fun _ _ _ hx hok hstep => ⟨held_step hx.1 hok hstep, once_step hx.1 hx.2 hok hstep⟩) ⟨held_init, once_init⟩
  refine ⟨⟨fun sub hsub kv hkv => ?_, hH.log, applied_nodup hO⟩, fun _ _ => staleTapLeaves_step⟩
  exact (hH.submissions sub hsub).1.2 kv (mem_collected_of_values hkv)

instance (t : Option String → String → String) (c : Collection) : (data : CallbackData) → Decidable (Takes t c data)
  | .choice fieldIdx optIdx => inferInstanceAs (Decidable (c.cursor = fieldIdx ∧
      (((c.field.bind (fieldOptions (t c.locale))).getD [])[optIdx]?).isSome))
  | .skip => .isTrue trivial

instance (c : Collection) : Decidable (Typed c) :=
  inferInstanceAs (Decidable (∃ field ∈ c.field, field.kind = .text ∨ field.kind = .number))

instance (c : Collection) (p : Prompt) : Decidable (Prompts c p) :=
  inferInstanceAs (Decidable (p.question = c.question ∧ p.cursor = c.cursor))

instance (s : CollectState) (i : Nat) : Decidable (s.Alone i) :=
  inferInstanceAs (Decidable (∀ sub ∈ s.submissions[i]?, ∀ id ∈ s.waiting sub.collection.question,
    id = sub.collection.question.id))

instance (t : Option String → String → String) (s : CollectState) : (a : CollectAct) → Decidable (s.Proper t a)
  | .tap userId p data _ => inferInstanceAs (Decidable (∀ c ∈ s.liveAt p.chatId, c.question.userId = userId → Takes t c data →
      c.question = p.question))
  | .text chatId userId _ seen _ => inferInstanceAs (Decidable (∀ c ∈ s.liveAt chatId, c.question.userId = userId → Typed c →
      ∃ p ∈ seen, Prompts c p))
  | .read i => inferInstanceAs (Decidable (s.Alone i))
  | .finish i outcome _ => inferInstanceAs (Decidable (outcome.records = true → s.Alone i))
  | .tick _ | .raise _ | .close _ | .start _ _ _ _ _ => .isTrue trivial

instance (s : CollectState) (q : Question) (id : String) (value : AskValue) : Decidable (s.GivenFor q id value) :=
  inferInstanceAs (Decidable (∃ g ∈ s.given, g.prompt ∈ s.prompts ∧ g.userId = q.userId ∧ g.prompt.question = q ∧
    (∃ field ∈ g.prompt.field, field.id = id) ∧ g.value = value))

/-- A question to user 7: a yes or no, on a reply or on behalf of a connector. -/
def yesNo (id messageId : Nat) (kind : QuestionKind) : Question where
  id := id
  kind := kind
  messageId := messageId
  userId := 7
  form :=
    { title := none
      fields := [{ id := "ok", label := "OK?", kind := .boolean, options := [], multi := false, optional := false }] }

def yesNoPrompt (q : Question) : Prompt where
  chatId := 1
  question := q
  locale := none
  cursor := 0

/-- A question is answered, refused as busy, answered again and applied; the button of its first prompt is tapped once more. -/
def answeredTwice : List CollectAct :=
  [.raise (yesNo 1 10 .ask), .start 1 (yesNo 1 10 .ask) none none true,
    .tap 7 (yesNoPrompt (yesNo 1 10 .ask)) (.choice 0 0) true, .read 0, .finish 0 .busy true,
    .tap 7 (yesNoPrompt (yesNo 1 10 .ask)) (.choice 0 1) true, .read 0, .finish 0 .applied true,
    .tap 7 (yesNoPrompt (yesNo 1 10 .ask)) (.choice 0 0) true]

/-- A connector's question times out, another question starts, and a button of the first one is tapped. -/
def tappedLate : List CollectAct :=
  [.raise (yesNo 1 10 .elicitation), .start 1 (yesNo 1 10 .elicitation) none (some 180000) true, .tick 180000, .close 1,
    .raise (yesNo 2 11 .ask), .start 1 (yesNo 2 11 .ask) none none true,
    .tap 7 (yesNoPrompt (yesNo 1 10 .elicitation)) (.choice 0 0) true, .read 0, .finish 0 .applied true]

/-- A translator that shows the keys. -/
def keys : Option String → String → String := fun _ key => key

theorem answers_belong_answered_twice :
    ∃ s, Steps.Reaches (step keys) (Proper keys) init s ∧ s.log.map (fun e => e.outcome) = [.busy, .applied] ∧
      (s.Upheld ∧ ∀ a s', s.Proper keys a → s.step keys a = some s' → s.StaleTapLeaves a s') := by
  obtain ⟨s, hs, hlog⟩ := Steps.exists_of_execOk (step keys) (Proper keys) init answeredTwice
    (P := fun s => s.log.map (fun e => e.outcome) = [.busy, .applied]) (by decide)
  exact ⟨s, hs, hlog, answers_belong_of_proper hs⟩

/-- An old button answers a question it was not shown for. -/
theorem answers_belong_false :
    ¬∀ (t : Option String → String → String) (s : CollectState), Steps.Reaches (step t) Steps.Free init s → s.Upheld := by
  intro h
  obtain ⟨s, hs, e, he, kv, hkv, hnot⟩ := Steps.exists_of_exec (step keys) init tappedLate
    (P := fun s => ∃ e ∈ s.log, ∃ kv ∈ e.values, ¬s.GivenFor e.question kv.1 kv.2) (by decide)
  exact hnot ((h keys s hs).ended e he kv hkv)

end CollectState

end Capka

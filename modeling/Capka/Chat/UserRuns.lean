import Capka.Chat.Prompt

/-!
# One user message for a run of them

Some backends reject two user messages in a row, so a run of them is folded into one before the request goes out. A message's own cache
marker moves onto the part it closed; except for Anthropic, each folded message starts on a blank line; and where no provider reads a part's
marker, a fold of nothing but text goes out as one string.
-/

namespace Capka.Prompt

/-- The providers that read a part's marker. -/
def keepParts (provider : String) : Bool := provider == "anthropic" || provider == "openrouter"

/-- The texts of parts, one after the other: `join("")`. -/
def joinTexts (ps : List UserPart) : String := ps.foldr (fun p s => p.textOf ++ s) ""

/-- The parts a user's message brings along: its own, with its options, where it has some, on the last that is no empty text. -/
inductive Owns (content : Content UserPart) : Option ProviderOptions → List UserPart → Prop
  | plain : Owns content none content.userParts
  | empty (opts : ProviderOptions) (h : ∀ p ∈ content.userParts, p.kept = false) : Owns content (some opts) content.userParts
  | closed (opts : ProviderOptions) {before after : List UserPart} {p : UserPart} (h : content.userParts = before ++ p :: after)
      (hp : p.kept = true) (hafter : ∀ q ∈ after, q.kept = false) : Owns content (some opts) (before ++ p.mark opts :: after)

/-- The content holds the parts: as they are; or, where no provider reads a part's marker, with the texts it begins with joined into one. -/
inductive Holds (provider : String) (ps : List UserPart) : Content UserPart → Prop
  | parts : Holds provider ps (.parts ps)
  | string (h : keepParts provider = false) (htext : ps.all UserPart.isText = true) : Holds provider ps (.string (joinTexts ps))
  | joined (h : keepParts provider = false) {lead rest : List UserPart} (hps : ps = lead ++ rest) (htext : lead.all UserPart.isText = true) :
      Holds provider ps (.parts (.text (joinTexts lead) none :: rest))

namespace UserRunsAux

variable {provider : String}

end UserRunsAux

open UserRunsAux

end Capka.Prompt

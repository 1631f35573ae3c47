import Capka.Chat.StepControl

/-!
# Prompt messages

The messages of a request with all a provider is sent: contents that are a string or parts, and the options of a message and of a part,
which carry the cache markers. The bodies of tool traffic are those of the step's prompt.
-/

namespace Capka.Prompt

/-- `providerOptions`: what each provider is told, by its name. -/
abbrev ProviderOptions := List (String × String)

/-- `{ ...base, ...own }`. -/
def spreadOptions (base own : ProviderOptions) : ProviderOptions :=
  base.map (fun o => (o.1, (own.lookup o.1).getD o.2)) ++ own.filter fun o => (base.lookup o.1).isNone

/-- A part of a user's message: a text, or anything else (an image, a file). -/
inductive UserPart
  | text (text : String) (opts : Option ProviderOptions)
  | other (json : String) (opts : Option ProviderOptions)
  deriving Repr, DecidableEq

/-- A part of an assistant's message: a text, reasoning, or a part the tool traffic is cleared in. -/
inductive ReplyPart
  | text (text : String)
  | reasoning (text : String)
  | part (p : StepControl.AssistantPart)
  deriving Repr, DecidableEq

/-- The content of a message: a string, or parts. -/
inductive Content (α : Type)
  | string (s : String)
  | parts (ps : List α)
  deriving Repr, DecidableEq

/-- `ModelMessage`, with its options. -/
inductive Message
  | system (content : String) (opts : Option ProviderOptions)
  | user (content : Content UserPart) (opts : Option ProviderOptions)
  | assistant (content : Content ReplyPart) (opts : Option ProviderOptions)
  | tool (content : List StepControl.ToolContent) (opts : Option ProviderOptions)
  deriving Repr, DecidableEq

/-- The message is a user's. -/
def Message.isUser : Message → Bool
  | .user _ _ => true
  | .system _ _ => false
  | .assistant _ _ => false
  | .tool _ _ => false

namespace UserPart

def isText : UserPart → Bool
  | .text _ _ => true
  | .other _ _ => false

/-- The SDK keeps the part: it drops an empty text. -/
def kept : UserPart → Bool
  | .text t _ => t ≠ ""
  | .other _ _ => true

def textOf : UserPart → String
  | .text t _ => t
  | .other _ _ => ""

/-- The part with a message's options under its own. -/
def mark (opts : ProviderOptions) : UserPart → UserPart
  | .text t own => .text t (some (spreadOptions opts (own.getD [])))
  | .other json own => .other json (some (spreadOptions opts (own.getD [])))

end UserPart

def Content.userParts : Content UserPart → List UserPart
  | .string s => [.text s none]
  | .parts ps => ps

end Capka.Prompt

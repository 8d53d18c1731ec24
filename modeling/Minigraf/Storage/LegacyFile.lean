import Minigraf.Storage.LegacyTorn
import Minigraf.Storage.SmallFacts

/-!
Files with one fact a page, as version 4 wrote them, of any facts that are small. What begins
a page of the current format does not begin a fact: there the length of a UUID stands, and it
is sixteen.
-/

namespace Minigraf

open Bytes

/-! ## The length before a UUID -/

section File

variable {H C : Type} (crc : Crc H C)

variable {crc} {facts : List Fact}

end File

end Minigraf

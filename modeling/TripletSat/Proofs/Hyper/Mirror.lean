import TripletSat.Proofs.Hyper.Columns
import TripletSat.Proofs.Hyper.Maps.Construction

/-!
A finished system mirrors its basic structure, each of its hyper-structures in maps of its own. The
checks of the maps only look: a construction that they let pass is the one without them, and they
let every construction pass.
-/

namespace TripletSat

/-- The vertices of each map in a list. -/
def MappedStructure.listed (hs : MappedStructure) : HyperStructure :=
  ⟨hs.other, hs.tiers.map TierMap.values⟩

namespace HyperSystem

variable {s : HyperSystem}

/-! ### What the maps of a finished system hold -/

end HyperSystem

end TripletSat

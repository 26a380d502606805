import TripletSat.Proofs.Hyper.Maps.Shifting

/-!
Construction in step. Systems whose hyper-structures have tiers of their own are built as those of shared vertices
are: with the same events, to the same error or to the system that the other one stands for.
-/

namespace TripletSat

namespace Layer

variable {layer : Layer} {index : Nat}

end Layer

namespace HyperSystem

variable {s : HyperSystem} {layer : Layer} {k : Nat}

/-! ### The first tier -/

end HyperSystem

end TripletSat

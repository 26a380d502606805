import TripletSat.Proofs.Hyper.Maps.Pruning
import TripletSat.Proofs.Hyper.Pinned

/-!
Filtering in step. What each hyper-structure shares with its own vertices is the part at its place of what is
shared with the vertices of a layer, so parts move from tier to tier alike.
-/

namespace TripletSat

theorem zip_mapM_length {f : Formula × Formula → Checked Formula} {parts others : List Formula}
    (length : others.length = parts.length) :
    Ensures ((parts.zip others).mapM f) fun answers => answers.length = parts.length := by
  refine (Ensures.mapM_length f _).mono fun _ same => same.trans ?_
  rw [List.length_zip, length, Nat.min_self]

/-- What has been agreed on so far, as every hyper-structure keeps its part. -/
def columns (count : Nat) : Option (List Formula) → List (Option Formula)
  | none => List.replicate count none
  | some parts => parts.map some

namespace HyperSystem

variable {s : HyperSystem} {index : Nat} {layer : Layer} {v : Vertex} {parts : List Formula}

end HyperSystem

end TripletSat

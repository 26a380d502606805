import TripletSat.Hyper.Construction
import TripletSat.Hyper.Route
import TripletSat.Split
/-!
The solver: a formula is split into structures, the structures are unified, and a route through
their hyper-structure system is a satisfying assignment. An empty structure on the way means that
there is none.
-/
namespace TripletSat

inductive Outcome
  | satisfiable (certificate : Assignment)
  | unsatisfiable
deriving DecidableEq

namespace Formula

/-- The structures of the formula and an assignment that all of them admit. -/
def search (f : Formula) (check : Bool) : Logged Error Assignment := do
  let structures ← .ofAttempt (f.structures.adapt EmptyStructure.error)
  match structures with
  | [lone] =>
    match lone.anyAssignment? with
    | some α => return α
    | none => throw (.emptyStructure 0)
  | _ =>
    let unified ← .ofAttempt ((unify structures).adapt EmptyStructure.error)
    let system ← HyperSystem.ofStructures unified.group check
    return (← system.findRoute).assignment

/-- Decides a formula. An assignment is returned only if it makes every clause true. -/
def solve (f : Formula) (check : Bool) : Logged Error Outcome := do
  .report (.solving f)
  if f.isEmpty then
    return .satisfiable .empty
  match ← (liftM ((f.search check).run : StateT (List Event) Checked _) :
      Logged Error (Except Error Assignment)) with
  | .error (.emptyStructure index) =>
    .report (.unsatisfiable index)
    return .unsatisfiable
  | .error e => throw e
  | .ok α =>
    if ← (f.evaluate α : Checked _) then
      return .satisfiable α
    else
      .report (.rejected α)
      throw .invalidCertificate

end Formula
end TripletSat

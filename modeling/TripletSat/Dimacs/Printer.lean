import TripletSat.Formula.Basic
/-!
Writing a formula as DIMACS text: the header with the greatest variable and the number of octants,
then each octant as a clause, tier by tier.
-/
namespace TripletSat

def Tier.clauses (t : Tier) : Checked (List Clause) :=
  t.octants.toList.mapM (Clause.ofOctant t.triple)

def Formula.clauses (f : Formula) : Checked (List Clause) :=
  return (← f.tiers.mapM Tier.clauses).flatten

namespace Dimacs

def headerLine (f : Formula) : String :=
  s!"p cnf {f.permutation.names.foldl max 0} {f.clauseCount}\n"

def print (f : Formula) : Checked String :=
  return headerLine f ++ String.join ((← f.clauses).map fun clause => clause.text ++ " 0\n")

end Dimacs
end TripletSat

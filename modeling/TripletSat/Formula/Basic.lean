import TripletSat.Permutation
import TripletSat.Tier
/-!
Formulas: an ordered list of tiers over a permutation of variables.

The type carries two readings. As clauses, each octant is a forbidden assignment of its triple. As
a compact triplet structure, there is one tier per window of three consecutive variables, holding
the octants that are still allowed. In both readings the clause count is the number of octants.
-/
namespace TripletSat

structure Formula where
  permutation : Permutation
  tiers : List Tier
deriving DecidableEq

namespace Formula

def empty : Formula := ⟨.empty, []⟩

def varCount (f : Formula) : Nat := f.permutation.size

def clauseCount (f : Formula) : Nat := Tier.count f.tiers

def tierCount (f : Formula) : Nat := f.tiers.length

def isEmpty (f : Formula) : Bool := f.tiers.all Tier.isEmpty

def clear (f : Formula) : Formula := { f with tiers := [] }

def tier (f : Formula) (index : Nat) : Checked Tier :=
  match f.tiers[index]? with
  | some t => pure t
  | none => throw .outOfBounds

def tierOver? (f : Formula) (triple : Triple) : Option Tier :=
  f.tiers.find? (·.triple.sameVariables triple)

/-- The tier whose variables in ascending order are the given names. -/
def tierWithKey? (f : Formula) (key : List Nat) : Option Tier :=
  f.tiers.find? (·.triple.sortedNames == key)

/-- The octants of a tier over variables that have one are added to it. -/
def mergeTier (f : Formula) (t : Tier) : Formula :=
  { f with tiers := f.tiers.map fun u =>
      if u.triple.sameVariables t.triple then u.merge t else u }

/-- Other variables get a tier at the end, stored in the order of the permutation. -/
def appendTier (f : Formula) (t : Tier) : Formula :=
  let permutation := f.permutation.addAll t.triple.names
  ⟨permutation, f.tiers ++ [t.orderedBy permutation.index]⟩

def addTier (f : Formula) (t : Tier) : Formula :=
  if f.tiers.any (·.triple.sameVariables t.triple) then f.mergeTier t else f.appendTier t

def add (f : Formula) (clause : Clause) : Formula := f.addTier (.ofClause clause)

def ofClauses (clauses : List Clause) : Formula := clauses.foldl add empty

def appendVariable (f : Formula) (v : Nat) : Formula :=
  { f with permutation := f.permutation.add v }

def prependVariable (f : Formula) (v : Nat) : Checked Formula := do
  return { f with permutation := ← f.permutation.insert 0 v }

def sortTiers (f : Formula) : Formula :=
  { f with tiers := f.tiers.mergeSort fun t u =>
      f.permutation.index t.triple.a ≤ f.permutation.index u.triple.a }

def tiersSorted (f : Formula) : Bool :=
  let starts := f.tiers.map (f.permutation.index ·.triple.a)
  (starts.zip (starts.drop 1)).all fun (start, next) => start < next

/-- Whether a tier spans three consecutive positions, in order. -/
def isWindow (f : Formula) (t : Tier) : Bool := f.permutation.isWindow t.triple

def removeOctant (f : Formula) (index : Nat) (o : Octant) : Checked Formula := do
  let t ← f.tier index
  return { f with tiers := f.tiers.set index { t with octants := t.octants.erase o } }

def summary (f : Formula) : String :=
  s!"VarCount: {f.varCount}; ClausesCount: {f.clauseCount}; TiersCount: {f.tierCount}"

end Formula
end TripletSat

import TripletSat.Formula.Cleanup
/-!
Operations on compact triplet structures: union, intersection, restriction to values, and the
completion of clauses to the structure of what they allow.
-/
namespace TripletSat.Formula

def requireSamePermutation (f g : Formula) : Checked Unit :=
  if f.permutation = g.permutation then pure ()
  else throw (.differentPermutations f.permutation.names g.permutation.names)

def union (f g : Formula) : Checked Formula := do
  f.requireSamePermutation g
  if g.isEmpty then return f
  else if f.isEmpty then return g
  else return g.tiers.foldl addTier f

def intersect (f g : Formula) : Checked Formula := do
  f.requireSamePermutation g
  if f.isEmpty || g.isEmpty then return f.clear
  else
    let tiers := f.tiers.map fun t => ((g.tierOver? t.triple).map t.meet).getD t
    { f with tiers }.cleaned

/-- The octants that give a variable a value, cleaned up. An empty formula stays as it is. -/
def concretize (f : Formula) (v : Nat) (value : Bool) : Checked Formula := do
  if f.isEmpty then return f
  else if f.permutation.contains v then
    let tiers ← f.tiers.mapM fun t =>
      if t.triple.contains v then t.concretize v value else pure t
    { f with tiers }.cleaned
  else throw (.outsideFormula v)

def concretizeOctant (f : Formula) (triple : Triple) (o : Octant) : Checked Formula := do
  (← (← f.concretize triple.a o.a).concretize triple.b o.b).concretize triple.c o.c

/-- Takes the tiers of `g` out of the complete tiers over the same variables, then cleans up. -/
def subtract (f g : Formula) : Checked (Formula × CleanupStatus) := do
  let tiers ← f.tiers.mapM fun t =>
    match g.tierOver? t.triple with
    | some u => t.subtract u
    | none => pure t
  { f with tiers }.cleanup

/-- The assignments of a window that the clauses over its variables allow. -/
def allowed (f : Formula) (window : Triple) : Tier :=
  ((f.tierOver? window).map (Tier.complete window).minus).getD (.complete window)

/--
The structure over the formula's variables and the given ones that holds what the clauses allow.
Every tier of clauses has to be a window of the permutation.
-/
def complete (f : Formula) (more : Permutation) : Checked (Formula × CleanupStatus) := do
  match f.tiers.find? (!f.isWindow ·) with
  | some t => throw (.notWindow t.triple f.permutation.names)
  | none =>
    let permutation := f.permutation.addAll more.names
    cleanup ⟨permutation, permutation.windows.map f.allowed⟩

end TripletSat.Formula

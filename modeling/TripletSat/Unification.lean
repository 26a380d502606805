import TripletSat.Error
import TripletSat.Formula.Algebra
import TripletSat.Formula.Reading
/-!
Unification of structures over one set of variables.

Tiers of different structures that share two variables restrict each other to the value pairs that
both allow, every structure is cleaned up, and a value forced in one structure is forced in the
others. This goes on until no octant is removed.
-/
namespace TripletSat

structure Spot where
  owner : Nat
  tier : Nat
deriving DecidableEq

/-- A tier that mentions two variables, the lesser first, and their positions in it. -/
structure Occurrence where
  v : Nat
  w : Nat
  spot : Spot
  p : Place
  q : Place

/-- Two tiers of different structures, and where a pair of shared variables stands in each. -/
structure Meeting where
  left : Occurrence
  right : Occurrence

namespace Triple

/-- The positions of each two variables, the lesser variable first. -/
def placePairs (t : Triple) : List (Place × Place) :=
  [(.a, .b), (.a, .c), (.b, .c)].map fun (p, q) => if t.name p ≤ t.name q then (p, q) else (q, p)

end Triple

def Tier.occurrences (t : Tier) (spot : Spot) : List Occurrence :=
  t.triple.placePairs.map fun (p, q) => ⟨t.triple.name p, t.triple.name q, spot, p, q⟩

def Occurrence.le (x y : Occurrence) : Bool := x.v < y.v || x.v == y.v && x.w ≤ y.w

/-- The variable pairs that the tiers of a group mention, in the order of the tiers. -/
def occurrences (group : List Formula) : List Occurrence :=
  group.zipIdx.flatMap fun (f, owner) =>
    f.tiers.zipIdx.flatMap fun (t, tier) => t.occurrences ⟨owner, tier⟩

def pairsOf {α : Type} : List α → List (α × α)
  | [] => []
  | x :: rest => rest.map (x, ·) ++ pairsOf rest

/-- The meetings of a group, ascending by the shared variables. -/
def meetings (group : List Formula) : List Meeting :=
  let sorted := (occurrences group).mergeSort Occurrence.le
  let shared := sorted.splitBy fun x y => x.v == y.v && x.w == y.w
  shared.flatMap fun same => (pairsOf same).filterMap fun (left, right) =>
    if left.spot.owner = right.spot.owner then none else some ⟨left, right⟩

def octantsAt? (group : List Formula) (spot : Spot) : Option OctantSet := do
  return (← (← group[spot.owner]?).tiers[spot.tier]?).octants

def setOctants (group : List Formula) (spot : Spot) (octants : OctantSet) : List Formula :=
  group.modify spot.owner fun f =>
    { f with tiers := f.tiers.modify spot.tier fun t => { t with octants } }

/-- Restricts both tiers of a meeting to the value pairs that the other one allows. -/
def Meeting.restrict (group : List Formula) (m : Meeting) : List Formula :=
  match octantsAt? group m.left.spot, octantsAt? group m.right.spot with
  | some left, some right =>
    let left' := left.agreeing m.left.p m.left.q right m.right.p m.right.q
    let right' := right.agreeing m.right.p m.right.q left' m.left.p m.left.q
    if left' = left ∧ right' = right then group
    else setOctants (setOctants group m.left.spot left') m.right.spot right'
  | _, _ => group

def cleanAll (group : List Formula) : Attempt EmptyStructure (List Formula) :=
  group.zipIdx.mapM fun (f, index) => do
    let cleaned ← f.cleaned
    if cleaned.isEmpty then throw ⟨index⟩ else return cleaned

structure Forcing where
  v : Nat
  owner : Nat
  value : Bool

/-- The values that structures force, ascending by variable, the first structure counting. -/
def forcings (group : List Formula) : List Forcing :=
  let all := group.zipIdx.flatMap fun (f, owner) =>
    f.permutation.names.filterMap fun v => (f.value? v).map (⟨v, owner, ·⟩)
  ((all.mergeSort (·.v ≤ ·.v)).splitBy (·.v == ·.v)).filterMap List.head?

/-- Forces a value in every other structure that has the variable but not yet the value. -/
def Forcing.spread (group : List Formula) (forcing : Forcing) :
    Attempt EmptyStructure (List Formula) :=
  group.zipIdx.mapM fun (f, index) => do
    if index = forcing.owner || !f.permutation.contains forcing.v ||
        f.value? forcing.v == some forcing.value then
      return f
    else
      let forced ← f.concretize forcing.v forcing.value
      if forced.isEmpty then throw ⟨index⟩ else return forced

def octantCount (group : List Formula) : Nat :=
  group.foldr (fun f count => f.clauseCount + count) 0

@[simp] theorem octantCount_cons {f : Formula} {rest : List Formula} :
    octantCount (f :: rest) = f.clauseCount + octantCount rest := rfl

def unifyRound (meetings : List Meeting) (group : List Formula) :
    Attempt EmptyStructure (List Formula) := do
  let cleaned ← cleanAll (meetings.foldl Meeting.restrict group)
  (forcings cleaned).foldlM Forcing.spread cleaned

/-- Rounds until no octant is removed; of `limit` rounds `fuel` are left. -/
def unifyRounds (meetings : List Meeting) (limit : Nat) :
    (fuel : Nat) → List Formula → Attempt EmptyStructure (List Formula)
  | 0, _ => liftM (throw (.unificationUnsettled limit) : Checked (List Formula))
  | fuel + 1, group => do
    let next ← unifyRound meetings group
    if octantCount next = octantCount group then return next
    else unifyRounds meetings limit fuel next

structure Unified where
  group : List Formula
  removed : Nat

def unify (group : List Formula) : Attempt EmptyStructure Unified := do
  if group.length < 2 then
    liftM (throw (.loneStructure group.length) : Checked Unit)
  match group.findIdx? Formula.isEmpty with
  | some index => throw ⟨index⟩
  | none =>
    let limit := octantCount group + 2
    let unified ← unifyRounds (meetings group) limit limit group
    return ⟨unified, octantCount group - octantCount unified⟩

/--
Unifies the structures that are held and answers how many octants they lost. What is held changes
only if every structure keeps an octant.
-/
def unifyHeld : ExceptT EmptyStructure (StateT (List Formula) Checked) Nat := do
  match ← ((unify (← get)).run : Checked _) with
  | .error e => throw e
  | .ok unified =>
    set unified.group
    return unified.removed

/-- Unifies a group of any size. A lone structure only has to hold an octant. -/
def unifyGroup (group : List Formula) : Attempt EmptyStructure (List Formula) :=
  match group with
  | [] => return []
  | [f] => if f.isEmpty then throw ⟨0⟩ else return [f]
  | _ => return (← unify group).group

end TripletSat

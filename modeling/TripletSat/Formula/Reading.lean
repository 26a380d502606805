import TripletSat.Assignment
import TripletSat.Formula.Basic
/-!
What a formula says about assignments, in its two readings, and the walk that picks an assignment
out of a clean structure.
-/
namespace TripletSat

namespace Assignment

/-- Whether a literal is true; one without a value is not. -/
def makesTrue (α : Assignment) (l : Lit) : Bool := α.litValue? l == some true

def satisfies (α : Assignment) (clause : Clause) : Bool := clause.lits.any α.makesTrue

def octant? (α : Assignment) (t : Triple) : Option Octant := do
  return ⟨← α.get? t.a, ← α.get? t.b, ← α.get? t.c⟩

def assignOctant (α : Assignment) (t : Triple) (o : Octant) : Assignment :=
  ((α.assign t.a o.a).assign t.b o.b).assign t.c o.c

end Assignment

/-- Whether a test holds of every member, stopping at the first for which it does not. -/
def allChecked {α : Type} (test : α → Checked Bool) : List α → Checked Bool
  | [] => pure true
  | x :: rest => do if ← test x then allChecked test rest else return false

namespace Formula

/-- Read as clauses: every one of them has a true literal. -/
def evaluate (f : Formula) (α : Assignment) : Checked Bool :=
  allChecked (fun t => allChecked (fun o => return α.satisfies (← Clause.ofOctant t.triple o))
    t.octants.toList) f.tiers

/-- Read as a structure: the assignment's octant is allowed in every tier. -/
def admits (f : Formula) (α : Assignment) : Bool :=
  !f.isEmpty && f.tiers.all fun t => (α.octant? t.triple).any t.octants.contains

def value? (f : Formula) (v : Nat) : Option Bool := f.tiers.findSome? (·.value? v)

/-- Extends a walk that stands on an octant through further tiers, the new variable false first. -/
def walk : Octant → Assignment → List Tier → Option Assignment
  | _, α, [] => some α
  | o, α, t :: rest =>
    match o.successors.find? t.octants.contains with
    | some next => walk next (α.assign t.triple.c next.c) rest
    | none => none

def anyAssignment? (f : Formula) : Option Assignment :=
  match f.tiers with
  | [] => none
  | t :: rest =>
    match t.octants.toList with
    | [] => none
    | o :: _ => walk o (Assignment.empty.assignOctant t.triple o) rest

end Formula
end TripletSat

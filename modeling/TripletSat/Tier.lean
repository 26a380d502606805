import TripletSat.Clause
import TripletSat.OctantSet
/-!
Tiers: a set of octants over one ordered triple of variables.

Two tiers over the same variables may store them in different orders; they are combined after the
second is read in the order of the first. Neighbouring tiers of a chain share two variables and
restrict each other through the value pairs that both allow.
-/
namespace TripletSat

structure Tier where
  triple : Triple
  octants : OctantSet
deriving DecidableEq

namespace Tier

def ofClause (clause : Clause) : Tier := ⟨clause.triple, OctantSet.empty.insert clause.octant⟩

def complete (triple : Triple) : Tier := ⟨triple, .full⟩

def size (t : Tier) : Nat := t.octants.size

/-- The octants of all tiers together. -/
def count (tiers : List Tier) : Nat := tiers.foldr (fun t count => t.size + count) 0

@[simp] theorem count_nil : count [] = 0 := rfl

@[simp] theorem count_cons {t : Tier} {rest : List Tier} :
    count (t :: rest) = t.size + count rest := rfl

def isEmpty (t : Tier) : Bool := t.octants.isEmpty

def inverse (t : Tier) : Tier := { t with octants := t.octants.compl }

def text (t : Tier) : String :=
  t.triple.text ++ " [" ++ " ".intercalate (t.octants.toList.map Octant.text) ++ "]"

/-! ### Order of the variables -/

def swap (t : Tier) (p q : Place) : Tier := ⟨t.triple.swap p q, t.octants.swap p q⟩

/-- The same tier with its variables ascending by `rank`, those of equal rank in their old order. -/
def orderedBy (t : Tier) (rank : Nat → Nat) : Tier :=
  let t := if rank t.triple.b < rank t.triple.a then t.swap .a .b else t
  let t := if rank t.triple.c < rank t.triple.b then t.swap .b .c else t
  if rank t.triple.b < rank t.triple.a then t.swap .a .b else t

def octantsAlong (t : Tier) (triple : Triple) : OctantSet := (t.orderedBy triple.rank).octants

def bring (t : Tier) (p : Place) (v : Nat) : Checked Tier :=
  match t.triple.place? v with
  | some q => pure (t.swap p q)
  | none => throw (.outsideTier v t.triple)

def transpose (t : Tier) (a b c : Nat) : Checked Tier := do
  (← (← t.bring .a a).bring .b b).bring .c c

/-! ### Combination -/

def requireSame (t u : Tier) : Checked Unit :=
  if t.triple.sameVariables u.triple then pure () else throw (.differentVariables t.triple u.triple)

def merge (t u : Tier) : Tier := { t with octants := t.octants.union (u.octantsAlong t.triple) }

def meet (t u : Tier) : Tier := { t with octants := t.octants.inter (u.octantsAlong t.triple) }

def minus (t u : Tier) : Tier :=
  { t with octants := t.octants.inter (u.octantsAlong t.triple).compl }

def union (t u : Tier) : Checked Tier := do
  t.requireSame u
  return t.merge u

def intersect (t u : Tier) : Checked Tier := do
  t.requireSame u
  return t.meet u

def subtract (t u : Tier) : Checked Tier := do
  if t.octants.isFull then
    t.requireSame u
    return t.minus u
  else
    throw (.incompleteTier t.triple t.size)

/-! ### Restriction -/

def concretize (t : Tier) (v : Nat) (value : Bool) : Checked Tier :=
  match t.triple.place? v with
  | some p => pure { t with octants := t.octants.inter (.half p value) }
  | none => throw (.outsideTier v t.triple)

/-- The octants whose `(b, c)` starts some octant of the following tier. -/
def adjoinRight (t next : Tier) : Checked Tier :=
  if t.triple.b = next.triple.a ∧ t.triple.c = next.triple.b then
    pure { t with octants := t.octants.agreeing .b .c next.octants .a .b }
  else
    throw (.noOverlapRight t.triple next.triple)

/-- The octants whose `(a, b)` ends some octant of the preceding tier. -/
def adjoinLeft (t prev : Tier) : Checked Tier :=
  if prev.triple.b = t.triple.a ∧ prev.triple.c = t.triple.b then
    pure { t with octants := t.octants.agreeing .a .b prev.octants .b .c }
  else
    throw (.noOverlapLeft t.triple prev.triple)

/-! ### Values -/

/-- The value that every octant gives a variable of the tier, if they agree. -/
def value? (t : Tier) (v : Nat) : Option Bool :=
  match t.triple.place? v with
  | some p => t.octants.forced? p
  | none => none

def valueOf (t : Tier) (v : Nat) : Checked (Option Bool) :=
  match t.triple.place? v with
  | some p => pure (t.octants.forced? p)
  | none => throw (.outsideTier v t.triple)

end Tier
end TripletSat

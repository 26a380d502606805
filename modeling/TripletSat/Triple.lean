import TripletSat.Octant
/-!
Ordered triples of distinct variables. The order fixes how octants are read; the set of the three
variables identifies the tier they belong to. A variable is named by a natural number; only literals
need the name to be positive.
-/
namespace TripletSat

structure Triple where
  a : Nat
  b : Nat
  c : Nat
  a_ne_b : a ≠ b := by decide
  a_ne_c : a ≠ c := by decide
  b_ne_c : b ≠ c := by decide
deriving DecidableEq

namespace Triple

def ofNames? (a b c : Nat) : Option Triple :=
  if distinct : a ≠ b ∧ a ≠ c ∧ b ≠ c then
    some ⟨a, b, c, distinct.1, distinct.2.1, distinct.2.2⟩
  else
    none

def name (t : Triple) : Place → Nat
  | .a => t.a
  | .b => t.b
  | .c => t.c

def names (t : Triple) : List Nat := [t.a, t.b, t.c]

def place? (t : Triple) (v : Nat) : Option Place :=
  if v = t.a then some .a else if v = t.b then some .b else if v = t.c then some .c else none

def contains (t : Triple) (v : Nat) : Bool := v == t.a || v == t.b || v == t.c

/-- The rank of a variable in the triple's order; variables outside the triple come last. -/
def rank (t : Triple) (v : Nat) : Nat :=
  if v = t.a then 0 else if v = t.b then 1 else if v = t.c then 2 else 3

def sameVariables (t u : Triple) : Bool := u.contains t.a && u.contains t.b && u.contains t.c

/-- The variables in ascending order: the same for all orders of one variable set. -/
def sortedNames (t : Triple) : List Nat := t.names.mergeSort (· ≤ ·)

def third (t : Triple) (v w : Nat) : Nat :=
  if t.a ≠ v ∧ t.a ≠ w then t.a else if t.b ≠ v ∧ t.b ≠ w then t.b else t.c

def swap (t : Triple) : Place → Place → Triple
  | .a, .b | .b, .a => ⟨t.b, t.a, t.c, t.a_ne_b.symm, t.b_ne_c, t.a_ne_c⟩
  | .a, .c | .c, .a => ⟨t.c, t.b, t.a, t.b_ne_c.symm, t.a_ne_c.symm, t.a_ne_b.symm⟩
  | .b, .c | .c, .b => ⟨t.a, t.c, t.b, t.a_ne_c, t.a_ne_b, t.b_ne_c.symm⟩
  | .a, .a | .b, .b | .c, .c => t

def text (t : Triple) : String := s!"({t.a} {t.b} {t.c})"

theorem contains_iff {t : Triple} {v : Nat} : t.contains v = true ↔ v ∈ t.names := by
  simp [contains, names, or_assoc]

end Triple
end TripletSat

/-!
Octants: the eight value patterns over an ordered triple of variables.

Read as part of an assignment, an octant gives each variable of the triple a value. Read as a
clause, it tells which literals are negated; a clause forbids exactly the assignment that carries
its own octant, so one pattern serves both readings.
-/
namespace TripletSat

inductive Place
  | a
  | b
  | c
deriving DecidableEq

/-- The values of the three variables of a triple, in its order. -/
structure Octant where
  a : Bool
  b : Bool
  c : Bool
deriving DecidableEq

namespace Octant

def value (o : Octant) : Place → Bool
  | .a => o.a
  | .b => o.b
  | .c => o.c

/-- The octant as a number below eight, the first value in the highest bit. -/
def key (o : Octant) : Nat :=
  4 * o.a.toNat + 2 * o.b.toNat + o.c.toNat

def all : List Octant :=
  [⟨false, false, false⟩, ⟨false, false, true⟩, ⟨false, true, false⟩, ⟨false, true, true⟩,
    ⟨true, false, false⟩, ⟨true, false, true⟩, ⟨true, true, false⟩, ⟨true, true, true⟩]

def ofKey? (key : Nat) : Option Octant := all[key]?

/-- The octant of the following window that keeps `(b, c)` and gives the new variable `value`. -/
def shift (o : Octant) (value : Bool) : Octant := ⟨o.b, o.c, value⟩

def successors (o : Octant) : List Octant := [o.shift false, o.shift true]

def swap (o : Octant) : Place → Place → Octant
  | .a, .b | .b, .a => ⟨o.b, o.a, o.c⟩
  | .a, .c | .c, .a => ⟨o.c, o.b, o.a⟩
  | .b, .c | .c, .b => ⟨o.a, o.c, o.b⟩
  | .a, .a | .b, .b | .c, .c => o

def text (o : Octant) : String :=
  let digit (value : Bool) := if value then "1" else "0"
  digit o.a ++ digit o.b ++ digit o.c

theorem mem_all (o : Octant) : o ∈ all := by
  obtain ⟨a, b, c⟩ := o
  cases a <;> cases b <;> cases c <;> decide

theorem key_lt (o : Octant) : o.key < 8 := by
  obtain ⟨a, b, c⟩ := o
  cases a <;> cases b <;> cases c <;> decide

theorem ofKey?_key (o : Octant) : ofKey? o.key = some o := by
  obtain ⟨a, b, c⟩ := o
  cases a <;> cases b <;> cases c <;> rfl

end Octant
end TripletSat

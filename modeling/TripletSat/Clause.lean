import TripletSat.Literal
/-!
Clauses of three literals over distinct variables. A clause is a triple of variables together with
the octant of its signs.
-/
namespace TripletSat

/-- A disjunction of three literals over distinct variables. -/
structure Clause where
  a : Lit
  b : Lit
  c : Lit
  a_ne_b : a.name ≠ b.name
  a_ne_c : a.name ≠ c.name
  b_ne_c : b.name ≠ c.name
deriving DecidableEq

namespace Clause

def ofLits? (a b c : Lit) : Option Clause :=
  if distinct : a.name ≠ b.name ∧ a.name ≠ c.name ∧ b.name ≠ c.name then
    some ⟨a, b, c, distinct.1, distinct.2.1, distinct.2.2⟩
  else
    none

def ofLits (a b c : Lit) : Checked Clause :=
  match ofLits? a b c with
  | some clause => pure clause
  | none => throw (.repeatedVariable a.name b.name c.name)

def ofSigned? (a b c : Int) : Option Clause := do
  ofLits? (← Lit.ofSigned? a) (← Lit.ofSigned? b) (← Lit.ofSigned? c)

def ofSigned (a b c : Int) : Checked Clause :=
  match Lit.ofSigned? a, Lit.ofSigned? b, Lit.ofSigned? c with
  | some a, some b, some c => ofLits a b c
  | _, _, _ => throw .zeroLiteral

def ofOctant (t : Triple) (o : Octant) : Checked Clause :=
  if positive : 0 < t.a ∧ 0 < t.b ∧ 0 < t.c then
    pure ⟨⟨t.a, o.a, positive.1⟩, ⟨t.b, o.b, positive.2.1⟩, ⟨t.c, o.c, positive.2.2⟩,
      t.a_ne_b, t.a_ne_c, t.b_ne_c⟩
  else
    throw .zeroVariable

def lits (clause : Clause) : List Lit := [clause.a, clause.b, clause.c]

def triple (clause : Clause) : Triple :=
  ⟨clause.a.name, clause.b.name, clause.c.name, clause.a_ne_b, clause.a_ne_c, clause.b_ne_c⟩

def octant (clause : Clause) : Octant :=
  ⟨clause.a.negated, clause.b.negated, clause.c.negated⟩

def signed (clause : Clause) : List Int := clause.lits.map Lit.signed

def text (clause : Clause) : String := " ".intercalate (clause.lits.map Lit.text)

theorem ofLits_lits (clause : Clause) : ofLits clause.a clause.b clause.c = .ok clause := by
  unfold ofLits ofLits?
  rw [dif_pos ⟨clause.a_ne_b, clause.a_ne_c, clause.b_ne_c⟩]
  rfl

theorem ofOctant_triple_octant (clause : Clause) :
    ofOctant clause.triple clause.octant = .ok clause := by
  unfold ofOctant
  exact dif_pos ⟨clause.a.name_pos, clause.b.name_pos, clause.c.name_pos⟩

end Clause
end TripletSat

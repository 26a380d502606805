import TripletSat.Fault
/-!
Literals and their signed form: a positive number is a variable, a negative one its negation.
-/
namespace TripletSat

structure Lit where
  name : Nat
  negated : Bool
  name_pos : 0 < name
deriving DecidableEq

namespace Lit

def ofSigned? (n : Int) : Option Lit :=
  if nonzero : n = 0 then none else some ⟨n.natAbs, n < 0, Int.natAbs_pos.2 nonzero⟩

def ofName (name : Nat) (negated : Bool) : Checked Lit :=
  if name_pos : 0 < name then pure ⟨name, negated, name_pos⟩ else throw .zeroVariable

def signed (l : Lit) : Int := if l.negated then -(l.name : Int) else l.name

def negate (l : Lit) : Lit := { l with negated := !l.negated }

def text (l : Lit) : String := toString l.signed

theorem ofSigned?_signed (l : Lit) : ofSigned? l.signed = some l := by
  obtain ⟨name, negated, name_pos⟩ := l
  cases negated <;> simp [ofSigned?, signed] <;> omega

end Lit
end TripletSat

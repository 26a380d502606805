import TripletSat.Triple
/-!
Faults: preconditions that a caller broke.

The operations of the library are total. Where one of them is asked for something that has no
meaning, such as restricting a tier by a variable it does not mention, it answers with a fault
that names the cause. A fault is a defect of the caller, unlike the errors a sound input can meet.
-/
namespace TripletSat

inductive Fault
  | repeatedVariable (a b c : Nat)
  | zeroVariable
  | zeroLiteral
  | octantKey (key : Nat)
  | position (index : Nat)
  /-- The tier over these variables does not mention the variable. -/
  | outsideTier (v : Nat) (tier : Triple)
  /-- Octants were subtracted from a tier that does not hold all eight. -/
  | incompleteTier (tier : Triple) (size : Nat)
  | differentVariables (tier other : Triple)
  /-- The second tier does not start where the first one ends. -/
  | noOverlapRight (tier next : Triple)
  /-- The second tier does not end where the first one starts. -/
  | noOverlapLeft (tier prev : Triple)
  | alreadyPresent (v : Nat)
  /-- An index points behind the end of its list. -/
  | outOfBounds
  | outsideFormula (v : Nat)
  | differentPermutations (names others : List Nat)
  | windowCount (vars tiers : Nat)
  | notWindow (tier : Triple) (names : List Nat)
  /-- Cleanup went on for longer than there are octants. -/
  | cleanupUnsettled (rounds : Nat)
  | loneStructure (count : Nat)
  /-- Unification went on for longer than there are octants. -/
  | unificationUnsettled (rounds : Nat)
  | differentVariableSets
  /-- The keys of a built tier are not the octants of the basic one. -/
  | keysDiffer (tier index : Nat)
  /-- Construction went on for longer than the basic structure can shrink. -/
  | constructionUnsettled
  /-- Seeding went on for longer than the basic structure can shrink. -/
  | seedingUnsettled (rounds : Nat)
  | partialSystem
  | productOverflow
  | tooFewVariables (count : Nat)
  | exhaustedSource
deriving DecidableEq

namespace Fault

def listText (names : List Nat) : String :=
  "[" ++ ", ".intercalate (names.map toString) ++ "]"

/-- The wording of a fault; an index that points outside its list has none. -/
def message : Fault → Option String
  | repeatedVariable a b c => some s!"a triple needs three distinct variables, got ({a}, {b}, {c})"
  | zeroVariable => some "variable names must be positive"
  | zeroLiteral => some "a clause literal cannot be 0"
  | octantKey key => some s!"octant key {key} out of range"
  | position index => some s!"position {index} is outside a triple"
  | outsideTier v tier => some s!"variable {v} is not part of tier {tier.text}"
  | incompleteTier tier size => some s!"subtract from tier {tier.text} which holds {size} octants"
  | differentVariables tier other =>
    some s!"tiers {tier.text} and {other.text} cover different variables"
  | noOverlapRight tier next => some s!"tier {tier.text} does not overlap {next.text} on the right"
  | noOverlapLeft tier prev => some s!"tier {tier.text} does not overlap {prev.text} on the left"
  | alreadyPresent v => some s!"variable {v} already in permutation"
  | outOfBounds => none
  | outsideFormula v => some s!"variable {v} is not part of the formula"
  | differentPermutations names others =>
    some ("algebra on formulas over different permutations: " ++ listText names ++ " vs " ++
      listText others)
  | windowCount vars tiers => some s!"structure over {vars} variables has {tiers} tiers"
  | notWindow tier names => some (s!"tier {tier.text} is not a window of " ++ listText names)
  | cleanupUnsettled rounds => some s!"cleanup did not settle after {rounds} rounds"
  | loneStructure count => some s!"unification needs at least two structures, got {count}"
  | unificationUnsettled rounds => some s!"unification did not settle after {rounds} rounds"
  | differentVariableSets => some "structures range over different variables"
  | keysDiffer tier index =>
    some s!"tier {tier} of hyper-structure #{index} does not mirror the basic structure"
  | constructionUnsettled => some "hyper-structure construction did not settle"
  | seedingUnsettled rounds => some s!"seeding tier 0 did not settle after {rounds} rounds"
  | partialSystem => some "route search on a partially built system"
  | productOverflow => some "attempt to multiply with overflow"
  | tooFewVariables count => some s!"a clause needs three variables, got {count}"
  | exhaustedSource => some "the random source ran dry"

end Fault

/-- The result of an operation with a precondition. -/
abbrev Checked := Except Fault

/-! ### Checked constructors -/

def Place.ofIndex : Nat → Checked Place
  | 0 => pure .a
  | 1 => pure .b
  | 2 => pure .c
  | index => throw (.position index)

def Octant.ofKey (key : Nat) : Checked Octant :=
  match ofKey? key with
  | some o => pure o
  | none => throw (.octantKey key)

def Triple.ofNames (a b c : Nat) : Checked Triple :=
  match ofNames? a b c with
  | some t => pure t
  | none => throw (.repeatedVariable a b c)

end TripletSat

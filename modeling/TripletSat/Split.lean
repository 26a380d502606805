import TripletSat.Error
import TripletSat.Formula.Algebra
/-!
Splitting clauses into compact formulas.

A compact formula is one whose tiers are exactly the windows of its own permutation. Every formula
splits into a list of them, each tier going to the first one that can take it, and each completes
into a structure over all variables.
-/
namespace TripletSat

namespace Formula

def covers (t : Tier) (pair : Option (Nat × Nat)) : Bool :=
  pair.any fun (v, w) => t.triple.contains v && t.triple.contains w

def firstPair? (f : Formula) : Option (Nat × Nat) :=
  match f.permutation.names with
  | v :: w :: _ => some (v, w)
  | _ => none

def lastPair? (f : Formula) : Option (Nat × Nat) :=
  match f.permutation.names.reverse with
  | w :: v :: _ => some (v, w)
  | _ => none

def ofTier (t : Tier) : Formula := (⟨.ofNames t.triple.names, []⟩ : Formula).addTier t

/--
A compact formula joined with a tier, if it can take it: a tier over variables that have one is
merged into it, and a tier that shares the last or the first two variables grows the chain there by
its third one.
-/
def join? (f : Formula) (t : Tier) : Checked (Option Formula) := do
  match t.triple.names.filter (!f.permutation.contains ·) with
  | [] => return if (f.tierOver? t.triple).isSome then some (f.addTier t) else none
  | [fresh] =>
    if covers t f.lastPair? then
      return some ((f.appendVariable fresh).addTier t)
    else if covers t f.firstPair? then
      return some ((← f.prependVariable fresh).addTier t).sortTiers
    else
      return none
  | _ => return none

/-- The list with a tier joined to its first member that can take it, or alone at the end. -/
def distribute (t : Tier) : List Formula → Checked (List Formula)
  | [] => return [.ofTier t]
  | f :: rest => do
    match ← f.join? t with
    | some joined => return joined :: rest
    | none => return f :: (← distribute t rest)

def split (f : Formula) : Checked (List Formula) :=
  f.tiers.foldlM (fun compact t => distribute t compact) []

end Formula

/-- The outcome of completing several formulas: those touched so far, and the first empty one. -/
structure Completion where
  formulas : List Formula
  empty? : Option EmptyStructure

/-- Completes every formula over the same variables, up to and including the first empty one. -/
def completeAllFrom (more : Permutation) : Nat → List Formula → Checked Completion
  | _, [] => return ⟨[], none⟩
  | index, f :: rest => do
    let (completed, _) ← f.complete more
    if completed.isEmpty then
      return ⟨completed :: rest, some ⟨index⟩⟩
    else
      let done ← completeAllFrom more (index + 1) rest
      return { done with formulas := completed :: done.formulas }

def completeAll (formulas : List Formula) (more : Permutation) : Checked Completion :=
  completeAllFrom more 0 formulas

def Formula.structures (f : Formula) : Attempt EmptyStructure (List Formula) := do
  let done ← completeAll (← f.split) f.permutation
  match done.empty? with
  | some e => throw e
  | none => return done.formulas

end TripletSat

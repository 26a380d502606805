import Mathlib.Logic.Function.Basic
import TripletSat.Proofs.Histories

/-!
Look-up tables. A permutation can keep a table of where its names stand, and a formula one of where
the tier over given variables is, so that neither has to search. The operations here read the tables
wherever they look something up, and each brings up to date what it touches and nothing else.
-/

namespace TripletSat

/-- A table of places, by what looking a key up gives. -/
abbrev Table (κ : Type) := κ → Option Nat

namespace Table

variable {κ : Type} [DecidableEq κ]

def empty : Table κ := fun _ => none

def insert (table : Table κ) (key : κ) (place : Nat) : Table κ :=
  Function.update table key (some place)

/-- Enters keys that stand in a row, the first of them at `start`. -/
def enter (table : Table κ) (start : Nat) (keys : List κ) : Table κ :=
  (keys.zipIdx start).foldl (fun table (key, place) => table.insert key place) table

/-- The table of a list of keys as it should be. -/
def ofList (keys : List κ) : Table κ := fun key => keys.idxOf? key

end Table

/-- Names in a row and the table of their positions. -/
structure Roster where
  names : List Nat
  positions : Table Nat

namespace Roster

def empty : Roster := ⟨[], .empty⟩

def index? (r : Roster) (v : Nat) : Option Nat := r.positions v

def contains (r : Roster) (v : Nat) : Bool := (r.index? v).isSome

def get? (r : Roster) (index : Nat) : Option Nat := r.names[index]?

def add (r : Roster) (v : Nat) : Roster :=
  match r.index? v with
  | some _ => r
  | none => ⟨r.names ++ [v], r.positions.insert v r.names.length⟩

def addAll (r : Roster) (names : List Nat) : Roster := names.foldl add r

def ofNames (names : List Nat) : Roster := empty.addAll names

/-- Inserting a name enters it and the names behind it anew. -/
def insert (r : Roster) (index : Nat) (v : Nat) : Checked Roster :=
  if r.contains v then throw (.alreadyPresent v)
  else if index ≤ r.names.length then
    let names := r.names.take index ++ v :: r.names.drop index
    pure ⟨names, r.positions.enter index (names.drop index)⟩
  else throw .outOfBounds

/-- What names are sorted by: their position, absent ones first. -/
def rank (r : Roster) (v : Nat) : Nat := ((r.index? v).map (· + 1)).getD 0

def isWindow (r : Roster) (t : Triple) : Bool :=
  match r.index? t.a, r.index? t.b, r.index? t.c with
  | some a, some b, some c => b == a + 1 && c == b + 1
  | _, _, _ => false

def window (r : Roster) (index : Nat) : Checked Triple :=
  match r.get? index, r.get? (index + 1), r.get? (index + 2) with
  | some a, some b, some c => Triple.ofNames a b c
  | _, _, _ => throw .outOfBounds

end Roster

/-- A formula with its tables. The places are those of the tiers, by their sorted variables. -/
structure Indexed where
  roster : Roster
  tiers : List Tier
  places : Table (List Nat)

namespace Indexed

variable (x y : Indexed)

def empty : Indexed := ⟨.empty, [], .empty⟩

/-- The formula without its tables. -/
def formula : Formula := ⟨.ofNames x.roster.names, x.tiers⟩

def isEmpty : Bool := x.tiers.all Tier.isEmpty

def clear : Indexed := { x with tiers := [], places := .empty }

def reindex (tiers : List Tier) : Table (List Nat) :=
  Table.empty.enter 0 (tiers.map (·.triple.sortedNames))

/-! ### Look-ups -/

def tier (index : Nat) : Checked Tier :=
  match x.tiers[index]? with
  | some t => pure t
  | none => throw .outOfBounds

def tierWithKey? (key : List Nat) : Checked (Option Tier) :=
  match x.places key with
  | some index => return some (← x.tier index)
  | none => return none

/-! ### Growing -/

def addTier (t : Tier) : Checked Indexed :=
  match x.places t.triple.sortedNames with
  | some index => do
    let u ← x.tier index
    return { x with tiers := x.tiers.set index (← u.union t) }
  | none =>
    let roster := x.roster.addAll t.triple.names
    return ⟨roster, x.tiers ++ [t.orderedBy roster.rank],
      x.places.insert t.triple.sortedNames x.tiers.length⟩

/-- The variables of a clause are known, and its literals sorted, before the tier is looked up. -/
def add (clause : Clause) : Checked Indexed :=
  let roster := x.roster.addAll clause.triple.names
  { x with roster }.addTier ((Tier.ofClause clause).orderedBy roster.rank)

def ofClauses (clauses : List Clause) : Checked Indexed := clauses.foldlM add empty

def appendVariable (v : Nat) : Indexed := { x with roster := x.roster.add v }

def prependVariable (v : Nat) : Checked Indexed := do
  return { x with roster := ← x.roster.insert 0 v }

def sortTiers : Indexed :=
  let tiers := x.tiers.mergeSort fun t u => x.roster.rank t.triple.a ≤ x.roster.rank u.triple.a
  { x with tiers, places := reindex tiers }

/-! ### Removing octants -/

def removeOctant (index : Nat) (o : Octant) : Checked Indexed := do
  let t ← x.tier index
  return { x with tiers := x.tiers.set index { t with octants := t.octants.erase o } }

/-- A cleanup changes tiers where they are, or clears tiers and places. -/
def propagate (low high : Nat) : Checked (Indexed × CleanupStatus) := do
  let (g, status) ← x.formula.propagate low high
  if g.tiers.isEmpty && !x.tiers.isEmpty then return (x.clear, status)
  else return ({ x with tiers := g.tiers }, status)

def cleanup : Checked (Indexed × CleanupStatus) := x.propagate 0 (x.tiers.length - 1)

def cleanupAround (index : Nat) : Checked (Indexed × CleanupStatus) :=
  x.propagate (index - 1) (min (index + 1) (x.tiers.length - 1))

def cleaned : Checked Indexed := return (← x.cleanup).1

def concretize (v : Nat) (value : Bool) : Checked Indexed := do
  if x.isEmpty then return x
  else if x.roster.contains v then
    let tiers ← x.tiers.mapM fun t =>
      if t.triple.contains v then t.concretize v value else pure t
    { x with tiers }.cleaned
  else throw (.outsideFormula v)

def concretizeOctant (triple : Triple) (o : Octant) : Checked Indexed := do
  (← (← x.concretize triple.a o.a).concretize triple.b o.b).concretize triple.c o.c

/-! ### Two formulas -/

/-- The tiers combined with those that the table of the other formula has over their variables. -/
def combined (op : Tier → Tier → Checked Tier) : Checked (List Tier) :=
  x.tiers.mapM fun t => do
    match ← y.tierWithKey? t.triple.sortedNames with
    | some u => op t u
    | none => return t

def requireSameRoster : Checked Unit :=
  if x.roster.names = y.roster.names then pure ()
  else throw (.differentPermutations x.roster.names y.roster.names)

def union : Checked Indexed := do
  x.requireSameRoster y
  if y.isEmpty then return x
  else if x.isEmpty then return y
  else y.tiers.foldlM addTier x

def intersect : Checked Indexed := do
  x.requireSameRoster y
  if x.isEmpty || y.isEmpty then return x.clear
  else
    let tiers ← x.combined y Tier.intersect
    { x with tiers }.cleaned

def subtract : Checked (Indexed × CleanupStatus) := do
  let tiers ← x.combined y Tier.subtract
  { x with tiers }.cleanup

/-! ### Completion -/

def allowed (window : Triple) : Checked Tier := do
  match ← x.tierWithKey? window.sortedNames with
  | some t => (Tier.complete window).subtract t
  | none => return .complete window

/-- The clauses are looked up in the old table while the new tiers are made. -/
def complete (more : Permutation) : Checked (Indexed × CleanupStatus) := do
  match x.tiers.find? (!x.roster.isWindow ·.triple) with
  | some t => throw (.notWindow t.triple x.roster.names)
  | none =>
    let roster := x.roster.addAll more.names
    let windows ← (List.range (roster.names.length - 2)).mapM roster.window
    let tiers ← windows.mapM x.allowed
    cleanup ⟨roster, tiers, reindex tiers⟩

/-! ### Histories -/

def apply : Operation Indexed → Checked Indexed
  | .add clause => x.add clause
  | .addTier t => x.addTier t
  | .appendVariable v => return x.appendVariable v
  | .prependVariable v => x.prependVariable v
  | .sortTiers => return x.sortTiers
  | .clear => return x.clear
  | .removeOctant index o => x.removeOctant index o
  | .cleanup => return (← x.cleanup).1
  | .cleanupAround index => return (← x.cleanupAround index).1
  | .subtract y => return (← x.subtract y).1
  | .complete more => return (← x.complete more).1
  | .union y => x.union y
  | .intersect y => x.intersect y
  | .concretize v value => x.concretize v value
  | .concretizeOctant triple o => x.concretizeOctant triple o

/-- What operations make of formulas without tiers and of those of clauses. -/
inductive Reached : Indexed → Prop
  | empty : Reached empty
  | ofNames (names : List Nat) : Reached ⟨.ofNames names, [], .empty⟩
  | ofClauses {clauses : List Clause} {x : Indexed} (run : ofClauses clauses = .ok x) : Reached x
  | step {x y : Indexed} {op : Operation Indexed} (before : Reached x)
      (operands : ∀ z ∈ op.operands, Reached z) (run : x.apply op = .ok y) : Reached y

end Indexed
end TripletSat

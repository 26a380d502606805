import TripletSat.Formula.Basic
/-!
Printing formulas for people: a summary, and a grid with a row for each octant under the names of
the variables.
-/
namespace TripletSat.Render

structure Options where
  /-- Print a row for each octant. -/
  grid : Bool
  /-- Name variables `x1, x2, …`, not by letters. -/
  universalNames : Bool
deriving DecidableEq

def letter (n : Nat) : Char := Char.ofNat ('a'.toNat + n)

/-- The letters of a name, in front of further ones. -/
def lettersBefore (tail : List Char) : Nat → List Char
  | 0 => tail
  | n + 1 => lettersBefore (letter (n % 26) :: tail) (n / 26)
termination_by n => n
decreasing_by omega

/-- The letters `a, …, z, aa, ab, …` for `1, 2, …`: a number in base 26 without a zero digit. -/
def letterName (v : Nat) : String := String.ofList (lettersBefore [] v)

def varName (options : Options) (v : Nat) : String :=
  if options.universalNames then s!"x{v}" else letterName v

def padLeft (width : Nat) (text : String) : String :=
  String.ofList (List.replicate (width - text.length) ' ') ++ text

def row (width : Nat) (cells : List String) : String :=
  String.join (cells.map fun cell => padLeft width cell ++ " ")

def cell (triple : Triple) (o : Octant) (v : Nat) : String :=
  match triple.place? v with
  | some p => if o.value p then "1" else "0"
  | none => "."

def gridLines (options : Options) (f : Formula) : List String :=
  let names := f.permutation.names.map (varName options)
  let width := if names.isEmpty then 1 else (names.map String.length).foldl max 0
  row width names :: f.tiers.flatMap fun t =>
    t.octants.toList.map fun o => row width (f.permutation.names.map (cell t.triple o))

def lines (options : Options) (f : Formula) : List String :=
  f.summary :: if options.grid then gridLines options f else []

def text (options : Options) (f : Formula) : String :=
  String.join ((lines options f).map (· ++ "\n"))

end TripletSat.Render

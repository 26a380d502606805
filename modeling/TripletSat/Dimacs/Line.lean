import TripletSat.Error
import TripletSat.Text.Decimal
import TripletSat.Text.Words
/-!
The lines of a DIMACS text. The first character that is not blank tells what a line is; a `%` ends
the text.
-/
namespace TripletSat.Dimacs

inductive Line
  /-- A blank line or a comment. -/
  | skipped
  | header (words : List (List Char))
  /-- The end of the text. -/
  | stop
  | literals (words : List (List Char))
deriving DecidableEq

def Line.ofText (text : List Char) : Line :=
  match Text.words text with
  | [] => .skipped
  | first :: rest =>
    match first.head? with
    | some 'c' => .skipped
    | some '%' => .stop
    | some 'p' => .header (first :: rest)
    | _ => .literals (first :: rest)

/-- The lines of a text with their numbers, from one on. -/
def numberedLines (text : String) : List (Nat × Line) :=
  (Text.lines text.toList).zipIdx.map fun (line, index) => (index + 1, .ofText line)

/-- A word as a signed number. The least 32-bit number is none, having no negation. -/
def literal (line : Nat) (word : List Char) : Except Error Int :=
  match Text.integer? word with
  | none => .error (.parse line (.notLiteral (String.ofList word)))
  | some n =>
    if n = Int32.minValue.toInt then
      .error (.parse line (.variableOutOfRange (String.ofList word)))
    else .ok n

end TripletSat.Dimacs

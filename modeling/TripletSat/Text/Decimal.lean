/-!
Decimal numbers: one or more ASCII digits, leading zeros allowed, behind an optional sign.
-/
namespace TripletSat.Text

/-- The value of a nonempty row of digits. -/
def digits? (text : List Char) : Option Nat :=
  if !text.isEmpty && text.all Char.isDigit then
    some (text.foldl (fun n c => 10 * n + (c.toNat - '0'.toNat)) 0)
  else
    none

/-- The value of a row of digits behind an optional plus, if it is a 64-bit count. -/
def count? (text : List Char) : Option Nat :=
  let unsigned := match text with
    | '+' :: rest => rest
    | _ => text
  (digits? unsigned).filter (· < UInt64.size)

/-- The value of a row of digits behind an optional sign, if it is a 32-bit signed number. -/
def integer? (text : List Char) : Option Int :=
  let value := match text with
    | '-' :: rest => (digits? rest).map fun n => -(n : Int)
    | '+' :: rest => (digits? rest).map Int.ofNat
    | _ => (digits? text).map Int.ofNat
  value.filter fun n => Int32.minValue.toInt ≤ n && n ≤ Int32.maxValue.toInt

end TripletSat.Text

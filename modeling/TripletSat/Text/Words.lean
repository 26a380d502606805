/-!
Words and lines of a text. A blank is a character with the Unicode property White_Space; a line
ends at a line feed, and a carriage return before it is a blank like any other.
-/
namespace TripletSat.Text

/-- Whether a character has the Unicode property White_Space. -/
def isBlank (c : Char) : Bool :=
  let n := c.toNat
  0x09 ≤ n && n ≤ 0x0D || n == 0x20 || n == 0x85 || n == 0xA0 || n == 0x1680 ||
    0x2000 ≤ n && n ≤ 0x200A || n == 0x2028 || n == 0x2029 || n == 0x202F || n == 0x205F ||
    n == 0x3000

/-- The pieces of a text between the characters that a test picks. -/
def pieces (cut : Char → Bool) (text : List Char) : List (List Char) :=
  text.foldr (fun c rest =>
    if cut c then [] :: rest
    else match rest with
      | [] => [[c]]
      | piece :: rest => (c :: piece) :: rest) [[]]

def words (text : List Char) : List (List Char) := (pieces isBlank text).filter (!·.isEmpty)

/-- The lines of a text. A line feed at the end does not open another line. -/
def lines (text : List Char) : List (List Char) :=
  let all := pieces (· == '\n') text
  if all.getLast? = some [] then all.dropLast else all

theorem ne_nil_of_mem_words {text word : List Char} (member : word ∈ words text) : word ≠ [] := by
  simpa using (List.mem_filter.1 member).2

end TripletSat.Text

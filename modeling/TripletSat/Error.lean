import TripletSat.Fault
/-!
Errors: what a sound input can meet. A text may break its format, a file may be missing, a search
may find a structure empty or no route at all.
-/
namespace TripletSat

inductive ParseProblem
  | malformedHeader
  | notCount (token : String)
  | duplicateHeader
  | clauseBeforeHeader
  | notLiteral (token : String)
  | variableOutOfRange (token : String)
  | literalCount (found : Nat)
  | repeatedVariable
  | missingHeader
  | missingTerminator
  | emptyClause
  | truncatedRecord
  | invalidRecord (a b c : Int)
  | missingTerminatorRecord
deriving DecidableEq

def ParseProblem.message : ParseProblem → String
  | malformedHeader => "expected `p cnf <vars> <clauses>`"
  | notCount token => s!"`{token}` is not a count"
  | duplicateHeader => "duplicate `p cnf` header"
  | clauseBeforeHeader => "clause before `p cnf` header"
  | notLiteral token => s!"`{token}` is not a literal"
  | variableOutOfRange token => s!"variable in `{token}` is out of range"
  | literalCount found => s!"expected 3 literals, found {found}"
  | repeatedVariable => "variable repeated inside a clause"
  | missingHeader => "missing `p cnf` header"
  | missingTerminator => "clause is missing its `0` terminator"
  | emptyClause => "empty clause"
  | truncatedRecord => "truncated legacy record"
  | invalidRecord a b c => s!"invalid clause [{a}, {b}, {c}]"
  | missingTerminatorRecord => "formula is missing its terminator record"

inductive FileProblem
  | notFound
  | notPermitted
  | notDirectory
  | isDirectory
  | nameTooLong
  | notText
  | other (message : String)
deriving DecidableEq

def FileProblem.message : FileProblem → String
  | notFound => "No such file or directory (os error 2)"
  | notPermitted => "Permission denied (os error 13)"
  | notDirectory => "Not a directory (os error 20)"
  | isDirectory => "Is a directory (os error 21)"
  | nameTooLong => "File name too long (os error 36)"
  | notText => "stream did not contain valid UTF-8"
  | other message => message

/-- A structure of a group has run out of octants, so the group has no common assignment. -/
structure EmptyStructure where
  index : Nat
deriving DecidableEq

inductive Error
  | parse (line : Nat) (problem : ParseProblem)
  | file (problem : FileProblem)
  | emptyStructure (index : Nat)
  | routeNotFound (tier : Nat)
  | tooFewStructures (count : Nat)
  | invalidCertificate
  | literalOutOfRange (literal : Int)
  | tooManyClauses (vars clauses max : Nat)
deriving DecidableEq

def Error.message : Error → String
  | parse line problem => s!"parse error at line {line}: " ++ problem.message
  | file problem => "IO error: " ++ problem.message
  | emptyStructure index => s!"structure #{index} has no satisfying assignment"
  | routeNotFound tier => s!"no route through tier #{tier} of the hyper-structure system"
  | tooFewStructures count =>
    s!"a hyper-structure system needs at least two structures, got {count}"
  | invalidCertificate => "route assignment does not satisfy the formula"
  | literalOutOfRange literal => s!"literal {literal} does not fit in 32 bits"
  | tooManyClauses vars clauses max =>
    s!"{clauses} distinct clauses requested over {vars} variables, at most {max} exist"

def EmptyStructure.error (e : EmptyStructure) : Error := .emptyStructure e.index

/-- An operation with a precondition that may also fail on sound input. -/
abbrev Attempt (ε α : Type) := ExceptT ε Checked α

end TripletSat

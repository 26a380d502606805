import TripletSat.CommandLine.Options
import TripletSat.Dimacs.Generic
import TripletSat.Dimacs.Strict
import TripletSat.Exchange
import TripletSat.Solver
/-!
A run of the command line: reads a formula, prints and exports what was asked for, solves it and
prints the verdict. What the run does to its surroundings goes through a console, so the same run
serves a terminal and a directory held in memory.
-/
namespace TripletSat.CommandLine

structure Console (m : Type → Type) where
  print : String → m Unit
  complain : String → m Unit
  read : String → m (Except FileProblem String)
  write : String → List UInt8 → m (Except FileProblem Unit)
  /-- The time in milliseconds. -/
  clock : m Nat

/-- A run that may end early with an exit code. -/
abbrev Run (m : Type → Type) := ExceptT Nat m

variable {m : Type → Type} [Monad m]

namespace Console

def abort {α : Type} (console : Console m) (code : Nat) (message : String) : Run m α := do
  console.complain message
  throw code

def checked {α : Type} (console : Console m) : Checked α → Run m α
  | .ok result => return result
  | .error fault => console.abort 101 (fault.message.getD "index out of bounds")

def refuse {α : Type} (console : Console m) (program : String) (problem : UsageProblem) :
    Run m α := do
  if let .unknown option := problem then
    console.complain s!"Unknown option: {option}"
  (usage program).forM (console.complain ·)
  throw 1

/-- Reads the formula, and for a generic text the names that its variables had. -/
def load (console : Console m) (options : Options) :
    Run m (Except Error (Formula × Option Permutation)) := do
  match ← (console.read options.file : m _) with
  | .error problem => return .error (.file problem)
  | .ok text =>
    if options.generic then
      match ← console.checked (Dimacs.Instance.read text).run with
      | .ok found => return .ok (found.formula, some found.names)
      | .error e => return .error e
    else
      match Dimacs.Document.read text with
      | .ok document => return .ok (document.formula, none)
      | .error e => return .error e

def exportTo (console : Console m) (structures : List Formula) (path : String) : Run m Unit := do
  let written ← console.checked (Exchange.write structures)
  let outcome := match ← (console.write path written.bytes : m _) with
    | .error problem => some (Error.file problem)
    | .ok () => written.problem?
  if let some e := outcome then
    console.abort 1 (s!"Error writing '{path}': " ++ e.message)
  console.print s!"c wrote {structures.length} structures to '{path}'"

def saveOne (console : Console m) (start : String) (f : Formula) (index : Nat) : Run m Unit := do
  let text ← console.checked (Dimacs.print f)
  match ← (console.write s!"{start}-cts-{index}.cnf" text.toUTF8.toList : m _) with
  | .ok () => return ()
  | .error problem =>
    console.abort 1 (s!"Error saving structures to '{start}': " ++ (Error.file problem).message)

def saveTo (console : Console m) (structures : List Formula) (start : String) : Run m Unit := do
  structures.zipIdx.forM fun (f, index) => console.saveOne start f index
  console.print s!"c saved {structures.length} structures as '{start}-cts-*.cnf'"

def exportStructures (console : Console m) (options : Options) (f : Formula) : Run m Unit := do
  if options.export?.isSome || options.save?.isSome then
    match ← console.checked f.structures.run with
    | .error e => console.print ("c nothing exported: " ++ e.error.message)
    | .ok structures =>
      options.export?.forM (console.exportTo structures)
      options.save?.forM (console.saveTo structures)

end Console

/-- The literals of an assignment under the names of the text, the fresh variables left out. -/
def certificateLits (names : Option Permutation) (α : Assignment) : List Int :=
  α.entries.filterMap fun (v, value) => do
    let name ← match names with
      | some names => Dimacs.sourceName? names v
      | none => some v
    return if value then (name : Int) else -(name : Int)

def certificate (names : Option Permutation) (α : Assignment) : String :=
  "v" ++ String.join ((certificateLits names α).map fun l => " " ++ toString l) ++ " 0"

def seconds (milliseconds : Nat) : String :=
  let fraction := toString (milliseconds % 1000)
  toString (milliseconds / 1000) ++ "." ++
    String.ofList (List.replicate (3 - fraction.length) '0') ++ fraction

def report (console : Console m) (options : Options) (names : Option Permutation) (f : Formula) :
    Run m Unit := do
  let start ← (console.clock : m Nat)
  let (outcome, _) ← console.checked (f.solve options.check).outcome
  let stop ← (console.clock : m Nat)
  let solved := "c solved in " ++ seconds (stop - start) ++ "s"
  match outcome with
  | .ok (.satisfiable α) =>
    console.print solved
    console.print "s SATISFIABLE"
    console.print (certificate names α)
  | .ok .unsatisfiable =>
    console.print solved
    console.print "s UNSATISFIABLE"
  | .error e =>
    console.print "s UNKNOWN"
    console.abort 2 ("Error: " ++ e.message)

def runArguments (console : Console m) (program : String) (arguments : List String) :
    Run m Unit := do
  match Options.ofArguments arguments with
  | .error problem => console.refuse program problem
  | .ok options =>
    match ← console.load options with
    | .error e => console.abort 1 (s!"Error reading '{options.file}': " ++ e.message)
    | .ok (f, names) =>
      console.print s!"c {f.summary} from '{options.file}'"
      if options.pretty then
        (Render.lines options.render f).forM fun line => console.print ("c " ++ line)
      console.exportStructures options f
      report console options names f

def run (console : Console m) (program : String) (arguments : List String) : m Nat := do
  match ← (runArguments console program arguments).run with
  | .ok () => return 0
  | .error code => return code

def decodeText (bytes : ByteArray) : Except FileProblem String :=
  match String.fromUTF8? bytes with
  | some text => .ok text
  | none => .error .notText

end TripletSat.CommandLine

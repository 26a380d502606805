import TripletSat.Render
/-!
The arguments of the command line: a file, then options. What an option says last counts.
-/
namespace TripletSat.CommandLine

structure Options where
  file : String
  generic : Bool := false
  /-- Compare the layers with the basic structure while building. -/
  check : Bool := false
  pretty : Bool := false
  render : Render.Options := ⟨false, false⟩
  /-- The file for the structures in the exchange format. -/
  export? : Option String := none
  /-- The first part of the names of the files for the single structures. -/
  save? : Option String := none
deriving DecidableEq

inductive UsageProblem
  /-- The file or the value of an option is missing. -/
  | incomplete
  | unknown (option : String)
deriving DecidableEq

namespace Options

def extend (o : Options) : List String → Except UsageProblem Options
  | [] => return o
  | "--generic" :: rest => extend { o with generic := true } rest
  | "--check" :: rest => extend { o with check := true } rest
  | "--pretty" :: rest => extend { o with pretty := true } rest
  | "--grid" :: rest =>
    extend { o with pretty := true, render := { o.render with grid := true } } rest
  | "--universal-names" :: rest =>
    extend { o with render := { o.render with universalNames := true } } rest
  | "--export-skt" :: path :: rest => extend { o with export? := some path } rest
  | "--save-cts" :: start :: rest => extend { o with save? := some start } rest
  | "--export-skt" :: [] | "--save-cts" :: [] => throw .incomplete
  | other :: _ => throw (.unknown other)

def ofArguments : List String → Except UsageProblem Options
  | [] => throw .incomplete
  | file :: rest => extend { file } rest

end Options

def usage (program : String) : List String :=
  [s!"Usage: {program} <cnf_file> [options]",
    "",
    "Options:",
    "  --generic              Accept clauses of any width and any variable names",
    "  --check                Check hyper-structure invariants while building",
    "  --pretty               Print the parsed formula",
    "  --grid                 Print one row per octant (implies --pretty)",
    "  --universal-names      Name variables x1, x2, ... when printing",
    "  --export-skt <file>    Write the compact structures in the legacy binary layout",
    "  --save-cts <prefix>    Write each compact structure to <prefix>-cts-<i>.cnf"]

end TripletSat.CommandLine

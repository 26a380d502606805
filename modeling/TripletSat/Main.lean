import TripletSat.CommandLine.Run
/-!
The program: a run of the command line on the terminal and the files of the machine.
-/
namespace TripletSat.CommandLine

def problemOf : IO.Error → FileProblem
  | .noFileOrDirectory .. => .notFound
  | .permissionDenied .. => .notPermitted
  | .inappropriateType _ code _ => if code = 21 then .isDirectory else .notDirectory
  | e@(.invalidArgument _ code _) =>
    if code = 36 ∨ code = -36 then .nameTooLong else .other (toString e)
  | e => .other (toString e)

def attempt {α : Type} (action : IO α) : IO (Except FileProblem α) := do
  try return .ok (← action)
  catch e => return .error (problemOf e)

def terminal : Console IO where
  print := IO.println
  complain := IO.eprintln
  read name := do
    match ← attempt (IO.FS.readBinFile name) with
    | .ok bytes => return decodeText bytes
    | .error problem => return .error problem
  write name bytes := attempt (IO.FS.writeBinFile name ⟨bytes.toArray⟩)
  clock := IO.monoMsNow

end TripletSat.CommandLine

def main (arguments : List String) : IO UInt32 := do
  return .ofNat (← TripletSat.CommandLine.run TripletSat.CommandLine.terminal "tripletsat" arguments)

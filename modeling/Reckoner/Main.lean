import Reckoner.CommandLine.Run

/-!
# The program

Reads the environment and the files, and prints what comes of them.
-/

open Reckoner

def openFile (path : String) : IO File :=
  try
    return .ok (← IO.FS.readBinFile path)
  catch
    | .noFileOrDirectory .. => return .error .missing
    | .inappropriateType _ 21 _ => return .error .directory
    | .inappropriateType .. => return .error .blocked
    | _ => return .error .directory

/-- Nobody sees the times of calculations that are not kept. -/
def timeless : Collaborators :=
  .plain fun _ => .epoch

def main (arguments : List String) : IO UInt32 := do
  let names := ["ABACUS_CONFIG_PATH", "ABACUS_HOST", "ABACUS_PORT", "ABACUS_WORKERS"]
  let values ← names.mapM fun name => do return (name, ← IO.getEnv name)
  let env := Settings.Environment.ofVariables fun name => (values.lookup name).join
  let outcome ← CommandLine.run openFile timeless env arguments
  IO.print outcome.output
  IO.eprint outcome.complaint
  return UInt32.ofNat outcome.code

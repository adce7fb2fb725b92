import ELOntology.CommandLine.Run

/-!
# The program

The command line on the files of the machine.
-/

namespace ELOntology

/-- Whether an action ends without an exception. -/
def whether (action : IO Unit) : IO Bool := do
  try
    action
    return true
  catch _ => return false

/-- The files of the machine. -/
def machineFiles : FileAccess IO where
  read path := do
    try return some (← IO.FS.readFile path)
    catch _ => return none
  makeDirectory path := if path = "" then return true else whether (IO.FS.createDirAll path)
  write path content := whether (IO.FS.writeFile path content)

/-- How many threads the machine runs at once, as far as it tells. -/
def machineThreads : IO Nat := do
  let some source ← machineFiles.read "/proc/cpuinfo" | return 1
  return max 1 ((source.splitOn "\n").countP fun line => "processor".isPrefixOf line)

end ELOntology

open ELOntology

def main (arguments : List String) : IO UInt32 := do
  let outcome ← CommandLine.run machineFiles (← machineThreads) arguments
  (← IO.getStdout).putStr outcome.output
  (← IO.getStderr).putStr outcome.complaint
  return UInt32.ofNat outcome.exit

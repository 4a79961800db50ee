import GrantCache.CommandLine

/-!
# The program

Arguments, the file with the settings and the two streams of output; all else is in
`GrantCache.CommandLine`. There is no way to a remote store from here, so a service always starts
with the store of the process.
-/

open GrantCache

def bytesOf (path : String) : IO (Option ByteArray) := do
  try return some (← IO.FS.readBinFile path)
  catch _ => return none

def main (args : List String) : IO UInt32 := do
  let content ← match CommandLine.settingsFile? args with
    | some path => bytesOf path
    | none => pure none
  let outcome := CommandLine.run args content { listening := false }
  IO.print outcome.out
  IO.eprint outcome.err
  return outcome.code

/-
  HackIsa.Main — the program: assemble the instruction given as arguments.
-/

import HackIsa.CommandLine

def main (args : List String) : IO UInt32 := do
  let program ← IO.appPath
  let outcome := HackIsa.CommandLine.runAll (program.toString :: args)
  IO.print outcome.stdout
  IO.eprint outcome.stderr
  return outcome.status.toUInt32

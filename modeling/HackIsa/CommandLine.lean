/-
  HackIsa.CommandLine — the command line, without input or output.

  The arguments are a comp text and, if wanted, a dest and a jump text, in that order.
  The report has a line for each field and one for the word. Its lines are written one
  by one, so whatever was written before a failure would stay written. Status 0 is a
  report, 1 a text without a code, 2 a wrong number of arguments.
-/

import HackIsa.Instruction

namespace HackIsa.CommandLine

structure Outcome where
  status : Nat
  stdout : String
  stderr : String
  deriving DecidableEq, Repr

/-- A step that may fail and keeps what has been written so far. -/
abbrev Writing := ExceptT AssemblyError (StateM String)

def writeLine (line : String) : Writing Unit := modify fun written => written ++ line ++ "\n"

def report (dest comp jump : String) : Writing Unit := do
  let word ← Instruction.assemble dest comp jump
  writeLine ("dest " ++ (Dest.assemble dest).text)
  let compField ← Comp.assemble comp
  writeLine ("comp " ++ compField.text)
  let jumpField ← Jump.assemble jump
  writeLine ("jump " ++ jumpField.text)
  writeLine word.text

def usage (program : String) : String := "Usage: " ++ program ++ " <comp> [dest] [jump]\n"

def run (program : String) (args : List String) : Outcome :=
  if h : args.length < 1 ∨ 3 < args.length then
    { status := 2, stdout := "", stderr := usage program }
  else
    have : 0 < args.length := by omega
    match (report (args[1]?.getD "") args[0] (args[2]?.getD "")).run.run "" with
    | (.ok (), written) => { status := 0, stdout := written, stderr := "" }
    | (.error e, written) => { status := 1, stdout := written, stderr := e.message ++ "\n" }

def defaultProgram : String := "hack-code"

/-- The run on a whole list of arguments, with the program's name in front if it has one. -/
def runAll (argv : List String) : Outcome := run (argv[0]?.getD defaultProgram) argv.tail

end HackIsa.CommandLine

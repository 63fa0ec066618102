import SingleTape.CommandLine

/-!
The program: reads the input file and prints the outcome of the command line.
-/

namespace SingleTape.Program

/-- The name under which the program is installed. -/
def name : Text := "tms"

/-- More steps than any run on a real machine makes. -/
def fuel : Nat := 0x4000000000000000

def emit (outcome : Outcome) : IO UInt32 := do
  (← IO.getStderr).write ⟨outcome.console.stderr.toArray⟩
  (← IO.getStdout).write ⟨outcome.console.stdout.toArray⟩
  match outcome.ending with
  | .exit code => return code.toUInt32
  | .tapeTooLarge => return 134

def readFile (name : Text) : IO (Option Text) := do
  match String.fromUTF8? ⟨name.toArray⟩ with
  | none => return none
  | some path =>
    try
      return some (← IO.FS.readBinFile path).toList
    catch _ => return none

end SingleTape.Program

open SingleTape Program in
def main (args : List String) : IO UInt32 := do
  match Options.read (args.map fun a => a.toUTF8.toList) with
  | .error e => emit (CommandLine.usageOutcome name e)
  | .ok o =>
    match CommandLine.execute fuel o (← readFile o.file) with
    | some outcome => emit outcome
    | none => return 1

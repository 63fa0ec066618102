import SingleTape.CommandLine.Options
import SingleTape.Execution
import SingleTape.Machine.Summary
import SingleTape.Source.Reading
import SingleTape.Source.Writing
import SingleTape.Transcript

/-!
The command line as a function of its arguments and of the files it can see.
-/

namespace SingleTape

structure Console where
  stdout : Text := []
  stderr : Text := []
  deriving DecidableEq

/-- Work that prints; a failure keeps what was printed before it. -/
abbrev Command (α : Type) := ExceptT Failure (StateT Console Option) α

namespace Command

def print (t : Text) : Command Unit := modify fun k => { k with stdout := k.stdout ++ t }

def report (t : Text) : Command Unit := modify fun k => { k with stderr := k.stderr ++ t }

def ofExcept {α : Type} : Except Error α → Command α
  | .ok a => pure a
  | .error e => throw (.error e)

/-- Lets a machine work; what its observers write is reported. -/
def perform {α : Type} (x : Execution Transcript α) (c : Config) : Command (α × Config) := do
  match x c ∅ with
  | .ok a c t =>
    report t.text
    return (a, c)
  | .error e _ t =>
    report t.text
    throw e
  | .exhausted => show Command (α × Config) from fun _ => none

end Command

/-- How a command ended; a tape too large is not handled. -/
inductive Ending where
  | exit (code : Nat)
  | tapeTooLarge
  deriving DecidableEq

structure Outcome where
  ending : Ending
  console : Console
  deriving DecidableEq

namespace CommandLine

open Command

def stats (M : Machine) : Text :=
  "Stats:\n  States: " ++ Text.ofNat M.states.size
    ++ "\n  Tape alphabet: " ++ Text.ofNat M.alphabet.size
    ++ "\n  Transitions: " ++ Text.ofNat M.table.size ++ "\n"

def verdict : Option Bool → Text
  | none => "UNDECIDED"
  | some true => "ACCEPT"
  | some false => "REJECT"

def answerLine (word : Text) (accepted : Option Bool) : Text :=
  "Word \"" ++ word ++ "\": " ++ verdict accepted ++ "\n"

def runReport (M : Machine) (outcome : RunOutcome) (c : Config) : Text :=
  "Result: " ++ outcome.name
    ++ "\nSteps: " ++ Text.ofNat c.steps
    ++ "\nState: " ++ c.state ++ (if c.isFinal M then Text.ofString " (final)" else [])
    ++ "\nFinal tape: " ++ Text.ofSymbols c.tape
    ++ "\nHead: " ++ Text.ofNat c.head ++ "\n"
    ++ if outcome = .stepLimitReached then Text.ofString "WARNING: Hit step limit\n" else []

variable (fuel : Nat) (o : Options)

/-- Answers the queries in turn. -/
def answerWords (M : Machine) (deliver : Text → Event → Execution Transcript Unit) :
    List Text → Config → Command Config
  | [], c => return c
  | word :: words, c => do
    let (accepted, c) ← perform (Engine.accept M deliver fuel word.symbols o.maxSteps) c
    print (answerLine word accepted)
    answerWords M deliver words c

/-- Sets the tape and runs, under observation if the options ask for it. -/
def runTape (M : Machine) (deliver : Text → Event → Execution Transcript Unit) (c : Config) :
    Command Unit := do
  let c := if o.verbose then c.attach "transcript" else c
  let (outcome, c) ←
    perform (Engine.runOn M deliver fuel o.tape.symbols o.head o.maxSteps) c
  print (runReport M outcome c)

/-- Everything after the file was read. -/
def simulate (source : Text) : Command Unit := do
  if o.verbose then report ("Parsing " ++ o.file ++ "...\n")
  let M ← ofExcept (Machine.ofSource source)
  let deliver := Execution.deliver M Transcript.observers fuel
  if o.verbose then report (stats M)
  if o.describe then print (M.summary ++ "\n")
  if o.source then print (← ofExcept M.toSource)
  let c ← answerWords fuel o M deliver o.words M.start
  if o.words = [] ∨ o.tape ≠ [] then runTape fuel o M deliver c

def errorReport (e : Error) : Text := "Error (" ++ e.kind.name ++ "): " ++ e.message ++ "\n"

/-- The outcome for given options and the contents of the input file, if it can be read. -/
def execute (contents : Option Text) : Option Outcome :=
  match contents with
  | none => some ⟨.exit 1, { stderr := "Error: Cannot open input file: " ++ o.file ++ "\n" }⟩
  | some source =>
    ((simulate fuel o source).run {}).map fun
      | (.ok (), k) => ⟨.exit 0, k⟩
      | (.error (.error e), k) => ⟨.exit 1, { k with stderr := k.stderr ++ errorReport e }⟩
      | (.error .tapeTooLarge, k) => ⟨.tapeTooLarge, k⟩

def usageOutcome (program : Text) (e : UsageError) : Outcome :=
  ⟨.exit 1, { stderr := e.text program }⟩

end CommandLine

/-- The whole command line of the program with the given name. There is no outcome when the fuel
does not suffice. -/
def CommandLine.run (fuel : Nat) (program : Text) (args : List Text)
    (files : Text → Option Text) : Option Outcome :=
  match Options.read args with
  | .error e => some (usageOutcome program e)
  | .ok o => execute fuel o (files o.file)

end SingleTape

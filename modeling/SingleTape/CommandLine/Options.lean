import SingleTape.Text.Decimal

/-!
Command line arguments. A numeric option takes the signed 64-bit number at the front of its value.
-/

namespace SingleTape

structure Options where
  file : Text := []
  tape : Text := []
  head : Int := 0
  maxSteps : Option Int := none
  /-- The words to query, in the order given. -/
  words : List Text := []
  describe : Bool := false
  source : Bool := false
  verbose : Bool := false
  deriving DecidableEq

inductive UsageError where
  | noArguments
  | unknownOption (argument : Text)
  | invalidNumber
  | noFile
  deriving DecidableEq

namespace UsageError

/-- How the program is used that goes by this name. -/
def usage (program : Text) : Text :=
  "TMS - Turing Machine Simulator\n\n" ++
  "Usage: " ++ program ++ " [options] <machine.tm>\n" ++
  "\nOptions:\n" ++
  "  -t <tape>     Initial tape contents (default: empty)\n" ++
  "  -p <n>        Initial head position (default: 0)\n" ++
  "  -n <n>        Maximum steps (default: unbounded)\n" ++
  "  -a <word>     Check whether a word is accepted (repeatable)\n" ++
  "  -d            Describe the machine\n" ++
  "  -s            Print the machine as description text\n" ++
  "  -v            Verbose output, trace every step\n"

def text (program : Text) : UsageError → Text
  | noArguments => usage program
  | unknownOption argument => "Unknown option: " ++ argument ++ "\n" ++ usage program
  | invalidNumber => "Error: Invalid numeric argument: stoll\n"
  | noFile => "Error: No input file specified\n" ++ usage program

end UsageError

namespace Options

/-- An argument that stands alone: a switch, or the input file if it does not start with a dash. -/
def switch (o : Options) (a : Text) : Except UsageError Options :=
  if a = Text.ofString "-d" then .ok { o with describe := true }
  else if a = Text.ofString "-s" then .ok { o with source := true }
  else if a = Text.ofString "-v" then .ok { o with verbose := true }
  else if (Text.ofString "-").isPrefixOf a then .error (.unknownOption a)
  else .ok { o with file := a }

/-- An argument that takes the next one as its value. -/
def valued? (o : Options) (a value : Text) : Option (Except UsageError Options) :=
  if a = Text.ofString "-t" then some (.ok { o with tape := value })
  else if a = Text.ofString "-p" then
    some (match value.toInt64? with
      | some n => .ok { o with head := n }
      | none => .error .invalidNumber)
  else if a = Text.ofString "-n" then
    some (match value.toInt64? with
      | some n => .ok { o with maxSteps := some n }
      | none => .error .invalidNumber)
  else if a = Text.ofString "-a" then some (.ok { o with words := o.words ++ [value] })
  else none

def readFrom (o : Options) : List Text → Except UsageError Options
  | [] => .ok o
  | [a] => o.switch a
  | a :: value :: rest =>
    match o.valued? a value with
    | some (.ok o) => o.readFrom rest
    | some (.error e) => .error e
    | none => match o.switch a with
      | .ok o => o.readFrom (value :: rest)
      | .error e => .error e

/-- Later options of a kind replace earlier ones, except that words add up. -/
def read (args : List Text) : Except UsageError Options :=
  if args = [] then .error .noArguments
  else match readFrom {} args with
    | .ok o => if o.file = [] then .error .noFile else .ok o
    | .error e => .error e

end Options
end SingleTape

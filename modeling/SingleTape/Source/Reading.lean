import SingleTape.Draft
import SingleTape.Source.Statement

/-!
Reading descriptions: every line of a text adds its statement to a draft. A line that cannot be
read leaves the draft as the lines before it made it.
-/

namespace SingleTape
namespace Draft

def define (d : Draft) : Statement → Except Error Draft
  | .transition q a t b m => d.addTransition q a t b m
  | .comment => .ok d
  | .final q => .ok (d.addFinal q)
  | .initial q =>
    if d.initial.isSome then .error Directive.initial.repeated else .ok (d.setInitial q)
  | .blank c => if d.blank.isSome then .error Directive.blank.repeated else .ok (d.setBlank c)
  | .halt q => if d.halt.isSome then .error Directive.halt.repeated else .ok (d.setHalt q)

/-- Lines of white space mean nothing. -/
def readLine (d : Draft) (line : Text) : Except Error Draft :=
  if line.all Text.isSpace then .ok d
  else match Statement.ofLine? line with
    | some s => d.define s
    | none => .error (.parse .unrecognizedLine 0 ("Unrecognized pattern: " ++ line))

/-- Reads lines until one fails; the first of them has the given number. -/
def readLines (d : Draft) (number : Int32) : List Text → Draft × Option Error
  | [] => (d, none)
  | l :: ls => match d.readLine l.dropReturn with
    | .ok d => d.readLines (number + 1) ls
    | .error e => (d, some (e.atLine number))

def readText (d : Draft) (source : Text) : Draft × Option Error := d.readLines 1 source.lines

end Draft

/-- The machine that a text describes. -/
def Machine.ofSource (source : Text) : Except Error Machine :=
  match (∅ : Draft).readText source with
  | (d, none) => d.finish
  | (_, some e) => .error e

end SingleTape

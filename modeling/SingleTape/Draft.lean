import SingleTape.Machine.Validity

/-!
Machines under construction. A draft gathers states, symbols and transitions in any order and
becomes a machine once its initial state, blank and halt state are known.
-/

namespace SingleTape

/-- The parts that a machine has exactly one of. -/
inductive Directive where
  | initial
  | blank
  | halt
  deriving DecidableEq

namespace Directive

def missing : Directive → Error
  | initial => .completion "It is necessary to specify an initial state"
  | blank => .completion "It is necessary to specify the blank symbol"
  | halt => .completion "It is necessary to specify the halt state"

def repeated : Directive → Error
  | initial => .parse .duplicateDirective 0 "Initial state can only be defined once"
  | blank => .parse .duplicateDirective 0 "Blank symbol can only be defined once"
  | halt => .parse .duplicateDirective 0 "Halt state can only be defined once"

end Directive

structure Draft where
  states : SortedSet State := ∅
  input : SortedSet Symbol := ∅
  table : Table := ∅
  initial : Option State := none
  finals : SortedSet State := ∅
  halt : Option State := none
  blank : Option Symbol := none
  deriving DecidableEq

namespace Draft

instance : EmptyCollection Draft := ⟨{}⟩

/-- Counts a symbol as an input symbol unless it is the blank known so far. -/
def mention (d : Draft) (c : Symbol) : Draft :=
  if d.blank = some c then d else { d with input := d.input.insert c }

/-- Adds a transition, in place of one from the same state on the same symbol. -/
def addTransition (d : Draft) (source : State) (read : Symbol) (target : State) (write : Symbol)
    (move : Move) : Except Error Draft :=
  if move.isValid then
    .ok { (d.mention read).mention write with
      states := (d.states.insert source).insert target
      table := d.table.set source read ⟨read, write, move, target⟩ }
  else .error (.malformedInput ("Invalid movement: " ++ Text.ofInt move.code.toInt))

/-- The symbol that a text of one byte spells. -/
def symbolOfText (t : Text) : Except Error Symbol :=
  match t with
  | [b] => .ok ⟨b⟩
  | _ => .error (.malformedInput ("Symbol must be one char length: '" ++ t ++ "'"))

def addTransitionText (d : Draft) (source : State) (read : Text) (target : State) (write : Text)
    (move : Move) : Except Error Draft := do
  let read ← symbolOfText read
  let write ← symbolOfText write
  d.addTransition source read target write move

def addFinal (d : Draft) (q : State) : Draft :=
  { d with states := d.states.insert q, finals := d.finals.insert q }

def setInitial (d : Draft) (q : State) : Draft :=
  { d with states := d.states.insert q, initial := some q }

def setBlank (d : Draft) (c : Symbol) : Draft := { d with blank := some c }

def setBlankText (d : Draft) (t : Text) : Except Error Draft := return d.setBlank (← symbolOfText t)

/-- Replaces the halt state. The old one is forgotten if no transition starts or ends there. -/
def setHalt (d : Draft) (q : State) : Draft :=
  let states := match d.halt with
    | none => d.states
    | some old => if d.table.mentions old then d.states else d.states.erase old
  { d with states := states.insert q, halt := some q }

/-- The machine as drafted; its tape alphabet is the input alphabet and the blank. -/
def assemble (d : Draft) : Except Error Machine :=
  match d.initial, d.blank, d.halt with
  | none, _, _ => .error Directive.initial.missing
  | some _, none, _ => .error Directive.blank.missing
  | some _, some _, none => .error Directive.halt.missing
  | some initial, some blank, some halt =>
    .ok {
      states := d.states
      input := d.input
      alphabet := d.input.insert blank
      table := d.table
      initial
      finals := d.finals
      halt
      blank }

/-- The machine as drafted, if it is complete and valid. -/
def finish (d : Draft) : Except Error Machine := do
  let M ← d.assemble
  M.check
  return M

end Draft
end SingleTape

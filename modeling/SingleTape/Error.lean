import SingleTape.Move
import SingleTape.Text.Decimal

/-!
Everything that can go wrong, with the wording of each message.
-/

namespace SingleTape

/-- A state of a machine, known by its name. -/
abbrev State := Text

inductive ErrorKind where
  | haltState
  | unsetTape
  | invalidSymbol
  | unknownTransition
  | validation
  | completion
  | malformedInput
  | unrecognizedLine
  | duplicateDirective
  /-- A code that means nothing. -/
  | unknown
  deriving DecidableEq

namespace ErrorKind

def name : ErrorKind → Text
  | haltState => "HaltState"
  | unsetTape => "UnsetTape"
  | invalidSymbol => "InvalidSymbol"
  | unknownTransition => "UnknownTransition"
  | validation => "Validation"
  | completion => "Completion"
  | malformedInput => "MalformedInput"
  | unrecognizedLine => "UnrecognizedLine"
  | duplicateDirective => "DuplicateDirective"
  | unknown => "Unknown"

/-- The kinds that occur, in the order of their codes. -/
def all : List ErrorKind :=
  [haltState, unsetTape, invalidSymbol, unknownTransition, validation, completion,
    malformedInput, unrecognizedLine, duplicateDirective]

def ofCode (code : Int) : ErrorKind := if code < 0 then unknown else all.getD code.toNat unknown

end ErrorKind

/-- What a machine has to satisfy, in the order in which it is checked. -/
inductive Invariant where
  | inputWithinAlphabet
  | blankInAlphabet
  | initialIsState
  | finalsAreStates
  | haltIsState
  | transitionStates
  | transitionSymbols
  | transitionMove
  deriving DecidableEq

namespace Invariant

def all : List Invariant :=
  [inputWithinAlphabet, blankInAlphabet, initialIsState, finalsAreStates, haltIsState,
    transitionStates, transitionSymbols, transitionMove]

/-- The place in the order of checking. -/
def code (i : Invariant) : Nat := all.idxOf i

end Invariant

inductive Error where
  /-- A step was asked for in the halt state. -/
  | haltState (state : State)
  /-- The tape was used before it was set. -/
  | unsetTape (text : Text)
  /-- A tape holds a symbol that the machine does not know. -/
  | invalidSymbol (symbol : Symbol)
  /-- The table has nothing for this state and symbol. -/
  | unknownTransition (state : State) (symbol : Symbol)
  /-- A machine breaks an invariant; `value` is the offending state, symbol or move. -/
  | validation (invariant : Invariant) (value text : Text)
  /-- A draft lacks a part that every machine has. -/
  | completion (text : Text)
  | malformedInput (text : Text)
  /-- A line could not be read; line 0 stands for a line outside a text. Lines are counted in a
  word of 32 bits. -/
  | parse (kind : ErrorKind) (line : Int32) (text : Text)
  deriving DecidableEq

namespace Error

def kind : Error → ErrorKind
  | haltState _ => .haltState
  | unsetTape _ => .unsetTape
  | invalidSymbol _ => .invalidSymbol
  | unknownTransition _ _ => .unknownTransition
  | validation _ _ _ => .validation
  | completion _ => .completion
  | malformedInput _ => .malformedInput
  | parse kind _ _ => kind

/-- The text without the place in the source. -/
def text : Error → Text
  | haltState q => "Current state is halt state: " ++ q
  | unsetTape t => t
  | invalidSymbol c => "Invalid tape symbol: " ++ c.text
  | unknownTransition q c => "No transition for (" ++ q ++ ", " ++ c.text ++ ")"
  | validation _ _ t => t
  | completion t => t
  | malformedInput t => t
  | parse _ _ t => t

/-- The full message, as far as its first zero byte. -/
def message (e : Error) : Text :=
  match e with
  | parse _ line t =>
    if 0 < line then ("line " ++ Text.ofInt line.toInt ++ ": " ++ t).untilNul else t.untilNul
  | e => e.text.untilNul

/-- The error of a line, seen from the text in which it is the given line. -/
def atLine (line : Int32) (e : Error) : Error :=
  match e with
  | parse kind _ t => parse kind line t
  | e => parse e.kind line e.message

end Error

/-- Why an operation on a tape failed: an error, or a tape too large to exist. -/
inductive Failure where
  | error (e : Error)
  | tapeTooLarge
  deriving DecidableEq

instance : Coe Error Failure := ⟨.error⟩

end SingleTape

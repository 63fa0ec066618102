import SingleTape.Error
import SingleTape.Source.Lexeme

/-!
The statements of a machine description, one on each line: how a line is recognised and how a
statement is written.
-/

namespace SingleTape

inductive Statement where
  | transition (source : State) (read : Symbol) (target : State) (write : Symbol) (move : Move)
  | comment
  | final (state : State)
  | initial (state : State)
  | blank (symbol : Symbol)
  | halt (state : State)
  deriving DecidableEq

namespace Statement

def finalKeyword : Text := "FINAL"

def initialKeyword : Text := "INITIAL"

def blankKeyword : Text := "BLANK"

def haltKeyword : Text := "HALT"

def commentMark : Text := "%"

def arrow : Text := "->"

def comma : Text := ","

def scanTransition : Scan Statement := do
  let source ← Scan.word
  Scan.token comma
  let read ← Scan.symbol (Scan.token arrow)
  let target ← Scan.word
  Scan.token comma
  let write ← Scan.symbol (Scan.token comma)
  let move ← Move.ofToken? (← Scan.char)
  Scan.atEnd
  return transition source read target write move

/-- The rest of a comment line means nothing. -/
def scanComment : Scan Statement := do
  Scan.token commentMark
  return comment

/-- A keyword with a state behind it. -/
def scanState (keyword : Text) (statement : State → Statement) : Scan Statement := do
  Scan.keyword keyword
  let q ← Scan.word
  Scan.atEnd
  return statement q

def scanBlank : Scan Statement := do
  Scan.keyword blankKeyword
  let c ← Scan.symbol Scan.atEnd
  return blank c

/-- The forms that a line may have. -/
def forms : List (Scan Statement) :=
  [scanTransition, scanComment, scanState finalKeyword final, scanState initialKeyword initial,
    scanBlank, scanState haltKeyword halt]

/-- The statement on a line, by the first form that fits. -/
def ofLine? (line : Text) : Option Statement :=
  forms.findSome? fun form => (form line).map Prod.fst

/-- A state as it is written. Only a word can be read back. -/
def stateField (q : State) : Except Error Text :=
  if q.IsWord then .ok q
  else .error (.malformedInput ("State cannot be written: '" ++ q ++ "'"))

/-- A symbol as it is written. Line ends and zero bytes would break the line. -/
def symbolField (c : Symbol) : Except Error Text :=
  if c.byte ∈ [Text.newline, Text.carriageReturn, 0] then
    .error (.malformedInput ("Symbol cannot be written: '" ++ c.text ++ "'"))
  else .ok c.text

/-- The line of a statement, with its end. -/
def render : Statement → Except Error Text
  | transition q a t b m => do
    let q ← stateField q
    let a ← symbolField a
    let t ← stateField t
    let b ← symbolField b
    return q ++ ", " ++ a ++ " -> " ++ t ++ ", " ++ b ++ ", " ++ m.token.text ++ "\n"
  | comment => return commentMark ++ "\n"
  | final q => return finalKeyword ++ " " ++ (← stateField q) ++ "\n"
  | initial q => return initialKeyword ++ " " ++ (← stateField q) ++ "\n"
  | blank c => return blankKeyword ++ " " ++ (← symbolField c) ++ "\n"
  | halt q => return haltKeyword ++ " " ++ (← stateField q) ++ "\n"

end Statement
end SingleTape

import SingleTape.Symbol

/-!
The pieces of a line: words, fixed tokens and symbols in symbol position. A scan takes what is left
of the line and returns its value with what is left after it; white space in front is skipped.
-/

namespace SingleTape

abbrev Scan (α : Type) := StateT Text Option α

namespace Scan

open Text

/-- Nothing but white space is left. -/
def atEnd : Scan Unit := fun r => if r.all isSpace then some ((), []) else none

/-- The longest run of word bytes, if it is not empty. -/
def word : Scan Text := fun r =>
  let r := r.dropWhile isSpace
  let w := r.takeWhile isWordByte
  if w = [] then none else some (w, r.dropWhile isWordByte)

def token (t : Text) : Scan Unit := fun r =>
  let r := r.dropWhile isSpace
  if t.isPrefixOf r then some ((), r.drop t.length) else none

/-- Any byte that is not white space. -/
def char : Scan Symbol := fun r =>
  match r.dropWhile isSpace with
  | [] => none
  | b :: r => some (⟨b⟩, r)

/-- A keyword and the one white space byte that separates it from its argument. -/
def keyword (t : Text) : Scan Unit := fun r =>
  match token t r with
  | some (_, b :: r) => if isSpace b then some ((), r) else none
  | _ => none

/-- What a symbol position may mean, each with what is left behind it: the first byte that is not
white space, then the white space in front of it from right to left. -/
def candidates : Text → List (Symbol × Text)
  | [] => []
  | b :: r => if isSpace b then candidates r ++ [(⟨b⟩, r)] else [(⟨b⟩, r)]

/-- A symbol in symbol position: the first candidate behind which `follow` succeeds. -/
def symbol (follow : Scan Unit) : Scan Symbol := fun r =>
  (candidates r).findSome? fun (c, after) => (follow after).map fun (_, rest) => (c, rest)

theorem char_eq_some_iff {r rest : Text} {c : Symbol} :
    char r = some (c, rest) ↔ r.dropWhile isSpace = c.byte :: rest := by
  unfold char
  cases r.dropWhile isSpace with
  | nil => simp
  | cons b r => cases c; simp

end Scan
end SingleTape

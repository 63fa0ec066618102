import SingleTape.Symbol

/-!
Reading a line by position. A cursor goes along the line, and bytes are looked at one at a time. The
symbol in a symbol position is found by trying places from right to left: the cursor is put behind
each and goes on from there, so that a failed try leaves it somewhere else.
-/

namespace SingleTape

/-- Work on a line with a cursor, given by its place. There is no outcome if the work looks at a
place outside of the line or puts the cursor beyond its end. -/
abbrev Cursor (α : Type) := StateT Nat Option α

namespace Cursor

open Text

variable (l : Text)

def look (p : Nat) : Cursor UInt8 := fun pos => l[p]?.map (·, pos)

/-- The line from the cursor on. -/
def rest : Cursor Text := fun pos => if pos ≤ l.length then some (l.drop pos, pos) else none

def moveTo (p : Nat) : Cursor Unit := fun _ => if p ≤ l.length then some ((), p) else none

/-- Skips white space from `pos` on, where the cursor is. -/
def skipFrom (pos : Nat) : Cursor Unit := do
  if pos < l.length then
    if isSpace (← look l pos) then
      moveTo l (pos + 1)
      skipFrom (pos + 1)
termination_by l.length - pos

def skipSpace : Cursor Unit := do skipFrom l (← get)

def atEnd : Cursor Bool := do
  skipSpace l
  return l.length ≤ (← get)

/-- Whether a text comes next. The cursor goes behind it, and behind white space in any case. -/
def expect (t : Text) : Cursor Bool := do
  skipSpace l
  if (← rest l).take t.length ≠ t then return false
  moveTo l ((← get) + t.length)
  return true

/-- Whether `follow` comes next, or the end of the line if `follow` is empty. -/
def followed (follow : Text) : Cursor Bool :=
  if follow = [] then atEnd l else expect l follow

/-- Tries the places below an index as the symbol, down to `start`. The cursor stays where the last
try has left it. -/
def tryBelow (follow : Text) (start : Nat) : Nat → Cursor (Option Symbol)
  | 0 => return none
  | p + 1 => do
    -- Compared before it is used, so that no place in front of `start` or of the line is tried.
    if p < start then return none
    -- The first index may be the end of the line, where there is no byte.
    if l.length ≤ p then tryBelow follow start p
    else
      moveTo l (p + 1)
      if ← followed l follow then return some ⟨← look l p⟩
      else tryBelow follow start p

/-- A symbol with `follow` behind it, tried from the first byte that is not white space. If there is
none, the cursor goes back. -/
def symbol (follow : Text) : Cursor (Option Symbol) := do
  let start ← get
  skipSpace l
  match ← tryBelow l follow start ((← get) + 1) with
  | some c => return some c
  | none =>
    moveTo l start
    return none

end Cursor
end SingleTape

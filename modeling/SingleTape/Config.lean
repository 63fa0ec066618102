import SingleTape.Machine

/-!
Configurations: the tape, head, state and step counter of a machine at work, and who observes it.
The tape is a finite piece of a two-way infinite one; outside of it every cell is blank.
-/

namespace SingleTape

structure Config where
  /-- The live cells, from the leftmost one. -/
  tape : List Symbol := []
  tapeSet : Bool := false
  /-- The index of the scanned cell among the live ones. -/
  head : Nat := 0
  state : State
  steps : Nat := 0
  /-- The names of the attached observers, in the order of attachment. -/
  observers : List Text := []
  deriving DecidableEq

/-- What a query keeps of a machine, to be put back when it is over. -/
structure Snapshot where
  tape : List Symbol
  tapeSet : Bool
  head : Nat
  state : State
  steps : Nat
  observers : List Text

/-- A machine before anything was done with it. -/
def Machine.start (M : Machine) : Config := { state := M.initial }

namespace Config

variable (M : Machine)

def isHalted (c : Config) : Prop := c.state = M.halt

instance (c : Config) : Decidable (c.isHalted M) := inferInstanceAs (Decidable (_ = _))

def isFinal (c : Config) : Prop := c.state ∈ M.finals

instance (c : Config) : Decidable (c.isFinal M) := inferInstanceAs (Decidable (_ ∈ _))

/-- The scanned symbol. -/
def scanned (c : Config) : Symbol := c.tape.getD c.head M.blank

/-- The symbol of any cell, counted from the leftmost live one. -/
def symbolAt (c : Config) (i : Int) : Symbol :=
  if i < 0 then M.blank else c.tape.getD i.toNat M.blank

def readTape (c : Config) : Except Error (List Symbol) :=
  if c.tapeSet then .ok c.tape
  else .error (.unsetTape "Tape must be set before reading it")

def setAtInitial (c : Config) : Config := { c with state := M.initial }

def resetSteps (c : Config) : Config := { c with steps := 0 }

def countStep (c : Config) : Config := { c with steps := c.steps + 1 }

def attach (c : Config) (name : Text) : Config :=
  if name ∈ c.observers then c else { c with observers := c.observers ++ [name] }

def detach (c : Config) (name : Text) : Config :=
  { c with observers := c.observers.filter (· ≠ name) }

/-- The configuration without its observers. -/
def unobserved (c : Config) : Config := { c with observers := [] }

def snapshot (c : Config) : Snapshot where
  tape := c.tape
  tapeSet := c.tapeSet
  head := c.head
  state := c.state
  steps := c.steps
  observers := c.observers

def restore (c : Config) (s : Snapshot) : Config :=
  { c with
    tape := s.tape
    tapeSet := s.tapeSet
    head := s.head
    state := s.state
    steps := s.steps
    observers := s.observers }

/-- A snapshot keeps all that there is. -/
@[simp] theorem restore_snapshot (c d : Config) : d.restore c.snapshot = c := rfl

/-- The transition that the next step takes. -/
def next (c : Config) : Except Error Transition :=
  if c.isHalted M then .error (.haltState c.state)
  else if !c.tapeSet then .error (.unsetTape "Tape must be set before performing a step")
  else match M.table.find? c.state (c.scanned M) with
    | some t => .ok t
    | none => .error (.unknownTransition c.state (c.scanned M))

/-- Moves the head. The tape grows by a blank when the head would leave it; on the left the new
cell becomes cell 0, so that the head index stays. -/
def moveHead (c : Config) : Move → Config
  | .left =>
    if c.head = 0 then { c with tape := M.blank :: c.tape } else { c with head := c.head - 1 }
  | .right =>
    { c with
      tape := if c.head + 1 = c.tape.length then c.tape ++ [M.blank] else c.tape
      head := c.head + 1 }
  | .stay => c
  | .invalid _ _ => c

/-- Writes, changes the state and moves, as a transition says. -/
def apply (c : Config) (t : Transition) : Config :=
  moveHead M { c with tape := c.tape.set c.head t.write, state := t.next } t.move

/-- The most cells that a tape can have. -/
def maxCells : Nat := 0x7fffffffffffffff

/-- Puts a tape on the machine with the head on the given cell of it, after adding the blanks that
make this cell a live one. No tape has more than `maxCells` cells. What does not fit leaves head and
mark as they are, but it may leave other cells: the blanks in front of the tape are in place before
the tape is put behind them, and the tape is in place before the blanks are put behind it. -/
def load (c : Config) (tape : List Symbol) (head : Int) : Config × Option Failure :=
  if head < 0 then
    if maxCells < head.natAbs then (c, some .tapeTooLarge)
    else if maxCells < head.natAbs + tape.length then
      ({ c with tape := List.replicate head.natAbs M.blank }, some .tapeTooLarge)
    else
      ({ c with tape := List.replicate head.natAbs M.blank ++ tape, head := 0, tapeSet := true },
        none)
  else if maxCells < head.toNat + 1 then ({ c with tape }, some .tapeTooLarge)
  else
    ({ c with
        tape := tape ++ List.replicate (head.toNat + 1 - tape.length) M.blank
        head := head.toNat
        tapeSet := true },
      none)

variable {M}

@[simp] theorem moveHead_state (c : Config) (m : Move) : (c.moveHead M m).state = c.state := by
  unfold moveHead
  split <;> try rfl
  split <;> rfl

@[simp] theorem moveHead_steps (c : Config) (m : Move) : (c.moveHead M m).steps = c.steps := by
  unfold moveHead
  split <;> try rfl
  split <;> rfl

@[simp] theorem moveHead_tapeSet (c : Config) (m : Move) :
    (c.moveHead M m).tapeSet = c.tapeSet := by
  unfold moveHead
  split <;> try rfl
  split <;> rfl

@[simp] theorem moveHead_observers (c : Config) (m : Move) :
    (c.moveHead M m).observers = c.observers := by
  unfold moveHead
  split <;> try rfl
  split <;> rfl

@[simp] theorem apply_state (c : Config) (t : Transition) : (c.apply M t).state = t.next := by
  simp [apply]

@[simp] theorem apply_steps (c : Config) (t : Transition) : (c.apply M t).steps = c.steps := by
  simp [apply]

@[simp] theorem apply_tapeSet (c : Config) (t : Transition) :
    (c.apply M t).tapeSet = c.tapeSet := by
  simp [apply]

@[simp] theorem apply_observers (c : Config) (t : Transition) :
    (c.apply M t).observers = c.observers := by
  simp [apply]

/-- The head stays on a live cell. -/
theorem moveHead_head_lt {c : Config} (h : c.head < c.tape.length) (m : Move) :
    (c.moveHead M m).head < (c.moveHead M m).tape.length := by
  cases m with
  | left =>
    by_cases h0 : c.head = 0
    · simp [moveHead, h0]
    · simp only [moveHead, h0, if_false]
      omega
  | right =>
    simp only [moveHead]
    split
    · simp
      omega
    · omega
  | stay => exact h
  | invalid code hc => exact h

theorem apply_head_lt {c : Config} (h : c.head < c.tape.length) (t : Transition) :
    (c.apply M t).head < (c.apply M t).tape.length :=
  moveHead_head_lt (by simpa using h) t.move

/-- A tape that fits is filled up on the side of the head. -/
theorem load_eq_none_iff {c c' : Config} {tape : List Symbol} {head : Int} :
    c.load M tape head = (c', none) ↔
      head < 0 ∧ head.natAbs + tape.length ≤ maxCells ∧
          c' = { c with
            tape := List.replicate head.natAbs M.blank ++ tape, head := 0, tapeSet := true } ∨
        0 ≤ head ∧ head < maxCells ∧
          c' = { c with
            tape := tape ++ List.replicate (head.toNat + 1 - tape.length) M.blank
            head := head.toNat
            tapeSet := true } := by
  unfold load
  by_cases hneg : head < 0
  · have hnot : ¬0 ≤ head := by omega
    by_cases hfront : maxCells < head.natAbs
    · have hlarge : ¬head.natAbs + tape.length ≤ maxCells := by omega
      simp [hneg, hfront, hnot, hlarge]
    · by_cases hfit : head.natAbs + tape.length ≤ maxCells
      · simp [hneg, hfront, hnot, hfit, Nat.not_lt.2 hfit, eq_comm]
      · simp [hneg, hfront, hnot, hfit, Nat.not_le.1 hfit]
  · have hnonneg : 0 ≤ head := by omega
    by_cases hlarge : maxCells < head.toNat + 1
    · have hnot : ¬head < maxCells := by omega
      simp [hneg, hlarge, hnot]
    · have hlt : head < maxCells := by omega
      simp [hneg, hlarge, hlt, hnonneg, eq_comm]

/-- What is left where the blanks in front of the tape do not fit, where the tape does not fit
behind them, and where the blanks do not fit behind the tape. -/
theorem load_eq_some_iff {c c' : Config} {tape : List Symbol} {head : Int} {e : Failure} :
    c.load M tape head = (c', some e) ↔ e = .tapeTooLarge ∧
      (head < 0 ∧ maxCells < head.natAbs ∧ c' = c ∨
        head < 0 ∧ head.natAbs ≤ maxCells ∧ maxCells < head.natAbs + tape.length ∧
          c' = { c with tape := List.replicate head.natAbs M.blank } ∨
        maxCells ≤ head ∧ c' = { c with tape }) := by
  unfold load
  by_cases hneg : head < 0
  · have hnot : ¬(maxCells : Int) ≤ head := by omega
    by_cases hfront : maxCells < head.natAbs
    · have hnot' : ¬head.natAbs ≤ maxCells := by omega
      simp [hneg, hfront, hnot, hnot', eq_comm, and_comm]
    · have hle : head.natAbs ≤ maxCells := by omega
      by_cases hlarge : maxCells < head.natAbs + tape.length
      · simp [hneg, hfront, hle, hlarge, hnot, eq_comm, and_comm]
      · simp [hneg, hfront, hlarge, hnot]
  · by_cases hlarge : maxCells < head.toNat + 1
    · have hle : (maxCells : Int) ≤ head := by omega
      simp [hneg, hlarge, hle, eq_comm, and_comm]
    · have hnot : ¬(maxCells : Int) ≤ head := by omega
      simp [hneg, hlarge, hnot]

theorem load_head_lt {c c' : Config} {tape : List Symbol} {head : Int}
    (h : c.load M tape head = (c', none)) : c'.head < c'.tape.length := by
  rcases load_eq_none_iff.1 h with ⟨hneg, -, rfl⟩ | ⟨hnonneg, -, rfl⟩
  · simp only [List.length_append, List.length_replicate]
    omega
  · simp only [List.length_append, List.length_replicate]
    omega

end Config
end SingleTape

import SingleTape.Machine

/-!
Which machines are fit to run. `Machine.Valid` says it; `Machine.check` decides it and reports the
first violation in the order in which the parts are looked at.
-/

namespace SingleTape

/-- A part of a machine that does not fit, with what is needed to report it. -/
inductive Violation where
  | input (symbol : Symbol)
  | blank (symbol : Symbol)
  | initial (state : State)
  | final (state : State)
  | halt (state : State)
  | transitionState (state : State) (entry : Entry)
  | transitionSymbol (symbol : Symbol) (entry : Entry)
  | transitionMove (entry : Entry)
  deriving DecidableEq

/-- A transition as the summary and the messages show it. -/
def Transition.describe (source : State) (read : Symbol) (t : Transition) : Text :=
  "(" ++ source ++ ", " ++ read.text ++ ") -> (" ++ t.next ++ ", " ++ t.write.text ++ ", "
    ++ t.move.name ++ ")"

namespace Violation

def invariant : Violation → Invariant
  | input _ => .inputWithinAlphabet
  | blank _ => .blankInAlphabet
  | initial _ => .initialIsState
  | final _ => .finalsAreStates
  | halt _ => .haltIsState
  | transitionState _ _ => .transitionStates
  | transitionSymbol _ _ => .transitionSymbols
  | transitionMove _ => .transitionMove

/-- The offending state, symbol or move. -/
def value : Violation → Text
  | input c => c.text
  | blank c => c.text
  | initial q => q
  | final q => q
  | halt q => q
  | transitionState q _ => q
  | transitionSymbol c _ => c.text
  | transitionMove e => Text.ofInt e.transition.move.code.toInt

/-- Messages show the stored read symbol, not the key. -/
def shown (e : Entry) : Text := e.transition.describe e.source e.transition.read

def text : Violation → Text
  | input c => "Input symbol not in tape alphabet: " ++ c.text
  | blank c => "Blank symbol not in tape alphabet: " ++ c.text
  | initial q => "Initial state is not a valid state: " ++ q
  | final q => "Final state is not a valid state: " ++ q
  | halt q => "Halt state is not a valid state: " ++ q
  | transitionState q e => "Invalid state " ++ q ++ " in transition " ++ shown e
  | transitionSymbol c e => "Invalid symbol " ++ c.text ++ " in transition " ++ shown e
  | transitionMove e => "Invalid movement in transition " ++ shown e

def error (v : Violation) : Error := .validation v.invariant v.value v.text

end Violation

namespace Machine

/-- The parts of one transition that do not fit. -/
def entryViolations (M : Machine) (e : Entry) : List Violation :=
  ([e.source, e.transition.next].filter (· ∉ M.states)).map (.transitionState · e)
    ++ ([e.symbol, e.transition.write].filter (· ∉ M.alphabet)).map (.transitionSymbol · e)
    ++ if e.transition.move.isValid then [] else [.transitionMove e]

/-- All parts that do not fit, in the order of checking. -/
def violations (M : Machine) : List Violation :=
  (M.input.toList.filter (· ∉ M.alphabet)).map .input
    ++ ([M.blank].filter (· ∉ M.alphabet)).map .blank
    ++ ([M.initial].filter (· ∉ M.states)).map .initial
    ++ (M.finals.toList.filter (· ∉ M.states)).map .final
    ++ ([M.halt].filter (· ∉ M.states)).map .halt
    ++ M.table.entries.flatMap M.entryViolations

/-- Refuses a machine with its first violation. -/
def check (M : Machine) : Except Error Unit :=
  match M.violations with
  | [] => .ok ()
  | v :: _ => .error v.error

/-- The parts of a transition are declared ones. -/
structure Fits (M : Machine) (e : Entry) : Prop where
  source_mem : e.source ∈ M.states
  next_mem : e.transition.next ∈ M.states
  symbol_mem : e.symbol ∈ M.alphabet
  write_mem : e.transition.write ∈ M.alphabet
  move_valid : e.transition.move.isValid

structure Valid (M : Machine) : Prop where
  input_subset : ∀ c ∈ M.input, c ∈ M.alphabet
  blank_mem : M.blank ∈ M.alphabet
  initial_mem : M.initial ∈ M.states
  finals_subset : ∀ q ∈ M.finals, q ∈ M.states
  halt_mem : M.halt ∈ M.states
  fits : ∀ e ∈ M.table.entries, M.Fits e

theorem entryViolations_eq_nil_iff {M : Machine} {e : Entry} :
    M.entryViolations e = [] ↔ M.Fits e := by
  simp only [entryViolations, List.append_eq_nil_iff, List.map_eq_nil_iff, List.filter_eq_nil_iff]
  constructor
  · rintro ⟨⟨hq, hc⟩, hm⟩
    constructor <;> simp_all
  · rintro ⟨h₁, h₂, h₃, h₄, h₅⟩
    simp_all

theorem violations_eq_nil_iff {M : Machine} : M.violations = [] ↔ M.Valid := by
  simp only [violations, List.append_eq_nil_iff, List.map_eq_nil_iff, List.filter_eq_nil_iff,
    List.flatMap_eq_nil_iff, entryViolations_eq_nil_iff]
  constructor
  · rintro ⟨⟨⟨⟨⟨h₁, h₂⟩, h₃⟩, h₄⟩, h₅⟩, h₆⟩
    constructor <;> simp_all [SortedSet.mem_def]
  · rintro ⟨h₁, h₂, h₃, h₄, h₅, h₆⟩
    simp_all [SortedSet.mem_def]

theorem check_eq_ok_iff {M : Machine} : M.check = .ok () ↔ M.Valid := by
  rw [← violations_eq_nil_iff, check]
  split <;> simp_all

end Machine
end SingleTape

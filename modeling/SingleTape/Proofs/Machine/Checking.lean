import SingleTape.Machine.Validity

/-!
What the check of a machine looks at, one thing after another. The things stand in an order of
their own, which does not depend on how the machine is kept; the check reports the first of them
that is not as it should be, and nothing when all of them are.
-/

namespace SingleTape

/-- Among things in their order a search finds the first one with the property. -/
theorem find?_eq_some_iff_first {α : Type} {R : α → α → Prop} (asymm : ∀ a b, R a b → ¬R b a)
    {l : List α} (hl : l.Pairwise R) {p : α → Bool} {a : α} :
    l.find? p = some a ↔ a ∈ l ∧ p a ∧ ∀ b ∈ l, R b a → p b = false := by
  rw [List.find?_eq_some_iff_append]
  constructor
  · intro h
    obtain ⟨ha, before, after, rfl, hbefore⟩ := h
    refine ⟨by simp, ha, ?_⟩
    intro b hb hba
    have hafter := (List.pairwise_append.1 hl).2.1
    rcases List.mem_append.1 hb with hb | hb
    · simpa using hbefore b hb
    · rcases List.mem_cons.1 hb with rfl | hb
      · exact absurd hba (asymm b b hba)
      · exact absurd hba (asymm a b ((List.pairwise_cons.1 hafter).1 b hb))
  · intro h
    obtain ⟨ha, hp, hfirst⟩ := h
    obtain ⟨before, after, rfl⟩ := List.append_of_mem ha
    refine ⟨hp, before, after, rfl, ?_⟩
    intro b hb
    have hba : R b a := (List.pairwise_append.1 hl).2.2 b hb a (by simp)
    simp [hfirst b (by simp [hb]) hba]

theorem Symbol.compare_eq_lt_iff {a b : Symbol} :
    compare a b = .lt ↔ a.byte.toInt8 < b.byte.toInt8 :=
  compareOfLessAndEq_eq_lt

theorem Text.compare_eq_lt_iff {s t : Text} : compare s t = .lt ↔ s < t := by
  induction s generalizing t with
  | nil => cases t <;> simp
  | cons b s ih =>
    cases t with
    | nil => simp
    | cons c t =>
      rw [List.compare_cons_cons, List.cons_lt_cons_iff, Ordering.then_eq_lt, ih,
        Std.compare_eq_lt, Std.compare_eq_iff_eq]

/-- The key of a transition comes before that of another one. -/
def Entry.KeyLt (e f : Entry) : Prop :=
  e.source < f.source ∨ e.source = f.source ∧ e.symbol.byte.toInt8 < f.symbol.byte.toInt8

theorem Entry.KeyLt.asymm {e f : Entry} (h : e.KeyLt f) : ¬f.KeyLt e := by
  intro h'
  rcases h with h | ⟨hq, h⟩
  · rcases h' with h' | ⟨hq, -⟩
    · exact Std.Asymm.asymm _ _ h h'
    · rw [hq] at h
      exact Std.Asymm.asymm _ _ h h
  · rcases h' with h' | ⟨-, h'⟩
    · rw [hq] at h'
      exact Std.Asymm.asymm _ _ h' h'
    · exact Std.Asymm.asymm _ _ h h'

theorem Table.entries_keyLt (δ : Table) : δ.entries.Pairwise Entry.KeyLt := by
  refine δ.entries_increasing.imp fun {e f} hlt => ?_
  rwa [Text.compare_eq_lt_iff, Symbol.compare_eq_lt_iff] at hlt

/-- The stages of checking: one for each part of a machine. -/
inductive Stage where
  | input
  | blank
  | initial
  | finals
  | halt
  | table
  deriving DecidableEq

namespace Stage

def all : List Stage := [input, blank, initial, finals, halt, table]

/-- The place in the order of checking. -/
def place : Stage → Nat
  | input => 0
  | blank => 1
  | initial => 2
  | finals => 3
  | halt => 4
  | table => 5

end Stage

/-- What is looked at in one transition. -/
inductive Facet where
  | source
  | next
  | symbol
  | write
  | move
  deriving DecidableEq

namespace Facet

def all : List Facet := [source, next, symbol, write, move]

/-- The place within a transition. -/
def place : Facet → Nat
  | source => 0
  | next => 1
  | symbol => 2
  | write => 3
  | move => 4

end Facet

/-- One thing that is looked at. -/
inductive Check where
  | input (symbol : Symbol)
  | blank
  | initial
  | final (state : State)
  | halt
  | entry (e : Entry) (facet : Facet)

namespace Check

/-- The machine has such a thing. -/
def Concerns (M : Machine) : Check → Prop
  | input c => c ∈ M.input
  | blank => True
  | initial => True
  | final q => q ∈ M.finals
  | halt => True
  | entry e _ => M.table.find? e.source e.symbol = some e.transition

/-- The thing is as it should be. -/
def Holds (M : Machine) : Check → Prop
  | input c => c ∈ M.alphabet
  | blank => M.blank ∈ M.alphabet
  | initial => M.initial ∈ M.states
  | final q => q ∈ M.states
  | halt => M.halt ∈ M.states
  | entry e .source => e.source ∈ M.states
  | entry e .next => e.transition.next ∈ M.states
  | entry e .symbol => e.symbol ∈ M.alphabet
  | entry e .write => e.transition.write ∈ M.alphabet
  | entry e .move => e.transition.move ∈ [.left, .right, .stay]

/-- What a machine breaks in which this does not hold. -/
def invariant : Check → Invariant
  | input _ => .inputWithinAlphabet
  | blank => .blankInAlphabet
  | initial => .initialIsState
  | final _ => .finalsAreStates
  | halt => .haltIsState
  | entry _ .source => .transitionStates
  | entry _ .next => .transitionStates
  | entry _ .symbol => .transitionSymbols
  | entry _ .write => .transitionSymbols
  | entry _ .move => .transitionMove

/-- The state, symbol or move that is looked at. -/
def value (M : Machine) : Check → Text
  | input c => [c.byte]
  | blank => [M.blank.byte]
  | initial => M.initial
  | final q => q
  | halt => M.halt
  | entry e .source => e.source
  | entry e .next => e.transition.next
  | entry e .symbol => [e.symbol.byte]
  | entry e .write => [e.transition.write.byte]
  | entry e .move => Text.ofInt e.transition.move.code.toInt

/-- What is reported if it does not hold. -/
def violation (M : Machine) : Check → Violation
  | input c => .input c
  | blank => .blank M.blank
  | initial => .initial M.initial
  | final q => .final q
  | halt => .halt M.halt
  | entry e .source => .transitionState e.source e
  | entry e .next => .transitionState e.transition.next e
  | entry e .symbol => .transitionSymbol e.symbol e
  | entry e .write => .transitionSymbol e.transition.write e
  | entry e .move => .transitionMove e

instance (M : Machine) (c : Check) : Decidable (c.Holds M) :=
  match c with
  | input c => inferInstanceAs (Decidable (c ∈ M.alphabet))
  | blank => inferInstanceAs (Decidable (M.blank ∈ M.alphabet))
  | initial => inferInstanceAs (Decidable (M.initial ∈ M.states))
  | final q => inferInstanceAs (Decidable (q ∈ M.states))
  | halt => inferInstanceAs (Decidable (M.halt ∈ M.states))
  | entry e .source => inferInstanceAs (Decidable (e.source ∈ M.states))
  | entry e .next => inferInstanceAs (Decidable (e.transition.next ∈ M.states))
  | entry e .symbol => inferInstanceAs (Decidable (e.symbol ∈ M.alphabet))
  | entry e .write => inferInstanceAs (Decidable (e.transition.write ∈ M.alphabet))
  | entry e .move => inferInstanceAs (Decidable (e.transition.move ∈ [.left, .right, .stay]))

/-- The stage in which the thing is looked at. -/
def stage : Check → Stage
  | input _ => .input
  | blank => .blank
  | initial => .initial
  | final _ => .finals
  | halt => .halt
  | entry _ _ => .table

/-- The order of checking: stage by stage, symbols by the signed value of their bytes, states as
byte strings, transitions by state and symbol. -/
inductive Precedes : Check → Check → Prop
  | stage {c d : Check} (h : c.stage.place < d.stage.place) : Precedes c d
  | input {a b : Symbol} (h : a.byte.toInt8 < b.byte.toInt8) : Precedes (input a) (input b)
  | final {q p : State} (h : q < p) : Precedes (final q) (final p)
  | entry {e f : Entry} {x y : Facet} (h : e.KeyLt f) : Precedes (entry e x) (entry f y)
  | facet {e : Entry} {x y : Facet} (h : x.place < y.place) : Precedes (entry e x) (entry e y)

theorem Precedes.asymm (c d : Check) (h : c.Precedes d) : ¬d.Precedes c := by
  intro h'
  cases h with
  | stage h =>
    cases h' with
    | stage h' => exact Nat.lt_asymm h h'
    | _ => exact absurd h (Nat.lt_irrefl _)
  | input h =>
    cases h' with
    | stage h' => exact absurd h' (Nat.lt_irrefl _)
    | input h' => exact Std.Asymm.asymm _ _ h h'
  | final h =>
    cases h' with
    | stage h' => exact absurd h' (Nat.lt_irrefl _)
    | final h' => exact Std.Asymm.asymm _ _ h h'
  | entry h =>
    cases h' with
    | stage h' => exact absurd h' (Nat.lt_irrefl _)
    | entry h' => exact h.asymm h'
    | facet h' => exact h.asymm h
  | facet h =>
    cases h' with
    | stage h' => exact absurd h' (Nat.lt_irrefl _)
    | entry h' => exact h'.asymm h'
    | facet h' => exact Nat.lt_asymm h h'

end Check

namespace Machine

open Check

/-- The things of one stage. -/
def checksOf (M : Machine) : Stage → List Check
  | .input => M.input.toList.map .input
  | .blank => [.blank]
  | .initial => [.initial]
  | .finals => M.finals.toList.map .final
  | .halt => [.halt]
  | .table => M.table.entries.flatMap fun e => Facet.all.map (.entry e)

/-- All things that are looked at. -/
def checks (M : Machine) : List Check := Stage.all.flatMap M.checksOf

theorem mem_checks_iff {M : Machine} {c : Check} : c ∈ M.checks ↔ c.Concerns M := by
  cases c with
  | entry e x =>
    have hx : x ∈ Facet.all := by cases x <;> decide
    simp [checks, Stage.all, checksOf, Concerns, ← Table.mem_entries, hx]
  | _ => simp [checks, Stage.all, checksOf, Concerns, SortedSet.mem_def]

theorem stage_of_mem_checksOf {M : Machine} {p : Stage} {c : Check} (h : c ∈ M.checksOf p) :
    c.stage = p := by
  cases p with
  | input =>
    obtain ⟨a, -, rfl⟩ := List.mem_map.1 h
    rfl
  | finals =>
    obtain ⟨q, -, rfl⟩ := List.mem_map.1 h
    rfl
  | table =>
    obtain ⟨e, -, h⟩ := List.mem_flatMap.1 h
    obtain ⟨x, -, rfl⟩ := List.mem_map.1 h
    rfl
  | _ =>
    obtain rfl := List.mem_singleton.1 h
    rfl

theorem facets_in_order (e : Entry) : (Facet.all.map (Check.entry e)).Pairwise Precedes := by
  have hplaces : Facet.all.Pairwise fun x y => x.place < y.place := by decide
  exact List.pairwise_map.2 (hplaces.imp Precedes.facet)

theorem entries_in_order (δ : Table) :
    (δ.entries.flatMap fun e => Facet.all.map (Check.entry e)).Pairwise Precedes := by
  rw [List.pairwise_flatMap]
  refine ⟨fun e _ => facets_in_order e, δ.entries_keyLt.imp fun {e f} hlt => ?_⟩
  intro c hc d hd
  obtain ⟨x, -, rfl⟩ := List.mem_map.1 hc
  obtain ⟨y, -, rfl⟩ := List.mem_map.1 hd
  exact .entry hlt

theorem checksOf_in_order (M : Machine) (p : Stage) : (M.checksOf p).Pairwise Precedes := by
  cases p with
  | input =>
    rw [checksOf, List.pairwise_map]
    exact M.input.increasing.imp fun hlt => .input (Symbol.compare_eq_lt_iff.1 hlt)
  | finals =>
    rw [checksOf, List.pairwise_map]
    exact M.finals.increasing.imp fun hlt => .final (Text.compare_eq_lt_iff.1 hlt)
  | table => exact entries_in_order M.table
  | _ => exact List.pairwise_singleton _ _

theorem checks_in_order (M : Machine) : M.checks.Pairwise Precedes := by
  have hplaces : Stage.all.Pairwise fun p r => p.place < r.place := by decide
  rw [checks, List.pairwise_flatMap]
  refine ⟨fun p _ => M.checksOf_in_order p, hplaces.imp fun {p r} hlt => ?_⟩
  intro c hc d hd
  apply Precedes.stage
  rwa [stage_of_mem_checksOf hc, stage_of_mem_checksOf hd]

theorem isValid_iff_mem {m : Move} : m.isValid ↔ m ∈ [Move.left, .right, .stay] := by
  cases m <;> simp [Move.isValid]

theorem map_filter_cons {α β : Type} (f : α → β) (p : α → Bool) (a : α) (l : List α) :
    ((a :: l).filter p).map f = (if p a then [f a] else []) ++ (l.filter p).map f := by
  cases ha : p a <;> simp [ha]

theorem entryViolations_eq_map (M : Machine) (e : Entry) : M.entryViolations e =
    ((Facet.all.map (Check.entry e)).filter fun c => ¬c.Holds M).map (violation M) := by
  have hmove : (if e.transition.move.isValid then [] else [Violation.transitionMove e]) =
      if decide ¬(Check.entry e .move).Holds M then [Violation.transitionMove e] else [] := by
    simp only [Holds, ← isValid_iff_mem, decide_eq_true_eq, ite_not]
  simp only [entryViolations, Facet.all, List.map_cons, map_filter_cons, List.filter_nil,
    List.map_nil, List.append_nil, List.append_assoc, hmove]
  rfl

theorem violations_eq_map (M : Machine) :
    M.violations = (M.checks.filter fun c => ¬c.Holds M).map (violation M) := by
  have hentries : M.table.entries.flatMap M.entryViolations =
      ((M.table.entries.flatMap fun e => Facet.all.map (Check.entry e)).filter
        fun c => ¬c.Holds M).map (violation M) := by
    rw [List.filter_flatMap, List.map_flatMap]
    exact congrArg (List.flatMap · M.table.entries) (funext (entryViolations_eq_map M))
  simp only [violations, checks, Stage.all, List.flatMap_cons, List.flatMap_nil, checksOf, hentries,
    List.filter_append, List.map_append, List.append_assoc, List.append_nil, List.filter_map,
    List.map_map, map_filter_cons, List.filter_nil, List.map_nil]
  rfl

/-- The check reports the first thing that is not as it should be. -/
theorem check_eq_error_iff {M : Machine} {e : Error} : M.check = .error e ↔
    ∃ c, M.checks.find? (fun c => ¬c.Holds M) = some c ∧ e = (c.violation M).error := by
  rw [check, violations_eq_map, ← List.head?_filter]
  cases M.checks.filter fun c => ¬c.Holds M with
  | nil => simp
  | cons c cs => simp [eq_comm]

theorem error_violation (M : Machine) (c : Check) :
    (c.violation M).error = .validation c.invariant (c.value M) (c.violation M).text := by
  cases c with
  | entry e x => cases x <;> rfl
  | _ => rfl

/-- A machine passes the check if and only if it is valid. Any other machine is refused for the
first thing, in the order of checking, that is not as it should be: the error names the invariant
and the offending state, symbol or move. -/
theorem check_finds_first (M : Machine) :
    (M.check = .ok () ↔ M.Valid) ∧
      ∀ e, M.check = .error e ↔ ∃ c : Check, c.Concerns M ∧ ¬c.Holds M ∧
        (∀ d : Check, d.Concerns M → d.Precedes c → d.Holds M) ∧
        e = .validation c.invariant (c.value M) (c.violation M).text := by
  refine ⟨check_eq_ok_iff, ?_⟩
  intro e
  have hfirst : ∀ c, M.checks.find? (fun c => ¬c.Holds M) = some c ↔ c.Concerns M ∧ ¬c.Holds M ∧
      ∀ d : Check, d.Concerns M → d.Precedes c → d.Holds M := by
    intro c
    rw [find?_eq_some_iff_first Precedes.asymm M.checks_in_order]
    simp [mem_checks_iff]
  rw [check_eq_error_iff]
  simp only [hfirst, error_violation, and_assoc]

example : Machine.check {} = .error (.validation .blankInAlphabet "#"
    "Blank symbol not in tape alphabet: #") := by cbv

end Machine
end SingleTape

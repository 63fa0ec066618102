import SingleTape.Error
import SingleTape.SortedMap

/-!
Deterministic single-tape machines: the transition table and the finite sets around it. Nothing
here asks that the parts fit together; see `SingleTape.Machine.Validity`.
-/

namespace SingleTape

structure Transition where
  read : Symbol
  write : Symbol
  move : Move
  next : State
  deriving DecidableEq

/-- A transition under its key. The stored read symbol may differ from the key. -/
structure Entry where
  source : State
  symbol : Symbol
  transition : Transition
  deriving DecidableEq

/-- The transition function: for each state, its transitions by symbol. -/
structure Table where
  rows : SortedMap State (SortedMap Symbol Transition)
  deriving DecidableEq

namespace Table

instance : EmptyCollection Table := ⟨⟨∅⟩⟩

def row (δ : Table) (q : State) : SortedMap Symbol Transition := (δ.rows.find? q).getD ∅

def find? (δ : Table) (q : State) (a : Symbol) : Option Transition := (δ.row q).find? a

/-- Adds a transition, in place of one under the same key. -/
def set (δ : Table) (q : State) (a : Symbol) (t : Transition) : Table :=
  ⟨δ.rows.insert q ((δ.row q).insert a t)⟩

/-- All transitions in the order of their keys. -/
def entries (δ : Table) : List Entry :=
  δ.rows.entries.flatMap fun row => row.2.entries.map fun e => ⟨row.1, e.1, e.2⟩

def size (δ : Table) : Nat := δ.entries.length

/-- Some transition starts or ends in this state. -/
def mentions (δ : Table) (q : State) : Bool :=
  δ.entries.any fun e => e.source = q || e.transition.next = q

@[simp] theorem find?_empty (q : State) (a : Symbol) : (∅ : Table).find? q a = none := rfl

theorem find?_set (δ : Table) (q q' : State) (a a' : Symbol) (t : Transition) :
    (δ.set q a t).find? q' a' = if q = q' ∧ a = a' then some t else δ.find? q' a' := by
  by_cases hq : q = q'
  · subst hq
    simp [set, find?, row, SortedMap.find?_insert]
  · simp [set, find?, row, SortedMap.find?_insert, hq]

theorem mem_entries {δ : Table} {e : Entry} :
    e ∈ δ.entries ↔ δ.find? e.source e.symbol = some e.transition := by
  obtain ⟨q, a, t⟩ := e
  simp only [entries, List.mem_flatMap, List.mem_map, Entry.mk.injEq, Prod.exists]
  constructor
  · rintro ⟨q', row, hrow, a', t', ht, rfl, rfl, rfl⟩
    rw [SortedMap.mem_entries] at hrow ht
    simp [find?, Table.row, hrow, ht]
  · intro h
    cases hrow : δ.rows.find? q with
    | none => simp [find?, row, hrow] at h
    | some row =>
      refine ⟨q, row, SortedMap.mem_entries.2 hrow, a, t, SortedMap.mem_entries.2 ?_, rfl, rfl, rfl⟩
      simpa [find?, Table.row, hrow] using h

/-- The entries come by increasing key. -/
theorem entries_increasing (δ : Table) :
    δ.entries.Pairwise fun e f => compare e.source f.source = .lt ∨
      e.source = f.source ∧ compare e.symbol f.symbol = .lt := by
  rw [entries, List.pairwise_flatMap]
  constructor
  · intro row _
    rw [List.pairwise_map]
    exact row.2.increasing.imp fun hlt => .inr ⟨rfl, hlt⟩
  · refine δ.rows.increasing.imp fun {r s} hrs => ?_
    intro e he f hf
    obtain ⟨_, -, rfl⟩ := List.mem_map.1 he
    obtain ⟨_, -, rfl⟩ := List.mem_map.1 hf
    exact .inl hrs

theorem mentions_iff {δ : Table} {q : State} :
    δ.mentions q ↔ ∃ e ∈ δ.entries, e.source = q ∨ e.transition.next = q := by
  simp [mentions]

end Table

/-- A machine before its parts are declared has `#` as its blank. -/
structure Machine where
  states : SortedSet State := ∅
  input : SortedSet Symbol := ∅
  alphabet : SortedSet Symbol := ∅
  table : Table := ∅
  initial : State := []
  finals : SortedSet State := ∅
  halt : State := []
  blank : Symbol := .ofChar '#'
  deriving DecidableEq

namespace Machine

/-- Adds a transition with its states and symbols. -/
def addTransition (M : Machine) (source : State) (read write : Symbol) (move : Move)
    (target : State) : Machine :=
  { M with
    states := (M.states.insert source).insert target
    alphabet := (M.alphabet.insert read).insert write
    table := M.table.set source read ⟨read, write, move, target⟩ }

end Machine
end SingleTape

import Mathlib.Data.List.Find
import SingleTape.Proofs.Execution.Unobserved

/-!
What a machine does does not depend on what it declares, except that a tape is set only if its
symbols are declared. Machines that declare different things do the same on every tape of which
they declare the same symbols.
-/

namespace SingleTape

open Engine

/-- The machine with other declarations. -/
def Machine.declaring (M : Machine) (states : SortedSet State) (input alphabet : SortedSet Symbol) :
    Machine :=
  { M with states, input, alphabet }

namespace Execution

variable {ω : Type} (M : Machine) (states : SortedSet State) (input alphabet : SortedSet Symbol)
variable (deliver : Text → Event → Execution ω Unit)

theorem step_declaring : step (M.declaring states input alphabet) deliver = step M deliver := rfl

theorem runBounded_declaring (n : Nat) :
    runBounded (M.declaring states input alphabet) deliver n = runBounded M deliver n := by
  induction n with
  | zero => rfl
  | succ n ih =>
    unfold runBounded
    rw [ih, step_declaring]
    rfl

theorem runUnbounded_declaring (fuel : Nat) :
    runUnbounded (M.declaring states input alphabet) deliver fuel =
      runUnbounded M deliver fuel := by
  induction fuel with
  | zero => rfl
  | succ fuel ih =>
    unfold runUnbounded
    rw [ih, step_declaring]
    rfl

theorem run_declaring (fuel : Nat) (maxSteps : Option Int) :
    run (M.declaring states input alphabet) deliver fuel maxSteps =
      run M deliver fuel maxSteps := by
  cases maxSteps with
  | none => simp only [run, runUnbounded_declaring]
  | some n => simp only [run, runBounded_declaring]

variable {M} {alphabet} {tape : List Symbol}

theorem setTape_declaring (h : ∀ a ∈ tape, a ∈ alphabet ↔ a ∈ M.alphabet) (head : Int) :
    setTape (M.declaring states input alphabet) deliver tape head =
      setTape M deliver tape head := by
  have hfind : tape.find? (· ∉ alphabet) = tape.find? (· ∉ M.alphabet) := by
    apply List.find?_congr
    intro a ha
    simp only [h a ha]
  have hsame : tape.find? (· ∉ (M.declaring states input alphabet).alphabet) =
      tape.find? (· ∉ M.alphabet) := hfind
  unfold setTape
  rw [hsame]
  rfl

theorem query_declaring (h : ∀ a ∈ tape, a ∈ alphabet ↔ a ∈ M.alphabet) (fuel : Nat)
    (maxSteps : Option Int) :
    query (M.declaring states input alphabet) deliver fuel tape maxSteps =
      query M deliver fuel tape maxSteps := by
  unfold query
  rw [setTape_declaring states input deliver h, run_declaring]
  rfl

theorem accept_declaring (h : ∀ a ∈ tape, a ∈ alphabet ↔ a ∈ M.alphabet) (fuel : Nat)
    (maxSteps : Option Int) :
    accept (M.declaring states input alphabet) deliver fuel tape maxSteps =
      accept M deliver fuel tape maxSteps := by
  unfold accept
  rw [query_declaring states input deliver h]

/-- With fewer symbols declared a tape can be set if it could be set before and if all its symbols
are still declared. -/
theorem exists_setTape_declaring_iff (hsubset : ∀ a ∈ alphabet, a ∈ M.alphabet) {c : Config}
    (hobs : c.observers = []) (head : Int) (w : ω) :
    (∃ c', setTape (M.declaring states input alphabet) deliver tape head c w = .ok () c' w) ↔
      (∃ c', setTape M deliver tape head c w = .ok () c' w) ∧ ∀ a ∈ tape, a ∈ alphabet := by
  have hload : c.load (M.declaring states input alphabet) tape head = c.load M tape head := rfl
  have hdeclared : ∀ a, a ∈ (M.declaring states input alphabet).alphabet ↔ a ∈ alphabet :=
    fun a => Iff.rfl
  simp only [setTape_eq_ok_iff hobs, hload, hdeclared, and_true]
  constructor
  · intro h
    obtain ⟨c', htape, hc'⟩ := h
    exact ⟨⟨c', fun a ha => hsubset a (htape a ha), hc'⟩, htape⟩
  · intro h
    obtain ⟨⟨c', -, hc'⟩, htape⟩ := h
    exact ⟨c', htape, hc'⟩

end Execution
end SingleTape

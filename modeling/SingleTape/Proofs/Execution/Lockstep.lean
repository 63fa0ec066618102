import SingleTape.Proofs.Execution.Stepping

/-!
Machines in lockstep. Where the transitions that two machines find correspond to each other, and
taking them leads to configurations that do so again, the machines make the same steps and their
runs end in the same way.
-/

namespace SingleTape

open Engine

theorem Config.isHalted_iff_next {M : Machine} {c : Config} :
    c.isHalted M ↔ ∃ q, c.next M = .error (.haltState q) := by
  constructor
  · intro h
    exact ⟨c.state, by rw [next, if_pos h]⟩
  · rintro ⟨q, h⟩
    unfold next at h
    split at h
    · assumption
    split at h
    · cases h
    split at h <;> cases h

namespace Execution

/-- A relation between the configurations of two machines that goes on to hold while both of them
step. Transitions of the first machine are related to those of the second by `f`. -/
structure Lockstep (M N : Machine) (f : Transition → Transition) (R : Config → Config → Prop) :
    Prop where
  next_eq : ∀ {c d : Config}, R c d → d.next N = (c.next M).map f
  apply : ∀ {c d : Config} {t : Transition}, R c d → c.next M = .ok t →
    R (c.apply M t).countStep (d.apply N (f t)).countStep

namespace Lockstep

variable {M N : Machine} {f : Transition → Transition} {R : Config → Config → Prop}
  {c c' d : Config}

theorem isHalted_iff (h : Lockstep M N f R) (hcd : R c d) : c.isHalted M ↔ d.isHalted N := by
  rw [Config.isHalted_iff_next, Config.isHalted_iff_next, h.next_eq hcd]
  cases c.next M <;> simp [Except.map]

theorem steps (h : Lockstep M N f R) (hcd : R c d) (hobs : c.observers = [])
    (hobs' : d.observers = []) {n : Nat}
    (hsteps : Execution.steps M nobody n c () = .ok () c' ()) :
    ∃ d', Execution.steps N nobody n d () = .ok () d' () ∧ R c' d' := by
  induction n generalizing c d with
  | zero =>
    obtain rfl : c = c' := by simpa [Execution.steps] using hsteps
    exact ⟨d, rfl, hcd⟩
  | succ n ih =>
    obtain ⟨t, ht, hrest⟩ := (steps_succ_eq_ok_iff hobs).1 hsteps
    have ht' : d.next N = .ok (f t) := by rw [h.next_eq hcd, ht, Except.map]
    have hone : (c.apply M t).countStep.observers = [] := (Config.apply_observers c t).trans hobs
    have hone' : (d.apply N (f t)).countStep.observers = [] :=
      (Config.apply_observers d (f t)).trans hobs'
    obtain ⟨d', hd', hrel⟩ := ih (h.apply hcd ht) hone hone' hrest
    exact ⟨d', (steps_succ_eq_ok_iff hobs').2 ⟨f t, ht', hd'⟩, hrel⟩

/-- Both machines come to rest after the same number of steps, and for the same reason. -/
theorem rests (h : Lockstep M N f R) (hcd : R c d) (hset : c.tapeSet = true)
    (hobs : c.observers = []) (hobs' : d.observers = []) {k : Nat} {outcome : RunOutcome}
    (hrests : Rests M c k c' outcome) : ∃ d', Rests N d k d' outcome ∧ R c' d' := by
  obtain ⟨d', hd', hrel⟩ := h.steps hcd hobs hobs' hrests.steps_eq
  obtain ⟨-, hset', -⟩ := steps_frame hobs hrests.steps_eq
  refine ⟨d', ?_, hrel⟩
  cases hrests with
  | halted _ hhalt => exact .halted hd' ((h.isHalted_iff hrel).1 hhalt)
  | stuck _ hgoing hnone =>
    have hnext : d'.next N = .error (.unknownTransition c'.state (c'.scanned M)) := by
      rw [h.next_eq hrel, next_of_stuck (hset'.trans hset) hgoing hnone, Except.map]
    obtain ⟨⟨hgoing', -, hnone'⟩, -⟩ := next_eq_unknown_iff.1 hnext
    exact .stuck hd' hgoing' hnone'

/-- Both runs make the same number of steps and have the same outcome, unless both are cut off. -/
theorem run (h : Lockstep M N f R) (hcd : R c d) (hset : c.tapeSet = true)
    (hset' : d.tapeSet = true) (hobs : c.observers = []) (hobs' : d.observers = [])
    (fuel : Nat) (maxSteps : Option Int) :
    (∃ n outcome c' d', Executes M fuel maxSteps c n outcome c' ∧
      Executes N fuel maxSteps d n outcome d' ∧ R c' d') ∨
    ∀ (ω ω' : Type) (deliver : Text → Event → Execution ω Unit)
      (deliver' : Text → Event → Execution ω' Unit) (w : ω) (w' : ω'),
      run M deliver fuel maxSteps c w = .exhausted ∧
        run N deliver' fuel maxSteps d w' = .exhausted := by
  rcases exists_steps_or_rests (M := M) hset hobs (Traced.budget fuel maxSteps) with
    ⟨c', hsteps⟩ | ⟨k, hlt, c', outcome, hrests⟩
  · obtain ⟨d', hsteps', hrel⟩ := h.steps hcd hobs hobs' hsteps
    cases maxSteps with
    | none =>
      exact .inr fun ω ω' deliver deliver' w w' =>
        ⟨run_eq_exhausted_of_steps hobs hsteps deliver w,
          run_eq_exhausted_of_steps hobs' hsteps' deliver' w'⟩
    | some n =>
      have hrun := executes_of_steps hobs hsteps fuel
      have hrun' := executes_of_steps hobs' hsteps' fuel
      simp only [← h.isHalted_iff hrel] at hrun'
      exact .inl ⟨n.toNat, _, c', d', hrun, hrun', hrel⟩
  · obtain ⟨d', hrests', hrel⟩ := h.rests hcd hset hobs hobs' hrests
    exact .inl ⟨k, outcome, c', d', hrests.executes hset hobs hlt,
      hrests'.executes hset' hobs' hlt, hrel⟩

end Lockstep

end Execution
end SingleTape

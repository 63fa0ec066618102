import SingleTape.Proofs.Execution.Lockstep
import SingleTape.Proofs.Execution.Query

/-!
Acceptance. The answer to a query is read off the run of the word on a fresh tape: there is none
while the run goes on, and otherwise it says whether the state in which the machine came to rest is
final. It depends on nothing but the machine, its state and the word, and once a bound is great
enough for an answer, all greater bounds give the same.
-/

namespace SingleTape

open Engine

/-- A fresh tape that holds a word, with the head at its beginning. -/
def Machine.onWord (M : Machine) (q : State) (word : List Symbol) : Config where
  tape := word ++ List.replicate (1 - word.length) M.blank
  tapeSet := true
  state := q

/-- What a query makes of the end of its run. -/
def RunOutcome.verdict (M : Machine) (d : Config) : RunOutcome → Option Bool
  | stepLimitReached => none
  | _ => some (decide (d.isFinal M))

theorem RunOutcome.verdict_congr {M : Machine} {d d' : Config} (h : d.state = d'.state)
    (outcome : RunOutcome) : outcome.verdict M d = outcome.verdict M d' := by
  have hfinal : d.isFinal M ↔ d'.isFinal M := by rw [Config.isFinal, Config.isFinal, h]
  have hdecide : decide (d.isFinal M) = decide (d'.isFinal M) := decide_eq_decide.2 hfinal
  cases outcome <;> simp only [verdict, hdecide]

namespace Config

variable {M : Machine}

theorem load_word (c : Config) (word : List Symbol) : c.load M word 0 =
    ({ M.onWord c.state word with steps := c.steps, observers := c.observers }, none) := by
  have hfits : ¬maxCells < (0 : Int).toNat + 1 := by decide
  rw [load, if_neg (Int.lt_irrefl 0), if_neg hfits]
  rfl

theorem resetSteps_moveHead (c : Config) (m : Move) :
    (c.moveHead M m).resetSteps = c.resetSteps.moveHead M m := by
  cases m with
  | left =>
    by_cases hhead : c.head = 0
    · simp [moveHead, resetSteps, hhead]
    · simp [moveHead, resetSteps, hhead]
  | _ => rfl

theorem resetSteps_apply (c : Config) (t : Transition) :
    (c.apply M t).resetSteps = c.resetSteps.apply M t :=
  resetSteps_moveHead _ t.move

end Config

namespace Execution

/-- How many steps were counted before makes no difference to the next ones. -/
theorem lockstep_resetSteps (M : Machine) :
    Lockstep M M id fun c d => c.resetSteps = d.resetSteps where
  next_eq := by
    intro c d hcd
    have hnext : c.next M = d.next M := (congrArg (Config.next M) hcd :)
    rw [hnext]
    cases d.next M <;> rfl
  apply := by
    intro c d t hcd _
    have happly : (c.apply M t).resetSteps = (d.apply M t).resetSteps := by
      rw [Config.resetSteps_apply, Config.resetSteps_apply, hcd]
    exact happly

section Answers

variable {ω : Type} {M : Machine} {word : List Symbol}

theorem query_of_known (deliver : Text → Event → Execution ω Unit) (fuel : Nat)
    (hword : ∀ a ∈ word, a ∈ M.alphabet) (maxSteps : Option Int) {c : Config}
    (hobs : c.observers = []) (w : ω) :
    query M deliver fuel word maxSteps c w =
      match run M deliver fuel maxSteps { M.onWord c.state word with steps := c.steps } w with
      | .ok outcome d w => .ok (outcome.verdict M d) d w
      | .error e d w => .error e d w
      | .exhausted => .exhausted := by
  have hfind : word.find? (· ∉ M.alphabet) = none := by simpa using hword
  have hstart : ({ M.onWord c.state word with
      steps := c.steps, observers := c.observers } : Config) =
      { M.onWord c.state word with steps := c.steps } := by rw [hobs]; rfl
  simp only [query, bind_apply, setTape_of_observers_eq_nil hobs, hfind, Config.load_word, hstart]
  cases run M deliver fuel maxSteps { M.onWord c.state word with steps := c.steps } w with
  | ok outcome d w => cases outcome <;> rfl
  | error e d w => rfl
  | exhausted => rfl

/-- The answer is what the machine makes of the word on a fresh tape, whatever it is at work on. -/
theorem accept_eq_verdict (deliver : Text → Event → Execution ω Unit) (fuel : Nat)
    (hword : ∀ a ∈ word, a ∈ M.alphabet) (maxSteps : Option Int) (c : Config) (w : ω) :
    accept M deliver fuel word maxSteps c w =
      match run M nobody fuel maxSteps (M.onWord c.state word) () with
      | .ok outcome d _ => .ok (outcome.verdict M d) c w
      | _ => .exhausted := by
  have hsame : (M.onWord c.state word).resetSteps =
      ({ M.onWord c.state word with steps := c.steps } : Config).resetSteps := rfl
  have hquery := query_of_known deliver fuel hword maxSteps (c := { c with observers := [] }) rfl w
  rw [accept_apply, hquery]
  rcases (lockstep_resetSteps M).run hsame rfl rfl rfl rfl fuel maxSteps with
    ⟨n, outcome, d, d', hrun, hrun', hdd'⟩ | hcut
  · have hstate : d.state = d'.state := (congrArg Config.state hdd' :)
    simp only [hrun.run_eq Unit nobody (), hrun'.run_eq ω deliver w, outcome.verdict_congr hstate]
  · obtain ⟨hrun, hrun'⟩ := hcut Unit ω nobody deliver () w
    rw [hrun, hrun']

theorem accept_of_executes (deliver : Text → Event → Execution ω Unit) {fuel : Nat}
    (hword : ∀ a ∈ word, a ∈ M.alphabet) {maxSteps : Option Int} {c d : Config} {n : Nat}
    {outcome : RunOutcome} (h : Executes M fuel maxSteps (M.onWord c.state word) n outcome d)
    (w : ω) : accept M deliver fuel word maxSteps c w = .ok (outcome.verdict M d) c w := by
  rw [accept_eq_verdict deliver fuel hword, h.run_eq Unit nobody ()]

/-- From `start` the machine comes to rest within `n` steps. That it is stuck it has to find out by
one more step, for which there has to be room. -/
def Settles (M : Machine) (start : Config) (n : Nat) (d : Config) : Prop :=
  ∃ k outcome, Rests M start k d outcome ∧
    (k ≤ n ∧ outcome = .haltReached ∨ k < n ∧ outcome = .unknownTransition)

theorem Settles.of_le {start d : Config} {n m : Nat} (h : Settles M start n d) (hle : n ≤ m) :
    Settles M start m d := by
  obtain ⟨k, outcome, hrests, hk⟩ := h
  refine ⟨k, outcome, hrests, ?_⟩
  rcases hk with ⟨hk, rfl⟩ | ⟨hk, rfl⟩
  · exact .inl ⟨by omega, rfl⟩
  · exact .inr ⟨by omega, rfl⟩

theorem Rests.settles {start d : Config} {k n : Nat} {outcome : RunOutcome}
    (h : Rests M start k d outcome) (hlt : k < n) : Settles M start n d := by
  refine ⟨k, outcome, h, ?_⟩
  cases h with
  | halted => exact .inl ⟨Nat.le_of_lt hlt, rfl⟩
  | stuck => exact .inr ⟨hlt, rfl⟩

theorem Rests.verdict_eq {start d : Config} {k : Nat} {outcome : RunOutcome}
    (h : Rests M start k d outcome) : outcome.verdict M d = some (decide (d.isFinal M)) := by
  cases h <;> rfl

/-- Either the machine comes to rest within a bound, or the bound is used up before. -/
theorem settles_or_steps (M : Machine) (start : Config) (hset : start.tapeSet = true)
    (hobs : start.observers = []) (n : Nat) :
    (∃ d, Settles M start n d) ∨ ∃ d, steps M nobody n start () = .ok () d () ∧ ¬d.isHalted M := by
  rcases exists_steps_or_rests (M := M) hset hobs n with ⟨d, hd⟩ | ⟨k, hlt, d, outcome, hrests⟩
  · by_cases hhalt : d.isHalted M
    · exact .inl ⟨d, n, _, .halted hd hhalt, .inl ⟨Nat.le_refl n, rfl⟩⟩
    · exact .inr ⟨d, hd, hhalt⟩
  · exact .inl ⟨d, hrests.settles hlt⟩

/-- A bound that is used up lets no machine come to rest. -/
theorem not_settles_of_steps {start d d' : Config} (hset : start.tapeSet = true)
    (hobs : start.observers = []) {n : Nat}
    (hsteps : steps M nobody n start () = .ok () d ()) (hgoing : ¬d.isHalted M) :
    ¬Settles M start n d' := by
  rintro ⟨k, outcome, hrests, hk⟩
  by_cases hlt : k < n
  · exact hrests.no_more hset hobs hlt hsteps
  · obtain ⟨rfl, rfl⟩ : k = n ∧ outcome = .haltReached := by
      rcases hk with ⟨hle, rfl⟩ | ⟨hlt', -⟩
      · exact ⟨by omega, rfl⟩
      · exact absurd hlt' hlt
    cases hrests with
    | halted hsteps' hhalt =>
      cases hsteps.symm.trans hsteps'
      exact hgoing hhalt

theorem not_settles_iff {start : Config} {n : Nat} : (¬∃ d, Settles M start n d) ↔
    (¬∃ k ≤ n, ∃ d, Rests M start k d .haltReached) ∧
      ¬∃ k < n, ∃ d, Rests M start k d .unknownTransition := by
  constructor
  · intro h
    constructor
    · rintro ⟨k, hle, d, hrests⟩
      exact h ⟨d, k, _, hrests, .inl ⟨hle, rfl⟩⟩
    · rintro ⟨k, hlt, d, hrests⟩
      exact h ⟨d, k, _, hrests, .inr ⟨hlt, rfl⟩⟩
  · rintro ⟨hhalted, hstuck⟩ ⟨d, k, outcome, hrests, ⟨hle, rfl⟩ | ⟨hlt, rfl⟩⟩
    · exact hhalted ⟨k, hle, d, hrests⟩
    · exact hstuck ⟨k, hlt, d, hrests⟩

section Decisions

variable (deliver : Text → Event → Execution ω Unit) (hword : ∀ a ∈ word, a ∈ M.alphabet)
  {c d : Config}

include hword

theorem accept_of_settles {n : Int} (h : Settles M (M.onWord c.state word) n.toNat d) (fuel : Nat)
    (w : ω) :
    accept M deliver fuel word (some n) c w = .ok (some (decide (d.isFinal M))) c w := by
  obtain ⟨k, outcome, hrests, hk⟩ := h
  rw [← hrests.verdict_eq]
  exact accept_of_executes deliver hword (hrests.executes_rest rfl rfl hk fuel) w

theorem accept_of_rests {k : Nat} {outcome : RunOutcome}
    (h : Rests M (M.onWord c.state word) k d outcome) {fuel : Nat} (hlt : k < fuel) (w : ω) :
    accept M deliver fuel word none c w = .ok (some (decide (d.isFinal M))) c w := by
  have hrun : Executes M fuel none (M.onWord c.state word) k outcome d := h.executes rfl rfl hlt
  rw [← h.verdict_eq]
  exact accept_of_executes deliver hword hrun w

theorem accept_of_steps {n : Int}
    (hsteps : steps M nobody n.toNat (M.onWord c.state word) () = .ok () d ())
    (hgoing : ¬d.isHalted M) (fuel : Nat) (w : ω) :
    accept M deliver fuel word (some n) c w = .ok none c w := by
  have hrun := executes_of_steps (n := n) rfl hsteps fuel
  rw [if_neg hgoing] at hrun
  exact accept_of_executes deliver hword hrun w

/-- A query with a bound is always answered. -/
theorem accept_bounded (n : Int) (fuel : Nat) (w : ω) :
    ∃ a, accept M deliver fuel word (some n) c w = .ok a c w ∧
      (a = none ↔ ¬∃ d, Settles M (M.onWord c.state word) n.toNat d) ∧
      ∀ d, Settles M (M.onWord c.state word) n.toNat d → a = some (decide (d.isFinal M)) := by
  rcases settles_or_steps M (M.onWord c.state word) rfl rfl n.toNat with
    ⟨d, hd⟩ | ⟨d, hd, hgoing⟩
  · have haccept := accept_of_settles deliver hword hd fuel w
    refine ⟨_, haccept, iff_of_false (by simp) fun hnone => hnone ⟨d, hd⟩, fun d' hd' => ?_⟩
    have haccept' := accept_of_settles deliver hword hd' fuel w
    injection haccept.symm.trans haccept'
  · have hnone : ∀ d', ¬Settles M (M.onWord c.state word) n.toNat d' :=
      fun d' => not_settles_of_steps rfl rfl hd hgoing
    refine ⟨none, accept_of_steps deliver hword hd hgoing fuel w, iff_of_true rfl ?_, ?_⟩
    · rintro ⟨d', hd'⟩
      exact hnone d' hd'
    · intro d' hd'
      exact absurd hd' (hnone d')

/-- A decision is the answer to every query with a greater bound and to the one without a bound. -/
theorem accept_stable {n m : Int} {fuel : Nat} {b : Bool} {w : ω} (hle : n ≤ m)
    (h : accept M deliver fuel word (some n) c w = .ok (some b) c w) :
    (∀ fuel', accept M deliver fuel' word (some m) c w = .ok (some b) c w) ∧
      ∃ F, ∀ fuel' ≥ F, accept M deliver fuel' word none c w = .ok (some b) c w := by
  rcases settles_or_steps M (M.onWord c.state word) rfl rfl n.toNat with
    ⟨d, hd⟩ | ⟨d, hd, hgoing⟩
  · have haccept := accept_of_settles deliver hword hd fuel w
    obtain rfl : b = decide (d.isFinal M) := by
      injection h.symm.trans haccept with hb
      exact Option.some.inj hb
    constructor
    · intro fuel'
      exact accept_of_settles deliver hword (hd.of_le (Int.toNat_le_toNat hle)) fuel' w
    · obtain ⟨k, outcome, hrests, -⟩ := hd
      exact ⟨k + 1, fun fuel' hfuel => accept_of_rests deliver hword hrests (by omega) w⟩
  · have haccept := accept_of_steps deliver hword hd hgoing fuel w
    injection h.symm.trans haccept with hb
    cases hb

/-- A query without a bound that is answered at all is decided, and all bounds from some point on
agree with it. -/
theorem accept_unbounded {fuel : Nat} {w : ω}
    (h : accept M deliver fuel word none c w ≠ .exhausted) :
    ∃ b, accept M deliver fuel word none c w = .ok (some b) c w ∧
      ∃ N : Int, ∀ n ≥ N, ∀ fuel', accept M deliver fuel' word (some n) c w = .ok (some b) c w := by
  rcases exists_steps_or_rests (M := M) (c := M.onWord c.state word) rfl rfl fuel with
    ⟨d, hd⟩ | ⟨k, hlt, d, outcome, hrests⟩
  · have hcut := run_eq_exhausted_of_steps rfl hd nobody ()
    rw [accept_eq_verdict deliver fuel hword, hcut] at h
    exact absurd rfl h
  · refine ⟨_, accept_of_rests deliver hword hrests hlt w, fuel, fun n hn fuel' => ?_⟩
    exact accept_of_settles deliver hword (hrests.settles (by omega)) fuel' w

end Decisions

end Answers

/-- Asked about a word of its own symbols, a machine answers as follows. With a bound there is
always an answer: it is undecided just if the run on a fresh tape from the current state is not
halted by the bound and not found stuck before it, and otherwise it says whether the state in which
the run came to rest is final. What is decided with one bound stays so with every greater bound and
without any. An answer without a bound is a decision, and all bounds from some point on agree with
it. And a machine that is at work on something else in the same state, whoever observes it, answers
the same. -/
theorem accept_tristate {ω : Type} (M : Machine) (deliver : Text → Event → Execution ω Unit)
    {word : List Symbol} (hword : ∀ a ∈ word, a ∈ M.alphabet) (c : Config) (w : ω) :
    let start := M.onWord c.state word
    (∀ (n : Int) (fuel : Nat), ∃ a, accept M deliver fuel word (some n) c w = .ok a c w ∧
      (a = none ↔ (¬∃ k ≤ n.toNat, ∃ d, Rests M start k d .haltReached) ∧
        ¬∃ k < n.toNat, ∃ d, Rests M start k d .unknownTransition) ∧
      ∀ d, Settles M start n.toNat d → a = some (decide (d.isFinal M))) ∧
    (∀ (n m : Int) (fuel : Nat) (b : Bool), n ≤ m →
      accept M deliver fuel word (some n) c w = .ok (some b) c w →
        (∀ fuel', accept M deliver fuel' word (some m) c w = .ok (some b) c w) ∧
        ∃ F, ∀ fuel' ≥ F, accept M deliver fuel' word none c w = .ok (some b) c w) ∧
    (∀ fuel, accept M deliver fuel word none c w ≠ .exhausted →
      ∃ b, accept M deliver fuel word none c w = .ok (some b) c w ∧
        ∃ N : Int, ∀ n ≥ N, ∀ fuel',
          accept M deliver fuel' word (some n) c w = .ok (some b) c w) ∧
    ∀ (ω' : Type) (deliver' : Text → Event → Execution ω' Unit) (c' : Config) (w' : ω'),
      c'.state = c.state → ∀ (fuel : Nat) (maxSteps : Option Int),
        (accept M deliver' fuel word maxSteps c' w').outcome? =
          (accept M deliver fuel word maxSteps c w).outcome? := by
  intro start
  refine ⟨?_, ?_, ?_, ?_⟩
  · intro n fuel
    obtain ⟨a, haccept, hnone, hsome⟩ := accept_bounded deliver hword (c := c) n fuel w
    exact ⟨a, haccept, hnone.trans not_settles_iff, hsome⟩
  · intro n m fuel b hle h
    exact accept_stable deliver hword hle h
  · intro fuel h
    exact accept_unbounded deliver hword h
  · intro ω' deliver' c' w' hstate fuel maxSteps
    rw [accept_eq_verdict deliver' fuel hword, accept_eq_verdict deliver fuel hword, hstate]
    cases run M nobody fuel maxSteps (M.onWord c.state word) () <;> rfl

/-- On an `x` the machine is stuck at once, which it finds out if it may make a step. -/
theorem opening_accept_tristate :
    let c := { Machine.opening.start with
      tape := Text.symbols "aa", tapeSet := true, head := 1, steps := 7, observers := ["log"] }
    let word := Text.symbols "x"
    let deliver : Text → Event → Execution Unit Unit := fun _ _ => exhausted
    accept Machine.opening deliver 0 word (some 0) c () = .ok none c () ∧
      (∀ n : Int, 1 ≤ n → ∀ fuel,
        accept Machine.opening deliver fuel word (some n) c () = .ok (some false) c ()) ∧
      (∃ F, ∀ fuel ≥ F,
        accept Machine.opening deliver fuel word none c () = .ok (some false) c ()) ∧
      ∀ fuel maxSteps,
        (accept Machine.opening nobody fuel word maxSteps Machine.opening.start ()).outcome? =
          (accept Machine.opening deliver fuel word maxSteps c ()).outcome? := by
  intro c word deliver
  have hword : ∀ a ∈ word, a ∈ Machine.opening.alphabet := by decide
  obtain ⟨-, hstable, -, hsame⟩ := accept_tristate Machine.opening deliver hword c ()
  have hone : accept Machine.opening deliver 0 word (some 1) c () = .ok (some false) c () := rfl
  refine ⟨rfl, ?_, ?_, ?_⟩
  · intro n hn fuel
    exact (hstable 1 n 0 false hn hone).1 fuel
  · exact (hstable 1 1 0 false (Int.le_refl 1) hone).2
  · exact hsame Unit nobody Machine.opening.start () rfl

end Execution
end SingleTape

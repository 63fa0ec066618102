import SingleTape.Proofs.Execution.InfiniteTape
import SingleTape.Proofs.Execution.Soundness

/-!
Running and stepping. A run of a machine that nobody observes is a row of single steps. With a bound
it stops when the steps are used up, and otherwise where the machine comes to rest; a bound may be
used up in two runs as well as in one.
-/

namespace SingleTape

open Engine

/-- A step that succeeds. -/
def Point.isStep : Point → Bool
  | ended .step none _ => true
  | _ => false

namespace Traced

variable {ω : Type} {M : Machine} {deliver : Text → Event → Traced ω Unit} {c d : Config}

theorem announce_of_unobserved (h : c.observers = []) (event : Config → Event) (w : ω) :
    announce deliver event c w = (.ok () c w, []) := by
  rw [announce_apply, h]
  rfl

theorem take_of_unobserved (h : c.observers = []) (t : Transition) (w : ω) :
    take M deliver t c w = (.ok () (c.apply M t).countStep w, [.store c t]) := by
  have happly : (c.apply M t).observers = [] := by rw [Config.apply_observers, h]
  by_cases hh : (c.apply M t).head = c.head <;>
    simp [take, marking, bind_apply, announce_of_unobserved h, announce_of_unobserved happly, hh]

theorem step_of_next (M : Machine) (deliver : Text → Event → Traced ω Unit)
    (h : c.observers = []) {t : Transition} (ht : c.next M = .ok t) (w : ω) :
    ∃ ps, step M deliver c w = (.ok () (c.apply M t).countStep w, ps) ∧
      ps.countP Point.isStep = 1 := by
  have hrun : step M deliver c w = (.ok () (c.apply M t).countStep w,
      (if ¬c.isHalted M ∧ c.tapeSet then [.lookup c] else []) ++ [.store c t] ++
        [.ended .step none (c.apply M t).countStep]) := by
    simp only [step, doing_call, ending, bind_apply, find_apply, Execution.find_apply, ht,
      take_of_unobserved h]
  refine ⟨_, hrun, ?_⟩
  split <;> rfl

/-- A step that fails does nothing. -/
theorem step_of_next_error (M : Machine) (deliver : Text → Event → Traced ω Unit)
    {e : Error} (he : c.next M = .error e) (w : ω) :
    ∃ ps, step M deliver c w = (.error (.error e) c w, ps) ∧ ps.countP Point.isStep = 0 := by
  have hrun : step M deliver c w = (.error (.error e) c w,
      (if ¬c.isHalted M ∧ c.tapeSet then [.lookup c] else []) ++
        [.ended .step (some (.error e)) c]) := by
    simp only [step, doing_call, ending, bind_apply, find_apply, Execution.find_apply, he]
  refine ⟨_, hrun, ?_⟩
  split <;> rfl

/-- Both runs go on in the same way: they look whether the machine is halted, and if not they make a
step. -/
def Loops (M : Machine) (deliver : Text → Event → Traced ω Unit)
    (loop : Nat → Traced ω RunOutcome) : Prop :=
  ∀ n, loop (n + 1) = do
    if (← get).isHalted M then return .haltReached
    else
      step M deliver
      loop n

theorem loops_runBounded (M : Machine) (deliver : Text → Event → Traced ω Unit) :
    Loops M deliver (runBounded M deliver) := fun _ => rfl

theorem loops_runUnbounded (M : Machine) (deliver : Text → Event → Traced ω Unit) :
    Loops M deliver (runUnbounded M deliver) := fun _ => rfl

section Loop

variable {loop : Nat → Traced ω RunOutcome}

theorem Loops.of_halted (hloop : Loops M deliver loop) (hhalt : c.isHalted M) (n : Nat) (w : ω) :
    loop (n + 1) c w = (.ok .haltReached c w, []) := by
  rw [hloop n, bind_apply, get_apply]
  simp only [if_pos hhalt]
  rfl

theorem Loops.of_next (hloop : Loops M deliver loop) (h : c.observers = []) {t : Transition}
    (ht : c.next M = .ok t) (w : ω) :
    ∃ ps, ps.countP Point.isStep = 1 ∧ ∀ n, loop (n + 1) c w =
      ((loop n (c.apply M t).countStep w).1, ps ++ (loop n (c.apply M t).countStep w).2) := by
  obtain ⟨ps, hstep, hps⟩ := step_of_next M deliver h ht w
  refine ⟨ps, hps, fun n => ?_⟩
  have hgoing : ¬c.isHalted M := by
    intro hhalt
    simp [Config.next, hhalt] at ht
  rw [hloop n, bind_apply, get_apply]
  simp only [if_neg hgoing, bind_apply, hstep, List.nil_append]

/-- A loop that would have to make a step that fails. -/
theorem Loops.of_error (hloop : Loops M deliver loop) (hgoing : ¬c.isHalted M) {e : Error}
    (he : c.next M = .error e) (w : ω) :
    ∃ ps, ps.countP Point.isStep = 0 ∧ ∀ n, loop (n + 1) c w = (.error (.error e) c w, ps) := by
  obtain ⟨ps, hstep, hps⟩ := step_of_next_error M deliver he w
  refine ⟨ps, hps, fun n => ?_⟩
  rw [hloop n, bind_apply, get_apply]
  simp only [if_neg hgoing, bind_apply, hstep, List.nil_append]

end Loop

end Traced

namespace Execution

variable {ω : Type} {M : Machine} {deliver : Text → Event → Execution ω Unit} {c d : Config}

theorem steps_succ_eq_ok_iff (h : c.observers = []) {n : Nat} {w w' : ω} :
    steps M deliver (n + 1) c w = .ok () d w' ↔
      ∃ t, c.next M = .ok t ∧ steps M deliver n (c.apply M t).countStep w = .ok () d w' := by
  cases ht : c.next M with
  | ok t => simp [steps_succ_of_observers_eq_nil h ht]
  | error e => simp [steps, bind_apply, step_of_observers_eq_nil h, ht]

theorem steps_add (i j : Nat) :
    steps M deliver (i + j) = (do steps M deliver i; steps M deliver j) := by
  induction i with
  | zero => rw [Nat.zero_add, steps, pure_bind]
  | succ i ih => rw [Nat.add_right_comm, steps, ih, steps, bind_assoc]

theorem steps_add_eq_ok_iff {i j : Nat} {w w' : ω} :
    steps M deliver (i + j) c w = .ok () d w' ↔
      ∃ e v, steps M deliver i c w = .ok () e v ∧ steps M deliver j e v = .ok () d w' := by
  rw [steps_add, bind_apply]
  cases steps M deliver i c w <;> simp [and_assoc]

theorem solitary_steps (deliver : Text → Event → Execution ω Unit) (n : Nat) :
    Solitary (steps M deliver n) (steps M nobody n) := by
  induction n with
  | zero => exact fun _ _ h => ⟨rfl, h⟩
  | succ n ih => exact solitary_bind (solitary M deliver).rel_step fun _ => ih

/-- Steps change what transitions change, and they are counted. -/
theorem steps_frame (h : c.observers = []) {n : Nat}
    (hsteps : steps M nobody n c () = .ok () d ()) :
    d.observers = [] ∧ d.tapeSet = c.tapeSet ∧ d.steps = c.steps + n := by
  induction n generalizing c with
  | zero =>
    obtain rfl : c = d := by simpa [steps] using hsteps
    exact ⟨h, rfl, rfl⟩
  | succ n ih =>
    obtain ⟨t, -, hrest⟩ := (steps_succ_eq_ok_iff h).1 hsteps
    have hobs : (c.apply M t).countStep.observers = [] := (Config.apply_observers c t).trans h
    obtain ⟨hd, hset, hcount⟩ := ih hobs hrest
    have hone : (c.apply M t).countStep.steps = c.steps + 1 :=
      congrArg (· + 1) (Config.apply_steps c t)
    refine ⟨hd, hset.trans (Config.apply_tapeSet c t), ?_⟩
    rw [hcount, hone, Nat.add_right_comm, Nat.add_assoc]

/-- Exactly this many steps can be made, and then the machine is halted or stuck. -/
inductive Rests (M : Machine) (c : Config) (k : Nat) (c' : Config) : RunOutcome → Prop
  | halted (hsteps : steps M nobody k c () = .ok () c' ()) (hhalt : c'.isHalted M) :
    Rests M c k c' .haltReached
  | stuck (hsteps : steps M nobody k c () = .ok () c' ()) (hgoing : ¬c'.isHalted M)
      (hnone : M.table.find? c'.state (c'.scanned M) = none) :
    Rests M c k c' .unknownTransition

/-- There is no end to the steps that can be made. -/
def Endless (M : Machine) (c : Config) : Prop := ∀ n, ∃ d, steps M nobody n c () = .ok () d ()

/-- A run makes exactly this many steps, and each of them is counted. -/
structure Executes (M : Machine) (fuel : Nat) (maxSteps : Option Int) (c : Config) (n : Nat)
    (outcome : RunOutcome) (d : Config) : Prop where
  run_eq : ∀ (ω : Type) (deliver : Text → Event → Execution ω Unit) (w : ω),
    run M deliver fuel maxSteps c w = .ok outcome d w
  steps_eq : ∀ (ω : Type) (deliver : Text → Event → Execution ω Unit) (w : ω),
    steps M deliver n c w = .ok () d w
  calls_eq : ∀ (ω : Type) (deliver : Text → Event → Traced ω Unit) (w : ω),
    ∃ ps, run M deliver fuel maxSteps c w = (.ok outcome d w, ps) ∧
      ps.countP Point.isStep = n
  counter_eq : d.steps = c.steps + n

theorem erase_run (M : Machine) (deliver : Text → Event → Execution ω Unit) (fuel : Nat)
    (maxSteps : Option Int) :
    Traced.erase (run M (fun name event => Traced.lift (deliver name event)) fuel maxSteps) =
      run M deliver fuel maxSteps :=
  let R := Traced.erasing M fun name event => Traced.lift (deliver name event)
  Traced.erase_eq (R.rel_run (R.rel_runUnbounded fuel) maxSteps)

/-- The trace of a run tells all. -/
theorem executes_of_traced {fuel : Nat} {maxSteps : Option Int} {n : Nat} {outcome : RunOutcome}
    (h : c.observers = []) (hsteps : steps M nobody n c () = .ok () d ())
    (htraced : ∀ (ω : Type) (deliver : Text → Event → Traced ω Unit) (w : ω),
      ∃ ps, run M deliver fuel maxSteps c w = (.ok outcome d w, ps) ∧
        ps.countP Point.isStep = n) :
    Executes M fuel maxSteps c n outcome d where
  run_eq ω deliver w := by
    obtain ⟨ps, hrun, -⟩ := htraced ω (fun name event => Traced.lift (deliver name event)) w
    rw [← erase_run, Traced.erase, hrun]
  steps_eq ω deliver w := by
    rw [(solitary_steps deliver n c w h).1, hsteps]
    rfl
  calls_eq := htraced
  counter_eq := (steps_frame h hsteps).2.2

end Execution

namespace Traced

variable {ω : Type} {M : Machine} {deliver : Text → Event → Traced ω Unit} {c d : Config}

/-- A loop first makes the steps that can be made. -/
theorem Loops.of_steps {loop : Nat → Traced ω RunOutcome} (hloop : Loops M deliver loop)
    (h : c.observers = []) {n : Nat}
    (hsteps : Execution.steps M Execution.nobody n c () = .ok () d ()) (w : ω) :
    ∃ ps, ps.countP Point.isStep = n ∧
      ∀ m, loop (n + m) c w = ((loop m d w).1, ps ++ (loop m d w).2) := by
  induction n generalizing c with
  | zero =>
    obtain rfl : c = d := by simpa [Execution.steps] using hsteps
    refine ⟨[], rfl, fun m => ?_⟩
    rw [Nat.zero_add]
    rfl
  | succ n ih =>
    obtain ⟨t, ht, hrest⟩ := (Execution.steps_succ_eq_ok_iff h).1 hsteps
    have hobs : (c.apply M t).countStep.observers = [] := (Config.apply_observers c t).trans h
    obtain ⟨ps, hps, hone⟩ := hloop.of_next h ht w
    obtain ⟨qs, hqs, hmore⟩ := ih hobs hrest
    refine ⟨ps ++ qs, by rw [List.countP_append, hps, hqs, Nat.add_comm], fun m => ?_⟩
    rw [Nat.add_right_comm, hone, hmore, List.append_assoc]

/-- The loop that a run makes. -/
def loopOf (M : Machine) (deliver : Text → Event → Traced ω Unit) (fuel : Nat) :
    Option Int → Traced ω RunOutcome
  | some n => runBounded M deliver n.toNat
  | none => runUnbounded M deliver fuel

/-- How often the loop of a run may go round. -/
def budget (fuel : Nat) : Option Int → Nat
  | some n => n.toNat
  | none => fuel

theorem exists_loops (M : Machine) (deliver : Text → Event → Traced ω Unit) (fuel : Nat)
    (maxSteps : Option Int) : ∃ loop,
      Loops M deliver loop ∧ loopOf M deliver fuel maxSteps = loop (budget fuel maxSteps) := by
  cases maxSteps with
  | none => exact ⟨_, loops_runUnbounded M deliver, rfl⟩
  | some n => exact ⟨_, loops_runBounded M deliver, rfl⟩

/-- A run makes an outcome of one error of its loop, and lets the others through. -/
theorem run_eq_ending (M : Machine) (deliver : Text → Event → Traced ω Unit) (fuel : Nat)
    (maxSteps : Option Int) : ∃ handle : Failure → Traced ω RunOutcome,
      run M deliver fuel maxSteps =
        ending (.run maxSteps) (tryCatch (loopOf M deliver fuel maxSteps) handle) ∧
      (∀ q a, handle (.error (.unknownTransition q a)) = pure .unknownTransition) ∧
      ∀ e, (∀ q a, e ≠ .error (.unknownTransition q a)) → handle e = throw e := by
  cases maxSteps <;>
  · refine ⟨_, rfl, fun _ _ => rfl, fun e he => ?_⟩
    cases e with
    | tapeTooLarge => rfl
    | error e =>
      cases e with
      | unknownTransition q a => exact absurd rfl (he q a)
      | _ => rfl

theorem run_of_loop_ok {fuel : Nat} {maxSteps : Option Int} {outcome : RunOutcome} {w : ω}
    {ps : List Point} (h : loopOf M deliver fuel maxSteps c w = (.ok outcome d w, ps)) :
    ∃ qs, run M deliver fuel maxSteps c w = (.ok outcome d w, qs) ∧
      qs.countP Point.isStep = ps.countP Point.isStep := by
  obtain ⟨handle, hrun, -⟩ := run_eq_ending M deliver fuel maxSteps
  have hend : run M deliver fuel maxSteps c w =
      (.ok outcome d w, ps ++ [.ended (.run maxSteps) none d]) := by
    rw [hrun, ending, tryCatch_apply, h]
  refine ⟨_, hend, ?_⟩
  rw [List.countP_append]
  rfl

theorem run_of_loop_exhausted {fuel : Nat} {maxSteps : Option Int} {w : ω} {ps : List Point}
    (h : loopOf M deliver fuel maxSteps c w = (.exhausted, ps)) :
    run M deliver fuel maxSteps c w = (.exhausted, ps) := by
  obtain ⟨handle, hrun, -⟩ := run_eq_ending M deliver fuel maxSteps
  rw [hrun, ending, tryCatch_apply, h]

theorem run_of_loop_unknown {fuel : Nat} {maxSteps : Option Int} {q : State} {a : Symbol} {w : ω}
    {ps : List Point}
    (h : loopOf M deliver fuel maxSteps c w = (.error (.error (.unknownTransition q a)) d w, ps)) :
    ∃ qs, run M deliver fuel maxSteps c w = (.ok .unknownTransition d w, qs) ∧
      qs.countP Point.isStep = ps.countP Point.isStep := by
  obtain ⟨handle, hrun, hpure, -⟩ := run_eq_ending M deliver fuel maxSteps
  have hend : run M deliver fuel maxSteps c w =
      (.ok .unknownTransition d w, ps ++ [.ended (.run maxSteps) none d]) := by
    simp only [hrun, ending, tryCatch_apply, h, hpure, pure_apply, List.append_nil]
  refine ⟨_, hend, ?_⟩
  rw [List.countP_append]
  rfl

end Traced

namespace Execution

variable {M : Machine} {c c' d : Config} {k : Nat} {outcome : RunOutcome}

theorem next_of_stuck (hset : c.tapeSet = true) (hgoing : ¬c.isHalted M)
    (hnone : M.table.find? c.state (c.scanned M) = none) :
    c.next M = .error (.unknownTransition c.state (c.scanned M)) := by
  simp [Config.next, hgoing, hset, hnone]

/-- A step finds no transition exactly where the machine is stuck. -/
theorem next_eq_unknown_iff {q : State} {a : Symbol} :
    c.next M = .error (.unknownTransition q a) ↔
      (¬c.isHalted M ∧ c.tapeSet = true ∧ M.table.find? c.state (c.scanned M) = none) ∧
        q = c.state ∧ a = c.scanned M := by
  constructor
  · intro h
    unfold Config.next at h
    split at h
    · cases h
    next hgoing =>
    split at h
    · cases h
    next hset =>
    split at h
    · cases h
    next hnone =>
    cases h
    exact ⟨⟨hgoing, by simpa using hset, hnone⟩, rfl, rfl⟩
  · rintro ⟨⟨hgoing, hset, hnone⟩, rfl, rfl⟩
    exact next_of_stuck hset hgoing hnone

theorem Rests.steps_eq (h : Rests M c k c' outcome) : steps M nobody k c () = .ok () c' () := by
  cases h <;> assumption

/-- A run comes to rest if it may go round once more than there are steps. -/
theorem Rests.executes (h : Rests M c k c' outcome) (hset : c.tapeSet = true)
    (hobs : c.observers = []) {fuel : Nat} {maxSteps : Option Int}
    (hlt : k < Traced.budget fuel maxSteps) : Executes M fuel maxSteps c k outcome c' := by
  refine executes_of_traced hobs h.steps_eq fun ω deliver w => ?_
  obtain ⟨loop, hloop, hrun⟩ := Traced.exists_loops M deliver fuel maxSteps
  obtain ⟨ps, hps, hmore⟩ := hloop.of_steps hobs h.steps_eq w
  obtain ⟨m, hm⟩ := Nat.exists_eq_add_of_lt hlt
  rw [Nat.add_assoc] at hm
  obtain ⟨-, hset', -⟩ := steps_frame hobs h.steps_eq
  cases h with
  | halted hsteps hhalt =>
    have hend : Traced.loopOf M deliver fuel maxSteps c w = (.ok .haltReached c' w, ps ++ []) := by
      rw [hrun, hm, hmore, hloop.of_halted hhalt]
    obtain ⟨qs, hqs, hcount⟩ := Traced.run_of_loop_ok hend
    exact ⟨qs, hqs, by rw [hcount, List.append_nil, hps]⟩
  | stuck hsteps hgoing hnone =>
    obtain ⟨rs, hrs, herror⟩ :=
      hloop.of_error hgoing (next_of_stuck (hset'.trans hset) hgoing hnone) w
    have hend : Traced.loopOf M deliver fuel maxSteps c w =
        (.error (.error (.unknownTransition c'.state (c'.scanned M))) c' w, ps ++ rs) := by
      rw [hrun, hm, hmore, herror]
    obtain ⟨qs, hqs, hcount⟩ := Traced.run_of_loop_unknown hend
    exact ⟨qs, hqs, by rw [hcount, List.countP_append, hps, hrs, Nat.add_zero]⟩

/-- A bound that is used up. Halting is noticed even then, while being stuck is not. -/
theorem executes_of_steps (hobs : c.observers = []) {n : Int}
    (hsteps : steps M nobody n.toNat c () = .ok () d ()) (fuel : Nat) :
    Executes M fuel (some n) c n.toNat
      (if d.isHalted M then .haltReached else .stepLimitReached) d := by
  refine executes_of_traced hobs hsteps fun ω deliver w => ?_
  obtain ⟨ps, hps, hmore⟩ := (Traced.loops_runBounded M deliver).of_steps hobs hsteps w
  have hlast : runBounded M deliver 0 d w =
      (.ok (if d.isHalted M then .haltReached else .stepLimitReached) d w, []) := by
    rw [runBounded, Traced.bind_apply, Traced.get_apply]
    by_cases hhalt : d.isHalted M <;> simp [hhalt, Traced.pure_apply]
  have hend : Traced.loopOf M deliver fuel (some n) c w =
      (.ok (if d.isHalted M then .haltReached else .stepLimitReached) d w, ps ++ []) := by
    rw [Traced.loopOf, ← Nat.add_zero n.toNat, hmore, hlast]
  obtain ⟨qs, hqs, hcount⟩ := Traced.run_of_loop_ok hend
  exact ⟨qs, hqs, by rw [hcount, List.append_nil, hps]⟩

/-- Where no step can be made the machine is at rest. -/
theorem rests_of_next_error (hset : c.tapeSet = true) {e : Error} (he : c.next M = .error e) :
    ∃ outcome, Rests M c 0 c outcome := by
  by_cases hhalt : c.isHalted M
  · exact ⟨_, .halted rfl hhalt⟩
  · cases hfind : M.table.find? c.state (c.scanned M) with
    | none => exact ⟨_, .stuck rfl hhalt hfind⟩
    | some t => simp [Config.next, hhalt, hset, hfind] at he

theorem Rests.of_steps {i : Nat} (hsteps : steps M nobody i c () = .ok () d ())
    (h : Rests M d k c' outcome) : Rests M c (i + k) c' outcome := by
  have hall : steps M nobody (i + k) c () = .ok () c' () :=
    steps_add_eq_ok_iff.2 ⟨d, (), hsteps, h.steps_eq⟩
  cases h with
  | halted _ hhalt => exact .halted hall hhalt
  | stuck _ hgoing hnone => exact .stuck hall hgoing hnone

/-- A machine at rest makes no step. -/
theorem Rests.no_more (h : Rests M c k c' outcome) (hset : c.tapeSet = true)
    (hobs : c.observers = []) {n : Nat} (hlt : k < n) : steps M nobody n c () ≠ .ok () d () := by
  intro hn
  obtain ⟨m, rfl⟩ := Nat.exists_eq_add_of_lt hlt
  rw [Nat.add_assoc] at hn
  obtain ⟨e, v, hk, hrest⟩ := steps_add_eq_ok_iff.1 hn
  obtain ⟨hobs', hset', -⟩ := steps_frame hobs h.steps_eq
  rw [h.steps_eq] at hk
  cases hk
  obtain ⟨t, ht, -⟩ := (steps_succ_eq_ok_iff hobs').1 hrest
  cases h with
  | halted _ hhalt => simp [Config.next, hhalt] at ht
  | stuck _ hgoing hnone =>
    rw [next_of_stuck (hset'.trans hset) hgoing hnone] at ht
    cases ht

/-- There is one way to come to rest. -/
theorem Rests.unique (h : Rests M c k c' outcome) {j : Nat} {o : RunOutcome} (h' : Rests M c j d o)
    (hset : c.tapeSet = true) (hobs : c.observers = []) : k = j ∧ c' = d ∧ outcome = o := by
  have hle : ¬k < j := fun hlt => h.no_more hset hobs hlt h'.steps_eq
  have hge : ¬j < k := fun hlt => h'.no_more hset hobs hlt h.steps_eq
  obtain rfl : k = j := by omega
  have hsame := h.steps_eq.symm.trans h'.steps_eq
  cases hsame
  refine ⟨rfl, rfl, ?_⟩
  cases h <;> cases h'
  · rfl
  · contradiction
  · contradiction
  · rfl

/-- Either a number of steps can be made or the machine comes to rest before. -/
theorem exists_steps_or_rests (hset : c.tapeSet = true) (hobs : c.observers = []) (n : Nat) :
    (∃ d, steps M nobody n c () = .ok () d ()) ∨ ∃ k < n, ∃ c' outcome, Rests M c k c' outcome := by
  induction n with
  | zero => exact .inl ⟨c, rfl⟩
  | succ n ih =>
    rcases ih with ⟨d, hd⟩ | ⟨k, hk, hrests⟩
    · obtain ⟨hobs', hset', -⟩ := steps_frame hobs hd
      cases ht : d.next M with
      | ok t =>
        have hone : steps M nobody 1 d () = .ok () (d.apply M t).countStep () :=
          (steps_succ_eq_ok_iff hobs').2 ⟨t, ht, rfl⟩
        exact .inl ⟨_, steps_add_eq_ok_iff.2 ⟨d, (), hd, hone⟩⟩
      | error e =>
        obtain ⟨outcome, hrests⟩ := rests_of_next_error (hset'.trans hset) ht
        exact .inr ⟨n, by omega, d, outcome, hrests.of_steps hd⟩
    · exact .inr ⟨k, by omega, hrests⟩

theorem rests_or_endless (hset : c.tapeSet = true) (hobs : c.observers = []) :
    (∃ k c' outcome, Rests M c k c' outcome) ∨ Endless M c := by
  by_cases h : Endless M c
  · exact .inr h
  · obtain ⟨n, hn⟩ := Classical.not_forall.1 h
    rcases exists_steps_or_rests hset hobs n with hsteps | ⟨k, -, hrests⟩
    · exact absurd hsteps hn
    · exact .inl ⟨k, hrests⟩

/-- How a run with a bound ends: at rest, or where the bound is used up. -/
inductive Ends (M : Machine) (c : Config) (n : Nat) : Nat → RunOutcome → Config → Prop
  | rest {k : Nat} {c' : Config} {outcome : RunOutcome} (h : Rests M c k c' outcome) (hlt : k < n) :
    Ends M c n k outcome c'
  | bound {d : Config} (hsteps : steps M nobody n c () = .ok () d ()) :
    Ends M c n n (if d.isHalted M then .haltReached else .stepLimitReached) d

theorem exists_ends (hset : c.tapeSet = true) (hobs : c.observers = []) (n : Nat) :
    ∃ k outcome d, Ends M c n k outcome d := by
  rcases exists_steps_or_rests (M := M) hset hobs n with ⟨d, hd⟩ | ⟨k, hk, c', outcome, hrests⟩
  · exact ⟨_, _, _, .bound hd⟩
  · exact ⟨_, _, _, .rest hrests hk⟩

theorem Ends.steps_eq {n : Nat} (h : Ends M c n k outcome d) :
    steps M nobody k c () = .ok () d () := by
  cases h with
  | rest h hlt => exact h.steps_eq
  | bound hsteps => exact hsteps

theorem Ends.executes {n : Int} (h : Ends M c n.toNat k outcome d) (hset : c.tapeSet = true)
    (hobs : c.observers = []) (fuel : Nat) : Executes M fuel (some n) c k outcome d := by
  cases h with
  | rest h hlt => exact h.executes hset hobs hlt
  | bound hsteps => exact executes_of_steps hobs hsteps fuel

/-- A bound that is used up in two runs. The second has to look for a transition at least once, as
the first may end stuck without having noticed it. -/
theorem Ends.trans {m n i j : Nat} {o : RunOutcome} {e : Config} (h : Ends M c m i o d)
    (h' : Ends M d n j outcome e) (hset : c.tapeSet = true) (hobs : c.observers = [])
    (hpos : 0 < n) : Ends M c (m + n) (i + j) outcome e := by
  obtain ⟨hobs', hset', -⟩ := steps_frame hobs h.steps_eq
  have hset' := hset'.trans hset
  cases h with
  | bound hsteps =>
    cases h' with
    | rest h' hlt => exact .rest (h'.of_steps hsteps) (by omega)
    | bound hsteps' => exact .bound (steps_add_eq_ok_iff.2 ⟨d, (), hsteps, hsteps'⟩)
  | rest h hlt =>
    have hrest : Rests M d 0 d o := by
      cases h with
      | halted _ hhalt => exact .halted rfl hhalt
      | stuck _ hgoing hnone => exact .stuck rfl hgoing hnone
    cases h' with
    | rest h' hlt' =>
      obtain ⟨rfl, rfl, rfl⟩ := hrest.unique h' hset' hobs'
      exact .rest h (by omega)
    | bound hsteps' => exact absurd hsteps' (hrest.no_more hset' hobs' hpos)

/-- Before it comes to rest, or there if it is stuck, a machine is not halted. -/
theorem Rests.executes_limit (h : Rests M c k c' outcome) (hset : c.tapeSet = true)
    (hobs : c.observers = []) {n : Int}
    (hn : n.toNat < k ∨ n.toNat = k ∧ outcome = .unknownTransition) (fuel : Nat) :
    ∃ d, Executes M fuel (some n) c n.toNat .stepLimitReached d := by
  obtain ⟨i, hi⟩ := Nat.exists_eq_add_of_le (show n.toNat ≤ k by omega)
  obtain ⟨d, v, hd, hrest⟩ := steps_add_eq_ok_iff.1 (hi ▸ h.steps_eq)
  have hgoing : ¬d.isHalted M := by
    intro hhalt
    obtain ⟨rfl, -, rfl⟩ := h.unique (.halted hd hhalt) hset hobs
    rcases hn with hlt | ⟨-, hstuck⟩
    · exact absurd hlt (Nat.lt_irrefl _)
    · cases hstuck
  have hrun := executes_of_steps hobs hd fuel
  rw [if_neg hgoing] at hrun
  exact ⟨d, hrun⟩

theorem Rests.executes_rest (h : Rests M c k c' outcome) (hset : c.tapeSet = true)
    (hobs : c.observers = []) {n : Int}
    (hn : k ≤ n.toNat ∧ outcome = .haltReached ∨ k < n.toNat ∧ outcome = .unknownTransition)
    (fuel : Nat) : Executes M fuel (some n) c k outcome c' := by
  by_cases hlt : k < n.toNat
  · exact h.executes hset hobs hlt
  · obtain ⟨rfl, rfl⟩ : k = n.toNat ∧ outcome = .haltReached := by
      rcases hn with ⟨hle, rfl⟩ | ⟨hlt', -⟩
      · exact ⟨by omega, rfl⟩
      · exact absurd hlt' hlt
    cases h with
    | halted hsteps hhalt =>
      have hrun := executes_of_steps hobs hsteps fuel
      rwa [if_pos hhalt] at hrun

theorem Endless.executes_limit (h : Endless M c) (hset : c.tapeSet = true)
    (hobs : c.observers = []) (n : Int) (fuel : Nat) :
    ∃ d, Executes M fuel (some n) c n.toNat .stepLimitReached d := by
  obtain ⟨d, hd⟩ := h n.toNat
  have hgoing : ¬d.isHalted M := by
    intro hhalt
    obtain ⟨e, he⟩ := h (n.toNat + 1)
    exact (Rests.halted hd hhalt).no_more hset hobs (Nat.lt_succ_self _) he
  have hrun := executes_of_steps hobs hd fuel
  rw [if_neg hgoing] at hrun
  exact ⟨d, hrun⟩

/-- A run without a bound is cut off as long as steps can be made. -/
theorem run_eq_exhausted_of_steps {ω : Type} (hobs : c.observers = []) {fuel : Nat}
    (hsteps : steps M nobody fuel c () = .ok () d ()) (deliver : Text → Event → Execution ω Unit)
    (w : ω) : run M deliver fuel none c w = .exhausted := by
  have hloop := Traced.loops_runUnbounded M fun name event => Traced.lift (deliver name event)
  obtain ⟨ps, -, hmore⟩ := hloop.of_steps hobs hsteps w
  have hend : Traced.loopOf M (fun name event => Traced.lift (deliver name event)) fuel none c w =
      (.exhausted, ps ++ []) := by
    rw [Traced.loopOf, ← Nat.add_zero fuel, hmore]
    rfl
  rw [← erase_run, Traced.erase, Traced.run_of_loop_exhausted hend]

theorem Endless.run_eq_exhausted {ω : Type} (h : Endless M c) (hobs : c.observers = [])
    (deliver : Text → Event → Execution ω Unit) (fuel : Nat) (w : ω) :
    run M deliver fuel none c w = .exhausted := by
  obtain ⟨d, hd⟩ := h fuel
  exact run_eq_exhausted_of_steps hobs hd deliver w

/-- On a tape and unobserved, a run with a bound, a run without one and single steps agree. If the
machine comes to rest after a number of steps, the run without a bound makes them and no more, and
a bound matters only if it is smaller, or equal where the machine is stuck. If there is no end to
the steps, the run without a bound has no end either and every bound is used up. One of the two is
the case. A bound may be used up in two runs, of which the second has the outcome of the whole. In
all of this the steps are counted. -/
theorem run_agrees_with_steps (M : Machine) {c : Config} (hset : c.tapeSet = true)
    (hobs : c.observers = []) :
    (∀ k c' outcome, Rests M c k c' outcome →
      (∀ fuel, k < fuel → Executes M fuel none c k outcome c') ∧
      ∀ (n : Int) (fuel : Nat),
        (n.toNat < k ∨ n.toNat = k ∧ outcome = .unknownTransition →
          ∃ d, Executes M fuel (some n) c n.toNat .stepLimitReached d) ∧
        (k ≤ n.toNat ∧ outcome = .haltReached ∨ k < n.toNat ∧ outcome = .unknownTransition →
          Executes M fuel (some n) c k outcome c')) ∧
    (Endless M c →
      (∀ (ω : Type) (deliver : Text → Event → Execution ω Unit) (fuel : Nat) (w : ω),
        run M deliver fuel none c w = .exhausted) ∧
      ∀ (n : Int) (fuel : Nat), ∃ d, Executes M fuel (some n) c n.toNat .stepLimitReached d) ∧
    ((∃ k c' outcome, Rests M c k c' outcome) ∨ Endless M c) ∧
    ∀ m n : Int, 0 ≤ m → 1 ≤ n → ∀ fuel, ∃ i o c₁ j outcome c₂,
      Executes M fuel (some m) c i o c₁ ∧ Executes M fuel (some n) c₁ j outcome c₂ ∧
        Executes M fuel (some (m + n)) c (i + j) outcome c₂ := by
  refine ⟨?_, ?_, rests_or_endless hset hobs, ?_⟩
  · intro k c' outcome h
    refine ⟨fun fuel hlt => h.executes hset hobs hlt, fun n fuel => ⟨?_, ?_⟩⟩
    · intro hn
      exact h.executes_limit hset hobs hn fuel
    · intro hn
      exact h.executes_rest hset hobs hn fuel
  · intro h
    exact ⟨fun ω deliver fuel w => h.run_eq_exhausted hobs deliver fuel w,
      fun n fuel => h.executes_limit hset hobs n fuel⟩
  · intro m n hm hn fuel
    obtain ⟨i, o, c₁, hfirst⟩ := exists_ends (M := M) hset hobs m.toNat
    obtain ⟨hobs₁, hset₁, -⟩ := steps_frame hobs hfirst.steps_eq
    have hset₁ := hset₁.trans hset
    obtain ⟨j, outcome, c₂, hsecond⟩ := exists_ends (M := M) hset₁ hobs₁ n.toNat
    have hboth := hfirst.trans hsecond hset hobs (by omega)
    rw [← Int.toNat_add hm (by omega)] at hboth
    exact ⟨i, o, c₁, j, outcome, c₂, hfirst.executes hset hobs fuel,
      hsecond.executes hset₁ hobs₁ fuel, hboth.executes hset hobs fuel⟩

/-- Counting from 3 to 4 takes three steps, with whatever bound above two. -/
theorem increment_runs_agree :
    let c := { Machine.increment.start with
      tape := Text.symbols "11", tapeSet := true, head := 1 }
    ∃ c', Rests Machine.increment c 3 c' .haltReached ∧
      Executes Machine.increment 4 none c 3 .haltReached c' ∧
      Executes Machine.increment 0 (some 3) c 3 .haltReached c' ∧
      ∃ d, Executes Machine.increment 0 (some 2) c 2 .stepLimitReached d := by
  intro c
  obtain ⟨hrests, -⟩ := run_agrees_with_steps Machine.increment (c := c) rfl rfl
  have hthree : Rests Machine.increment c 3 _ .haltReached := .halted rfl rfl
  obtain ⟨hfree, hbound⟩ := hrests 3 _ _ hthree
  refine ⟨_, hthree, hfree 4 (by decide), ?_, ?_⟩
  · exact (hbound 3 0).2 (.inl ⟨by decide, rfl⟩)
  · exact (hbound 2 0).1 (.inl (by decide))

end Execution
end SingleTape

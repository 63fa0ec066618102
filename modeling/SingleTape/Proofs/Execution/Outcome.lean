import SingleTape.Proofs.Execution.Query
import SingleTape.Proofs.Execution.Stepping

/-!
Where an unknown transition comes from. A run ends with this outcome when a step fails with this
error, and a step fails either by itself, before anything has changed, or because an observer fails
when it hears of an event. In the first case the outcome is true of the machine. In the second it
need not be, for an observer may fail with whatever error it likes.
-/

namespace SingleTape

open Engine

/-- The machine could go on, but there is no transition for it. -/
def Config.Stuck (M : Machine) (c : Config) : Prop :=
  ¬c.isHalted M ∧ c.tapeSet = true ∧ M.table.find? c.state (c.symbolAt M c.head) = none

theorem Config.symbolAt_head (M : Machine) (c : Config) : c.symbolAt M c.head = c.scanned M := by
  have hhead : ¬(c.head : Int) < 0 := by omega
  rw [symbolAt, if_neg hhead, Int.toNat_natCast, scanned]

namespace Traced

section Failing

variable {ω α β : Type} {P : Failure → Config → ω → List Point → Prop}

/-- Whenever the work fails, it is because something failed in this way at the end of it. -/
def FailsBy (P : Failure → Config → ω → List Point → Prop) (x : Traced ω α) : Prop :=
  ∀ c w e d v ps, x c w = (.error e d v, ps) → ∃ before qs, P e d v qs ∧ ps = before ++ qs

/-- The work does not fail. -/
def Succeeds (x : Traced ω α) : Prop := ∀ c w, ∃ a d v ps, x c w = (.ok a d v, ps)

theorem succeeds_pure (a : α) : Succeeds (pure a : Traced ω α) := fun c w => ⟨a, c, w, [], rfl⟩

theorem succeeds_get : Succeeds (get : Traced ω Config) := fun c w => ⟨c, c, w, [], rfl⟩

theorem succeeds_modify (f : Config → Config) : Succeeds (modify f : Traced ω Unit) :=
  fun c w => ⟨(), f c, w, [], rfl⟩

theorem succeeds_store (M : Machine) (t : Transition) :
    Succeeds (doing (.storing t) (modify (·.apply M t)) : Traced ω Unit) :=
  fun c w => ⟨(), c.apply M t, w, [.store c t], rfl⟩

theorem Succeeds.failsBy {x : Traced ω α} (h : Succeeds x) : FailsBy P x := by
  intro c w e d v ps hx
  obtain ⟨a, d', v', ps', hok⟩ := h c w
  cases hok.symm.trans hx

theorem failsBy_exhausted : FailsBy P (exhausted : Traced ω α) := by
  intro c w e d v ps hx
  cases hx

theorem FailsBy.bind {x : Traced ω α} {f : α → Traced ω β} (hx : FailsBy P x)
    (hf : ∀ a, FailsBy P (f a)) : FailsBy P (x >>= f) := by
  intro c w e d v ps h
  rw [bind_apply] at h
  rcases hxc : x c w with ⟨⟨a, c', w'⟩ | ⟨e', c', w'⟩ | _, rs⟩
  · simp only [hxc, Prod.mk.injEq] at h
    obtain ⟨hfail, rfl⟩ := h
    obtain ⟨before, qs, hP, hqs⟩ := hf a c' w' e d v _ (Prod.ext hfail rfl)
    have hps := congrArg (rs ++ ·) hqs
    exact ⟨rs ++ before, qs, hP, hps.trans (List.append_assoc ..).symm⟩
  · simp only [hxc] at h
    cases h
    exact hx c w e d v ps hxc
  · simp only [hxc] at h
    cases h

theorem FailsBy.ite {p : Prop} [Decidable p] {x y : Traced ω α} (hx : FailsBy P x)
    (hy : FailsBy P y) : FailsBy P (if p then x else y) := by
  split
  · exact hx
  · exact hy

/-- When the work ends, it is with such a value. -/
def Yields (Q : α → Prop) (x : Traced ω α) : Prop :=
  ∀ c w a d v ps, x c w = (.ok a d v, ps) → Q a

theorem yields_pure {Q : α → Prop} {a : α} (ha : Q a) : Yields Q (pure a : Traced ω α) := by
  intro c w a' d v ps h
  cases h
  exact ha

theorem Yields.after {Q : β → Prop} (x : Traced ω α) {f : α → Traced ω β}
    (hf : ∀ a, Yields Q (f a)) : Yields Q (x >>= f) := by
  intro c w b d v ps h
  rw [bind_apply] at h
  rcases hxc : x c w with ⟨⟨a, c', w'⟩ | ⟨e, c', w'⟩ | _, rs⟩
  · simp only [hxc, Prod.mk.injEq] at h
    exact hf a c' w' b d v _ (Prod.ext h.1 rfl)
  · simp only [hxc] at h
    cases h
  · simp only [hxc] at h
    cases h

theorem Yields.ite {Q : α → Prop} {p : Prop} [Decidable p] {x y : Traced ω α} (hx : Yields Q x)
    (hy : Yields Q y) : Yields Q (if p then x else y) := by
  split
  · exact hx
  · exact hy

theorem ending_eq_ok {call : Call} {x : Traced ω α} {c d : Config} {w v : ω} {a : α}
    {ps : List Point} (h : ending call x c w = (.ok a d v, ps)) :
    ∃ qs, x c w = (.ok a d v, qs) ∧ ps = qs ++ [.ended call none d] := by
  unfold ending at h
  rcases hx : x c w with ⟨⟨a', c', w'⟩ | ⟨e, c', w'⟩ | _, qs⟩
  · rw [hx] at h
    cases h
    exact ⟨qs, rfl, rfl⟩
  · rw [hx] at h
    cases h
  · rw [hx] at h
    cases h

theorem tryCatch_eq_ok {x : Traced ω α} {f : Failure → Traced ω α} {c d : Config} {w v : ω}
    {a : α} {ps : List Point} (h : tryCatch x f c w = (.ok a d v, ps)) :
    x c w = (.ok a d v, ps) ∨ ∃ e c' w' qs rs, x c w = (.error e c' w', qs) ∧
      f e c' w' = (.ok a d v, rs) ∧ ps = qs ++ rs := by
  rw [tryCatch_apply] at h
  rcases hx : x c w with ⟨⟨a', c', w'⟩ | ⟨e, c', w'⟩ | _, qs⟩
  · rw [hx] at h
    exact .inl h
  · rw [hx] at h
    simp only [Prod.mk.injEq] at h
    obtain ⟨hhandled, rfl⟩ := h
    exact .inr ⟨e, c', w', qs, _, rfl, Prod.ext hhandled rfl, rfl⟩
  · rw [hx] at h
    cases h

end Failing

section Steps

variable {ω : Type} (M : Machine) (deliver : Text → Event → Traced ω Unit)

/-- An observer fails when it hears of an event. -/
def Thrown (e : Failure) (d : Config) (v : ω) (ps : List Point) : Prop :=
  ∃ name event c w, marking (.entered name event) (deliver name event) c w = (.error e d v, ps)

/-- A step fails: there is no transition to take, or an observer throws while it is taken. -/
inductive Broken (e : Failure) (d : Config) (v : ω) : List Point → Prop
  | refused {err : Error} (hnext : d.next M = .error err) (he : e = .error err) :
    Broken e d v
      ((if ¬d.isHalted M ∧ d.tapeSet then [.lookup d] else []) ++ [.ended .step (some e) d])
  | thrown {ps : List Point} (h : Thrown deliver e d v ps) :
    Broken e d v (ps ++ [.ended .step (some e) d])

variable {M} {deliver}

theorem failsBy_hearing (name : Text) (event : Event) :
    FailsBy (Thrown deliver) (marking (.entered name event) (deliver name event)) :=
  fun c w _ _ _ ps h => ⟨[], ps, ⟨name, event, c, w, h⟩, rfl⟩

theorem failsBy_announceTo (event : Config → Event) (number : Nat) (names : List Text) :
    FailsBy (Thrown deliver) (announceTo deliver event number names) := by
  induction names with
  | nil => exact (succeeds_pure ()).failsBy
  | cons name names ih =>
    exact succeeds_get.failsBy.bind fun c => (failsBy_hearing name (event c)).bind fun _ => ih

theorem failsBy_announce (event : Config → Event) :
    FailsBy (Thrown deliver) (announce deliver event) :=
  fun c w => failsBy_announceTo event 0 c.observers c w

theorem failsBy_take (t : Transition) : FailsBy (Thrown deliver) (take M deliver t) := by
  have hcount : FailsBy (Thrown deliver) (modify Config.countStep) :=
    (succeeds_modify Config.countStep).failsBy
  refine (failsBy_announce _).bind fun _ => succeeds_get.failsBy.bind fun old => ?_
  refine (succeeds_store M t).failsBy.bind fun _ => ?_
  refine (failsBy_announce _).bind fun _ => succeeds_get.failsBy.bind fun c => ?_
  exact ((failsBy_announce _).bind fun _ => hcount).ite hcount

theorem failsBy_step : FailsBy (Broken M deliver) (step M deliver) := by
  intro c w e d v ps h
  simp only [step, doing_call, ending, bind_apply, find_apply, Execution.find_apply] at h
  cases hnext : c.next M with
  | error err =>
    simp only [hnext, Prod.mk.injEq, Result.error.injEq] at h
    obtain ⟨⟨rfl, rfl, rfl⟩, rfl⟩ := h
    exact ⟨[], _, .refused hnext rfl, rfl⟩
  | ok t =>
    simp only [hnext] at h
    rcases htake : take M deliver t c w with ⟨⟨_, c', w'⟩ | ⟨e', c', w'⟩ | _, rs⟩
    · rw [htake] at h
      cases h
    · obtain ⟨before, qs, hthrown, rfl⟩ := failsBy_take t c w e' c' w' rs htake
      rw [htake] at h
      simp only [Prod.mk.injEq, Result.error.injEq] at h
      obtain ⟨⟨rfl, rfl, rfl⟩, rfl⟩ := h
      refine ⟨(if ¬c.isHalted M ∧ c.tapeSet then [.lookup c] else []) ++ before, _,
        .thrown hthrown, ?_⟩
      simp only [List.append_assoc]
    · rw [htake] at h
      cases h

/-- One round of a loop fails if the step does, or what comes after it. -/
theorem failsBy_round {x : Traced ω RunOutcome} (hx : FailsBy (Broken M deliver) x) :
    FailsBy (Broken M deliver) (do
      if (← get).isHalted M then return .haltReached
      else
        step M deliver
        x) :=
  succeeds_get.failsBy.bind fun _ =>
    (succeeds_pure _).failsBy.ite (failsBy_step.bind fun _ => hx)

theorem failsBy_loopOf (fuel : Nat) (maxSteps : Option Int) :
    FailsBy (Broken M deliver) (loopOf M deliver fuel maxSteps) := by
  have hbounded : ∀ n, FailsBy (Broken M deliver) (runBounded M deliver n) := by
    intro n
    induction n with
    | zero =>
      have hends : ∀ outcome : RunOutcome,
          FailsBy (Broken M deliver) (pure outcome : Traced ω RunOutcome) :=
        fun outcome => (succeeds_pure outcome).failsBy
      exact succeeds_get.failsBy.bind fun _ => (hends .haltReached).ite (hends .stepLimitReached)
    | succ n ih => exact failsBy_round ih
  cases maxSteps with
  | some n => exact hbounded n.toNat
  | none =>
    induction fuel with
    | zero => exact failsBy_exhausted
    | succ fuel ih => exact failsBy_round ih

/-- A loop does not end with an unknown transition; that is for the run to make of its failure. -/
theorem yields_loopOf (fuel : Nat) (maxSteps : Option Int) :
    Yields (· ≠ .unknownTransition) (loopOf M deliver fuel maxSteps) := by
  have hhalted : Yields (· ≠ .unknownTransition) (pure .haltReached : Traced ω RunOutcome) :=
    yields_pure (by decide)
  have hlimit : Yields (· ≠ .unknownTransition) (pure .stepLimitReached : Traced ω RunOutcome) :=
    yields_pure (by decide)
  cases maxSteps with
  | some n =>
    have hbounded : ∀ n, Yields (· ≠ .unknownTransition) (runBounded M deliver n) := by
      intro n
      induction n with
      | zero => exact .after get fun _ => hhalted.ite hlimit
      | succ n ih => exact .after get fun _ => hhalted.ite (.after (step M deliver) fun _ => ih)
    exact hbounded n.toNat
  | none =>
    induction fuel with
    | zero =>
      intro c w outcome d v ps h
      cases h
    | succ fuel ih => exact .after get fun _ => hhalted.ite (.after (step M deliver) fun _ => ih)

/-- A run has this outcome when its loop fails with this error. -/
theorem loopOf_of_run_unknown {fuel : Nat} {maxSteps : Option Int} {c d : Config} {w v : ω}
    {ps : List Point} (h : run M deliver fuel maxSteps c w = (.ok .unknownTransition d v, ps)) :
    ∃ q a qs, loopOf M deliver fuel maxSteps c w =
      (.error (.error (.unknownTransition q a)) d v, qs) ∧
      ps = qs ++ [.ended (.run maxSteps) none d] := by
  obtain ⟨handle, hrun, hpure, hthrow⟩ := run_eq_ending M deliver fuel maxSteps
  rw [hrun] at h
  obtain ⟨qs, hcatch, rfl⟩ := ending_eq_ok h
  rcases tryCatch_eq_ok hcatch with hloop | ⟨e, c', w', rs, rs', hloop, hhandled, rfl⟩
  · exact absurd rfl (yields_loopOf fuel maxSteps c w .unknownTransition d v qs hloop)
  · by_cases hunknown : ∃ q a, e = .error (.unknownTransition q a)
    · obtain ⟨q, a, rfl⟩ := hunknown
      rw [hpure] at hhandled
      cases hhandled
      exact ⟨q, a, rs, hloop, by rw [List.append_nil]⟩
    · rw [hthrow e fun q a he => hunknown ⟨q, a, he⟩] at hhandled
      cases hhandled

/-- How a run comes to end with an unknown transition: the machine is stuck, or an observer says so
with an error of its own. The points tell where this was in the run. -/
inductive Unknown (M : Machine) (deliver : Text → Event → Traced ω Unit) (maxSteps : Option Int)
    (d : Config) (v : ω) : List Point → Prop
  | stuck (hstuck : d.Stuck M) (before : List Point) :
    Unknown M deliver maxSteps d v (before ++ [.lookup d,
      .ended .step (some (.error (.unknownTransition d.state (d.symbolAt M d.head)))) d,
      .ended (.run maxSteps) none d])
  | claimed {name : Text} {event : Event} {q : State} {a : Symbol} {c : Config} {w : ω}
      {ps : List Point}
      (hclaim : marking (.entered name event) (deliver name event) c w =
        (.error (.error (.unknownTransition q a)) d v, ps))
      (before : List Point) :
    Unknown M deliver maxSteps d v (before ++ ps ++
      [.ended .step (some (.error (.unknownTransition q a))) d, .ended (.run maxSteps) none d])

theorem unknown_of_run {fuel : Nat} {maxSteps : Option Int} {c d : Config} {w v : ω}
    {ps : List Point} (h : run M deliver fuel maxSteps c w = (.ok .unknownTransition d v, ps)) :
    Unknown M deliver maxSteps d v ps := by
  obtain ⟨q, a, qs, hloop, rfl⟩ := loopOf_of_run_unknown h
  obtain ⟨before, rs, hbroken, rfl⟩ := failsBy_loopOf fuel maxSteps c w _ d v qs hloop
  cases hbroken with
  | refused hnext he =>
    cases he
    obtain ⟨⟨hgoing, hset, hnone⟩, rfl, rfl⟩ := Execution.next_eq_unknown_iff.1 hnext
    have hstuck : d.Stuck M := ⟨hgoing, hset, by rwa [Config.symbolAt_head]⟩
    have hends : Unknown M deliver maxSteps d v _ := .stuck hstuck before
    rw [Config.symbolAt_head] at hends
    simpa [hgoing, hset] using hends
  | thrown hthrown =>
    obtain ⟨name, event, c', w', hclaim⟩ := hthrown
    have hends : Unknown M deliver maxSteps d v _ := .claimed hclaim before
    simpa using hends

end Steps

/-- A run that ends with an unknown transition ends where the machine is stuck, or else it was
broken off by an observer that failed with this error. -/
theorem run_unknown_cases {ω : Type} {M : Machine} {react : Observers ω} {fuel : Nat}
    {maxSteps : Option Int} {c d : Config} {w v : ω}
    (h : run M (Execution.deliver M react fuel) fuel maxSteps c w =
      .ok .unknownTransition d v) :
    ∃ ps, run M (deliver M react fuel) fuel maxSteps c w = (.ok .unknownTransition d v, ps) ∧
      Unknown M (deliver M react fuel) maxSteps d v ps := by
  have herase : erase (run M (deliver M react fuel) fuel maxSteps) =
      run M (Execution.deliver M react fuel) fuel maxSteps := by
    let R := erasing M (deliver M react fuel)
    have hrun := erase_eq (R.rel_run (R.rel_runUnbounded fuel) maxSteps)
    rwa [erase_deliver] at hrun
  rw [← herase] at h
  have hrun : run M (deliver M react fuel) fuel maxSteps c w =
      (.ok .unknownTransition d v, (run M (deliver M react fuel) fuel maxSteps c w).2) :=
    Prod.ext h rfl
  exact ⟨_, hrun, unknown_of_run hrun⟩

/-- While nobody objects, the outcome is true. -/
theorem opening_run_unknown :
    let c := { Machine.opening.start with
      tape := Text.symbols "x", tapeSet := true, observers := ["log"] }
    let react : Observers Unit := fun _ _ w _ => .done w
    run Machine.opening (Execution.deliver Machine.opening react 1) 1 none c () =
      .ok .unknownTransition c () ∧ c.Stuck Machine.opening := by
  intro c react
  have hrun : run Machine.opening (Execution.deliver Machine.opening react 1) 1 none
      c () = .ok .unknownTransition c () := rfl
  obtain ⟨ps, -, hends⟩ := run_unknown_cases hrun
  refine ⟨hrun, ?_⟩
  cases hends with
  | stuck hstuck before => exact hstuck
  | @claimed name event q a c' w' ps hclaim before =>
    have hdone : marking (.entered name event) (deliver Machine.opening react 1 name event) c' w' =
        (.ok () c' w', [.entered name event c']) := rfl
    cases hdone.symm.trans hclaim

/-- Fails as if there were no transition, whenever one begins. -/
def deny : Observers Unit := fun _ event w _ => match event with
  | .stepStart q a => .fail w (.error (.unknownTransition q a))
  | _ => .done w

/-- A machine that has a transition is said to have none, only because somebody who observes it
says so. -/
theorem wiper_run_unknown_not_stuck :
    let c := { wiper.start with tape := Text.symbols "x", tapeSet := true, observers := ["a"] }
    run wiper (Execution.deliver wiper deny 1) 1 none c () =
        .ok .unknownTransition c () ∧
      wiper.table.find? c.state (c.symbolAt wiper c.head) =
        some ⟨.ofChar 'x', .ofChar '#', .right, "1"⟩ ∧
      ¬c.Stuck wiper := by
  intro c
  have hfind : wiper.table.find? c.state (c.symbolAt wiper c.head) =
      some ⟨.ofChar 'x', .ofChar '#', .right, "1"⟩ := by decide
  refine ⟨rfl, hfind, ?_⟩
  rintro ⟨-, -, hnone⟩
  cases hfind.symm.trans hnone

end Traced
end SingleTape

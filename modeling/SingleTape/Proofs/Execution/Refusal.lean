import SingleTape.Proofs.Execution.Acceptance
import SingleTape.Proofs.Execution.Atomicity
import SingleTape.Proofs.Execution.Delivery
import SingleTape.Proofs.Execution.Outcome
import SingleTape.Proofs.Execution.Stability

/-!
Refusals. Some calls are refused by the machine itself, with an error that the configuration tells
beforehand, before anything is done and before anybody hears of it. Unless those who observe the
machine throw, no call fails with an error for any other reason.
-/

namespace SingleTape

open Engine

/-- The configuration at a point. -/
def Point.config : Point → Config
  | entered _ _ c => c
  | ended _ _ c => c
  | lookup c => c
  | store c _ => c

theorem Point.Sound.sound_config {M : Machine} {p : Point} (h : p.Sound M) : p.config.Sound M := by
  cases p with
  | entered name event c => exact h
  | ended call failure c => exact h
  | lookup c => exact h.1
  | store c t => exact h.1

/-- The machine may be found so, in some session and whoever observes it, as long as no tape was too
large. -/
inductive Machine.Reaches (M : Machine) : Config → Prop
  | start : M.Reaches M.start
  | point {ω : Type} (react : Observers ω) (fuel loops : Nat) (calls : List Call) (w : ω)
    {p : Point} (hp : p ∈ (session M (Traced.deliver M react fuel) loops calls M.start
      w).2.takeWhile fun p => !p.isOverflow) : M.Reaches p.config

theorem Machine.Reaches.sound {M : Machine} (hM : M.Valid) {c : Config} (h : M.Reaches c) :
    c.Sound M := by
  cases h with
  | start => exact Config.sound_start hM
  | @point ω react fuel loops calls w p hp =>
    have hstart : M.start.Ready M False := ⟨Config.sound_start hM, False.elim⟩
    have hgood := Traced.keeps_session hM (Traced.keeps_deliver hM react fuel) loops calls M.start w
      hstart
    exact (hgood.1 p hp).sound_config

/-- The call is refused with this error. A step is refused where there is none to make: in the halt
state, else without a tape, else without a transition. A run is refused only for want of a tape, if
it has a step to make. A tape or a word is refused for its first foreign symbol, and so is an
observer that is none. -/
inductive Call.Refused (M : Machine) (c : Config) : Call → Error → Prop
  | halted (hhalt : c.state = M.halt) : Refused M c .step (.haltState c.state)
  | unset (hgoing : c.state ≠ M.halt) (hset : c.tapeSet = false) :
    Refused M c .step (.unsetTape "Tape must be set before performing a step")
  | unknown {a : Symbol} (hgoing : c.state ≠ M.halt) (hset : c.tapeSet = true)
      (hcell : c.tape[c.head]? = some a) (hnone : M.table.find? c.state a = none) :
    Refused M c .step (.unknownTransition c.state a)
  | running {maxSteps : Option Int} (hgoing : c.state ≠ M.halt) (hset : c.tapeSet = false)
      (hbound : ∀ n, maxSteps = some n → 0 < n) :
    Refused M c (.run maxSteps) (.unsetTape "Tape must be set before performing a step")
  | tape {front back : List Symbol} {a : Symbol} (head : Int) (hfront : ∀ b ∈ front, b ∈ M.alphabet)
      (ha : a ∉ M.alphabet) :
    Refused M c (.ask (.setTape (front ++ a :: back) head)) (.invalidSymbol a)
  | word {front back : List Symbol} {a : Symbol} (maxSteps : Option Int)
      (hfront : ∀ b ∈ front, b ∈ M.alphabet) (ha : a ∉ M.alphabet) :
    Refused M c (.ask (.accept (front ++ a :: back) maxSteps)) (.invalidSymbol a)
  | unnamed : Refused M c (.ask (.attach none)) (.malformedInput "Observer must not be null")

/-- No event is told to somebody who throws. -/
def Observers.NeverThrow {ω : Type} (react : Observers ω) (M : Machine) (fuel : Nat) : Prop :=
  ∀ name event c w e d v, Execution.deliver M react fuel name event c w ≠ .error e d v

namespace Execution

variable {ω : Type} {reaction : Reaction ω}

theorem perform_ne_error (h : reaction.Calm) (serve : Request → Execution ω (Option Bool))
    (c d : Config) (w v : ω) (f : Failure) : perform serve reaction c w ≠ .error f d v := by
  induction h generalizing c w with
  | done u =>
    intro h
    cases h
  | ask u request hnext ih =>
    rw [perform_ask]
    cases serve request c u with
    | ok answer c' w' => exact ih w' c' (.ok answer) c' w'
    | error e c' w' => exact ih w' c' (.error e) c' w'
    | exhausted =>
      intro h
      cases h

end Execution

/-- Reactions without a throw do not throw, whatever comes of their requests. -/
theorem Observers.Calm.neverThrow {ω : Type} {react : Observers ω} (h : react.Calm) (M : Machine)
    (fuel : Nat) : react.NeverThrow M fuel := by
  intro name event c w f d v
  cases fuel with
  | zero =>
    intro h
    cases h
  | succ fuel => exact Execution.perform_ne_error (h name event w c) _ c d w v f

namespace Config

variable {M : Machine} {c : Config}

theorem scanned_eq_of_getElem? {a : Symbol} (h : c.tape[c.head]? = some a) : c.scanned M = a := by
  rw [scanned, List.getD_eq_getElem?_getD, h, Option.getD_some]

theorem Sound.getElem?_head (h : c.Sound M) (hset : c.tapeSet = true) :
    c.tape[c.head]? = some (c.scanned M) := by
  have hcell := List.getElem?_eq_getElem (h.head_lt hset)
  rw [scanned_eq_of_getElem? hcell, hcell]

/-- There is no transition to make just when a step is refused. -/
theorem Sound.next_eq_error_iff (h : c.Sound M) {e : Error} :
    c.next M = .error e ↔ Call.step.Refused M c e := by
  constructor
  · intro hnext
    unfold next at hnext
    split at hnext
    · next hhalt =>
      obtain rfl := Except.error.inj hnext
      exact .halted hhalt
    · next hgoing =>
      split at hnext
      · next hset =>
        obtain rfl := Except.error.inj hnext
        exact .unset hgoing (by simpa using hset)
      · next hset =>
        have hset : c.tapeSet = true := by simpa using hset
        split at hnext
        · cases hnext
        · next hnone =>
          obtain rfl := Except.error.inj hnext
          exact .unknown hgoing hset (h.getElem?_head hset) hnone
  · intro hrefused
    cases hrefused with
    | halted hhalt => exact if_pos hhalt
    | unset hgoing hset => simp [next, isHalted, hgoing, hset]
    | unknown hgoing hset hcell hnone =>
      have hscanned := scanned_eq_of_getElem? (M := M) hcell
      rw [← hscanned] at hnone ⊢
      exact Execution.next_of_stuck hset hgoing hnone

/-- With a tape and not in the halt state it is the transition that a step can lack. -/
theorem next_eq_error_of_set (hgoing : ¬c.isHalted M) (hset : c.tapeSet = true) {e : Error}
    (h : c.next M = .error e) : ∃ q a, e = .unknownTransition q a := by
  simp only [next, hgoing, if_false, hset, Bool.not_true, Bool.false_eq_true] at h
  split at h
  · cases h
  · exact ⟨_, _, (Except.error.inj h).symm⟩

end Config

namespace Traced

section Refusing

variable {ω α β : Type} {M : Machine} {deliver : Text → Event → Traced ω Unit} {c d : Config}
  {w v : ω} {e : Error} {f : Failure}

theorem Silent.append {ps qs : List Point} (h : Silent ps) (h' : Silent qs) : Silent (ps ++ qs) :=
  List.forall_mem_append.2 ⟨h, h'⟩

/-- The points of a step that is refused. -/
def refusal (M : Machine) (c : Config) (e : Error) : List Point :=
  (if ¬c.isHalted M ∧ c.tapeSet then [.lookup c] else []) ++ [.ended .step (some (.error e)) c]

theorem silent_refusal (M : Machine) (c : Config) (e : Error) : Silent (refusal M c e) := by
  refine Silent.append ?_ (silent_ended _ _ _)
  intro p hp
  split at hp
  · rw [List.mem_singleton.1 hp]
    rfl
  · cases hp

theorem bind_of_error {x : Traced ω α} {ps : List Point} (h : x c w = (.error f d v, ps))
    (g : α → Traced ω β) : (x >>= g) c w = (.error f d v, ps) := by
  rw [bind_apply, h]

theorem ending_of_error {call : Call} {x : Traced ω α} {ps : List Point}
    (h : x c w = (.error f d v, ps)) :
    ending call x c w = (.error f d v, ps ++ [.ended call (some f) d]) := by
  simp only [ending, h]

theorem aside_of_error {x : Traced ω α} {ps : List Point}
    (h : x { c with observers := [] } w = (.error f d v, ps)) :
    aside x c w = (.error f c v, ps) := by
  rw [aside_apply, h]

theorem step_of_refusal (he : c.next M = .error e) (w : ω) :
    step M deliver c w = (.error (.error e) c w, refusal M c e) := by
  simp only [step, doing_call, ending, bind_apply, find_apply, Execution.find_apply, he, refusal]

theorem Loops.of_refusal {loop : Nat → Traced ω RunOutcome} (hloop : Loops M deliver loop)
    (hgoing : ¬c.isHalted M) (he : c.next M = .error e) (n : Nat) (w : ω) :
    loop (n + 1) c w = (.error (.error e) c w, refusal M c e) := by
  rw [hloop n, bind_apply, get_apply]
  simp only [if_neg hgoing, bind_apply, step_of_refusal he, List.nil_append]

/-- Errors other than an unknown transition leave a run. -/
theorem run_of_loop_error {loops : Nat} {maxSteps : Option Int} {ps : List Point}
    (h : loopOf M deliver loops maxSteps c w = (.error f d v, ps))
    (hf : ∀ q a, f ≠ .error (.unknownTransition q a)) :
    run M deliver loops maxSteps c w =
      (.error f d v, ps ++ [.ended (.run maxSteps) (some f) d]) := by
  obtain ⟨handle, hrun, -, hthrow⟩ := run_eq_ending M deliver loops maxSteps
  rw [hrun]
  apply ending_of_error
  simp only [tryCatch_apply, h, hthrow f hf, throw_apply, List.append_nil]

theorem budget_succ (loops : Nat) {maxSteps : Option Int} (h : ∀ n, maxSteps = some n → 0 < n) :
    ∃ n, budget (loops + 1) maxSteps = n + 1 := by
  cases maxSteps with
  | none => exact ⟨loops, rfl⟩
  | some n =>
    have hpos := h n rfl
    exact ⟨n.toNat - 1, by simp only [budget]; omega⟩

theorem setTape_of_foreign (deliver : Text → Event → Traced ω Unit) {tape : List Symbol}
    {a : Symbol}
    (h : tape.find? (· ∉ M.alphabet) = some a) (head : Int) (c : Config) (w : ω) :
    setTape M deliver tape head c w = (.error (.error (.invalidSymbol a)) c w,
      [.ended (.ask (.setTape tape head)) (some (.error (.invalidSymbol a))) c]) := by
  rw [setTape_apply, h]
  rfl

/-- A call that is refused does nothing, and nobody hears of it. -/
theorem call_of_refused (react : Observers ω) (fuel loops : Nat) {call : Call} (hc : c.Sound M)
    (h : call.Refused M c e) (w : ω) :
    ∃ ps, Engine.call M (Traced.deliver M react fuel) (loops + 1) call c w =
      (.error (.error e) c w, ps) ∧ Silent ps := by
  have hstep : Call.step.Refused M c e → step M (Traced.deliver M react fuel) c w =
      (.error (.error e) c w, refusal M c e) := by
    intro hstep
    exact step_of_refusal (hc.next_eq_error_iff.2 hstep) w
  cases h with
  | halted hhalt => exact ⟨_, hstep (.halted hhalt), silent_refusal M c _⟩
  | unset hgoing hset => exact ⟨_, hstep (.unset hgoing hset), silent_refusal M c _⟩
  | unknown hgoing hset hcell hnone =>
    exact ⟨_, hstep (.unknown hgoing hset hcell hnone), silent_refusal M c _⟩
  | @running maxSteps hgoing hset hbound =>
    have hnext := hc.next_eq_error_iff.2 (.unset hgoing hset)
    obtain ⟨loop, hloop, hloopOf⟩ :=
      exists_loops M (Traced.deliver M react fuel) (loops + 1) maxSteps
    obtain ⟨n, hn⟩ := budget_succ loops hbound
    have hfails := hloop.of_refusal hgoing hnext n w
    rw [← hn, ← hloopOf] at hfails
    have hrun := run_of_loop_error hfails (fun _ _ h => by cases h)
    exact ⟨_, bind_of_error hrun _, (silent_refusal M c _).append (silent_ended _ _ _)⟩
  | @tape front back a head hfront ha =>
    have hfind := Config.find?_foreign_iff.2 ⟨front, back, rfl, hfront, ha⟩
    have hset := setTape_of_foreign (Traced.deliver M react fuel) hfind head c w
    exact ⟨_, bind_of_error (bind_of_error hset _) _, silent_ended _ _ _⟩
  | @word front back a maxSteps hfront ha =>
    have hfind := Config.find?_foreign_iff.2 ⟨front, back, rfl, hfront, ha⟩
    have hset := setTape_of_foreign (Traced.deliver M react fuel) hfind 0
      { c with observers := [] } w
    have hquery := aside_of_error
      (x := query M (Traced.deliver M react fuel) (loops + 1) _ maxSteps) (bind_of_error hset _)
    exact ⟨_, bind_of_error (ending_of_error hquery) _,
      (silent_ended _ _ _).append (silent_ended _ _ _)⟩
  | unnamed => exact ⟨_, rfl, silent_ended _ _ _⟩

/-- The work does not fail. -/
def Faultless (x : Traced ω α) : Prop := ∀ c w f d v, (x c w).1 ≠ .error f d v

theorem FailsBy.faultless {P : Failure → Config → ω → List Point → Prop} {x : Traced ω α}
    (hx : FailsBy P x) (hP : ∀ f d v ps, ¬P f d v ps) : Faultless x := by
  intro c w f d v h
  obtain ⟨-, qs, hqs, -⟩ := hx c w f d v (x c w).2 (Prod.ext h rfl)
  exact hP f d v qs hqs

theorem faultless_pure (a : α) : Faultless (pure a : Traced ω α) := by
  intro c w f d v h
  cases h

theorem error_of_ending {call : Call} {x : Traced ω α} (h : (ending call x c w).1 = .error f d v) :
    (x c w).1 = .error f d v := by
  simp only [ending] at h
  rcases hx : x c w with ⟨a | e | _, ps⟩
  all_goals
    rw [hx] at h
    exact h

/-- What comes after the work does not fail. -/
theorem error_of_bind {x : Traced ω α} {g : α → Traced ω β} (hg : ∀ a, Faultless (g a))
    (h : ((x >>= g) c w).1 = .error f d v) : (x c w).1 = .error f d v := by
  rw [bind_apply] at h
  rcases hx : x c w with ⟨⟨a, c', w'⟩ | ⟨e, c', w'⟩ | _, ps⟩
  · rw [hx] at h
    exact absurd h (hg a c' w' f d v)
  · rw [hx] at h
    cases h
    rfl
  · rw [hx] at h
    cases h

/-- A run fails only when its loop does, with another error than an unknown transition. -/
theorem loop_of_run_error {loops : Nat} {maxSteps : Option Int}
    (h : (run M deliver loops maxSteps c w).1 = .error f d v) :
    (loopOf M deliver loops maxSteps c w).1 = .error f d v ∧
      ∀ q a, f ≠ .error (.unknownTransition q a) := by
  rcases hloop : loopOf M deliver loops maxSteps c w with ⟨⟨outcome, d', v'⟩ | ⟨f', d', v'⟩ | _, ps⟩
  · cases maxSteps <;> simp only [loopOf] at hloop <;>
      simp [run, ending, tryCatch_apply, hloop] at h
  · by_cases hf : ∃ q a, f' = .error (.unknownTransition q a)
    · obtain ⟨q, a, rfl⟩ := hf
      cases maxSteps <;> simp only [loopOf] at hloop <;>
        simp [run, ending, tryCatch_apply, hloop] at h
    · have hf : ∀ q a, f' ≠ .error (.unknownTransition q a) := fun q a hqa => hf ⟨q, a, hqa⟩
      rw [run_of_loop_error hloop hf] at h
      cases h
      exact ⟨rfl, hf⟩
  · rw [run_of_loop_exhausted hloop] at h
    cases h

section Calm

variable (hcalm : ∀ f d v ps, ¬Thrown deliver f d v ps)

include hcalm

/-- Observers that do not throw leave it to the machine to fail. -/
theorem next_of_step_error (h : (step M deliver c w).1 = .error f d v) :
    ∃ e, c.next M = .error e ∧ f = .error e := by
  have hrun := error_of_ending h
  rw [bind_apply, find_apply, Execution.find_apply] at hrun
  cases hnext : c.next M with
  | error e =>
    simp only [hnext] at hrun
    cases hrun
    exact ⟨e, rfl, rfl⟩
  | ok t =>
    simp only [hnext] at hrun
    exact absurd hrun ((failsBy_take t).faultless hcalm c w f d v)

theorem foreign_of_setTape_error {tape : List Symbol} {head : Int}
    (h : (setTape M deliver tape head c w).1 = .error (.error e) d v) :
    ∃ a, tape.find? (· ∉ M.alphabet) = some a ∧ e = .invalidSymbol a := by
  rw [setTape_apply] at h
  cases hfind : tape.find? (· ∉ M.alphabet) with
  | some a =>
    rw [hfind] at h
    cases error_of_ending h
    exact ⟨a, rfl, rfl⟩
  | none =>
    rw [hfind] at h
    rcases hload : c.load M tape head with ⟨d', _ | f⟩
    · rw [hload] at h
      exact absurd (error_of_ending h) ((failsBy_announce _).faultless hcalm d' w _ d v)
    · obtain rfl : f = .tapeTooLarge := Config.load_eq_some (by rw [hload])
      rw [hload] at h
      cases h

section Loops

variable (hstays : ∀ c w, c.tapeSet = true → (step M deliver c w).1.Leaves (·.tapeSet = true))

include hstays

/-- While there is a tape a loop fails only for want of a transition. -/
theorem Loops.error_of_set {loop : Nat → Traced ω RunOutcome} (hloop : Loops M deliver loop)
    (hzero : Faultless (loop 0)) {n : Nat} (hset : c.tapeSet = true)
    (h : (loop n c w).1 = .error f d v) : ∃ q a, f = .error (.unknownTransition q a) := by
  induction n generalizing c w with
  | zero => exact absurd h (hzero c w f d v)
  | succ n ih =>
    by_cases hhalt : c.isHalted M
    · rw [hloop.of_halted hhalt] at h
      cases h
    · rw [hloop n, bind_apply, get_apply] at h
      simp only [if_neg hhalt, bind_apply] at h
      rcases hstep : step M deliver c w with ⟨⟨_, c', w'⟩ | ⟨f', c', w'⟩ | _, ps⟩
      · have hset' := hstays c w hset
        rw [hstep] at hset' h
        exact ih hset' h
      · obtain ⟨e, hnext, rfl⟩ := next_of_step_error hcalm (congrArg Prod.fst hstep)
        obtain ⟨q, a, rfl⟩ := c.next_eq_error_of_set hhalt hset hnext
        rw [hstep] at h
        cases h
        exact ⟨q, a, rfl⟩
      · rw [hstep] at h
        cases h

theorem error_of_loopOf {loops : Nat} {maxSteps : Option Int} (hset : c.tapeSet = true)
    (h : (loopOf M deliver loops maxSteps c w).1 = .error f d v) :
    ∃ q a, f = .error (.unknownTransition q a) := by
  cases maxSteps with
  | none =>
    have hzero : Faultless (runUnbounded M deliver 0) := fun _ _ _ _ _ h => by cases h
    exact (loops_runUnbounded M deliver).error_of_set hcalm hstays hzero hset h
  | some n =>
    have hzero : Faultless (runBounded M deliver 0) := by
      intro c w f d v h
      by_cases hhalt : c.isHalted M <;>
        simp [runBounded, bind_apply, get_apply, hhalt] at h
    exact (loops_runBounded M deliver).error_of_set hcalm hstays hzero hset h

/-- A run is refused or does not fail. -/
theorem refused_of_run_error {loops : Nat} {maxSteps : Option Int}
    (h : (run M deliver (loops + 1) maxSteps c w).1 = .error (.error e) d v) :
    (Call.run maxSteps).Refused M c e := by
  obtain ⟨hloop, hknown⟩ := loop_of_run_error h
  by_cases hbound : ∀ n, maxSteps = some n → 0 < n
  · obtain ⟨loop, hloops, hloopOf⟩ := exists_loops M deliver (loops + 1) maxSteps
    obtain ⟨n, hn⟩ := budget_succ loops hbound
    by_cases hhalt : c.isHalted M
    · rw [hloopOf, hn, hloops.of_halted hhalt] at hloop
      cases hloop
    · cases hset : c.tapeSet with
      | false =>
        have hnext :
            c.next M = .error (.unsetTape "Tape must be set before performing a step") := by
          simp [Config.next, hhalt, hset]
        rw [hloopOf, hn, hloops.of_refusal hhalt hnext] at hloop
        cases hloop
        exact .running hhalt hset hbound
      | true =>
        obtain ⟨q, a, hunknown⟩ := error_of_loopOf hcalm hstays hset hloop
        exact absurd hunknown (hknown q a)
  · simp only [Classical.not_forall] at hbound
    obtain ⟨n, rfl, hn⟩ := hbound
    have hzero : n.toNat = 0 := by omega
    by_cases hhalt : c.isHalted M <;>
      simp [loopOf, hzero, runBounded, bind_apply, get_apply, hhalt] at hloop

end Loops

end Calm

end Refusing

/-- Without its points a call is the call. -/
theorem erase_call {ω : Type} (M : Machine) (react : Observers ω) (fuel loops : Nat) (c : Call) :
    erase (call M (deliver M react fuel) loops c) =
      call M (Execution.deliver M react fuel) loops c :=
  erase_eq (agrees_call (agrees_deliver (.same react) M fuel) loops c)

theorem noted_call {ω : Type} (M : Machine) (react : Observers ω) (fuel loops : Nat) (c : Call) :
    noted (call M (deliver M react fuel) loops c) =
      call M (Execution.deliver M react.noting fuel) loops c :=
  noted_eq (agrees_call (agrees_deliver (.noting react) M fuel) loops c)

end Traced

section Calls

variable {ω : Type} {M : Machine} {react : Observers ω} {fuel : Nat} {c d : Config} {w v : ω}
  {e : Error}

theorem Observers.NeverThrow.not_thrown (h : react.NeverThrow M fuel) (f : Failure) (d : Config)
    (v : ω) (ps : List Point) : ¬Traced.Thrown (Traced.deliver M react fuel) f d v ps := by
  rintro ⟨name, event, c, w, hthrown⟩
  have hdeliver := congrFun (congrFun (Traced.erase_deliver M react fuel) name) event
  apply h name event c w f d v
  rw [← hdeliver]
  exact congrArg Prod.fst hthrown

/-- A step does not take a tape away. -/
theorem Traced.step_tapeSet (M : Machine) (react : Observers ω) (fuel : Nat) (c : Config) (w : ω)
    (h : c.tapeSet = true) :
    (step M (deliver M react fuel) c w).1.Leaves (·.tapeSet = true) := by
  have hstable := Config.stable_tapeSet M
  have hretains := Execution.retains_step hstable (Execution.retains_deliver hstable react fuel)
  have hend := hretains c w h
  rwa [← erase_step] at hend

theorem Traced.refused_of_call_error (hcalm : react.NeverThrow M fuel) (hc : c.Sound M)
    {loops : Nat} {call : Call}
    (h : (Engine.call M (deliver M react fuel) (loops + 1) call c w).1 = .error (.error e) d v) :
    call.Refused M c e := by
  have hthrown := hcalm.not_thrown
  cases call with
  | step =>
    obtain ⟨e', hnext, he⟩ := next_of_step_error hthrown h
    cases he
    exact hc.next_eq_error_iff.1 hnext
  | run maxSteps =>
    exact refused_of_run_error hthrown (step_tapeSet M react fuel)
      (error_of_bind (fun _ => faultless_pure ()) h)
  | ask request =>
    have hserve := error_of_bind (fun _ => faultless_pure ()) h
    cases request with
    | setTape tape head =>
      have hset := error_of_bind (fun _ => faultless_pure none) hserve
      obtain ⟨a, hfind, rfl⟩ := foreign_of_setTape_error hthrown hset
      obtain ⟨front, back, rfl, hfront, ha⟩ := Config.find?_foreign_iff.1 hfind
      exact .tape head hfront ha
    | setAtInitial => cases hserve
    | resetSteps => cases hserve
    | accept word maxSteps =>
      cases hfind : word.find? (· ∉ M.alphabet) with
      | some a =>
        obtain ⟨front, back, rfl, hfront, ha⟩ := Config.find?_foreign_iff.1 hfind
        obtain ⟨ps, hrefused, -⟩ := call_of_refused react fuel loops hc (.word maxSteps hfront ha) w
        rw [hrefused] at h
        cases h
        exact .word maxSteps hfront ha
      | none =>
        have hknown : ∀ a ∈ word, a ∈ M.alphabet := by simpa using hfind
        have hanswer := Execution.accept_eq_verdict (Execution.deliver M react fuel) (loops + 1)
          hknown maxSteps c w
        have hcall : erase (Engine.call M (deliver M react fuel) (loops + 1)
          (.ask (.accept word maxSteps))) c w = .error (.error e) d v := h
        rw [erase_call] at hcall
        simp only [call, serve, Execution.bind_apply, hanswer] at hcall
        cases hrun : run M Execution.nobody (loops + 1) maxSteps
            (M.onWord c.state word) ()
        all_goals
          rw [hrun] at hcall
          cases hcall
    | attach name =>
      cases name with
      | none =>
        cases hserve
        exact .unnamed
      | some name => cases hserve
    | detach name => cases name <;> cases hserve

/-- The errors of a machine are exact and leave no trace. Where a machine can be found, and if those
who observe it do not throw, a call fails with an error if and only if it is refused with this
error. Then configuration and world are as they were, and nobody has heard of anything: observers
that note whatever they hear of have nothing to note. -/
theorem Execution.call_error_iff_refused (hM : M.Valid) (hc : M.Reaches c)
    (hcalm : react.NeverThrow M fuel) (loops : Nat) (w : ω) (call : Call) (e : Error) :
    ((∃ d v, Engine.call M (deliver M react fuel) (loops + 1) call c w = .error (.error e) d v) ↔
      call.Refused M c e) ∧
    ∀ d v, Engine.call M (deliver M react fuel) (loops + 1) call c w = .error (.error e) d v →
      d = c ∧ v = w ∧ Engine.call M (deliver M react.noting fuel) (loops + 1) call c (w, []) =
        .error (.error e) c (w, []) := by
  have hsound := hc.sound hM
  have hrefused : ∀ d v,
      Engine.call M (deliver M react fuel) (loops + 1) call c w = .error (.error e) d v →
        call.Refused M c e := by
    intro d v h
    rw [← Traced.erase_call] at h
    exact Traced.refused_of_call_error hcalm hsound h
  constructor
  · constructor
    · rintro ⟨d, v, h⟩
      exact hrefused d v h
    · intro h
      obtain ⟨ps, hcall, -⟩ := Traced.call_of_refused react fuel loops hsound h w
      refine ⟨c, w, ?_⟩
      rw [← Traced.erase_call, Traced.erase, hcall]
  · intro d v h
    obtain ⟨ps, hcall, hsilent⟩ :=
      Traced.call_of_refused react fuel loops hsound (hrefused d v h) w
    rw [← Traced.erase_call, Traced.erase, hcall] at h
    cases h
    refine ⟨rfl, rfl, ?_⟩
    have hnone : ps.filter Point.isEntry = [] := List.filter_eq_nil_iff.2 fun p hp => by
      simp [hsilent p hp]
    rw [← Traced.noted_call, Traced.noted, hcall, hnone, List.append_nil]
    rfl

/-- In the middle of a session another tape is refused, and `b` who observes the machine does not
hear of it. -/
theorem Execution.wiper_call_error_iff_refused :
    let c := { Traced.wiper.start with
      tape := Text.symbols "##", tapeSet := true, head := 1, steps := 1, observers := ["b"] }
    Traced.wiper.Valid ∧ Traced.wiper.Reaches c ∧ relay.NeverThrow Traced.wiper 3 ∧
      call Traced.wiper (deliver Traced.wiper relay.noting 3) 4
          (.ask (.setTape (Text.symbols "xbx") 0)) c ((), []) =
        .error (.error (.invalidSymbol (.ofChar 'b'))) c ((), []) := by
  intro c
  have hvalid : Traced.wiper.Valid := Machine.check_eq_ok_iff.1 rfl
  have hreaches : Traced.wiper.Reaches c := by
    let ps := (session Traced.wiper (Traced.deliver Traced.wiper relay 3) 3
      [.ask (.setTape [.ofChar 'x'] 0), .ask (.attach (some "a")), .step] Traced.wiper.start ()).2
    have hfound : (ps.takeWhile fun p => !p.isOverflow).any fun p => p.config = c := by
      decide +kernel
    obtain ⟨p, hp, hconfig⟩ := List.any_eq_true.1 hfound
    exact of_decide_eq_true hconfig ▸ .point relay 3 3 _ () hp
  have hcalm := relay_calm.neverThrow Traced.wiper 3
  obtain ⟨hiff, htrace⟩ := call_error_iff_refused hvalid hreaches hcalm 3 ()
    (.ask (.setTape (Text.symbols "xbx") 0)) (.invalidSymbol (.ofChar 'b'))
  have hfront : ∀ b ∈ [Symbol.ofChar 'x'], b ∈ Traced.wiper.alphabet := by decide
  have hrefused : (Call.ask (.setTape (Text.symbols "xbx") 0)).Refused Traced.wiper c
      (.invalidSymbol (.ofChar 'b')) :=
    @Call.Refused.tape _ _ [.ofChar 'x'] [.ofChar 'x'] (.ofChar 'b') 0 hfront (by decide)
  obtain ⟨d, v, hcall⟩ := hiff.2 hrefused
  exact ⟨hvalid, hreaches, hcalm, (htrace d v hcall).2.2⟩

end Calls
end SingleTape

import SingleTape.Proofs.Execution.Atomicity
import SingleTape.Proofs.Execution.Stepping

/-!
Steps that are broken off. When an observer throws, the step ends there and then. As long as the
transition is not applied nothing has changed. Afterwards all has, except for the counter, which is
the last thing that a step changes. So it counts the steps that were completed, and those that were
broken off after their transition are not among them.
-/

namespace SingleTape

open Engine

/-- They ask nothing of the machine: whatever they hear, they are done with it at once, or throw. -/
def Observers.AskNothing {ω : Type} (react : Observers ω) : Prop :=
  ∀ name event w c, ∃ v, react name event w c = .done v ∨ ∃ e, react name event w c = .fail v e

namespace Point

def isStore : Point → Bool
  | store _ _ => true
  | _ => false

/-- No transition is applied and no call ends. -/
def isPassing : Point → Bool
  | entered _ _ _ => true
  | lookup _ => true
  | _ => false

/-- How many steps end with a failure although their transition was applied. For the step that is
under way at the beginning it is given whether this is so. -/
def cutShort (applied : Bool) : List Point → Nat
  | [] => 0
  | .store _ _ :: ps => cutShort true ps
  | .ended .step failure _ :: ps => (applied && failure.isSome).toNat + cutShort false ps
  | _ :: ps => cutShort applied ps

/-- None of the points is more than passed by. -/
def Passing (ps : List Point) : Prop := ∀ p ∈ ps, p.isPassing

theorem Passing.append {ps qs : List Point} (h : Passing ps) (h' : Passing qs) :
    Passing (ps ++ qs) := fun p hp => (List.mem_append.1 hp).elim (h p) (h' p)

theorem passing_lookup (M : Machine) (c : Config) :
    Passing (if ¬c.isHalted M ∧ c.tapeSet then [.lookup c] else []) := by
  intro p hp
  split at hp
  · rw [List.mem_singleton.1 hp]
    rfl
  · cases hp

theorem Passing.countP_isStep {ps : List Point} (h : Passing ps) : ps.countP isStep = 0 := by
  refine List.countP_eq_zero.2 fun p hp => ?_
  have hpassing := h p hp
  cases p <;> simp_all [isPassing, isStep]

theorem Passing.countP_isStore {ps : List Point} (h : Passing ps) : ps.countP isStore = 0 := by
  refine List.countP_eq_zero.2 fun p hp => ?_
  have hpassing := h p hp
  cases p <;> simp_all [isPassing, isStore]

theorem Passing.cutShort_append {ps : List Point} (h : Passing ps) (applied : Bool)
    (qs : List Point) : cutShort applied (ps ++ qs) = cutShort applied qs := by
  induction ps with
  | nil => rfl
  | cons p ps ih =>
    obtain ⟨hp, hps⟩ := List.forall_mem_cons.1 h
    cases p with
    | entered name event c => exact ih hps
    | lookup c => exact ih hps
    | ended call failure c => cases hp
    | store c t => cases hp

end Point

open Point

namespace Traced

section Attempts

variable {ω : Type} {react : Observers ω} {M : Machine} {c : Config}

/-- All of them have heard of an event, or one of them has thrown when it heard of it. -/
inductive Told (react : Observers ω) (names : List Text) (event : Event) (c : Config) :
    Result ω Unit × List Point → Prop
  | all {v : ω} {ps : List Point} (hps : Passing ps) : Told react names event c (.ok () c v, ps)
  | thrown {name : Text} {u v : ω} {e : Failure} {ps : List Point} (hname : name ∈ names)
    (hfail : react name event u c = .fail v e) (hps : Passing ps) :
    Told react names event c (.error e c v, ps)

theorem hear_apply (react : Observers ω) (M : Machine) (fuel : Nat) (name : Text)
    (event : Event) (c : Config) (w : ω) :
    marking (.entered name event) (deliver M react (fuel + 1) name event) c w =
      ((perform (serve M (deliver M react fuel) fuel) (react name event w c) c w).1,
        .entered name event c ::
          (perform (serve M (deliver M react fuel) fuel) (react name event w c) c w).2) := rfl

theorem told_announceTo (h : react.AskNothing) (M : Machine) (fuel : Nat)
    (event : Config → Event) (number : Nat) (names : List Text) (c : Config) (w : ω) :
    Told react names (event c) c
      (announceTo (deliver M react (fuel + 1)) event number names c w) := by
  induction names generalizing w with
  | nil => exact .all fun p hp => absurd hp List.not_mem_nil
  | cons name names ih =>
    have hentry : Passing [.entered name (event c) c] := by
      intro p hp
      rw [List.mem_singleton.1 hp]
      rfl
    have hhear := hear_apply react M fuel name (event c) c w
    obtain ⟨v, hdone | ⟨e, hfail⟩⟩ := h name (event c) w c
    · rw [hdone, perform_done] at hhear
      have hrest := ih v
      simp only [announceTo, bind_apply, get_apply, hearing_eq, hhear]
      generalize announceTo (deliver M react (fuel + 1)) event number names c v = r at hrest ⊢
      cases hrest with
      | all hps => exact .all (hentry.append hps)
      | thrown hname hfail hps =>
        exact .thrown (List.mem_cons_of_mem name hname) hfail (hentry.append hps)
    · rw [hfail, perform_fail] at hhear
      simp only [announceTo, bind_apply, get_apply, hearing_eq, hhear]
      exact .thrown List.mem_cons_self hfail hentry

theorem told_announce (h : react.AskNothing) (M : Machine) (fuel : Nat) (event : Config → Event)
    (c : Config) (w : ω) :
    Told react c.observers (event c) c (announce (deliver M react (fuel + 1)) event c w) :=
  told_announceTo h M fuel event 0 c.observers c w

/-- What follows an event comes when all have heard of it, or else somebody has thrown. -/
theorem Told.bind {β : Type} {names : List Text} {event : Event} {x : Traced ω Unit} {w : ω}
    (h : Told react names event c (x c w)) (f : Traced ω β) :
    (∃ v ps, Passing ps ∧ (x >>= fun _ => f) c w = ((f c v).1, ps ++ (f c v).2)) ∨
      ∃ name ∈ names, ∃ u v e ps, react name event u c = .fail v e ∧ Passing ps ∧
        (x >>= fun _ => f) c w = (.error e c v, ps) := by
  rw [bind_apply]
  generalize x c w = r at h ⊢
  cases h with
  | @all v ps hps => exact .inl ⟨v, ps, hps, rfl⟩
  | @thrown name u v e ps hname hfail hps =>
    exact .inr ⟨name, hname, u, v, e, ps, hfail, hps, rfl⟩

/-- The ways in which a step ends. -/
inductive Attempt (react : Observers ω) (M : Machine) (c : Config) :
    Result ω Unit × List Point → Prop
  | refused {e : Error} {w : ω} {ps : List Point} (hnext : c.next M = .error e)
    (hps : Passing ps) :
    Attempt react M c (.error (.error e) c w, ps ++ [.ended .step (some (.error e)) c])
  /-- Somebody throws when the step begins. -/
  | before {t : Transition} {name : Text} {u v : ω} {e : Failure} {ps : List Point}
    (hnext : c.next M = .ok t) (hname : name ∈ c.observers)
    (hfail : react name (.stepStart t.next t.write) u c = .fail v e) (hps : Passing ps) :
    Attempt react M c (.error e c v, ps ++ [.ended .step (some e) c])
  /-- Somebody throws when it hears of the transition that was applied. -/
  | after {t : Transition} {name : Text} {event : Event} {u v : ω} {e : Failure}
    {ps qs : List Point} (hnext : c.next M = .ok t) (hname : name ∈ c.observers)
    (hevent : event = .stepEnd t.next t.write t.move ∨
      (c.apply M t).head ≠ c.head ∧ event = .headMoved (c.apply M t).head c.head)
    (hfail : react name event u (c.apply M t) = .fail v e) (hps : Passing ps) (hqs : Passing qs) :
    Attempt react M c (.error e (c.apply M t) v,
      ps ++ .store c t :: (qs ++ [.ended .step (some e) (c.apply M t)]))
  | completed {t : Transition} {v : ω} {ps qs : List Point} (hnext : c.next M = .ok t)
    (hps : Passing ps) (hqs : Passing qs) :
    Attempt react M c (.ok () (c.apply M t).countStep v,
      ps ++ .store c t :: (qs ++ [.ended .step none (c.apply M t).countStep]))

/-- What a step does when its transition is applied. -/
def conclude (deliver : Text → Event → Traced ω Unit) (t : Transition) (old : Nat) :
    Traced ω Unit := do
  announce deliver fun _ => .stepEnd t.next t.write t.move
  if (← get).head ≠ old then announce deliver fun c => .headMoved c.head old
  modify Config.countStep

/-- What a step does when all have heard that it begins. -/
def proceed (M : Machine) (deliver : Text → Event → Traced ω Unit) (t : Transition) :
    Traced ω Unit := do
  let old := (← get).head
  doing (.storing t) (modify (·.apply M t))
  conclude deliver t old

theorem take_eq (M : Machine) (deliver : Text → Event → Traced ω Unit) (t : Transition) :
    take M deliver t =
      announce deliver (fun _ => .stepStart t.next t.write) >>= fun _ => proceed M deliver t := rfl

theorem proceed_apply (M : Machine) (deliver : Text → Event → Traced ω Unit) (t : Transition)
    (c : Config) (w : ω) : proceed M deliver t c w =
      ((conclude deliver t c.head (c.apply M t) w).1,
        .store c t :: (conclude deliver t c.head (c.apply M t) w).2) := rfl

theorem conclude_cases (h : react.AskNothing) (M : Machine) (fuel : Nat) (t : Transition)
    (old : Nat) (c : Config) (w : ω) :
    (∃ v ps, Passing ps ∧
      conclude (deliver M react (fuel + 1)) t old c w = (.ok () c.countStep v, ps)) ∨
      ∃ name ∈ c.observers, ∃ event u v e ps,
        (event = .stepEnd t.next t.write t.move ∨ c.head ≠ old ∧ event = .headMoved c.head old) ∧
        react name event u c = .fail v e ∧ Passing ps ∧
        conclude (deliver M react (fuel + 1)) t old c w = (.error e c v, ps) := by
  rcases (told_announce h M fuel (fun _ => .stepEnd t.next t.write t.move) c w).bind (do
    if (← get).head ≠ old then announce (deliver M react (fuel + 1)) fun c => .headMoved c.head old
    modify Config.countStep) with
    ⟨v, ps, hps, hstop⟩ | ⟨name, hname, u, v, e, ps, hfail, hps, hstop⟩
  · rw [conclude, hstop]
    by_cases hhead : c.head = old
    · refine .inl ⟨v, ps, hps, ?_⟩
      simp [bind_apply, get_apply, hhead, modify_apply]
    · simp only [bind_apply, get_apply, ne_eq, if_pos hhead, List.nil_append]
      rcases (told_announce h M fuel (fun c => .headMoved c.head old) c v).bind
          (modify Config.countStep) with
        ⟨v', qs, hqs, hmoved⟩ | ⟨name, hname, u, v', e, qs, hfail, hqs, hmoved⟩
      · refine .inl ⟨v', ps ++ qs, hps.append hqs, ?_⟩
        rw [bind_apply] at hmoved
        rw [hmoved]
        simp [modify_apply]
      · rw [bind_apply] at hmoved
        rw [hmoved]
        exact .inr ⟨name, hname, _, u, v', e, ps ++ qs, .inr ⟨hhead, rfl⟩, hfail, hps.append hqs,
          rfl⟩
  · exact .inr ⟨name, hname, _, u, v, e, ps, .inl rfl, hfail, hps, hstop⟩

theorem attempt_step (h : react.AskNothing) (M : Machine) (fuel : Nat) (c : Config) (w : ω) :
    Attempt react M c (step M (deliver M react (fuel + 1)) c w) := by
  have hlookup := passing_lookup M c
  cases hnext : c.next M with
  | error e =>
    have hstep : step M (deliver M react (fuel + 1)) c w = (.error (.error e) c w,
        (if ¬c.isHalted M ∧ c.tapeSet then [.lookup c] else []) ++
          [.ended .step (some (.error e)) c]) := by
      simp only [step, doing_call, ending, bind_apply, find_apply, Execution.find_apply, hnext]
    rw [hstep]
    exact .refused hnext hlookup
  | ok t =>
    simp only [step, doing_call, ending, bind_apply, find_apply, Execution.find_apply, hnext,
      take_eq]
    rcases (told_announce h M fuel (fun _ => .stepStart t.next t.write) c w).bind
        (proceed M (deliver M react (fuel + 1)) t) with
      ⟨v, ps, hps, hstart⟩ | ⟨name, hname, u, v, e, ps, hfail, hps, hstart⟩
    · rw [bind_apply] at hstart
      rw [hstart, proceed_apply]
      rcases conclude_cases h M fuel t c.head (c.apply M t) v with
        ⟨v', qs, hqs, hend⟩ | ⟨name, hname, event, u, v', e, qs, hevent, hfail, hqs, hend⟩
      · rw [hend]
        have hcompleted : Attempt react M c (.ok () (c.apply M t).countStep v', _) :=
          .completed hnext (hlookup.append hps) hqs
        simpa using hcompleted
      · rw [hend]
        rw [Config.apply_observers] at hname
        have hafter := Attempt.after hnext hname hevent hfail (hlookup.append hps) hqs
        simpa using hafter
    · rw [bind_apply] at hstart
      rw [hstart]
      exact .before hnext hname hfail (hlookup.append hps)

end Attempts

/-- The points lead from the one configuration to the other, between two steps each. The counter has
gone up by the steps that were completed, and they are those whose transition was applied, except
for those that were cut short after it. -/
structure Accounts (c : Config) (ps : List Point) (d : Config) : Prop where
  steps_eq : d.steps = c.steps + ps.countP isStep
  applied_eq : ps.countP isStore = ps.countP isStep + cutShort false ps
  whole : ∀ qs, cutShort false (ps ++ qs) = cutShort false ps + cutShort false qs

theorem accounts_nil {c d : Config} (h : d.steps = c.steps) : Accounts c [] d where
  steps_eq := h
  applied_eq := rfl
  whole _ := (Nat.zero_add _).symm

theorem Accounts.append {c d e : Config} {ps qs : List Point} (h : Accounts c ps d)
    (h' : Accounts d qs e) : Accounts c (ps ++ qs) e where
  steps_eq := by rw [h'.steps_eq, h.steps_eq, List.countP_append, Nat.add_assoc]
  applied_eq := by
    have happlied := h.applied_eq
    have happlied' := h'.applied_eq
    rw [List.countP_append, List.countP_append, h.whole]
    omega
  whole rs := by rw [List.append_assoc, h.whole, h'.whole, h.whole, Nat.add_assoc]

theorem accounts_ended {c d : Config} {call : Call} (hcall : call ≠ .step) (e : Option Failure)
    (h : d.steps = c.steps) : Accounts c [.ended call e d] d := by
  cases call with
  | step => exact absurd rfl hcall
  | ask request => exact ⟨h, rfl, fun _ => (Nat.zero_add _).symm⟩
  | run maxSteps => exact ⟨h, rfl, fun _ => (Nat.zero_add _).symm⟩

/-- A step that ends before its transition is applied. -/
theorem accounts_of_unapplied {ps : List Point} (hps : Passing ps) (e : Failure) (c : Config) :
    Accounts c (ps ++ [.ended .step (some e) c]) c where
  steps_eq := by simp [hps.countP_isStep, isStep]
  applied_eq := by
    simp [hps.countP_isStep, hps.countP_isStore, hps.cutShort_append, isStep, isStore, cutShort]
  whole qs := by simp [hps.cutShort_append, cutShort]

/-- A step whose transition is applied is completed, or else it is cut short. -/
theorem accounts_of_applied {ps qs : List Point} (hps : Passing ps) (hqs : Passing qs)
    {c d : Config} (t : Transition) (failure : Option Failure)
    (hsteps : d.steps = c.steps + (!failure.isSome).toNat) :
    Accounts c (ps ++ .store c t :: (qs ++ [.ended .step failure d])) d := by
  have hstep : (ps ++ Point.store c t :: (qs ++ [.ended .step failure d])).countP isStep =
      (!failure.isSome).toNat := by
    cases failure <;> simp [hps.countP_isStep, hqs.countP_isStep, isStep]
  have hstore : (ps ++ Point.store c t :: (qs ++ [.ended .step failure d])).countP isStore = 1 := by
    simp [List.countP_cons, hps.countP_isStore, hqs.countP_isStore, isStore]
  have hcut : ∀ rs, cutShort false (ps ++ .store c t :: (qs ++ [.ended .step failure d]) ++ rs) =
      failure.isSome.toNat + cutShort false rs := by
    intro rs
    simp [hps.cutShort_append, hqs.cutShort_append, cutShort]
  have hcut' := hcut []
  rw [List.append_nil] at hcut'
  refine ⟨by rw [hstep, hsteps], ?_, fun rs => by rw [hcut, hcut']; rfl⟩
  rw [hstep, hstore, hcut']
  cases failure <;> rfl

theorem Attempt.accounts {ω : Type} {react : Observers ω} {M : Machine} {c : Config}
    {r : Result ω Unit × List Point} (h : Attempt react M c r) :
    r.1.Leaves fun d => Accounts c r.2 d := by
  cases h with
  | @refused e w ps hnext hps => exact accounts_of_unapplied hps _ c
  | @before t name u v e ps hnext hname hfail hps => exact accounts_of_unapplied hps e c
  | @after t name event u v e ps qs hnext hname hevent hfail hps hqs =>
    exact accounts_of_applied hps hqs t (some e) (Config.apply_steps c t)
  | @completed t v ps qs hnext hps hqs =>
    exact accounts_of_applied hps hqs t none (congrArg (· + 1) (Config.apply_steps c t))

section Counting

variable {ω α β : Type} {M : Machine}

/-- What the work leaves of the counter is accounted for. -/
def Counts (x : Traced ω α) : Prop :=
  ∀ c w, (x c w).1.Leaves fun d => Accounts c (x c w).2 d

theorem counts_pure (a : α) : Counts (pure a : Traced ω α) := fun _ _ => accounts_nil rfl

theorem counts_get : Counts (get : Traced ω Config) := fun _ _ => accounts_nil rfl

theorem counts_throw (e : Failure) : Counts (throw e : Traced ω α) :=
  fun _ _ => accounts_nil rfl

theorem Counts.bind {x : Traced ω α} {f : α → Traced ω β} (hx : Counts x)
    (hf : ∀ a, Counts (f a)) : Counts (x >>= f) := by
  intro c w
  have hfirst := hx c w
  rw [bind_apply]
  rcases hxc : x c w with ⟨⟨a, d, v⟩ | ⟨e, d, v⟩ | _, ps⟩
  · rw [hxc] at hfirst
    exact (hf a d v).imp fun _ hrest => hfirst.append hrest
  · rw [hxc] at hfirst
    exact hfirst
  · trivial

theorem Counts.tryCatch {x : Traced ω α} {f : Failure → Traced ω α} (hx : Counts x)
    (hf : ∀ e, Counts (f e)) : Counts (tryCatch x f) := by
  intro c w
  have hfirst := hx c w
  rw [tryCatch_apply]
  rcases hxc : x c w with ⟨⟨a, d, v⟩ | ⟨e, d, v⟩ | _, ps⟩
  · rw [hxc] at hfirst
    exact hfirst
  · rw [hxc] at hfirst
    exact (hf e d v).imp fun _ hrest => hfirst.append hrest
  · trivial

theorem Counts.ending {call : Call} (hcall : call ≠ .step) {x : Traced ω α} (hx : Counts x) :
    Counts (Traced.ending call x) := by
  intro c w
  have hfirst := hx c w
  simp only [Traced.ending]
  rcases hxc : x c w with ⟨⟨a, d, v⟩ | ⟨e, d, v⟩ | _, ps⟩
  · rw [hxc] at hfirst
    exact hfirst.append (accounts_ended hcall none rfl)
  · rw [hxc] at hfirst
    exact hfirst.append (accounts_ended hcall (some e) rfl)
  · trivial

section Observed

variable {react : Observers ω} (h : react.AskNothing) (fuel : Nat)

include h

theorem counts_step : Counts (step M (deliver M react (fuel + 1))) :=
  fun c w => (attempt_step h M fuel c w).accounts

/-- A loop that goes on with a step as long as the machine is not halted. -/
theorem Loops.counts {loop : Nat → Traced ω RunOutcome}
    (hloop : Loops M (deliver M react (fuel + 1)) loop) (hzero : Counts (loop 0)) (n : Nat) :
    Counts (loop n) := by
  induction n with
  | zero => exact hzero
  | succ n ih =>
    rw [hloop n]
    refine counts_get.bind fun c => ?_
    split
    · exact counts_pure _
    · exact (counts_step h fuel).bind fun _ => ih

theorem counts_run (loops : Nat) (maxSteps : Option Int) :
    Counts (run M (deliver M react (fuel + 1)) loops maxSteps) := by
  have hcalls : Call.run maxSteps ≠ .step := by simp
  refine Counts.ending hcalls (Counts.tryCatch ?_ fun e => ?_)
  · cases maxSteps with
    | some n =>
      refine (loops_runBounded M _).counts h fuel (counts_get.bind fun c => ?_) n.toNat
      split <;> exact counts_pure _
    | none => exact (loops_runUnbounded M _).counts h fuel (fun _ _ => trivial) loops
  · split
    · exact counts_pure _
    · exact counts_throw _

end Observed

end Counting

end Traced

/-- What was done since the counter was reset: how many steps were completed, how many transitions
were applied, and how many of them in steps that were cut short after it. -/
structure Ledger where
  completed : Nat := 0
  applied : Nat := 0
  cutShort : Nat := 0
  deriving DecidableEq

namespace Ledger

def add (s : Ledger) (ps : List Point) : Ledger where
  completed := s.completed + ps.countP isStep
  applied := s.applied + ps.countP isStore
  cutShort := s.cutShort + Point.cutShort false ps

/-- The ledger after a call with these points. What is applied in a query is taken back. -/
def after (s : Ledger) (ps : List Point) : Call → Ledger
  | .ask .resetSteps => {}
  | .ask _ => s
  | .step => s.add ps
  | .run _ => s.add ps

/-- The counter shows the steps that were completed, and they are the transitions that were applied
but for those that were cut short. -/
structure Explains (s : Ledger) (c : Config) : Prop where
  counter_eq : c.steps = s.completed
  applied_eq : s.applied = s.completed + s.cutShort

theorem Explains.add {s : Ledger} {c d : Config} {ps : List Point} (hs : s.Explains c)
    (h : Traced.Accounts c ps d) : (s.add ps).Explains d where
  counter_eq := by rw [h.steps_eq, hs.counter_eq, Ledger.add]
  applied_eq := by
    have happlied := h.applied_eq
    have happlied' := hs.applied_eq
    simp only [Ledger.add]
    omega

theorem after_of_ask (s : Ledger) (ps : List Point) {request : Request}
    (hrequest : request ≠ .resetSteps) : s.after ps (.ask request) = s := by
  cases request with
  | resetSteps => exact absurd rfl hrequest
  | _ => rfl

end Ledger

namespace Traced

section Accounting

variable {ω α β : Type}

/-- The points of the work, whether it fails or not. -/
def listen (x : Traced ω α) : Traced ω (List Point) := fun c w => match x c w with
  | (.ok _ c w, ps) => (.ok ps c w, ps)
  | (.error _ c w, ps) => (.ok ps c w, ps)
  | (.exhausted, ps) => (.exhausted, ps)

/-- Calls one after another, and the ledger of what they do. -/
def accounting (M : Machine) (deliver : Text → Event → Traced ω Unit) (fuel : Nat) :
    List Call → Ledger → Traced ω Ledger
  | [], s => pure s
  | call :: calls, s => do
    let ps ← listen (Engine.call M deliver fuel call)
    accounting M deliver fuel calls (s.after ps call)

/-- A session goes on in the same way, with or without a ledger. -/
theorem session_eq_accounting (M : Machine) (deliver : Text → Event → Traced ω Unit) (fuel : Nat)
    (calls : List Call) (s : Ledger) :
    session M deliver fuel calls = accounting M deliver fuel calls s >>= fun _ => pure () := by
  induction calls generalizing s with
  | nil => rfl
  | cons call calls ih =>
    funext c w
    rw [session, accounting]
    simp only [bind_apply, tryCatch_apply, listen]
    rcases Engine.call M deliver fuel call c w with ⟨⟨a, d, v⟩ | ⟨e, d, v⟩ | _, ps⟩
    · simp only [ih (s.after ps call), bind_apply]
      rcases accounting M deliver fuel calls (s.after ps call) d v with
        ⟨⟨s', d', v'⟩ | ⟨e', d', v'⟩ | _, qs⟩ <;> simp [pure_apply]
    · simp only [ih (s.after ps call), bind_apply, pure_apply, List.append_nil]
      rcases accounting M deliver fuel calls (s.after ps call) d v with
        ⟨⟨s', d', v'⟩ | ⟨e', d', v'⟩ | _, qs⟩ <;> simp
    · rfl

/-- The work leaves the counter alone. -/
def Uncounted (x : Traced ω α) : Prop := ∀ c w, (x c w).1.Leaves fun d => d.steps = c.steps

theorem Uncounted.bind {x : Traced ω α} {f : α → Traced ω β} (hx : Uncounted x)
    (hf : ∀ a, Uncounted (f a)) : Uncounted (x >>= f) := by
  intro c w
  have hfirst := hx c w
  rw [bind_apply]
  rcases hxc : x c w with ⟨⟨a, d, v⟩ | ⟨e, d, v⟩ | _, ps⟩
  · rw [hxc] at hfirst
    exact (hf a d v).imp fun _ hrest => hrest.trans hfirst
  · rw [hxc] at hfirst
    exact hfirst
  · trivial

theorem Uncounted.ending (call : Call) {x : Traced ω α} (hx : Uncounted x) :
    Uncounted (Traced.ending call x) := by
  intro c w
  have hfirst := hx c w
  simp only [Traced.ending]
  rcases hxc : x c w with ⟨⟨a, d, v⟩ | ⟨e, d, v⟩ | _, ps⟩
  · rwa [hxc] at hfirst
  · rwa [hxc] at hfirst
  · trivial

theorem uncounted_pure (a : α) : Uncounted (pure a : Traced ω α) := fun _ _ => rfl

theorem uncounted_modify {f : Config → Config} (hf : ∀ c, (f c).steps = c.steps) :
    Uncounted (modify f : Traced ω Unit) := fun c _ => hf c

theorem uncounted_aside (x : Traced ω α) : Uncounted (aside x) := by
  intro c w
  rw [aside_apply]
  rcases x { c with observers := [] } w with ⟨⟨a, d, v⟩ | ⟨e, d, v⟩ | _, ps⟩
  · rfl
  · rfl
  · trivial

variable {M : Machine} {react : Observers ω} (h : react.AskNothing) (fuel loops : Nat)

include h

theorem uncounted_announce (event : Config → Event) :
    Uncounted (announce (deliver M react (fuel + 1)) event) := by
  intro c w
  have htold := told_announce h M fuel event c w
  generalize announce (deliver M react (fuel + 1)) event c w = r at htold ⊢
  cases htold <;> rfl

theorem uncounted_setTape (tape : List Symbol) (head : Int) :
    Uncounted (setTape M (deliver M react (fuel + 1)) tape head) := by
  intro c w
  rw [setTape_apply]
  cases tape.find? (· ∉ M.alphabet) with
  | some a => rfl
  | none =>
    have hload := c.load_steps (M := M) tape head
    rcases hc : c.load M tape head with ⟨d, _ | e⟩
    · rw [hc] at hload
      exact ((uncounted_announce h fuel fun _ => .tapeChanged head).ending _ d w).imp
        fun _ hend => hend.trans hload
    · rwa [hc] at hload

theorem uncounted_serve {request : Request} (hrequest : request ≠ .resetSteps) :
    Uncounted (serve M (deliver M react (fuel + 1)) loops request) := by
  have hnone : Uncounted (pure none : Traced ω (Option Bool)) := uncounted_pure none
  cases request with
  | setTape tape head => exact (uncounted_setTape h fuel tape head).bind fun _ => hnone
  | setAtInitial =>
    exact ((uncounted_modify (f := (·.setAtInitial M)) fun _ => rfl).bind fun _ => hnone).ending _
  | resetSteps => exact absurd rfl hrequest
  | accept word maxSteps => exact (uncounted_aside _).ending _
  | attach name =>
    have hattach : Uncounted (attach name : Traced ω Unit) := by
      cases name with
      | none => exact fun _ _ => rfl
      | some name =>
        refine uncounted_modify (f := (·.attach name)) fun c => ?_
        unfold Config.attach
        split <;> rfl
    exact (hattach.bind fun _ => hnone).ending _
  | detach name =>
    have hdetach : Uncounted (detach name : Traced ω Unit) := by
      cases name <;> exact fun _ _ => rfl
    exact (hdetach.bind fun _ => hnone).ending _

/-- A call keeps the ledger such that it explains the counter. -/
theorem explains_call {s : Ledger} {c : Config} (hs : s.Explains c) (call : Call) (w : ω) :
    (Engine.call M (deliver M react (fuel + 1)) loops call c w).1.Leaves
      (s.after (Engine.call M (deliver M react (fuel + 1)) loops call c w).2 call).Explains := by
  cases call with
  | step => exact (counts_step h fuel c w).imp fun _ => hs.add
  | run maxSteps =>
    have hrun : Counts (Engine.call M (deliver M react (fuel + 1)) loops (.run maxSteps)) :=
      (counts_run h fuel loops maxSteps).bind fun _ => counts_pure ()
    exact (hrun c w).imp fun _ => hs.add
  | ask request =>
    by_cases hrequest : request = .resetSteps
    · subst hrequest
      exact ⟨rfl, rfl⟩
    · rw [Ledger.after_of_ask s _ hrequest]
      have hcall : Uncounted (Engine.call M (deliver M react (fuel + 1)) loops (.ask request)) :=
        (uncounted_serve h fuel loops hrequest).bind fun _ => uncounted_pure ()
      exact (hcall c w).imp fun d hd => ⟨hd.trans hs.counter_eq, hs.applied_eq⟩

theorem explains_accounting {s s' : Ledger} {c d : Config} {w v : ω} {ps : List Point}
    {calls : List Call} (hs : s.Explains c)
    (hrun : accounting M (deliver M react (fuel + 1)) loops calls s c w = (.ok s' d v, ps)) :
    s'.Explains d := by
  induction calls generalizing s c w ps with
  | nil =>
    cases hrun
    exact hs
  | cons call calls ih =>
    have hcall := explains_call (M := M) h fuel loops hs call w
    simp only [accounting, bind_apply, listen] at hrun
    rcases hc : Engine.call M (deliver M react (fuel + 1)) loops call c w with
      ⟨⟨a, c', w'⟩ | ⟨e, c', w'⟩ | _, qs⟩
    · simp only [hc, Prod.mk.injEq] at hrun
      rw [hc] at hcall
      exact ih hcall (Prod.ext hrun.1 rfl)
    · simp only [hc, Prod.mk.injEq] at hrun
      rw [hc] at hcall
      exact ih hcall (Prod.ext hrun.1 rfl)
    · simp only [hc] at hrun
      cases hrun

/-- A session that ends has a ledger that explains the counter. -/
theorem exists_ledger {s : Ledger} {c d : Config} {w v : ω} {calls : List Call} (hs : s.Explains c)
    (hrun : session M (Execution.deliver M react (fuel + 1)) loops calls c w =
      .ok () d v) :
    ∃ s' ps, accounting M (deliver M react (fuel + 1)) loops calls s c w = (.ok s' d v, ps) ∧
      s'.Explains d := by
  rw [← erase_session, erase, session_eq_accounting _ _ _ _ s, bind_apply] at hrun
  rcases ht : accounting M (deliver M react (fuel + 1)) loops calls s c w with
    ⟨⟨s', d', v'⟩ | ⟨e, d', v'⟩ | _, ps⟩
  · simp only [ht, pure_apply] at hrun
    cases hrun
    exact ⟨s', ps, rfl, explains_accounting h fuel loops hs ht⟩
  · simp only [ht] at hrun
    cases hrun
  · simp only [ht] at hrun
    cases hrun

end Accounting

end Traced

namespace Execution

/-- A step whose transition exists is completed, or else somebody has thrown. If this was at the
beginning of the step, the configuration is as it was. If it was at the end, or because the head had
moved, tape, head and state are those of the completed step while the counter is as it was. So at
the end of each session of calls the counter shows how many steps were completed since it was reset:
the transitions that were applied but for those whose step was cut short afterwards. -/
theorem step_broken_off {ω : Type} {react : Observers ω} (hreact : react.AskNothing) (M : Machine)
    (fuel loops : Nat) :
    (∀ (c : Config) (w : ω) (t : Transition), c.next M = .ok t →
      (∃ v, step M (deliver M react (fuel + 1)) c w = .ok () (c.apply M t).countStep v) ∨
      ∃ name ∈ c.observers, ∃ event u e d v,
        step M (deliver M react (fuel + 1)) c w = .error e d v ∧
        react name event u d = .fail v e ∧
        (event = .stepStart t.next t.write ∧ d = c ∨
          (event = .stepEnd t.next t.write t.move ∨
            (c.apply M t).head ≠ c.head ∧ event = .headMoved (c.apply M t).head c.head) ∧
          d.countStep = (c.apply M t).countStep ∧ d.steps = c.steps)) ∧
    ∀ (calls : List Call) (w : ω) (d : Config) (v : ω),
      session M (deliver M react (fuel + 1)) loops calls M.start w = .ok () d v →
      ∃ s ps, Traced.accounting M (Traced.deliver M react (fuel + 1)) loops calls {} M.start w =
          (.ok s d v, ps) ∧
        d.steps = s.completed ∧ s.applied = s.completed + s.cutShort := by
  constructor
  · intro c w t hnext
    have hattempt := Traced.attempt_step hreact M fuel c w
    rw [← Traced.erase_step, Traced.erase]
    generalize step M (Traced.deliver M react (fuel + 1)) c w = r at hattempt ⊢
    cases hattempt with
    | refused hrefused hps => cases hnext.symm.trans hrefused
    | before hnext' hname hfail hps =>
      cases hnext.symm.trans hnext'
      exact .inr ⟨_, hname, _, _, _, _, _, rfl, hfail, .inl ⟨rfl, rfl⟩⟩
    | after hnext' hname hevent hfail hps hqs =>
      cases hnext.symm.trans hnext'
      exact .inr ⟨_, hname, _, _, _, _, _, rfl, hfail, .inr ⟨hevent, rfl, Config.apply_steps c t⟩⟩
    | completed hnext' hps hqs =>
      cases hnext.symm.trans hnext'
      exact .inl ⟨_, rfl⟩
  · intro calls w d v hrun
    have hstart : Ledger.Explains {} M.start := ⟨rfl, rfl⟩
    obtain ⟨s, ps, haccounting, hexplains⟩ := Traced.exists_ledger hreact fuel loops hstart hrun
    exact ⟨s, ps, haccounting, hexplains.counter_eq, hexplains.applied_eq⟩

/-- Throws when it hears that a step is at its end. -/
def balk : Observers Unit := fun _ event w _ => match event with
  | .stepEnd _ _ _ => .fail w (.error (.malformedInput []))
  | _ => .done w

theorem balk_asksNothing : balk.AskNothing := by
  intro name event w c
  cases event with
  | stepEnd q a m => exact ⟨w, .inr ⟨_, rfl⟩⟩
  | stepStart q a => exact ⟨w, .inl rfl⟩
  | tapeChanged head => exact ⟨w, .inl rfl⟩
  | headMoved head old => exact ⟨w, .inl rfl⟩

/-- Of two steps the first is cut short by an observer, who is gone when the second is completed. -/
theorem wiper_step_broken_off :
    let c := { Traced.wiper.start with
      tape := Text.symbols "x", tapeSet := true, observers := ["a"] }
    let t : Transition := ⟨.ofChar 'x', .ofChar '#', .right, "1"⟩
    let calls : List Call := [.ask (.setTape (Text.symbols "x") 0), .ask (.attach (some "a")),
      .step, .ask (.detach (some "a")), .step]
    (∃ name ∈ c.observers, ∃ event u e d v,
      step Traced.wiper (deliver Traced.wiper balk 1) c () = .error e d v ∧
      balk name event u d = .fail v e ∧ event ≠ .stepStart t.next t.write ∧
      d.countStep = (c.apply Traced.wiper t).countStep ∧ d.steps = 0) ∧
    ∃ d s ps, session Traced.wiper (deliver Traced.wiper balk 1) 1 calls Traced.wiper.start () =
        .ok () d () ∧
      Traced.accounting Traced.wiper (Traced.deliver Traced.wiper balk 1) 1 calls {}
        Traced.wiper.start () = (.ok s d (), ps) ∧
      d.steps = s.completed ∧ s.applied = s.completed + s.cutShort ∧ s = ⟨1, 2, 1⟩ := by
  intro c t calls
  obtain ⟨hstep, hsession⟩ := step_broken_off balk_asksNothing Traced.wiper 0 1
  constructor
  · rcases hstep c () t rfl with ⟨v, hdone⟩ | ⟨name, hname, event, u, e, d, v, hrun, hfail, hwhen⟩
    · cases hdone
    · refine ⟨name, hname, event, u, e, d, v, hrun, hfail, ?_⟩
      rcases hwhen with ⟨rfl, rfl⟩ | ⟨hevent, hcount, hsteps⟩
      · cases hfail
      · refine ⟨?_, hcount, hsteps⟩
        rintro rfl
        cases hfail
  · obtain ⟨d, hrun⟩ : ∃ d, session Traced.wiper (deliver Traced.wiper balk 1) 1 calls
        Traced.wiper.start () = .ok () d () := ⟨_, rfl⟩
    obtain ⟨s, ps, haccounting, hcount, happlied⟩ := hsession calls () d () hrun
    refine ⟨d, s, ps, hrun, haccounting, hcount, happlied, ?_⟩
    obtain ⟨d', qs, hends⟩ : ∃ d' qs, Traced.accounting Traced.wiper
        (Traced.deliver Traced.wiper balk 1) 1 calls {} Traced.wiper.start () =
          (.ok ⟨1, 2, 1⟩ d' (), qs) := ⟨_, _, rfl⟩
    cases hends.symm.trans haccounting
    rfl

/-- A step at whose end an observer throws is neither undone nor completed: its transition is
applied, and it is not counted. -/
theorem wiper_step_half_done :
    let calls : List Call := [.ask (.setTape (Text.symbols "x") 0), .ask (.attach (some "a"))]
    ∃ c d e t ps, balk.AskNothing ∧
      session Traced.wiper (deliver Traced.wiper balk 1) 1 calls Traced.wiper.start () =
        .ok () c () ∧
      c.next Traced.wiper = .ok t ∧
      step Traced.wiper (deliver Traced.wiper balk 1) c () = .error e d () ∧
      ¬(d.tape = c.tape ∧ d.head = c.head ∧ d.state = c.state ∧ d.steps = c.steps) ∧
      ¬(d.tape = (c.apply Traced.wiper t).countStep.tape ∧
        d.head = (c.apply Traced.wiper t).countStep.head ∧
        d.state = (c.apply Traced.wiper t).countStep.state ∧
        d.steps = (c.apply Traced.wiper t).countStep.steps) ∧
      Traced.accounting Traced.wiper (Traced.deliver Traced.wiper balk 1) 1 (calls ++ [.step]) {}
        Traced.wiper.start () = (.ok ⟨0, 1, 1⟩ d (), ps) ∧
      d.steps ≠ 1 := by
  intro calls
  refine ⟨_, _, _, _, _, balk_asksNothing, rfl, rfl, rfl, ?_, ?_, rfl, ?_⟩
  · rintro ⟨htape, -⟩
    exact absurd htape (by decide)
  · rintro ⟨-, -, -, hsteps⟩
    exact absurd hsteps (by decide)
  · decide

end Execution
end SingleTape

import SingleTape.Engine

/-!
Relations between two ways to carry out the work of a machine: with a record or without one, with
different fuel, different observers or none. A relation that goes through the operators in which the
engine is written goes through all of the engine; what the work looks at in a configuration never
depends on who observes.
-/

namespace SingleTape

namespace Config

theorem unobserved_moveHead (M : Machine) (c : Config) (m : Move) :
    (c.moveHead M m).unobserved = c.unobserved.moveHead M m := by
  cases m with
  | left =>
    by_cases hhead : c.head = 0
    · simp [moveHead, unobserved, hhead]
    · simp [moveHead, unobserved, hhead]
  | _ => rfl

theorem unobserved_apply (M : Machine) (c : Config) (t : Transition) :
    (c.apply M t).unobserved = c.unobserved.apply M t :=
  unobserved_moveHead M _ t.move

end Config

/-- The event as it is told in a configuration: a move of the head is told with the head as it is
then. -/
def Event.at (c : Config) : Event → Event
  | headMoved _ old => headMoved c.head old
  | event => event

open Engine

variable {ω ω' : Type} {m n : Type → Type}
  [Monad m] [MonadStateOf Config m] [MonadExceptOf Failure m] [Engine ω m]
  [Monad n] [MonadStateOf Config n] [MonadExceptOf Failure n] [Engine ω' n]

/-- A relation that goes through the operators in which whole calls are written. -/
structure Congruence (m n : Type → Type)
    [Monad m] [MonadStateOf Config m] [MonadExceptOf Failure m] [Engine ω m]
    [Monad n] [MonadStateOf Config n] [MonadExceptOf Failure n] [Engine ω' n] where
  rel : {α : Type} → m α → n α → Prop
  rel_pure : ∀ {α : Type} (a : α), rel (pure a) (pure a)
  rel_throw : ∀ {α : Type} (e : Failure), rel (throw e : m α) (throw e)
  rel_exhausted : ∀ {α : Type}, rel (exhausted : m α) exhausted
  rel_bind : ∀ {α β : Type} {x : m α} {y : n α} {f : α → m β} {g : α → n β},
    rel x y → (∀ a, rel (f a) (g a)) → rel (x >>= f) (y >>= g)
  rel_look : ∀ {α : Type} {f : Config → m α} {g : Config → n α},
    (∀ c d : Config, c.unobserved = d.unobserved → rel (f c) (g d)) → rel (get >>= f) (get >>= g)
  rel_tryCatch : ∀ {α : Type} {x : m α} {y : n α} {f : Failure → m α} {g : Failure → n α},
    rel x y → (∀ e, rel (f e) (g e)) → rel (tryCatch x f) (tryCatch y g)
  rel_call : ∀ {α : Type} (call : Call) {x : m α} {y : n α}, rel x y →
    rel (doing (.call call) x) (doing (.call call) y)

/-- A relation that goes through a step, and so through each run. -/
structure Course (M : Machine) (deliver : Text → Event → m Unit)
    (deliver' : Text → Event → n Unit) extends Congruence m n where
  rel_step : rel (step M deliver) (step M deliver')

/-- A relation that goes through all that is done to the configuration. -/
structure Conduct (M : Machine) (deliver : Text → Event → m Unit)
    (deliver' : Text → Event → n Unit) extends Course M deliver deliver' where
  rel_setTape : ∀ (tape : List Symbol) (head : Int),
    rel (setTape M deliver tape head) (setTape M deliver' tape head)
  rel_setAtInitial : rel (modify (·.setAtInitial M)) (modify (·.setAtInitial M))
  rel_resetSteps : rel (modify Config.resetSteps) (modify Config.resetSteps)

/-- A relation that goes through what setting a tape and a step consist of. -/
structure Correspondence (M : Machine) (deliver : Text → Event → m Unit)
    (deliver' : Text → Event → n Unit) extends Congruence m n where
  rel_place : ∀ (tape : List Symbol) (head : Int),
    rel (modifyGet fun c => (c.load M tape head).swap : m (Option Failure))
      (modifyGet fun c => (c.load M tape head).swap)
  rel_finding : ∀ {α : Type} {x : m α} {y : n α}, rel x y →
    rel (doing (.finding M) x) (doing (.finding M) y)
  rel_store : ∀ t : Transition, rel (doing (.storing t) (modify (·.apply M t)))
    (doing (.storing t) (modify (·.apply M t)))
  rel_countStep : rel (modify Config.countStep) (modify Config.countStep)
  rel_setAtInitial : rel (modify (·.setAtInitial M)) (modify (·.setAtInitial M))
  rel_resetSteps : rel (modify Config.resetSteps) (modify Config.resetSteps)
  rel_announce : ∀ event : Config → Event, (∀ c d, (event c).at d = event d) →
    rel (announce deliver event) (announce deliver' event)

variable {M : Machine} {deliver : Text → Event → m Unit} {deliver' : Text → Event → n Unit}

theorem Congruence.rel_ite (R : Congruence m n) {α : Type} {p : Prop} [Decidable p] {x x' : m α}
    {y y' : n α} (h : R.rel x y) (h' : R.rel x' y') :
    R.rel (if p then x else x') (if p then y else y') := by
  split
  · exact h
  · exact h'

theorem Congruence.rel_attempt (R : Congruence m n) {α : Type} {x : m α} {y : n α}
    (h : R.rel x y) : R.rel (attempt x) (attempt y) :=
  R.rel_tryCatch (R.rel_bind h fun _ => R.rel_pure _) fun _ => R.rel_pure _

section SameWorld

variable {n : Type → Type} [Monad n] [MonadStateOf Config n] [MonadExceptOf Failure n]
  [Engine ω n] (R : Congruence m n) (hview : R.rel view view)
  (hworld : ∀ w, R.rel (setWorld w) (setWorld w))

include hview hworld

/-- Reactions do the same if their requests are served in the same way. -/
theorem Congruence.rel_perform {serve : Request → m (Option Bool)}
    {serve' : Request → n (Option Bool)}
    (hserve : ∀ request, R.rel (serve request) (serve' request)) (r : Reaction ω) :
    R.rel (perform serve r) (perform serve' r) := by
  induction r with
  | done w => exact hworld w
  | fail w e => exact R.rel_bind (hworld w) fun _ => R.rel_throw e
  | ask w request next ih =>
    refine R.rel_bind (hworld w) fun _ => R.rel_bind (R.rel_attempt (hserve request)) fun a => ?_
    exact R.rel_bind hview fun p => ih p.2 p.1 a

theorem Congruence.rel_deliver {react : Observers ω} {fuel : Nat}
    (hserve : ∀ request, R.rel (serve M (Engine.deliver M react fuel) fuel request)
      (serve M (Engine.deliver M react fuel) fuel request)) (name : Text) (event : Event) :
    R.rel (Engine.deliver M react (fuel + 1) name event)
      (Engine.deliver M react (fuel + 1) name event) :=
  R.rel_bind hview fun p => R.rel_perform hview hworld hserve (react name event p.2 p.1)

end SameWorld

namespace Correspondence

variable (R : Correspondence M deliver deliver')

theorem rel_load (tape : List Symbol) (head : Int) :
    R.rel (load M tape head) (load M tape head) := by
  refine R.rel_bind (R.rel_place tape head) fun failure => ?_
  cases failure with
  | none => exact R.rel_pure ()
  | some e => exact R.rel_throw e

theorem rel_setTape (tape : List Symbol) (head : Int) :
    R.rel (setTape M deliver tape head) (setTape M deliver' tape head) := by
  refine R.rel_call _ ?_
  cases tape.find? (· ∉ M.alphabet) with
  | some a => exact R.rel_throw _
  | none => exact R.rel_bind (R.rel_load tape head) fun _ => R.rel_announce _ fun _ _ => rfl

theorem rel_find : R.rel (find M) (find M) := by
  refine R.rel_finding (R.rel_look fun c d hcd => ?_)
  have hnext : c.next M = d.next M := (congrArg (Config.next M) hcd :)
  rw [hnext]
  cases d.next M with
  | ok t => exact R.rel_pure t
  | error e => exact R.rel_throw _

theorem rel_take (t : Transition) : R.rel (take M deliver t) (take M deliver' t) := by
  refine R.rel_bind (R.rel_announce _ fun _ _ => rfl) fun _ => R.rel_look fun c d hcd => ?_
  have hold : c.head = d.head := (congrArg Config.head hcd :)
  refine R.rel_bind (R.rel_store t) fun _ => ?_
  refine R.rel_bind (R.rel_announce _ fun _ _ => rfl) fun _ => R.rel_look fun c' d' hcd' => ?_
  have hhead : c'.head = d'.head := (congrArg Config.head hcd' :)
  rw [hold, hhead]
  exact R.rel_ite (R.rel_bind (R.rel_announce _ fun _ _ => rfl) fun _ => R.rel_countStep)
    R.rel_countStep

theorem rel_step : R.rel (step M deliver) (step M deliver') :=
  R.rel_call _ (R.rel_bind R.rel_find R.rel_take)

def toConduct : Conduct M deliver deliver' where
  toCongruence := R.toCongruence
  rel_step := R.rel_step
  rel_setTape := R.rel_setTape
  rel_setAtInitial := R.rel_setAtInitial
  rel_resetSteps := R.rel_resetSteps

end Correspondence

namespace Course

variable (R : Course M deliver deliver')

/-- One round of a run. -/
theorem rel_round {x : m RunOutcome} {y : n RunOutcome} (h : R.rel x y) :
    R.rel (do if (← get).isHalted M then return .haltReached else step M deliver; x)
      (do if (← get).isHalted M then return .haltReached else step M deliver'; y) := by
  refine R.rel_look fun c d hcd => ?_
  have hstate : c.state = d.state := (congrArg Config.state hcd :)
  simp only [Config.isHalted, hstate]
  exact R.rel_ite (R.rel_pure _) (R.rel_bind R.rel_step fun _ => h)

theorem rel_runBounded (k : Nat) :
    R.rel (runBounded M deliver k) (runBounded M deliver' k) := by
  induction k with
  | zero =>
    refine R.rel_look fun c d hcd => ?_
    have hstate : c.state = d.state := (congrArg Config.state hcd :)
    simp only [Config.isHalted, hstate]
    exact R.rel_ite (R.rel_pure _) (R.rel_pure _)
  | succ k ih => exact R.rel_round ih

theorem rel_runUnbounded (fuel : Nat) :
    R.rel (runUnbounded M deliver fuel) (runUnbounded M deliver' fuel) := by
  induction fuel with
  | zero => exact R.rel_exhausted
  | succ fuel ih => exact R.rel_round ih

theorem rel_run {fuel fuel' : Nat}
    (hloop : R.rel (runUnbounded M deliver fuel) (runUnbounded M deliver' fuel'))
    (maxSteps : Option Int) :
    R.rel (run M deliver fuel maxSteps) (run M deliver' fuel' maxSteps) := by
  refine R.rel_call _ (R.rel_tryCatch ?_ fun e => ?_)
  · cases maxSteps with
    | none => exact hloop
    | some k => exact R.rel_runBounded k.toNat
  · split
    · exact R.rel_pure _
    · exact R.rel_throw _

end Course

namespace Conduct

variable (R : Conduct M deliver deliver')

section Loop

variable {fuel fuel' : Nat}
  (hloop : R.rel (runUnbounded M deliver fuel) (runUnbounded M deliver' fuel'))

include hloop

theorem rel_query (word : List Symbol) (maxSteps : Option Int) :
    R.rel (query M deliver fuel word maxSteps) (query M deliver' fuel' word maxSteps) := by
  have hfinal : R.rel (do return some (decide ((← get).isFinal M)))
      (do return some (decide ((← get).isFinal M))) := by
    refine R.rel_look fun c d hcd => ?_
    have hstate : c.state = d.state := (congrArg Config.state hcd :)
    simp only [Config.isFinal, hstate]
    exact R.rel_pure _
  refine R.rel_bind (R.rel_setTape word 0) fun _ => ?_
  refine R.rel_bind (R.rel_run hloop maxSteps) fun outcome => ?_
  cases outcome with
  | stepLimitReached => exact R.rel_pure _
  | haltReached => exact hfinal
  | unknownTransition => exact hfinal

theorem rel_runOn (tape : List Symbol) (head : Int) (maxSteps : Option Int) :
    R.rel (runOn M deliver fuel tape head maxSteps) (runOn M deliver' fuel' tape head maxSteps) :=
  R.rel_bind (R.rel_setTape tape head) fun _ => R.rel_run hloop maxSteps

theorem rel_accept
    (haside : ∀ {x : m (Option Bool)} {y : n (Option Bool)}, R.rel x y → R.rel (aside x) (aside y))
    (word : List Symbol) (maxSteps : Option Int) :
    R.rel (accept M deliver fuel word maxSteps) (accept M deliver' fuel' word maxSteps) :=
  R.rel_call _ (haside (R.rel_query hloop word maxSteps))

end Loop

section Service

variable {fuel fuel' : Nat}
  (haccept : ∀ word maxSteps,
    R.rel (accept M deliver fuel word maxSteps) (accept M deliver' fuel' word maxSteps))

include haccept

/-- Requests to attach or detach somebody are left to the relation at hand. -/
theorem rel_serve (request : Request)
    (hattach : ∀ name, request = .attach name → R.rel (attach name) (attach name))
    (hdetach : ∀ name, request = .detach name → R.rel (detach name) (detach name)) :
    R.rel (serve M deliver fuel request) (serve M deliver' fuel' request) := by
  cases request with
  | setTape tape head => exact R.rel_bind (R.rel_setTape tape head) fun _ => R.rel_pure _
  | setAtInitial => exact R.rel_call _ (R.rel_bind R.rel_setAtInitial fun _ => R.rel_pure _)
  | resetSteps => exact R.rel_call _ (R.rel_bind R.rel_resetSteps fun _ => R.rel_pure _)
  | accept word maxSteps => exact haccept word maxSteps
  | attach name => exact R.rel_call _ (R.rel_bind (hattach name rfl) fun _ => R.rel_pure _)
  | detach name => exact R.rel_call _ (R.rel_bind (hdetach name rfl) fun _ => R.rel_pure _)

variable (hloop : R.rel (runUnbounded M deliver fuel) (runUnbounded M deliver' fuel'))

include hloop

theorem rel_reply (c : Call)
    (hattach : ∀ name, c = .ask (.attach name) → R.rel (attach name) (attach name))
    (hdetach : ∀ name, c = .ask (.detach name) → R.rel (detach name) (detach name)) :
    R.rel (reply M deliver fuel c) (reply M deliver' fuel' c) := by
  cases c with
  | ask request =>
    refine R.rel_bind (R.rel_serve haccept request ?_ ?_) fun _ => R.rel_pure _
    · intro name hrequest
      exact hattach name (congrArg Call.ask hrequest)
    · intro name hrequest
      exact hdetach name (congrArg Call.ask hrequest)
  | step => exact R.rel_bind R.rel_step fun _ => R.rel_pure _
  | run maxSteps => exact R.rel_bind (R.rel_run hloop maxSteps) fun _ => R.rel_pure _

variable (hattach : ∀ name, R.rel (attach name) (attach name))
  (hdetach : ∀ name, R.rel (detach name) (detach name))

include hattach hdetach

theorem rel_callOf (c : Call) : R.rel (call M deliver fuel c) (call M deliver' fuel' c) := by
  cases c with
  | ask request =>
    exact R.rel_bind (R.rel_serve haccept request (fun name _ => hattach name)
      fun name _ => hdetach name) fun _ => R.rel_pure ()
  | step => exact R.rel_step
  | run maxSteps => exact R.rel_bind (R.rel_run hloop maxSteps) fun _ => R.rel_pure ()

theorem rel_session (cs : List Call) :
    R.rel (session M deliver fuel cs) (session M deliver' fuel' cs) := by
  induction cs with
  | nil => exact R.rel_pure ()
  | cons c cs ih =>
    exact R.rel_bind (R.rel_tryCatch (R.rel_callOf haccept hloop hattach hdetach c)
      fun _ => R.rel_pure ()) fun _ => ih

/-- For a relation that keeps the observers. -/
theorem rel_converse (hget : R.rel get get) (cs : List Call) :
    R.rel (converse M deliver fuel cs) (converse M deliver' fuel' cs) := by
  induction cs with
  | nil => exact R.rel_pure []
  | cons c cs ih =>
    have hreply :=
      R.rel_reply haccept hloop c (fun name _ => hattach name) fun name _ => hdetach name
    refine R.rel_bind (R.rel_attempt hreply) fun _ => R.rel_bind hget fun _ => ?_
    exact R.rel_bind ih fun _ => R.rel_pure _

end Service

end Conduct

end SingleTape

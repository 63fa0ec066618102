import SingleTape.Observer

/-!
The engine: setting tapes, stepping, running and querying a machine under observation. It is written
once, for every way to carry it out; such a way says what becomes of the work, of the configuration
and of the world of the observers, and may keep a record of what is done.
-/

namespace SingleTape

/-- How a run ended. -/
inductive RunOutcome where
  | haltReached
  | stepLimitReached
  | unknownTransition
  deriving DecidableEq

namespace RunOutcome

def name : RunOutcome → Text
  | haltReached => "halt reached"
  | stepLimitReached => "step limit reached"
  | unknownTransition => "unknown transition"

def all : List RunOutcome := [haltReached, stepLimitReached, unknownTransition]

/-- The name for any code, also for one that means nothing. -/
def nameOfCode (code : Int) : Text :=
  ((if code < 0 then none else all[code.toNat]?).map name).getD "unknown"

end RunOutcome

/-- What the user of a machine may call. -/
inductive Call where
  | ask (request : Request)
  | step
  | run (maxSteps : Option Int)

/-- What a call returns. -/
inductive Reply where
  | served (answer : Option Bool)
  | stepped
  | ran (outcome : RunOutcome)

/-- A call, what it returned or with which failure it ended, and the configuration after it. -/
structure Exchange where
  call : Call
  reply : Except Failure Reply
  config : Config

/-- What a machine is doing, for those who keep a record of it. -/
inductive Doing where
  | call (call : Call)
  | finding (M : Machine)
  | storing (t : Transition)
  | attaching (name : Text)
  | detaching (name : Text)
  | querying

/-- A way to carry out the work of a machine whose observers share a world of type `ω`. -/
class Engine (ω : outParam Type) (m : Type → Type) where
  /-- Does not end. -/
  exhausted {α : Type} : m α
  /-- Goes on with another configuration and world, of which no record is kept. -/
  silently {α : Type} (f : Config → ω → α × Config × ω) : m α
  doing {α : Type} (what : Doing) (x : m α) : m α
  /-- Announces an event to those who are told of it; events are known by a number. -/
  announcing (event : Config → Event) (tell : Nat → m Unit) : m Unit
  hearing (name : Text) (event : Event) (number : Nat) (x : m Unit) : m Unit

namespace Engine

variable {ω α : Type} {m : Type → Type} [Monad m] [MonadStateOf Config m]
  [MonadExceptOf Failure m] [Engine ω m]

/-- What an observer sees. -/
def view : m (Config × ω) := silently fun c w => ((c, w), c, w)

def setWorld (w : ω) : m Unit := silently fun c _ => ((), c, w)

/-- What comes of work that may fail. -/
def attempt (x : m α) : m (Except Failure α) :=
  tryCatch (do return .ok (← x)) fun e => return .error e

/-- Work that no observer hears of; on every way out of it all that was before is restored. -/
def aside (x : m α) : m α := do
  let snapshot ← silently fun c w => (c.snapshot, { c with observers := [] }, w)
  let result ← doing .querying (attempt x)
  silently fun c w => ((), c.restore snapshot, w)
  match result with
  | .ok a => return a
  | .error e => throw e

section Work

variable (M : Machine) (deliver : Text → Event → m Unit)

/-- Tells the observers in turn; each hears of the event as it is at that moment. -/
def announceTo (event : Config → Event) (number : Nat) : List Text → m Unit
  | [] => pure ()
  | name :: names => do
    let told := event (← get)
    hearing name told number (deliver name told)
    announceTo event number names

/-- Tells those who are attached when the event begins. -/
def announce (event : Config → Event) : m Unit :=
  announcing event fun number => do announceTo deliver event number (← get).observers

def load (tape : List Symbol) (head : Int) : m Unit := do
  match ← modifyGet fun c => (c.load M tape head).swap with
  | none => return ()
  | some e => throw e

def setTape (tape : List Symbol) (head : Int) : m Unit :=
  doing (.call (.ask (.setTape tape head))) <|
    match tape.find? (· ∉ M.alphabet) with
    | some a => throw (.error (.invalidSymbol a))
    | none => do
      load M tape head
      announce deliver fun _ => .tapeChanged head

/-- Finds the transition that a step takes. -/
def find : m Transition := doing (.finding M) do
  match (← get).next M with
  | .ok t => return t
  | .error e => throw (.error e)

/-- Takes a transition under observation. -/
def take (t : Transition) : m Unit := do
  announce deliver fun _ => .stepStart t.next t.write
  let old := (← get).head
  doing (.storing t) (modify (·.apply M t))
  announce deliver fun _ => .stepEnd t.next t.write t.move
  if (← get).head ≠ old then announce deliver fun c => .headMoved c.head old
  modify Config.countStep

def step : m Unit := doing (.call .step) do
  let t ← find M
  take M deliver t

/-- At most the given number of steps. -/
def runBounded : Nat → m RunOutcome
  | 0 => do
    if (← get).isHalted M then return .haltReached else return .stepLimitReached
  | n + 1 => do
    if (← get).isHalted M then return .haltReached
    else
      step M deliver
      runBounded n

def runUnbounded : Nat → m RunOutcome
  | 0 => exhausted
  | fuel + 1 => do
    if (← get).isHalted M then return .haltReached
    else
      step M deliver
      runUnbounded fuel

/-- Runs to the halt state, to a pair without a transition, or for the steps that are allowed. -/
def run (fuel : Nat) (maxSteps : Option Int) : m RunOutcome :=
  doing (.call (.run maxSteps)) <| tryCatch
    (match maxSteps with
      | some n => runBounded M deliver n.toNat
      | none => runUnbounded M deliver fuel)
    fun
      | .error (.unknownTransition _ _) => pure .unknownTransition
      | e => throw e

/-- Runs a word from the current state: whether the machine stops in a final state, or nothing when
it does not stop within the steps that are allowed. -/
def query (fuel : Nat) (word : List Symbol) (maxSteps : Option Int) : m (Option Bool) := do
  setTape M deliver word 0
  match ← run M deliver fuel maxSteps with
  | .stepLimitReached => return none
  | _ => return some (decide ((← get).isFinal M))

/-- Sets a tape and runs on it. -/
def runOn (fuel : Nat) (tape : List Symbol) (head : Int) (maxSteps : Option Int) :
    m RunOutcome := do
  setTape M deliver tape head
  run M deliver fuel maxSteps

def accept (fuel : Nat) (word : List Symbol) (maxSteps : Option Int) : m (Option Bool) :=
  doing (.call (.ask (.accept word maxSteps))) (aside (query M deliver fuel word maxSteps))

def attach : Option Text → m Unit
  | none => throw (.error (.malformedInput "Observer must not be null"))
  | some name => doing (.attaching name) (modify (·.attach name))

def detach : Option Text → m Unit
  | none => return ()
  | some name => doing (.detaching name) (modify (·.detach name))

def serve (fuel : Nat) : Request → m (Option Bool)
  | .setTape tape head => do
    setTape M deliver tape head
    return none
  | .setAtInitial => doing (.call (.ask .setAtInitial)) do
    modify (·.setAtInitial M)
    return none
  | .resetSteps => doing (.call (.ask .resetSteps)) do
    modify Config.resetSteps
    return none
  | .accept word maxSteps => accept M deliver fuel word maxSteps
  | .attach name => doing (.call (.ask (.attach name))) do
    attach name
    return none
  | .detach name => doing (.call (.ask (.detach name))) do
    detach name
    return none

def call (fuel : Nat) : Call → m Unit
  | .ask request => do
    let _ ← serve M deliver fuel request
  | .step => step M deliver
  | .run maxSteps => do
    let _ ← run M deliver fuel maxSteps

/-- Calls one after another; a call that fails leaves its configuration to the next. -/
def session (fuel : Nat) : List Call → m Unit
  | [] => return ()
  | c :: cs => do
    tryCatch (call M deliver fuel c) fun _ => return ()
    session fuel cs

def reply (fuel : Nat) : Call → m Reply
  | .ask request => return .served (← serve M deliver fuel request)
  | .step => do
    step M deliver
    return .stepped
  | .run maxSteps => return .ran (← run M deliver fuel maxSteps)

/-- Calls one after another, with a record of what came of each. -/
def converse (fuel : Nat) : List Call → m (List Exchange)
  | [] => return []
  | call :: calls => do
    let reply ← attempt (reply M deliver fuel call)
    let config ← get
    return ⟨call, reply, config⟩ :: (← converse fuel calls)

end Work

/-- Carries out a reaction, serving its requests in the given way. -/
def perform (serve : Request → m (Option Bool)) : Reaction ω → m Unit
  | .done w => setWorld w
  | .fail w e => do
    setWorld w
    throw e
  | .ask w request next => do
    setWorld w
    let answer ← attempt (serve request)
    let (c, w) ← view
    perform serve (next w c answer)

/-- Delivery under which an observer's requests are served by the machine that it observes. The
fuel bounds how deep notifications may nest and how long unbounded queries may run. -/
def deliver (M : Machine) (react : Observers ω) : Nat → Text → Event → m Unit
  | 0, _, _ => exhausted
  | fuel + 1, name, event => do
    let (c, w) ← view
    perform (serve M (deliver M react fuel) fuel) (react name event w c)

end Engine
end SingleTape

import SingleTape.Config

/-!
Observers. A machine tells each attached observer about every event; the observer looks at the
configuration and reacts, and a reaction may ask the machine for anything but a step or a run.
-/

namespace SingleTape

inductive Event where
  /-- Before a transition is applied: the state it leads to and the symbol it writes. -/
  | stepStart (state : State) (symbol : Symbol)
  /-- After a transition was applied. -/
  | stepEnd (state : State) (written : Symbol) (move : Move)
  /-- A tape was set; `head` is the position asked for. -/
  | tapeChanged (head : Int)
  | headMoved (head old : Int)
  deriving DecidableEq

/-- What a reaction may ask of the machine. -/
inductive Request where
  | setTape (tape : List Symbol) (head : Int)
  | setAtInitial
  | resetSteps
  | accept (word : List Symbol) (maxSteps : Option Int)
  | attach (observer : Option Text)
  | detach (observer : Option Text)

/-- What an observer does on one event. The observers share a world of type `ω`, in which they keep
what they know. The answer to a request comes with the world and configuration after it; only
acceptance queries answer with a value. -/
inductive Reaction (ω : Type) where
  | done (world : ω)
  | fail (world : ω) (failure : Failure)
  | ask (world : ω) (request : Request)
    (next : ω → Config → Except Failure (Option Bool) → Reaction ω)

/-- How each observer reacts to an event. -/
abbrev Observers (ω : Type) := Text → Event → ω → Config → Reaction ω

end SingleTape

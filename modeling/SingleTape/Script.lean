import SingleTape.SortedMap
import SingleTape.Transcript

/-!
Scripted observers. An ensemble of named observers shares one list of notes; each of them either
writes a transcript or notes every event and acts on its cues.
-/

namespace SingleTape

inductive EventKind where
  | start
  | stop
  | tape
  | head
  deriving DecidableEq

def Event.kind : Event → EventKind
  | .stepStart _ _ => .start
  | .stepEnd _ _ _ => .stop
  | .tapeChanged _ => .tape
  | .headMoved _ _ => .head

/-- How many events of each kind were heard. -/
structure Tally where
  starts : Nat := 0
  stops : Nat := 0
  tapes : Nat := 0
  heads : Nat := 0

namespace Tally

def count (t : Tally) : EventKind → Nat
  | .start => t.starts
  | .stop => t.stops
  | .tape => t.tapes
  | .head => t.heads

def add (t : Tally) : EventKind → Tally
  | .start => { t with starts := t.starts + 1 }
  | .stop => { t with stops := t.stops + 1 }
  | .tape => { t with tapes := t.tapes + 1 }
  | .head => { t with heads := t.heads + 1 }

end Tally

inductive Action where
  | ask (request : Request)
  /-- Notes the configuration. -/
  | snapshot
  | fail (e : Error)

/-- An action and the event on which it is due: the `nth` of its kind, counted from 1. -/
structure Cue where
  kind : EventKind
  nth : Nat
  action : Action

inductive Note where
  | event (observer : Text) (event : Event)
  | answer (observer : Text) (accepted : Option Bool)
  | snapshot (observer : Text) (state : State) (tape : List Symbol) (head steps : Nat)

inductive Member where
  | recorder (script : List Cue) (heard : Tally)
  | transcript (t : Transcript)

structure Ensemble where
  members : SortedMap Text Member := ∅
  /-- What was noted so far, the newest first. -/
  notes : List Note := []

namespace Ensemble

instance : EmptyCollection Ensemble := ⟨{}⟩

def put (w : Ensemble) (name : Text) (m : Member) : Ensemble :=
  { w with members := w.members.insert name m }

def note (w : Ensemble) (n : Note) : Ensemble := { w with notes := n :: w.notes }

def clearNotes (w : Ensemble) : Ensemble := { w with notes := [] }

/-- A name, if someone goes by it. -/
def resolve (w : Ensemble) (name : Option Text) : Option Text :=
  name.filter fun n => (w.members.find? n).isSome

/-- A request to attach or detach means whoever goes by the name when it is made. -/
def address (w : Ensemble) : Request → Request
  | .attach name => .attach (w.resolve name)
  | .detach name => .detach (w.resolve name)
  | request => request

/-- Notes what came of a request; only queries have an answer. -/
def noteAnswer (w : Ensemble) (name : Text) (accepted : Option Bool) : Request → Ensemble
  | .accept _ _ => w.note (.answer name accepted)
  | _ => w

/-- Carries out actions in turn, up to the first failure. -/
def act (name : Text) : List Action → Ensemble → Config → Reaction Ensemble
  | [], w, _ => .done w
  | .snapshot :: as, w, c =>
    act name as (w.note (.snapshot name c.state c.tape c.head c.steps)) c
  | .fail e :: _, w, _ => .fail w (.error e)
  | .ask request :: as, w, _ =>
    .ask w (w.address request) fun w c answer => match answer with
      | .ok accepted => act name as (w.noteAnswer name accepted request) c
      | .error e => .fail w e

def observers : Observers Ensemble := fun name event w c =>
  match w.members.find? name with
  | none => .done w
  | some (.transcript t) => .done (w.put name (.transcript (t.record event)))
  | some (.recorder script heard) =>
    let heard := heard.add event.kind
    let due := script.filter fun cue =>
      cue.kind = event.kind && cue.nth = heard.count event.kind
    act name (due.map Cue.action)
      ((w.put name (.recorder script heard)).note (.event name event)) c

end Ensemble
end SingleTape

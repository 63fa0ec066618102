import SingleTape.Observer

/-!
Transcripts: an observer that writes one line for each event and counts the events.
-/

namespace SingleTape

/-- The line of an event, with its end. Symbols stand in it as they are. -/
def Event.line : Event → Text
  | .stepStart q c => "step start: state=" ++ q ++ " symbol=" ++ c.text ++ "\n"
  | .stepEnd q c m =>
    "step end: state=" ++ q ++ " wrote=" ++ c.text ++ " move=" ++ m.name ++ "\n"
  | .tapeChanged head => "tape changed: head=" ++ Text.ofInt head ++ "\n"
  | .headMoved head old =>
    "head moved: " ++ Text.ofInt old ++ " -> " ++ Text.ofInt head ++ "\n"

structure Transcript where
  /-- The lines written so far, the newest first. -/
  lines : List Text := []
  /-- The number of events heard, in a word of 32 bits. -/
  events : Int32 := 0

namespace Transcript

instance : EmptyCollection Transcript := ⟨{}⟩

def record (t : Transcript) (e : Event) : Transcript where
  lines := e.line :: t.lines
  events := t.events + 1

def text (t : Transcript) : Text := t.lines.reverse.flatten

/-- Everyone who observes writes into the one transcript. -/
def observers : Observers Transcript := fun _ e t _ => .done (t.record e)

theorem text_record (t : Transcript) (e : Event) : (t.record e).text = t.text ++ e.line := by
  simp [record, text]

theorem text_foldl_record (t : Transcript) (es : List Event) :
    (es.foldl record t).text = t.text ++ es.flatMap Event.line := by
  induction es generalizing t with
  | nil => simp
  | cons e es ih => simp [ih, text_record]

theorem events_foldl_record (t : Transcript) (es : List Event) :
    (es.foldl record t).events = t.events + Int32.ofNat es.length := by
  induction es generalizing t with
  | nil => exact (Int32.add_zero t.events).symm
  | cons e es ih =>
    have hone : (t.record e).events = t.events + Int32.ofNat 1 := rfl
    rw [List.foldl_cons, ih, hone, List.length_cons, Nat.add_comm, Int32.ofNat_add,
      Int32.add_assoc]

end Transcript
end SingleTape

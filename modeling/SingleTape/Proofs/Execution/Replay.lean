import SingleTape.Proofs.Execution.InfiniteTape
import SingleTape.Proofs.Execution.Silence

/-!
What observers who only record have on record of a machine at work. It is all that a display needs:
whoever goes through the recorded events again, on the tape and from the cell on which the machine
began, comes to the tape, the head and the state in which the machine is.
-/

namespace SingleTape

open Engine

/-- A tape on display, seen from the head. The cells on the left of it are listed from the nearest
one on. -/
structure Display where
  left : List Symbol
  scanned : Symbol
  right : List Symbol
  state : State

namespace Display

/-- The cells from the leftmost one on. -/
def tape (d : Display) : List Symbol := d.left.reverse ++ d.scanned :: d.right

/-- The number of cells on the left of the head. -/
def head (d : Display) : Nat := d.left.length

/-- Moves the head. Where no cell is left there comes a blank one. -/
def moveHead (blank : Symbol) (d : Display) : Move → Display
  | .left =>
    { d with left := d.left.tail, scanned := d.left.headD blank, right := d.scanned :: d.right }
  | .right =>
    { d with left := d.scanned :: d.left, scanned := d.right.headD blank, right := d.right.tail }
  | .stay => d
  | .invalid _ _ => d

/-- Follows an event. The end of a step says all that the display has to know. -/
def hear (blank : Symbol) (d : Display) : Event → Display
  | .stepEnd q a m => moveHead blank { d with scanned := a, state := q } m
  | _ => d

/-- Follows one event after another. -/
def replay (blank : Symbol) (d : Display) (events : List Event) : Display :=
  events.foldl (hear blank) d

theorem replay_append (blank : Symbol) (d : Display) (events events' : List Event) :
    d.replay blank (events ++ events') = (d.replay blank events).replay blank events' :=
  List.foldl_append

end Display

namespace Config

variable {M : Machine} {c d : Config} {t : Transition} {ts : List Transition}

def display (M : Machine) (c : Config) : Display where
  left := (c.tape.take c.head).reverse
  scanned := c.scanned M
  right := c.tape.drop (c.head + 1)
  state := c.state

theorem display_tape (h : c.head < c.tape.length) : (c.display M).tape = c.tape := by
  have hscanned : c.scanned M = c.tape[c.head] := by
    rw [scanned, List.getD_eq_getElem?_getD, List.getElem?_eq_getElem h, Option.getD_some]
  rw [Display.tape, display, List.reverse_reverse, hscanned, List.getElem_cons_drop,
    List.take_append_drop]

theorem display_head (h : c.head < c.tape.length) : (c.display M).head = c.head := by
  rw [Display.head, display, List.length_reverse, List.length_take]
  omega

section Shown

variable {left right : List Symbol} {a : Symbol}

theorem display_eq (htape : c.tape = left.reverse ++ a :: right) (hhead : c.head = left.length) :
    c.display M = ⟨left, a, right, c.state⟩ := by
  have hlen : left.reverse.length = c.head := by rw [List.length_reverse, hhead]
  have hleft : c.tape.take c.head = left.reverse := by
    rw [htape, ← hlen, List.take_left]
  have hright : c.tape.drop (c.head + 1) = right := by
    rw [htape, ← hlen, List.drop_append, List.drop_eq_nil_of_le (Nat.le_succ _)]
    simp
  have hscanned : c.scanned M = a := by
    rw [scanned, htape, ← hlen]
    simp
  rw [display, hleft, List.reverse_reverse, hscanned, hright]

theorem exists_tape_eq (h : c.head < c.tape.length) :
    ∃ (left : List Symbol) (a : Symbol) (right : List Symbol),
      c.tape = left.reverse ++ a :: right ∧ c.head = left.length :=
  ⟨_, _, _, (display_tape (M := {}) h).symm, (display_head (M := {}) h).symm⟩

end Shown

theorem display_write (h : c.head < c.tape.length) (b : Symbol) (q : State) :
    ({ c with tape := c.tape.set c.head b, state := q } : Config).display M =
      { c.display M with scanned := b, state := q } := by
  obtain ⟨left, a, right, htape, hhead⟩ := exists_tape_eq h
  have hset : c.tape.set c.head b = left.reverse ++ b :: right := by
    rw [htape, hhead]
    simp
  rw [display_eq htape hhead]
  exact display_eq hset hhead

/-- Where the tape grows there is nothing on that side of the head of the display. -/
theorem display_moveHead (h : c.head < c.tape.length) (m : Move) :
    (c.moveHead M m).display M = (c.display M).moveHead M.blank m := by
  obtain ⟨left, a, right, htape, hhead⟩ := exists_tape_eq h
  rw [display_eq htape hhead]
  cases m with
  | left =>
    cases left with
    | nil =>
      have hzero : c.head = 0 := hhead
      have hgrown : M.blank :: c.tape = ([] : List Symbol).reverse ++ M.blank :: a :: right := by
        simp [htape]
      rw [moveHead, if_pos hzero]
      exact display_eq hgrown hzero
    | cons b left =>
      have hpos : ¬c.head = 0 := by simp [hhead]
      rw [moveHead, if_neg hpos]
      exact display_eq (by simp [htape]) (by simp [hhead])
  | right =>
    have hlen : c.tape.length = left.length + 1 + right.length := by
      simp [htape]
      omega
    cases right with
    | nil =>
      have hend : c.head + 1 = c.tape.length := by simp [hlen, hhead]
      rw [moveHead, if_pos hend]
      exact display_eq (by simp [htape]) (by simp [hhead])
    | cons b right =>
      have hend : ¬c.head + 1 = c.tape.length := by simp [hlen, hhead]
      rw [moveHead, if_neg hend]
      exact display_eq (by simp [htape]) (by simp [hhead])
  | stay => exact display_eq htape hhead
  | invalid code hcode => exact display_eq htape hhead

theorem display_apply (h : c.head < c.tape.length) (t : Transition) :
    (c.apply M t).display M =
      (c.display M).hear M.blank (.stepEnd t.next t.write t.move) := by
  have hlt : c.head < (c.tape.set c.head t.write).length := by rwa [List.length_set]
  rw [apply, display_moveHead hlt, display_write h]
  rfl

/-- What is told of a transition: that it begins, that it was taken, and where the head is then if
it is on a cell with another number. -/
def telling (M : Machine) (c : Config) (t : Transition) : List Event :=
  [.stepStart t.next t.write, .stepEnd t.next t.write t.move] ++
    if (c.apply M t).head = c.head then [] else [.headMoved (c.apply M t).head c.head]

/-- The head that moves to a new cell on the left of the tape is on cell 0 again. -/
theorem telling_of_growing_left (h : c.head = 0) (ht : t.move = .left) :
    c.telling M t = [.stepStart t.next t.write, .stepEnd t.next t.write t.move] := by
  have hhead : (c.apply M t).head = c.head := by simp [apply, moveHead, ht, h]
  rw [telling, if_pos hhead, List.append_nil]

/-- Steps one after another, each with its transition. -/
inductive Takes (M : Machine) : Config → List Transition → Config → Prop
  | nil (c : Config) : Takes M c [] c
  | cons {c d : Config} {t : Transition} {ts : List Transition} (hnext : c.next M = .ok t)
    (hrest : Takes M (c.apply M t).countStep ts d) : Takes M c (t :: ts) d

/-- What is told of transitions that are taken one after another. -/
def events (M : Machine) : Config → List Transition → List Event
  | _, [] => []
  | c, t :: ts => c.telling M t ++ events M (c.apply M t).countStep ts

namespace Takes

theorem append {e : Config} {us : List Transition} (h : c.Takes M ts d) (h' : d.Takes M us e) :
    c.Takes M (ts ++ us) e := by
  induction h with
  | nil => exact h'
  | cons hnext _ ih => exact .cons hnext (ih h')

theorem events_append (h : c.Takes M ts d) (us : List Transition) :
    c.events M (ts ++ us) = c.events M ts ++ d.events M us := by
  induction h with
  | nil => rfl
  | cons hnext _ ih => rw [List.cons_append, events, ih, events, List.append_assoc]

theorem observers_eq (h : c.Takes M ts d) : d.observers = c.observers := by
  induction h with
  | nil => rfl
  | cons hnext _ ih => exact ih.trans (apply_observers _ _)

theorem steps_eq (h : c.Takes M ts d) : d.steps = c.steps + ts.length := by
  induction h with
  | nil => rfl
  | @cons c d t ts hnext _ ih =>
    have hone : (c.apply M t).countStep.steps = c.steps + 1 :=
      congrArg (· + 1) (apply_steps c t)
    rw [ih, hone, List.length_cons]
    omega

/-- Only the number of the steps can be chosen. -/
theorem eq_of_length_eq {e : Config} {us : List Transition} (h : c.Takes M ts d)
    (h' : c.Takes M us e) (hlen : ts.length = us.length) : ts = us := by
  induction h generalizing us with
  | nil => exact (List.length_eq_zero_iff.1 hlen.symm).symm
  | @cons c d t ts hnext _ ih =>
    cases h' with
    | nil => cases hlen
    | @cons _ _ t' us hnext' hrest' =>
      obtain rfl : t = t' := Except.ok.inj (hnext.symm.trans hnext')
      rw [ih hrest' (Nat.succ.inj hlen)]

theorem head_lt (h : c.Takes M ts d) (hlive : c.head < c.tape.length) :
    d.head < d.tape.length := by
  induction h with
  | nil => exact hlive
  | cons hnext _ ih => exact ih (apply_head_lt hlive _)

end Takes

/-- Beside the end of a step there is nothing for the display to follow. -/
theorem replay_telling (h : c.head < c.tape.length) (t : Transition) :
    (c.display M).replay M.blank (c.telling M t) = (c.apply M t).countStep.display M := by
  have happly : (c.apply M t).countStep.display M =
      (c.display M).hear M.blank (.stepEnd t.next t.write t.move) := display_apply h t
  rw [happly, telling]
  split <;> rfl

theorem Takes.replay_events (h : c.Takes M ts d) (hlive : c.head < c.tape.length) :
    (c.display M).replay M.blank (c.events M ts) = d.display M := by
  induction h with
  | nil => rfl
  | cons hnext _ ih =>
    rw [events, Display.replay_append, replay_telling hlive, ih (apply_head_lt hlive _)]

end Config

def Event.isStepEnd : Event → Bool
  | stepEnd _ _ _ => true
  | _ => false

theorem Config.countP_events (M : Machine) (c : Config) (ts : List Transition) :
    (c.events M ts).countP Event.isStepEnd = ts.length := by
  induction ts generalizing c with
  | nil => rfl
  | cons t ts ih =>
    have hone : (c.telling M t).countP Event.isStepEnd = 1 := by
      rw [telling]
      split <;> rfl
    rw [events, List.countP_append, hone, ih, List.length_cons, Nat.add_comm]

/-- Whenever the display hears that the head has moved, it has just followed the end of a step, and
its own head was then moved in the same way. -/
def Display.Moves (blank : Symbol) (d : Display) (events : List Event) : Prop :=
  ∀ (before : List Event) (new old : Int) (after : List Event),
    events = before ++ .headMoved new old :: after →
    ∃ earlier q a m, before = earlier ++ [.stepEnd q a m] ∧ new ≠ old ∧
      old = (d.replay blank earlier).head ∧ new = (d.replay blank before).head

theorem Display.Moves.append {blank : Symbol} {d : Display} {events events' : List Event}
    (h : d.Moves blank events) (h' : (d.replay blank events).Moves blank events') :
    d.Moves blank (events ++ events') := by
  intro before new old after hall
  rcases List.append_eq_append_iff.1 hall with ⟨rest, rfl, hrest⟩ | ⟨rest, hfirst, hrest⟩
  · obtain ⟨earlier, q, a, m, rfl, hne, hold, hnew⟩ := h' rest new old after hrest
    rw [← replay_append] at hold hnew
    exact ⟨events ++ earlier, q, a, m, (List.append_assoc ..).symm, hne, hold, hnew⟩
  · cases rest with
    | nil =>
      -- Those who come later begin with the move, and nothing ends just before it.
      obtain ⟨earlier, q, a, m, hnil, -⟩ := h' [] new old after hrest.symm
      simp at hnil
    | cons event rest =>
      obtain ⟨rfl, -⟩ := List.cons.inj hrest
      exact h before new old rest hfirst

namespace Config

variable {M : Machine} {c d : Config} {t : Transition} {ts : List Transition}

theorem moves_telling (h : c.head < c.tape.length) (t : Transition) :
    (c.display M).Moves M.blank (c.telling M t) := by
  intro before new old after htold
  rcases before with _ | ⟨start, _ | ⟨stop, before⟩⟩
  · simp [telling] at htold
  · simp [telling] at htold
  · obtain ⟨rfl, hstop⟩ := List.cons.inj htold
    obtain ⟨rfl, hmoved⟩ := List.cons.inj hstop
    have happly : (c.apply M t).display M =
        (c.display M).hear M.blank (.stepEnd t.next t.write t.move) := display_apply h t
    split at hmoved
    next hsame => simp at hmoved
    next hdiffers =>
      cases before with
      | nil =>
        obtain ⟨hevent, -⟩ := List.cons.inj hmoved
        obtain ⟨rfl, rfl⟩ := Event.headMoved.inj hevent
        refine ⟨[.stepStart t.next t.write], t.next, t.write, t.move, rfl, ?_, ?_, ?_⟩
        · omega
        · exact congrArg Nat.cast (display_head h).symm
        · have hhead := display_head (M := M) (apply_head_lt (M := M) h t)
          rw [happly] at hhead
          exact congrArg Nat.cast hhead.symm
      | cons event before => simp at hmoved

theorem Takes.moves (h : c.Takes M ts d) (hlive : c.head < c.tape.length) :
    (c.display M).Moves M.blank (c.events M ts) := by
  induction h with
  | nil =>
    intro before new old after htold
    simp [events] at htold
  | cons hnext _ ih =>
    refine (moves_telling hlive _).append ?_
    rw [replay_telling hlive]
    exact ih (apply_head_lt hlive _)

/-- The display that follows what is told of a tape and of the transitions after it comes to the
configuration to which they lead. -/
structure Replays (M : Machine) (c : Config) (events : List Event) (d : Config) : Prop where
  tape_eq : ((c.display M).replay M.blank events).tape = d.tape
  head_eq : ((c.display M).replay M.blank events).head = d.head
  state_eq : ((c.display M).replay M.blank events).state = d.state
  moves : (c.display M).Moves M.blank events

theorem Takes.replays (h : c.Takes M ts d) (hlive : c.head < c.tape.length) (head : Int) :
    c.Replays M (.tapeChanged head :: c.events M ts) d := by
  have hreplay : (c.display M).replay M.blank (.tapeChanged head :: c.events M ts) =
      d.display M := h.replay_events hlive
  have htape : (c.display M).Moves M.blank [.tapeChanged head] := by
    intro before new old after hone
    cases before <;> simp at hone
  refine ⟨?_, ?_, ?_, htape.append (h.moves hlive)⟩
  · rw [hreplay, display_tape (h.head_lt hlive)]
  · rw [hreplay, display_head (h.head_lt hlive)]
  · rw [hreplay]
    rfl

end Config

/-- Who heard of what, in the order in which it was noted. -/
def Point.log (ps : List Point) : List (Text × Event) :=
  ps.filterMap fun
    | .entered name event _ => some (name, event)
    | _ => none

theorem Point.log_append (ps qs : List Point) : log (ps ++ qs) = log ps ++ log qs :=
  List.filterMap_append

/-- All of them hear of an event, one after another. -/
def Event.toAll (names : List Text) (event : Event) : List (Text × Event) := names.map (·, event)

/-- What one of them has heard. -/
def heardBy (name : Text) (log : List (Text × Event)) : List Event :=
  (log.filter (·.1 = name)).map Prod.snd

/-- Each of them hears of each event once. -/
theorem heardBy_flatMap_toAll {names : List Text} (hnodup : names.Nodup) {name : Text}
    (hname : name ∈ names) (events : List Event) :
    heardBy name (events.flatMap (Event.toAll names)) = events := by
  have hone : names.filter (· = name) = [name] := by
    rw [List.filter_eq, hnodup.count, if_pos hname]
    rfl
  have hall : ∀ event : Event, heardBy name (event.toAll names) = [event] := by
    intro event
    simp [heardBy, Event.toAll, List.filter_map, Function.comp_def, hone]
  induction events with
  | nil => rfl
  | cons event events ih =>
    have hfirst := hall event
    simp only [heardBy] at hfirst ih ⊢
    rw [List.flatMap_cons, List.filter_append, List.map_append, hfirst, ih]
    rfl

/-- The call makes the machine go on. -/
def Call.isMotion : Call → Bool
  | .ask _ => false
  | .step => true
  | .run _ => true

/-- What the work leaves behind is of this kind. -/
def Result.Ends {ω α : Type} (P : Config → ω → Prop) : Result ω α → Prop
  | .ok _ c w => P c w
  | .error _ c w => P c w
  | .exhausted => True

theorem Result.Ends.imp {ω α : Type} {P Q : Config → ω → Prop} {r : Result ω α} (h : r.Ends P)
    (hpq : ∀ c w, P c w → Q c w) : r.Ends Q := by
  cases r with
  | ok a c w => exact hpq c w h
  | error e c w => exact hpq c w h
  | exhausted => trivial

namespace Execution

section Recording

variable {ω α β : Type} {M : Machine} {deliver : Text → Event → Execution (ω × List Point) Unit}

/-- Whoever hears of an event notes it and does nothing else to the machine. -/
def Notes (deliver : Text → Event → Execution (ω × List Point) Unit) : Prop :=
  ∀ name event c w, ∃ v, deliver name event c w = .ok () c (v, w.2 ++ [.entered name event c])

theorem notes_of_silent {react : Observers ω} (h : react.Silent) (M : Machine) (fuel : Nat) :
    Notes (Execution.deliver M react.noting (fuel + 1)) := by
  intro name event c w
  obtain ⟨v, hv⟩ := h name event w.1 c
  refine ⟨v, ?_⟩
  rw [deliver_succ, Observers.noting, hv]
  rfl

theorem announceTo_of_notes (h : Notes deliver) (event : Config → Event) (number : Nat)
    (names : List Text) (c : Config) (w : ω × List Point) :
    ∃ v ps, announceTo deliver event number names c w = .ok () c (v, w.2 ++ ps) ∧
      Point.log ps = (event c).toAll names := by
  induction names generalizing w with
  | nil => exact ⟨w.1, [], by simp [announceTo], rfl⟩
  | cons name names ih =>
    obtain ⟨u, hfirst⟩ := h name (event c) c w
    obtain ⟨v, ps, hrest, hlog⟩ := ih (u, w.2 ++ [.entered name (event c) c])
    refine ⟨v, [.entered name (event c) c] ++ ps, ?_, ?_⟩
    · simp only [announceTo, bind_apply, get_apply, hearing_eq, hfirst, hrest, List.append_assoc]
    · rw [Point.log_append, hlog]
      rfl

theorem announce_of_notes (h : Notes deliver) (event : Config → Event) (c : Config)
    (w : ω × List Point) :
    ∃ v ps, announce deliver event c w = .ok () c (v, w.2 ++ ps) ∧
      Point.log ps = (event c).toAll c.observers :=
  announceTo_of_notes h event 0 c.observers c w

/-- A step that fails is not noticed. -/
theorem step_of_next_error {c : Config} {e : Error} (he : c.next M = .error e)
    (w : ω × List Point) : step M deliver c w = .error (.error e) c w := by
  simp only [step, doing_eq, bind_apply, find_apply, he]

theorem step_of_next (h : Notes deliver) {c : Config} {t : Transition} (ht : c.next M = .ok t)
    (w : ω × List Point) :
    ∃ v ps, step M deliver c w = .ok () (c.apply M t).countStep (v, w.2 ++ ps) ∧
      Point.log ps = (c.telling M t).flatMap (Event.toAll c.observers) := by
  obtain ⟨v, ps, hstart, hps⟩ := announce_of_notes h (fun _ => .stepStart t.next t.write) c w
  obtain ⟨v', ps', hstop, hps'⟩ := announce_of_notes h
    (fun _ => .stepEnd t.next t.write t.move) (c.apply M t) (v, w.2 ++ ps)
  rw [Config.apply_observers] at hps'
  by_cases hhead : (c.apply M t).head = c.head
  · refine ⟨v', ps ++ ps', ?_, ?_⟩
    · simp [step, take, bind_apply, find_apply, ht, hstart, hstop, hhead]
    · simp [Config.telling, hhead, Point.log_append, hps, hps']
  · obtain ⟨v'', ps'', hmoved, hps''⟩ := announce_of_notes h
      (fun d => .headMoved d.head c.head) (c.apply M t) (v', w.2 ++ ps ++ ps')
    rw [Config.apply_observers] at hps''
    refine ⟨v'', ps ++ ps' ++ ps'', ?_, ?_⟩
    · simp only [List.append_assoc] at hstop hmoved
      simp [step, take, bind_apply, find_apply, ht, hstart, hstop, hhead, hmoved]
    · simp [Config.telling, hhead, Point.log_append, hps, hps', hps'']

/-- The one configuration comes of the other by transitions, and all that is told of them has been
noted meanwhile. -/
def Recorded (M : Machine) (c : Config) (notes : List Point) (d : Config) (notes' : List Point) :
    Prop :=
  ∃ ts, c.Takes M ts d ∧
    Point.log notes' = Point.log notes ++ (c.events M ts).flatMap (Event.toAll c.observers)

theorem recorded_refl (M : Machine) (c : Config) (notes : List Point) :
    Recorded M c notes c notes :=
  ⟨[], .nil c, by simp [Config.events]⟩

theorem Recorded.trans {c d e : Config} {notes notes' notes'' : List Point}
    (h : Recorded M c notes d notes') (h' : Recorded M d notes' e notes'') :
    Recorded M c notes e notes'' := by
  obtain ⟨ts, htakes, hlog⟩ := h
  obtain ⟨us, htakes', hlog'⟩ := h'
  refine ⟨ts ++ us, htakes.append htakes', ?_⟩
  rw [hlog', hlog, htakes.observers_eq, htakes.events_append, List.flatMap_append,
    List.append_assoc]

/-- The work makes the machine take transitions, and whatever comes of it, they are on record. -/
def Records (M : Machine) (x : Execution (ω × List Point) α) : Prop :=
  ∀ c w, (x c w).Ends fun d v => Recorded M c w.2 d v.2

theorem records_of_idle {x : Execution (ω × List Point) α}
    (h : ∀ c w, (x c w).Ends fun d v => d = c ∧ v = w) : Records M x := by
  intro c w
  refine (h c w).imp ?_
  rintro d v ⟨rfl, rfl⟩
  exact recorded_refl M d v.2

theorem Records.bind {x : Execution (ω × List Point) α}
    {f : α → Execution (ω × List Point) β} (hx : Records M x) (hf : ∀ a, Records M (f a)) :
    Records M (x >>= f) := by
  intro c w
  have hfirst := hx c w
  rw [bind_apply]
  cases hxc : x c w with
  | ok a d v =>
    rw [hxc] at hfirst
    exact (hf a d v).imp fun _ _ hrest => hfirst.trans hrest
  | error e d v =>
    rw [hxc] at hfirst
    exact hfirst
  | exhausted => trivial

theorem records_step (h : Notes deliver) : Records M (step M deliver) := by
  intro c w
  cases hnext : c.next M with
  | error e =>
    rw [step_of_next_error hnext]
    exact recorded_refl M c w.2
  | ok t =>
    obtain ⟨v, ps, hstep, hps⟩ := step_of_next h hnext w
    rw [hstep]
    refine ⟨[t], .cons hnext (.nil _), ?_⟩
    simp [Config.events, Point.log_append, hps]

theorem records_pure (a : α) : Records M (pure a : Execution (ω × List Point) α) :=
  records_of_idle fun _ _ => ⟨rfl, rfl⟩

theorem records_get : Records M (get : Execution (ω × List Point) Config) :=
  records_of_idle fun _ _ => ⟨rfl, rfl⟩

theorem records_throw (e : Failure) : Records M (throw e : Execution (ω × List Point) α) :=
  records_of_idle fun _ _ => ⟨rfl, rfl⟩

theorem Records.tryCatch {x : Execution (ω × List Point) α}
    {handle : Failure → Execution (ω × List Point) α} (hx : Records M x)
    (hhandle : ∀ e, Records M (handle e)) : Records M (tryCatch x handle) := by
  intro c w
  have hfirst := hx c w
  rw [tryCatch_apply]
  cases hxc : x c w with
  | ok a d v =>
    rw [hxc] at hfirst
    exact hfirst
  | error e d v =>
    rw [hxc] at hfirst
    exact (hhandle e d v).imp fun _ _ hrest => hfirst.trans hrest
  | exhausted => trivial

/-- Whatever is done in steps is on record. -/
def recording (h : Notes deliver) : Course M deliver deliver where
  rel x _ := Records M x
  rel_pure := records_pure
  rel_throw := records_throw
  rel_exhausted _ _ := trivial
  rel_bind := Records.bind
  rel_look hf := records_get.bind fun c => hf c c rfl
  rel_tryCatch := Records.tryCatch
  rel_call _ _ _ hx := hx
  rel_step := records_step h

theorem records_session (h : Notes deliver) (fuel : Nat) {calls : List Call}
    (hcalls : ∀ call ∈ calls, call.isMotion) : Records M (session M deliver fuel calls) := by
  have hmotion : ∀ c : Call, c.isMotion → Records M (call M deliver fuel c) := by
    intro c hc
    cases c with
    | ask request => cases hc
    | step => exact records_step h
    | run maxSteps =>
      let R : Course M deliver deliver := recording h
      have hrun : Records M (run M deliver fuel maxSteps) :=
        R.rel_run (R.rel_runUnbounded fuel) maxSteps
      exact hrun.bind fun _ => records_pure ()
  induction calls with
  | nil => exact records_pure ()
  | cons call calls ih =>
    obtain ⟨hfirst, hrest⟩ := List.forall_mem_cons.1 hcalls
    exact ((hmotion call hfirst).tryCatch fun _ => records_pure ()).bind fun _ => ih hrest

/-- When a tape is set everybody hears of it, with the head that was asked for. -/
theorem setTape_of_notes (h : Notes deliver) {tape : List Symbol} {head : Int} {c d : Config}
    {w v : ω × List Point} (hset : setTape M deliver tape head c w = .ok () d v) :
    c.load M tape head = (d, none) ∧
      Point.log v.2 = Point.log w.2 ++ Event.toAll c.observers (.tapeChanged head) := by
  cases hfind : tape.find? (· ∉ M.alphabet) with
  | some a =>
    simp only [setTape, doing_eq, hfind] at hset
    cases hset
  | none =>
    simp only [setTape, doing_eq, hfind, bind_apply, load_apply] at hset
    have hobs := c.load_observers (M := M) tape head
    rcases hload : c.load M tape head with ⟨d', _ | e⟩
    · obtain ⟨u, ps, htold, hps⟩ := announce_of_notes h (fun _ => .tapeChanged head) d' w
      rw [hload] at hset hobs
      simp only [htold] at hset
      cases hset
      refine ⟨rfl, ?_⟩
      rw [Point.log_append, hps, hobs]
    · rw [hload] at hset
      cases hset

end Recording

/-- What those who only record have heard of a tape that was set and of the steps and runs after it.
First all of them have heard of the tape, with the head that was asked for. Then they have heard of
one transition after another, those that the machine has taken and counted since, and of no step
that failed; of a move of the head they have heard just if it is on a cell with another number then,
so of none to a new cell on the left. Each of them has heard of the end of as many steps as were
counted. And a display of the tape that was set, when it follows what one of them has heard, comes
to the tape, the head and the state in which the machine is, with every move of the head that was
told being one of its own. -/
theorem session_on_record {ω : Type} {react : Observers ω} (hreact : react.Silent) (M : Machine)
    (fuel loops : Nat) {tape : List Symbol} {head : Int} {calls : List Call}
    (hcalls : ∀ call ∈ calls, call.isMotion) {c c₁ c₂ : Config} (hobs : c.observers.Nodup)
    {w : ω} {w₁ w₂ : ω × List Point}
    (hset : setTape M (deliver M react.noting (fuel + 1)) tape head c (w, []) = .ok () c₁ w₁)
    (hend : session M (deliver M react.noting (fuel + 1)) loops calls c₁ w₁ = .ok () c₂ w₂) :
    ((c₁.display M).tape = c₁.tape ∧ (c₁.display M).head = c₁.head) ∧
    ∃ ts, c₁.Takes M ts c₂ ∧ c₂.steps = c.steps + ts.length ∧
      Point.log w₂.2 =
        (.tapeChanged head :: c₁.events M ts).flatMap (Event.toAll c.observers) ∧
      (∀ (d : Config) (t : Transition), d.head = 0 → t.move = .left →
        d.telling M t = [.stepStart t.next t.write, .stepEnd t.next t.write t.move]) ∧
      (∀ name ∈ c.observers,
        heardBy name (Point.log w₂.2) = .tapeChanged head :: c₁.events M ts ∧
        c₂.steps = c.steps + (heardBy name (Point.log w₂.2)).countP Event.isStepEnd ∧
        c₁.Replays M (heardBy name (Point.log w₂.2)) c₂) ∧
      ∀ d v e d' v', step M (deliver M react.noting (fuel + 1)) d v = .error e d' v' →
        d' = d ∧ v' = v := by
  have hnotes := notes_of_silent hreact M fuel
  obtain ⟨hload, htape⟩ := setTape_of_notes hnotes hset
  have hrecord := records_session (M := M) hnotes loops hcalls c₁ w₁
  rw [hend] at hrecord
  obtain ⟨ts, htakes, hlog⟩ := hrecord
  have hobs₁ : c₁.observers = c.observers := by rw [← c.load_observers tape head, hload]
  have hsteps₁ : c₁.steps = c.steps := by rw [← c.load_steps tape head, hload]
  have hlive : c₁.head < c₁.tape.length := Config.load_head_lt hload
  have hcount : c₂.steps = c.steps + ts.length := by rw [htakes.steps_eq, hsteps₁]
  have hall : Point.log w₂.2 =
      (.tapeChanged head :: c₁.events M ts).flatMap (Event.toAll c.observers) := by
    rw [hlog, htape, hobs₁]
    rfl
  refine ⟨⟨Config.display_tape hlive, Config.display_head hlive⟩, ts, htakes, hcount, hall, ?_, ?_,
    ?_⟩
  · intro d t hzero hleft
    exact Config.telling_of_growing_left hzero hleft
  · intro name hname
    have hone : (Event.tapeChanged head :: c₁.events M ts).countP Event.isStepEnd = ts.length :=
      Config.countP_events M c₁ ts
    rw [hall, heardBy_flatMap_toAll hobs hname, hone]
    exact ⟨rfl, hcount, htakes.replays hlive head⟩
  · intro d v e d' v' hfails
    cases hnext : d.next M with
    | error err =>
      rw [step_of_next_error hnext] at hfails
      cases hfails
      exact ⟨rfl, rfl⟩
    | ok t =>
      obtain ⟨u, ps, hstep, -⟩ := step_of_next hnotes hnext v
      rw [hstep] at hfails
      cases hfails

/-- Both who observe the first two steps of counting from 3 to 4 hear that the head moves within the
numeral, and hear of no move to the new cell in front of it. -/
theorem increment_on_record :
    let react : Observers Unit := fun _ _ w _ => .done w
    let c := { Machine.increment.start with observers := ["a", "b"] }
    let c₁ := { c with tape := Text.symbols "11", tapeSet := true, head := 1 }
    let c₂ := { c₁ with tape := Text.symbols "#00", head := 0, steps := 2 }
    ∃ w₁ w₂, setTape Machine.increment (deliver Machine.increment react.noting 1)
        (Text.symbols "11") 1 c ((), []) = .ok () c₁ w₁ ∧
      session Machine.increment (deliver Machine.increment react.noting 1) 0
        [.step, .run (some 1)] c₁ w₁ = .ok () c₂ w₂ ∧
      ∀ name ∈ c.observers, heardBy name (Point.log w₂.2) =
          [.tapeChanged 1, .stepStart "carry" (.ofChar '0'),
            .stepEnd "carry" (.ofChar '0') .left, .headMoved 0 1,
            .stepStart "carry" (.ofChar '0'), .stepEnd "carry" (.ofChar '0') .left] ∧
        c₁.Replays Machine.increment (heardBy name (Point.log w₂.2)) c₂ := by
  intro react c c₁ c₂
  have hsilent : react.Silent := fun _ _ w _ => ⟨w, rfl⟩
  have hmotion : ∀ call ∈ [Call.step, .run (some 1)], call.isMotion := by simp [Call.isMotion]
  have hnodup : c.observers.Nodup := by decide
  let carry : Transition := ⟨.ofChar '1', .ofChar '0', .left, "carry"⟩
  let d := (c₁.apply Machine.increment carry).countStep
  have hcarry : c₁.next Machine.increment = .ok carry := rfl
  have hagain : d.next Machine.increment = .ok carry := rfl
  obtain ⟨w₁, hset⟩ : ∃ w₁, setTape Machine.increment (deliver Machine.increment react.noting 1)
      (Text.symbols "11") 1 c ((), []) = .ok () c₁ w₁ := ⟨_, rfl⟩
  have hnotes := notes_of_silent hsilent Machine.increment 0
  obtain ⟨u, ps, hfirst, -⟩ := step_of_next hnotes hcarry w₁
  obtain ⟨v, qs, hsecond, -⟩ := step_of_next hnotes hagain (u, w₁.2 ++ ps)
  have hend : session Machine.increment (deliver Machine.increment react.noting 1) 0
      [.step, .run (some 1)] c₁ w₁ = .ok () c₂ (v, w₁.2 ++ ps ++ qs) := by
    have hrun : run Machine.increment (deliver Machine.increment react.noting 1) 0 (some 1) d
        (u, w₁.2 ++ ps) = .ok .stepLimitReached c₂ (v, w₁.2 ++ ps ++ qs) := by
      have hlive : ¬d.isHalted Machine.increment := by decide
      simp only [run, doing_eq, tryCatch_apply, runBounded, Int.toNat_one, bind_apply, get_apply,
        if_neg hlive, hsecond]
      rfl
    simp only [session, Engine.call, tryCatch_apply, bind_apply, hfirst]
    rw [hrun]
    rfl
  obtain ⟨-, ts, htakes, hcount, -, -, hrecord, -⟩ :=
    session_on_record hsilent Machine.increment 0 0 hmotion hnodup hset hend
  refine ⟨w₁, _, hset, hend, fun name hname => ?_⟩
  obtain ⟨hheard, -, hreplays⟩ := hrecord name hname
  refine ⟨?_, hreplays⟩
  have htwice : c₁.Takes Machine.increment [carry, carry] c₂ :=
    .cons hcarry (.cons hagain (.nil _))
  have htwo : 2 = 0 + ts.length := hcount
  have hlen : ts.length = [carry, carry].length := by
    rw [List.length_cons, List.length_singleton]
    omega
  rw [hheard, htakes.eq_of_length_eq htwice hlen]
  rfl

end Execution

end SingleTape

import SingleTape.Execution

/-!
Traced executions. They list the points at which the outside can look at a machine, and the accesses
of its steps to tape and table; the list is kept also when the work does not end.
-/

namespace SingleTape

open Engine

inductive Point where
  /-- An observer hears of an event. -/
  | entered (observer : Text) (event : Event) (config : Config)
  /-- A call returns, or throws a failure. -/
  | ended (call : Call) (failure : Option Failure) (config : Config)
  /-- A step reads the scanned cell and looks for a transition. -/
  | lookup (config : Config)
  /-- A step writes and moves as the transition says. -/
  | store (config : Config) (transition : Transition)

def Traced (ω α : Type) : Type := Config → ω → Result ω α × List Point

namespace Traced

variable {ω α β : Type}

instance : Monad (Traced ω) where
  pure a := fun c w => (.ok a c w, [])
  bind x f := fun c w => match x c w with
    | (.ok a c w, ps) => ((f a c w).1, ps ++ (f a c w).2)
    | (.error e c w, ps) => (.error e c w, ps)
    | (.exhausted, ps) => (.exhausted, ps)

instance : MonadStateOf Config (Traced ω) where
  get := fun c w => (.ok c c w, [])
  set c := fun _ w => (.ok () c w, [])
  modifyGet f := fun c w => (.ok (f c).1 (f c).2 w, [])

instance : MonadExceptOf Failure (Traced ω) where
  throw e := fun c w => (.error e c w, [])
  tryCatch x handle := fun c w => match x c w with
    | (.ok a c w, ps) => (.ok a c w, ps)
    | (.error e c w, ps) => ((handle e c w).1, ps ++ (handle e c w).2)
    | (.exhausted, ps) => (.exhausted, ps)

/-- Work in which there is no point. -/
def lift (x : Execution ω α) : Traced ω α := fun c w => (x c w, [])

/-- Notes the point at which work begins. -/
def marking (point : Config → Point) (x : Traced ω α) : Traced ω α := fun c w =>
  ((x c w).1, point c :: (x c w).2)

/-- Notes how a call ends. -/
def ending (call : Call) (x : Traced ω α) : Traced ω α := fun c w => match x c w with
  | (.ok a c w, ps) => (.ok a c w, ps ++ [.ended call none c])
  | (.error e c w, ps) => (.error e c w, ps ++ [.ended call (some e) c])
  | (.exhausted, ps) => (.exhausted, ps)

/-- Notes that the table is asked, which it is only if the machine can go on. -/
def asking (M : Machine) (x : Traced ω α) : Traced ω α := fun c w =>
  if ¬c.isHalted M ∧ c.tapeSet then marking .lookup x c w else x c w

instance : Engine ω (Traced ω) where
  exhausted := fun _ _ => (.exhausted, [])
  silently f := fun c w => (.ok (f c w).1 (f c w).2.1 (f c w).2.2, [])
  doing
    | .call call, x => ending call x
    | .finding M, x => asking M x
    | .storing t, x => marking (.store · t) x
    | _, x => x
  announcing _ tell := tell 0
  hearing name event _ x := marking (.entered name event) x

abbrev deliver (M : Machine) (react : Observers ω) (fuel : Nat) : Text → Event → Traced ω Unit :=
  Engine.deliver M react fuel

theorem bind_apply (x : Traced ω α) (f : α → Traced ω β) (c : Config) (w : ω) :
    (x >>= f) c w = match x c w with
      | (.ok a c w, ps) => ((f a c w).1, ps ++ (f a c w).2)
      | (.error e c w, ps) => (.error e c w, ps)
      | (.exhausted, ps) => (.exhausted, ps) := rfl

@[simp] theorem pure_apply (a : α) (c : Config) (w : ω) :
    (pure a : Traced ω α) c w = (.ok a c w, []) := rfl

@[simp] theorem get_apply (c : Config) (w : ω) :
    (get : Traced ω Config) c w = (.ok c c w, []) := rfl

@[simp] theorem modify_apply (f : Config → Config) (c : Config) (w : ω) :
    (modify f : Traced ω Unit) c w = (.ok () (f c) w, []) := rfl

@[simp] theorem modifyGet_apply (f : Config → α × Config) (c : Config) (w : ω) :
    (modifyGet f : Traced ω α) c w = (.ok (f c).1 (f c).2 w, []) := rfl

@[simp] theorem throw_apply (e : Failure) (c : Config) (w : ω) :
    (throw e : Traced ω α) c w = (.error e c w, []) := rfl

@[simp] theorem exhausted_apply (c : Config) (w : ω) :
    (exhausted : Traced ω α) c w = (.exhausted, []) := rfl

@[simp] theorem silently_apply (f : Config → ω → α × Config × ω) (c : Config) (w : ω) :
    (silently f : Traced ω α) c w = (.ok (f c w).1 (f c w).2.1 (f c w).2.2, []) := rfl

@[simp] theorem doing_call (call : Call) (x : Traced ω α) :
    doing (.call call) x = ending call x := rfl

@[simp] theorem doing_finding (M : Machine) (x : Traced ω α) :
    doing (.finding M) x = asking M x := rfl

@[simp] theorem doing_storing (t : Transition) (x : Traced ω α) :
    doing (.storing t) x = marking (.store · t) x := rfl

@[simp] theorem doing_attaching (name : Text) (x : Traced ω α) :
    doing (.attaching name) x = x := rfl

@[simp] theorem doing_detaching (name : Text) (x : Traced ω α) :
    doing (.detaching name) x = x := rfl

@[simp] theorem hearing_eq (name : Text) (event : Event) (number : Nat) (x : Traced ω Unit) :
    hearing name event number x = marking (.entered name event) x := rfl

theorem tryCatch_apply (x : Traced ω α) (handle : Failure → Traced ω α) (c : Config) (w : ω) :
    tryCatch x handle c w = match x c w with
      | (.ok a c w, ps) => (.ok a c w, ps)
      | (.error e c w, ps) => ((handle e c w).1, ps ++ (handle e c w).2)
      | (.exhausted, ps) => (.exhausted, ps) := rfl

theorem attempt_apply (x : Traced ω α) (c : Config) (w : ω) : attempt x c w = match x c w with
    | (.ok a c w, ps) => (.ok (.ok a) c w, ps)
    | (.error e c w, ps) => (.ok (.error e) c w, ps)
    | (.exhausted, ps) => (.exhausted, ps) := by
  simp only [attempt, tryCatch_apply, bind_apply]
  rcases x c w with ⟨a | e | _, ps⟩
  all_goals simp

/-- Apart from what it answers, such work leaves no trace in the configuration. -/
theorem aside_apply (x : Traced ω α) (c : Config) (w : ω) :
    aside x c w = match x { c with observers := [] } w with
      | (.ok a _ w, ps) => (.ok a c w, ps)
      | (.error e _ w, ps) => (.error e c w, ps)
      | (.exhausted, ps) => (.exhausted, ps) := by
  have hdoing : doing .querying (attempt x) = attempt x := rfl
  simp only [aside, bind_apply, silently_apply, hdoing, attempt_apply]
  rcases x { c with observers := [] } w with ⟨a | e | _, ps⟩
  all_goals simp

/-- Looking a transition up changes nothing. -/
theorem find_apply (M : Machine) (c : Config) (w : ω) : (find M : Traced ω Transition) c w =
    ((find M : Execution ω Transition) c w,
      if ¬c.isHalted M ∧ c.tapeSet then [.lookup c] else []) := by
  rw [Execution.find_apply]
  simp only [find, doing_finding, asking, marking, bind_apply, get_apply]
  split <;> cases c.next M <;> rfl

section Work

variable {M : Machine} {deliver : Text → Event → Traced ω Unit}

theorem load_apply (tape : List Symbol) (head : Int) (c : Config) (w : ω) :
    (load M tape head : Traced ω Unit) c w =
      ((load M tape head : Execution ω Unit) c w, []) := by
  simp only [load, bind_apply, modifyGet_apply, Execution.bind_apply, Execution.modifyGet_apply]
  rcases c.load M tape head with ⟨d, _ | e⟩ <;> rfl

theorem announce_apply (event : Config → Event) (c : Config) (w : ω) :
    announce deliver event c w = announceTo deliver event 0 c.observers c w := rfl

/-- The symbols are looked at before the tape is put in place, and it is before it is announced. -/
theorem setTape_apply (tape : List Symbol) (head : Int) (c : Config) (w : ω) :
    setTape M deliver tape head c w = match tape.find? (· ∉ M.alphabet) with
      | some a => ending (.ask (.setTape tape head)) (throw (.error (.invalidSymbol a))) c w
      | none => match c.load M tape head with
        | (d, none) => ending (.ask (.setTape tape head))
          (announce deliver fun _ => .tapeChanged head) d w
        | (d, some e) => (.error e d w, [.ended (.ask (.setTape tape head)) (some e) d]) := by
  unfold setTape
  cases tape.find? (· ∉ M.alphabet) with
  | some a => rfl
  | none =>
    simp only [doing_call, ending, bind_apply, load_apply, Execution.load_apply]
    rcases c.load M tape head with ⟨d, _ | e⟩ <;> rfl

end Work

section Reaction

variable {serve : Request → Traced ω (Option Bool)} {c : Config} {w : ω}

@[simp] theorem perform_done (v : ω) : perform serve (.done v) c w = (.ok () c v, []) := rfl

@[simp] theorem perform_fail (v : ω) (e : Failure) :
    perform serve (.fail v e) c w = (.error e c v, []) := rfl

theorem perform_ask (v : ω) (request : Request)
    (next : ω → Config → Except Failure (Option Bool) → Reaction ω) :
    perform serve (.ask v request next) c w = match serve request c v with
      | (.ok answer c w, ps) =>
        ((perform serve (next w c (.ok answer)) c w).1,
          ps ++ (perform serve (next w c (.ok answer)) c w).2)
      | (.error e c w, ps) =>
        ((perform serve (next w c (.error e)) c w).1,
          ps ++ (perform serve (next w c (.error e)) c w).2)
      | (.exhausted, ps) => (.exhausted, ps) := by
  simp only [perform, bind_apply, setWorld, view, silently_apply, attempt_apply]
  rcases serve request c v with ⟨a | e | _, ps⟩ <;> rfl

end Reaction

end Traced

end SingleTape

import SingleTape.Proofs.Execution.Interpretation

/-!
Chronicles. A chronicle lists what happens in a session, moment after moment: each configuration
that the machine is in, who is attached and detached, where an event begins and where it is over,
and who hears of it in between. It is kept also when the work does not end. Without its chronicle
the work is that of the machine, and those who hear of an event are those who note it.
-/

namespace SingleTape

open Engine

/-- Events are known by the place in the chronicle at which they begin. -/
inductive Happening where
  | working
  | attached (name : Text)
  | detached (name : Text)
  | begun (event : Event)
  | heard (name : Text) (event : Event) (begin : Nat)
  | ended (begin : Nat)

structure Moment where
  config : Config
  /-- The machine is at work on a query. -/
  queried : Bool := false
  happening : Happening

namespace Moment

/-- What an observer who hears of an event at this moment would note. -/
def note? (m : Moment) : Option Point :=
  match m.happening with
  | .heard name event _ => some (.entered name event m.config)
  | _ => none

def notes (ms : List Moment) : List Point := ms.filterMap note?

@[simp] theorem notes_nil : notes [] = [] := rfl

@[simp] theorem notes_append (ms ms' : List Moment) :
    notes (ms ++ ms') = notes ms ++ notes ms' :=
  List.filterMap_append

@[simp] theorem notes_queried (ms : List Moment) :
    notes (ms.map fun m => { m with queried := true }) = notes ms :=
  List.filterMap_map

end Moment

/-- Work with its chronicle, which begins at a given place. -/
def Chronicled (ω α : Type) : Type := Config → ω → Nat → Result ω α × List Moment

namespace Chronicled

variable {ω α β : Type}

instance : Monad (Chronicled ω) where
  pure a := fun c w _ => (.ok a c w, [])
  bind x f := fun c w n => match x c w n with
    | (.ok a c w, ms) => ((f a c w (n + ms.length)).1, ms ++ (f a c w (n + ms.length)).2)
    | (.error e c w, ms) => (.error e c w, ms)
    | (.exhausted, ms) => (.exhausted, ms)

instance : MonadStateOf Config (Chronicled ω) where
  get := fun c w _ => (.ok c c w, [{ config := c, happening := .working }])
  set c := fun _ w _ => (.ok () c w, [{ config := c, happening := .working }])
  modifyGet f := fun c w _ =>
    (.ok (f c).1 (f c).2 w, [{ config := (f c).2, happening := .working }])

instance : MonadExceptOf Failure (Chronicled ω) where
  throw e := fun c w _ => (.error e c w, [])
  tryCatch x handle := fun c w n => match x c w n with
    | (.ok a c w, ms) => (.ok a c w, ms)
    | (.error e c w, ms) =>
      ((handle e c w (n + ms.length)).1, ms ++ (handle e c w (n + ms.length)).2)
    | (.exhausted, ms) => (.exhausted, ms)

def note (happening : Happening) : Chronicled ω Unit :=
  fun c w _ => (.ok () c w, [{ config := c, happening }])

/-- The work with each of its moments written down in another way. -/
def rewording (f : Moment → Moment) (x : Chronicled ω α) : Chronicled ω α := fun c w n =>
  ((x c w n).1, (x c w n).2.map f)

/-- Work in the middle of an event, which is known by its beginning. -/
def eventful (event : Config → Event) (tell : Nat → Chronicled ω Unit) : Chronicled ω Unit :=
  fun c w n => (do
    note (.begun (event c))
    tell n
    note (.ended n) : Chronicled ω Unit) c w n

instance : Engine ω (Chronicled ω) where
  exhausted := fun _ _ _ => (.exhausted, [])
  silently f := fun c w _ => (.ok (f c w).1 (f c w).2.1 (f c w).2.2, [])
  doing
    | .attaching name, x => rewording (fun m => { m with happening := .attached name }) x
    | .detaching name, x => rewording (fun m => { m with happening := .detached name }) x
    | .querying, x => rewording (fun m => { m with queried := true }) x
    | _, x => x
  announcing := eventful
  hearing name event number x := do
    note (.heard name event number)
    x

abbrev deliver (M : Machine) (react : Observers ω) (fuel : Nat) :
    Text → Event → Chronicled ω Unit := Engine.deliver M react fuel

theorem bind_apply (x : Chronicled ω α) (f : α → Chronicled ω β) (c : Config) (w : ω) (n : Nat) :
    (x >>= f) c w n = match x c w n with
      | (.ok a c w, ms) => ((f a c w (n + ms.length)).1, ms ++ (f a c w (n + ms.length)).2)
      | (.error e c w, ms) => (.error e c w, ms)
      | (.exhausted, ms) => (.exhausted, ms) := rfl

@[simp] theorem pure_apply (a : α) (c : Config) (w : ω) (n : Nat) :
    (pure a : Chronicled ω α) c w n = (.ok a c w, []) := rfl

@[simp] theorem modifyGet_apply (f : Config → α × Config) (c : Config) (w : ω) (n : Nat) :
    (modifyGet f : Chronicled ω α) c w n =
      (.ok (f c).1 (f c).2 w, [{ config := (f c).2, happening := .working }]) := rfl

@[simp] theorem throw_apply (e : Failure) (c : Config) (w : ω) (n : Nat) :
    (throw e : Chronicled ω α) c w n = (.error e c w, []) := rfl

@[simp] theorem note_apply (happening : Happening) (c : Config) (w : ω) (n : Nat) :
    (note happening : Chronicled ω Unit) c w n = (.ok () c w, [{ config := c, happening }]) := rfl

@[simp] theorem silently_apply (f : Config → ω → α × Config × ω) (c : Config) (w : ω) (n : Nat) :
    (silently f : Chronicled ω α) c w n = (.ok (f c w).1 (f c w).2.1 (f c w).2.2, []) := rfl

theorem tryCatch_apply (x : Chronicled ω α) (handle : Failure → Chronicled ω α) (c : Config)
    (w : ω) (n : Nat) : tryCatch x handle c w n = match x c w n with
      | (.ok a c w, ms) => (.ok a c w, ms)
      | (.error e c w, ms) =>
        ((handle e c w (n + ms.length)).1, ms ++ (handle e c w (n + ms.length)).2)
      | (.exhausted, ms) => (.exhausted, ms) := rfl

theorem attempt_apply (x : Chronicled ω α) (c : Config) (w : ω) (n : Nat) :
    attempt x c w n = match x c w n with
      | (.ok a c w, ms) => (.ok (.ok a) c w, ms)
      | (.error e c w, ms) => (.ok (.error e) c w, ms)
      | (.exhausted, ms) => (.exhausted, ms) := by
  simp only [attempt, tryCatch_apply, bind_apply]
  rcases x c w n with ⟨a | e | _, ms⟩
  all_goals simp

/-- Apart from what it answers, such work leaves no trace in the configuration. -/
theorem aside_apply (x : Chronicled ω α) (c : Config) (w : ω) (n : Nat) :
    aside x c w n = match x { c with observers := [] } w n with
      | (.ok a _ w, ms) => (.ok a c w, ms.map fun m => { m with queried := true })
      | (.error e _ w, ms) => (.error e c w, ms.map fun m => { m with queried := true })
      | (.exhausted, ms) => (.exhausted, ms.map fun m => { m with queried := true }) := by
  have hdoing : doing .querying (attempt x) =
      rewording (fun m => { m with queried := true }) (attempt x) := rfl
  simp only [aside, bind_apply, silently_apply, hdoing, rewording, attempt_apply]
  rcases x { c with observers := [] } w (n + [].length) with ⟨a | e | _, ms⟩
  all_goals simp

theorem announce_apply (tell : Text → Event → Chronicled ω Unit) (event : Config → Event)
    (c : Config) (w : ω) (n : Nat) : announce tell event c w n =
      match announceTo tell event n c.observers c w (n + 2) with
      | (.ok _ d v, ms) => (.ok () d v, { config := c, happening := .begun (event c) } ::
        { config := c, happening := .working } :: (ms ++ [{ config := d, happening := .ended n }]))
      | (.error e d v, ms) => (.error e d v, { config := c, happening := .begun (event c) } ::
        { config := c, happening := .working } :: ms)
      | (.exhausted, ms) => (.exhausted, { config := c, happening := .begun (event c) } ::
        { config := c, happening := .working } :: ms) := by
  have hannounce : announce tell event =
      eventful event fun number => get >>= fun c => announceTo tell event number c.observers := rfl
  have hget : ∀ k, (get : Chronicled ω Config) c w k =
    (.ok c c w, [{ config := c, happening := .working }]) := fun _ => rfl
  simp only [hannounce, eventful, bind_apply, note_apply, hget]
  rcases announceTo tell event n c.observers c w (n + 2) with ⟨⟨_, d, v⟩ | _ | _, ms⟩
  all_goals simp

/-- The same result, and those hear of events of whom the points say so. -/
inductive Alike : Result ω α × List Moment → Result ω α × List Point → Prop
  | intro (r : Result ω α) {ms : List Moment} {ps : List Point}
    (hnotes : Moment.notes ms = ps.filter Point.isEntry) : Alike (r, ms) (r, ps)

theorem Alike.result_eq {r : Result ω α × List Moment} {r' : Result ω α × List Point}
    (h : Alike r r') : r.1 = r'.1 := by
  cases h
  rfl

theorem Alike.notes_eq {r : Result ω α × List Moment} {r' : Result ω α × List Point}
    (h : Alike r r') : Moment.notes r.2 = r'.2.filter Point.isEntry := by
  cases h with
  | intro r hnotes => exact hnotes

theorem Alike.append {r : Result ω α × List Moment} {r' : Result ω α × List Point} (h : Alike r r')
    (ms : List Moment) (ps : List Point) (hnotes : Moment.notes ms = ps.filter Point.isEntry) :
    Alike (r.1, ms ++ r.2) (r'.1, ps ++ r'.2) := by
  cases h with
  | intro r hmore =>
    refine .intro r ?_
    rw [Moment.notes_append, List.filter_append, hnotes, hmore]

/-- With its chronicle and with its points the work is the same. -/
def Matches (x : Chronicled ω α) (y : Traced ω α) : Prop := ∀ c w n, Alike (x c w n) (y c w)

section Matching

theorem Matches.bind {x : Chronicled ω α} {y : Traced ω α} {f : α → Chronicled ω β}
    {g : α → Traced ω β} (hx : Matches x y) (hf : ∀ a, Matches (f a) (g a)) :
    Matches (x >>= f) (y >>= g) := by
  intro c w n
  have hxy := hx c w n
  rw [bind_apply, Traced.bind_apply]
  generalize x c w n = r at hxy ⊢
  generalize y c w = r' at hxy ⊢
  cases hxy with
  | intro r hnotes =>
    cases r with
    | ok a c' w' => exact (hf a c' w' _).append _ _ hnotes
    | error e c' w' => exact .intro _ hnotes
    | exhausted => exact .intro _ hnotes

theorem Matches.tryCatch {x : Chronicled ω α} {y : Traced ω α} {f : Failure → Chronicled ω α}
    {g : Failure → Traced ω α} (hx : Matches x y) (hf : ∀ e, Matches (f e) (g e)) :
    Matches (tryCatch x f) (tryCatch y g) := by
  intro c w n
  have hxy := hx c w n
  rw [tryCatch_apply, Traced.tryCatch_apply]
  generalize x c w n = r at hxy ⊢
  generalize y c w = r' at hxy ⊢
  cases hxy with
  | intro r hnotes =>
    cases r with
    | ok a c' w' => exact .intro _ hnotes
    | error e c' w' => exact (hf e c' w' _).append _ _ hnotes
    | exhausted => exact .intro _ hnotes

theorem Matches.aside {x : Chronicled ω α} {y : Traced ω α} (hx : Matches x y) :
    Matches (aside x) (aside y) := by
  intro c w n
  have hxy := hx { c with observers := [] } w n
  rw [aside_apply, Traced.aside_apply]
  generalize x { c with observers := [] } w n = r at hxy ⊢
  generalize y { c with observers := [] } w = r' at hxy ⊢
  cases hxy with
  | @intro r ms ps hnotes => cases r <;> exact .intro _ ((Moment.notes_queried ms).trans hnotes)

theorem Matches.ending {x : Chronicled ω α} {y : Traced ω α} (hx : Matches x y) (call : Call) :
    Matches x (Traced.ending call y) := by
  intro c w n
  have hxy := hx c w n
  rw [Traced.ending]
  generalize x c w n = r at hxy ⊢
  generalize y c w = r' at hxy ⊢
  cases hxy with
  | intro r hnotes => cases r <;> exact .intro _ (by simp [hnotes, Point.isEntry])

theorem Matches.asking {x : Chronicled ω α} {y : Traced ω α} (hx : Matches x y) (M : Machine) :
    Matches x (Traced.asking M y) := by
  intro c w n
  have hxy := hx c w n
  unfold Traced.asking
  split
  · exact hxy.append [] [.lookup c] rfl
  · exact hxy

theorem matches_modify (f : Config → Config) :
    Matches (modify f : Chronicled ω Unit) (modify f) := fun _ _ _ => .intro _ rfl

theorem matches_attach (name : Option Text) :
    Matches (attach name : Chronicled ω Unit) (attach name) := by
  cases name <;> exact fun _ _ _ => .intro _ rfl

theorem matches_detach (name : Option Text) :
    Matches (detach name : Chronicled ω Unit) (detach name) := by
  cases name <;> exact fun _ _ _ => .intro _ rfl

variable {M : Machine} {tell : Text → Event → Chronicled ω Unit}
  {deliver : Text → Event → Traced ω Unit}

theorem Matches.hearing {x : Chronicled ω Unit} {y : Traced ω Unit} (h : Matches x y) (name : Text)
    (event : Event) (number number' : Nat) :
    Matches (hearing name event number x) (hearing name event number' y) :=
  fun c w n => (h c w (n + 1)).append _ [.entered name event c] rfl

variable (h : ∀ name event, Matches (tell name event) (deliver name event))

include h

theorem matches_announceTo (event : Config → Event) (number number' : Nat) (names : List Text) :
    Matches (announceTo tell event number names) (announceTo deliver event number' names) := by
  induction names with
  | nil => exact fun _ _ _ => .intro _ rfl
  | cons name names ih =>
    have hget : Matches (get : Chronicled ω Config) get := fun _ _ _ => .intro _ rfl
    exact hget.bind fun c => ((h name (event c)).hearing name (event c) number number').bind
      fun _ => ih

theorem matches_announce (event : Config → Event) :
    Matches (announce tell event) (announce deliver event) := by
  intro c w n
  have hall := matches_announceTo h event n 0 c.observers c w (n + 2)
  rw [announce_apply, Traced.announce_apply]
  generalize announceTo tell event n c.observers c w (n + 2) = r at hall ⊢
  generalize announceTo deliver event 0 c.observers c w = r' at hall ⊢
  cases hall with
  | @intro r ms ps hnotes =>
    cases r with
    | ok _ d v =>
      refine .intro _ ?_
      rw [← hnotes, ← List.append_nil (Moment.notes ms)]
      exact Moment.notes_append ms _
    | error e d v => exact .intro _ hnotes
    | exhausted => exact .intro _ hnotes

/-- What is written in the chronicle does not change the work. -/
def matching : Correspondence M tell deliver where
  rel := Matches
  rel_pure _ _ _ _ := .intro _ rfl
  rel_throw _ _ _ _ := .intro _ rfl
  rel_exhausted _ _ _ := .intro _ rfl
  rel_bind := Matches.bind
  rel_look hfg c w n := (hfg c c rfl c w (n + 1)).append _ [] rfl
  rel_tryCatch := Matches.tryCatch
  rel_call call _ _ hx := hx.ending call
  rel_setAtInitial := matches_modify _
  rel_resetSteps := matches_modify _
  rel_place _ _ _ _ _ := .intro _ rfl
  rel_finding hx := hx.asking M
  rel_store _ _ _ _ := .intro _ rfl
  rel_countStep := matches_modify _
  rel_announce event _ := matches_announce h event

theorem matches_serve (fuel : Nat) (request : Request) :
    Matches (serve M tell fuel request) (serve M deliver fuel request) :=
  let R := (matching h).toConduct
  R.rel_serve (R.rel_accept (R.rel_runUnbounded fuel) Matches.aside) request
    (fun name _ => matches_attach name) fun name _ => matches_detach name

theorem matches_session (fuel : Nat) (calls : List Call) :
    Matches (session M tell fuel calls) (session M deliver fuel calls) :=
  let R := (matching h).toConduct
  let hloop := R.rel_runUnbounded fuel
  R.rel_session (R.rel_accept hloop Matches.aside) hloop matches_attach matches_detach calls

end Matching

theorem matches_deliver (M : Machine) (react : Observers ω) (fuel : Nat) (name : Text)
    (event : Event) : Matches (deliver M react fuel name event)
      (Traced.deliver M react fuel name event) := by
  induction fuel generalizing name event with
  | zero => exact fun _ _ _ => .intro _ rfl
  | succ fuel ih =>
    exact (matching (M := M) ih).rel_deliver (fun _ _ _ => .intro _ rfl)
      (fun _ _ _ _ => .intro _ rfl) (matches_serve ih fuel) name event

/-- Apart from its chronicle, a session is what it is. -/
theorem session_eq (react : Observers ω) (M : Machine) (fuel : Nat) (calls : List Call)
    (c : Config) (w : ω) : session M (Execution.deliver M react fuel) fuel calls c w =
      (session M (deliver M react fuel) fuel calls c w 0).1 := by
  have hmatch := matches_session (M := M) (matches_deliver M react fuel) fuel calls c w 0
  rw [← Traced.erase_session, Traced.erase, hmatch.result_eq]

/-- Those who note what they hear in a session note what its chronicle says. -/
theorem session_noting_eq (react : Observers ω) (M : Machine) (fuel : Nat) (calls : List Call)
    (c : Config) (w : ω) : session M (Execution.deliver M react.noting fuel) fuel calls c (w, []) =
      (session M (deliver M react fuel) fuel calls c w 0).1.mapWorld
        (·, Moment.notes (session M (deliver M react fuel) fuel calls c w 0).2) := by
  have hmatch := matches_session (M := M) (matches_deliver M react fuel) fuel calls c w 0
  rw [← Traced.noted_session, Traced.noted, hmatch.result_eq, hmatch.notes_eq, List.nil_append]

end Chronicled

end SingleTape

import SingleTape.Proofs.Execution.Delivery

/-!
Rounds of notification. All who hear of one event are told the same, whatever is asked of the
machine meanwhile, unless the event is a move of the head: then they are told where the head is when
they hear of it. This is where the step has moved it, as long as nobody puts another tape in place
between the move of a step and the end of it.
-/

namespace SingleTape

open Engine

namespace Event

def isHeadMoved : Event → Bool
  | headMoved _ _ => true
  | _ => false

/-- Told between the move of a step and the end of it. -/
def followsMove : Event → Bool
  | stepEnd _ _ _ => true
  | headMoved _ _ => true
  | _ => false

theorem at_eq_self {event : Event} (h : event.isHeadMoved = false) (c : Config) :
    event.at c = event := by
  cases event with
  | headMoved head old => cases h
  | _ => rfl

theorem exists_of_isHeadMoved {event : Event} (h : event.isHeadMoved) :
    ∃ head old, event = .headMoved head old := by
  cases event with
  | headMoved head old => exact ⟨head, old, rfl⟩
  | _ => cases h

theorem followsMove_at (event : Event) (c : Config) :
    (event.at c).followsMove = event.followsMove := by
  cases event <;> rfl

end Event

/-- A reaction that puts no tape in place, whatever comes of its requests. -/
inductive Reaction.KeepsTape {ω : Type} : Reaction ω → Prop
  | done (w : ω) : KeepsTape (.done w)
  | fail (w : ω) (e : Failure) : KeepsTape (.fail w e)
  | ask (w : ω) {request : Request} {next : ω → Config → Except Failure (Option Bool) → Reaction ω}
    (hrequest : ∀ tape head, request ≠ .setTape tape head)
    (hnext : ∀ w c answer, KeepsTape (next w c answer)) : KeepsTape (.ask w request next)

/-- Nobody puts another tape in place between the move of a step and the end of it. -/
def Observers.Steady {ω : Type} (react : Observers ω) : Prop :=
  ∀ name event w c, event.followsMove → (react name event w c).KeepsTape

namespace Moment

/-- A step has just stored what the transition says, and all were told how it ended. -/
def MovedBy (M : Machine) (past : List Moment) (t : Transition) (d b : Config) : Prop :=
  ∃ before meanwhile, past = before ++
    [⟨d, false, .working⟩, ⟨d.apply M t, false, .working⟩,
      ⟨d.apply M t, false, .begun (.stepEnd t.next t.write t.move)⟩] ++
    meanwhile ++ [⟨b, false, .ended (before.length + 2)⟩, ⟨b, false, .working⟩]

/-- What is so of each moment, seen from what is past. A move of the head is announced where the
step did not leave the head where it was. Whoever hears of an event is told of it as it is at that
moment. If the machine is `still`, the head is all the time where the step has moved it. -/
structure Founded (M : Machine) (still : Prop) (past : List Moment) (m : Moment) : Prop where
  moved : ∀ head old, m.queried = false → m.happening = .begun (.headMoved head old) →
    head = m.config.head ∧ ∃ d t, MovedBy M past t d m.config ∧ old = d.head ∧
      m.config.head ≠ d.head ∧ (still → m.config.head = (d.apply M t).head)
  heard : ∀ name event begin, m.happening = .heard name event begin →
    ∃ e b, BeginsAt past begin e b ∧ event = e.at m.config ∧
      (still → e.followsMove → m.config.head = b.head)

variable {M : Machine} {still : Prop} {past : List Moment}

theorem Founded.of_ne {m : Moment}
    (hbegun : ∀ head old, m.happening ≠ .begun (.headMoved head old))
    (hheard : ∀ name event begin, m.happening ≠ .heard name event begin) :
    m.Founded M still past where
  moved head old _ h := absurd h (hbegun head old)
  heard name event begin h := absurd h (hheard name event begin)

theorem Founded.of_queried {m : Moment} (hqueried : m.queried) (hsilent : m.happening.isSilent) :
    m.Founded M still past where
  moved head old h := by
    rw [hqueried] at h
    cases h
  heard name event begin h := by
    rw [h] at hsilent
    cases hsilent

/-- Founded, one after the other, on what is past by then. -/
def Grounded (M : Machine) (still : Prop) : List Moment → List Moment → Prop
  | _, [] => True
  | past, m :: ms => m.Founded M still past ∧ Grounded M still (past ++ [m]) ms

theorem Grounded.append {ms ms' : List Moment} (h : Grounded M still past ms)
    (h' : Grounded M still (past ++ ms) ms') : Grounded M still past (ms ++ ms') := by
  induction ms generalizing past with
  | nil => rwa [List.append_nil] at h'
  | cons m ms ih =>
    refine ⟨h.1, ih h.2 ?_⟩
    rwa [List.append_assoc]

theorem grounded_singleton {m : Moment} (h : m.Founded M still past) :
    Grounded M still past [m] :=
  ⟨h, trivial⟩

theorem Grounded.founded {before after : List Moment} {m : Moment}
    (h : Grounded M still past (before ++ m :: after)) : m.Founded M still (past ++ before) := by
  induction before generalizing past with
  | nil =>
    rw [List.append_nil]
    exact h.1
  | cons m' before ih =>
    have hrest := ih h.2
    rwa [List.append_assoc] at hrest

theorem grounded_queried {ms : List Moment} (hms : ∀ m ∈ ms, m.happening.isSilent) :
    Grounded M still past (ms.map fun m => { m with queried := true }) := by
  induction ms generalizing past with
  | nil => trivial
  | cons m ms ih =>
    obtain ⟨hsilent, hrest⟩ := List.forall_mem_cons.1 hms
    exact ⟨.of_queried rfl hsilent, ih hrest⟩

end Moment

open Moment

namespace Chronicled

section Keeping

variable {ω α β : Type}

/-- The head is left where it is. -/
def KeepsHead (x : Chronicled ω α) : Prop :=
  ∀ c w n, (x c w n).1.Leaves fun c' => c'.head = c.head

theorem keepsHead_pure (a : α) : KeepsHead (pure a : Chronicled ω α) := fun _ _ _ => rfl

theorem keepsHead_note (happening : Happening) :
    KeepsHead (note happening : Chronicled ω Unit) := fun _ _ _ => rfl

theorem keepsHead_get : KeepsHead (get : Chronicled ω Config) := fun _ _ _ => rfl

theorem keepsHead_throw (e : Failure) : KeepsHead (throw e : Chronicled ω α) := fun _ _ _ => rfl

theorem keepsHead_modify {f : Config → Config} (hf : ∀ c, (f c).head = c.head) :
    KeepsHead (modify f : Chronicled ω Unit) := fun c _ _ => hf c

theorem KeepsHead.bind {x : Chronicled ω α} {f : α → Chronicled ω β} (hx : KeepsHead x)
    (hf : ∀ a, KeepsHead (f a)) : KeepsHead (x >>= f) := by
  intro c w n
  have hhead := hx c w n
  rw [bind_apply]
  rcases hxc : x c w n with ⟨⟨a, c', w'⟩ | ⟨e, c', w'⟩ | _, ms⟩
  · rw [hxc] at hhead
    exact (hf a c' w' (n + ms.length)).imp fun _ h => h.trans hhead
  · rw [hxc] at hhead
    exact hhead
  · trivial

theorem keepsHead_aside (x : Chronicled ω α) : KeepsHead (aside x) := by
  intro c w n
  rw [aside_apply]
  rcases x { c with observers := [] } w n with ⟨⟨a, c', w'⟩ | ⟨e, c', w'⟩ | _, ms⟩
  · rfl
  · rfl
  · trivial

theorem KeepsHead.attempt {x : Chronicled ω α} (hx : KeepsHead x) : KeepsHead (attempt x) := by
  intro c w n
  have hhead := hx c w n
  rw [attempt_apply]
  rcases hxc : x c w n with ⟨⟨a, c', w'⟩ | ⟨e, c', w'⟩ | _, ms⟩
  · rwa [hxc] at hhead
  · rwa [hxc] at hhead
  · trivial

theorem keepsHead_attach (name : Option Text) : KeepsHead (attach name : Chronicled ω Unit) := by
  cases name with
  | none => exact keepsHead_throw _
  | some name =>
    have hattach : KeepsHead (modify (·.attach name) : Chronicled ω Unit) := by
      refine keepsHead_modify fun c => ?_
      unfold Config.attach
      split <;> rfl
    exact hattach

theorem keepsHead_detach (name : Option Text) : KeepsHead (detach name : Chronicled ω Unit) := by
  cases name with
  | none => exact keepsHead_pure ()
  | some name =>
    have hdetach : KeepsHead (modify (·.detach name) : Chronicled ω Unit) :=
      keepsHead_modify fun _ => rfl
    exact hdetach

theorem keepsHead_serve (tell : Text → Event → Chronicled ω Unit) (M : Machine) (fuel : Nat)
    {request : Request} (h : ∀ tape head, request ≠ .setTape tape head) :
    KeepsHead (serve M tell fuel request) := by
  have hnone : KeepsHead (pure none : Chronicled ω (Option Bool)) := keepsHead_pure none
  cases request with
  | setTape tape head => exact absurd rfl (h tape head)
  | setAtInitial =>
    have hmodify : KeepsHead (modify (·.setAtInitial M) : Chronicled ω Unit) :=
      keepsHead_modify fun _ => rfl
    exact hmodify.bind fun _ => hnone
  | resetSteps =>
    have hmodify : KeepsHead (modify Config.resetSteps : Chronicled ω Unit) :=
      keepsHead_modify fun _ => rfl
    exact hmodify.bind fun _ => hnone
  | accept word maxSteps => exact keepsHead_aside _
  | attach name => exact (keepsHead_attach name).bind fun _ => hnone
  | detach name => exact (keepsHead_detach name).bind fun _ => hnone

theorem keepsHead_perform {serve : Request → Chronicled ω (Option Bool)}
    (hserve : ∀ request, (∀ tape head, request ≠ .setTape tape head) → KeepsHead (serve request))
    {r : Reaction ω} (hr : r.KeepsTape) : KeepsHead (perform serve r) := by
  have hworld : ∀ w, KeepsHead (setWorld w : Chronicled ω Unit) := fun _ _ _ _ => rfl
  have hview : KeepsHead (view : Chronicled ω (Config × ω)) := fun _ _ _ => rfl
  induction hr with
  | done w => exact hworld w
  | fail w e => exact (hworld w).bind fun _ => keepsHead_throw e
  | @ask w request next hrequest hnext ih =>
    refine (hworld w).bind fun _ => (hserve request hrequest).attempt.bind fun a => ?_
    exact hview.bind fun p => ih p.2 p.1 a

theorem keepsHead_deliver {react : Observers ω} (hreact : react.Steady) (M : Machine) (fuel : Nat)
    (name : Text) {event : Event} (hevent : event.followsMove) :
    KeepsHead (deliver M react fuel name event) := by
  cases fuel with
  | zero => exact fun _ _ _ => trivial
  | succ fuel =>
    have hview : KeepsHead (view : Chronicled ω (Config × ω)) := fun _ _ _ => rfl
    exact hview.bind fun p => keepsHead_perform (fun _ => keepsHead_serve _ M fuel)
      (hreact name event p.2 p.1 hevent)

end Keeping

section Founding

variable {ω α β : Type} {M : Machine} {still : Prop}

/-- Whatever is past, what happens is founded on it. -/
def Founds (M : Machine) (still : Prop) (x : Chronicled ω α) : Prop :=
  ∀ c w past, Grounded M still past (x c w past.length).2

theorem founds_pure (a : α) : Founds M still (pure a : Chronicled ω α) := fun _ _ _ => trivial

theorem founds_exhausted : Founds M still (exhausted : Chronicled ω α) := fun _ _ _ => trivial

theorem founds_get : Founds M still (get : Chronicled ω Config) :=
  fun _ _ _ => grounded_singleton (.of_ne (by simp) (by simp))

theorem founds_modifyGet (f : Config → α × Config) :
    Founds M still (modifyGet f : Chronicled ω α) :=
  fun _ _ _ => grounded_singleton (.of_ne (by simp) (by simp))

theorem founds_throw (e : Failure) : Founds M still (throw e : Chronicled ω α) :=
  fun _ _ _ => trivial

/-- The second part of the work is seen from the end of the first one. -/
theorem grounded_bind {x : Chronicled ω α} {f : α → Chronicled ω β} {c : Config} {w : ω}
    {past : List Moment} (hx : Grounded M still past (x c w past.length).2)
    (hf : ∀ a c' w' ms, x c w past.length = (.ok a c' w', ms) →
      Grounded M still (past ++ ms) (f a c' w' (past ++ ms).length).2) :
    Grounded M still past ((x >>= f) c w past.length).2 := by
  rw [bind_apply]
  rcases hxc : x c w past.length with ⟨⟨a, c', w'⟩ | ⟨e, c', w'⟩ | _, ms⟩
  · have hrest := hf a c' w' ms hxc
    rw [hxc] at hx
    rw [List.length_append] at hrest
    exact hx.append hrest
  · rw [hxc] at hx
    exact hx
  · rw [hxc] at hx
    exact hx

theorem Founds.bind {x : Chronicled ω α} {f : α → Chronicled ω β} (hx : Founds M still x)
    (hf : ∀ a, Founds M still (f a)) : Founds M still (x >>= f) :=
  fun c w past => grounded_bind (hx c w past) fun a c' w' ms _ => hf a c' w' (past ++ ms)

theorem Founds.tryCatch {x : Chronicled ω α} {f : Failure → Chronicled ω α}
    (hx : Founds M still x) (hf : ∀ e, Founds M still (f e)) :
    Founds M still (tryCatch x f) := by
  intro c w past
  have hgrounded := hx c w past
  rw [tryCatch_apply]
  rcases hxc : x c w past.length with ⟨⟨a, c', w'⟩ | ⟨e, c', w'⟩ | _, ms⟩
  · rw [hxc] at hgrounded
    exact hgrounded
  · have hrest := hf e c' w' (past ++ ms)
    rw [hxc] at hgrounded
    rw [List.length_append] at hrest
    exact hgrounded.append hrest
  · rw [hxc] at hgrounded
    exact hgrounded

theorem Silent.founds_aside {x : Chronicled ω α} (hx : Silent x) :
    Founds M still (Engine.aside x) := by
  intro c w past
  obtain ⟨hms, -⟩ := hx { c with observers := [] } w past.length rfl
  have hqueried : Grounded M still past _ := grounded_queried fun m hm => (hms m hm).2
  rw [aside_apply]
  rcases hxc : x { c with observers := [] } w past.length with
    ⟨⟨a, c', w'⟩ | ⟨e, c', w'⟩ | _, ms⟩ <;>
  · rw [hxc] at hqueried
    exact hqueried

theorem founds_attach (name : Option Text) :
    Founds M still (attach name : Chronicled ω Unit) := by
  cases name with
  | none => exact fun _ _ _ => trivial
  | some name => exact fun _ _ _ => grounded_singleton (.of_ne (by simp) (by simp))

theorem founds_detach (name : Option Text) :
    Founds M still (detach name : Chronicled ω Unit) := by
  cases name with
  | none => exact founds_pure ()
  | some name => exact fun _ _ _ => grounded_singleton (.of_ne (by simp) (by simp))

theorem founds_load (tape : List Symbol) (head : Int) :
    Founds M still (load M tape head : Chronicled ω Unit) := by
  refine (founds_modifyGet _).bind fun failure => ?_
  cases failure with
  | none => exact founds_pure ()
  | some e => exact founds_throw e

theorem founds_find : Founds M still (find M : Chronicled ω Transition) := by
  refine founds_get.bind fun c => ?_
  split
  · exact founds_pure _
  · exact founds_throw _

end Founding

section Telling

variable {ω : Type} {M : Machine} {still : Prop} {tell : Text → Event → Chronicled ω Unit}

/-- When all have heard of an event, it is over. -/
theorem announce_eq_ok {event : Config → Event} {c c' : Config} {w w' : ω} {n : Nat}
    {ms : List Moment} (h : announce tell event c w n = (.ok () c' w', ms)) : ∃ meanwhile,
      ms = [⟨c, false, .begun (event c)⟩] ++ meanwhile ++ [⟨c', false, .ended n⟩] := by
  rw [announce_apply] at h
  rcases hall : announceTo tell event n c.observers c w (n + 2) with
    ⟨⟨_, d, v⟩ | ⟨e, d, v⟩ | _, meanwhile⟩
  all_goals
    rw [hall] at h
    cases h
  exact ⟨⟨c, false, .working⟩ :: meanwhile, rfl⟩

theorem movedBy_of_announce {t : Transition} {d b : Config} {w w' : ω} {before ms : List Moment}
    (h : announce tell (fun _ => .stepEnd t.next t.write t.move) (d.apply M t) w
      (before ++ [(⟨d, false, .working⟩ : Moment)] ++
        [(⟨d.apply M t, false, .working⟩ : Moment)]).length = (.ok () b w', ms)) :
    MovedBy M (before ++ [⟨d, false, .working⟩] ++ [⟨d.apply M t, false, .working⟩] ++ ms ++
      [⟨b, false, .working⟩]) t d b := by
  obtain ⟨meanwhile, rfl⟩ := announce_eq_ok h
  refine ⟨before, meanwhile, ?_⟩
  simp

variable
  (hkeeps : still → ∀ name event, event.followsMove → KeepsHead (tell name event))

include hkeeps

theorem keepsHead_hearing (hstill : still) {event : Event} (hevent : event.followsMove)
    (begin : Nat) (name : Text) : KeepsHead (hearing name event begin (tell name event)) :=
  (keepsHead_note _).bind fun _ => hkeeps hstill name event hevent

theorem keepsHead_announceTo (hstill : still) {event : Config → Event}
    (hevent : ∀ c, (event c).followsMove) (begin : Nat) (names : List Text) :
    KeepsHead (announceTo tell event begin names) := by
  induction names with
  | nil => exact keepsHead_pure ()
  | cons name names ih =>
    exact keepsHead_get.bind fun c =>
      (keepsHead_hearing hkeeps hstill (hevent c) begin name).bind fun _ => ih

theorem announce_head_eq (hstill : still) {event : Config → Event}
    (hevent : ∀ c, (event c).followsMove) {c c' : Config} {w w' : ω} {n : Nat} {ms : List Moment}
    (h : announce tell event c w n = (.ok () c' w', ms)) : c'.head = c.head := by
  have hall := keepsHead_announceTo hkeeps hstill hevent n c.observers c w (n + 2)
  rw [announce_apply] at h
  rcases htold : announceTo tell event n c.observers c w (n + 2) with
    ⟨⟨_, d, v⟩ | ⟨e, d, v⟩ | _, meanwhile⟩
  all_goals
    rw [htold] at h hall
    cases h
  exact hall

variable (htell : ∀ name event, Founds M still (tell name event))

include htell

/-- Each in turn is told of the event as it is by then. -/
theorem grounded_announceTo {event : Config → Event} {e : Event} (he : ∀ c, e.at c = event c)
    {begin : Nat} {b c : Config} {past : List Moment} (hbegins : BeginsAt past begin e b)
    (hhead : still → e.followsMove → c.head = b.head) (names : List Text) (w : ω) :
    Grounded M still past (announceTo tell event begin names c w past.length).2 := by
  induction names generalizing c w past with
  | nil => trivial
  | cons name names ih =>
    refine grounded_bind (founds_get c w past) ?_
    rintro _ _ _ _ ⟨⟩
    have hbegins := hbegins.append [⟨c, false, .working⟩]
    have hheard : (⟨c, false, .heard name (event c) begin⟩ : Moment).Founded M still
        (past ++ [⟨c, false, .working⟩]) := by
      refine ⟨by simp, fun _ _ _ hheard => ?_⟩
      cases hheard
      exact ⟨e, b, hbegins, (he c).symm, hhead⟩
    have hhear : Grounded M still (past ++ [⟨c, false, .working⟩])
        (hearing name (event c) begin (tell name (event c)) c w _).2 :=
      grounded_bind (x := note (.heard name (event c) begin)) (grounded_singleton hheard)
        fun _ c' w' ms _ => htell name (event c) c' w' _
    refine grounded_bind hhear fun _ c' w' ms htold => ?_
    refine ih (hbegins.append ms) (fun hstill hmove => ?_) w'
    have hevent : (event c).followsMove := by rwa [← he, Event.followsMove_at]
    have hkept := keepsHead_hearing hkeeps hstill hevent begin name c w
      (past ++ [(⟨c, false, .working⟩ : Moment)]).length
    rw [htold] at hkept
    exact hkept.trans (hhead hstill hmove)

/-- An event is announced properly if it begins so. -/
theorem grounded_announce {event : Config → Event} (hat : ∀ c d, (event c).at d = event d)
    {c : Config} {past : List Moment}
    (hbegun : (⟨c, false, .begun (event c)⟩ : Moment).Founded M still past) (w : ω) :
    Grounded M still past (announce tell event c w past.length).2 := by
  have hannounce : announce tell event c w past.length = (note (.begun (event c)) >>= fun _ =>
      (get >>= fun d => announceTo tell event past.length d.observers) >>= fun _ =>
        note (.ended past.length)) c w past.length := rfl
  rw [hannounce]
  refine grounded_bind (grounded_singleton hbegun) ?_
  rintro _ _ _ _ ⟨⟩
  have hbegins : BeginsAt (past ++ [⟨c, false, .begun (event c)⟩]) past.length (event c) c :=
    beginsAt_snoc_iff.2 (.inr ⟨rfl, rfl⟩)
  refine grounded_bind (grounded_bind (founds_get c w _) ?_) ?_
  · rintro _ _ _ _ ⟨⟩
    exact grounded_announceTo hkeeps htell (hat c) (hbegins.append _) (fun _ _ => rfl)
      c.observers w
  · intro _ c' w' ms _
    exact grounded_singleton (.of_ne (by simp) (by simp))

theorem founds_announce {event : Config → Event} (hat : ∀ c d, (event c).at d = event d)
    (hevent : ∀ c, (event c).isHeadMoved = false) : Founds M still (announce tell event) := by
  intro c w past
  refine grounded_announce hkeeps htell hat (.of_ne ?_ (by simp)) w
  intro head old hbegun
  have hother := hevent c
  rw [Happening.begun.inj hbegun] at hother
  cases hother

/-- A step announces a move of the head only where it did not leave the head where it was. -/
theorem founds_take (t : Transition) : Founds M still (take M tell t) := by
  have hworking : ∀ (c : Config) (past : List Moment),
      Grounded M still past [⟨c, false, .working⟩] :=
    fun _ _ => grounded_singleton (.of_ne (by simp) (by simp))
  have hstart : Founds M still (announce tell fun _ => .stepStart t.next t.write) :=
    founds_announce hkeeps htell (fun _ _ => rfl) fun _ => rfl
  have hend : Founds M still (announce tell fun _ => .stepEnd t.next t.write t.move) :=
    founds_announce hkeeps htell (fun _ _ => rfl) fun _ => rfl
  intro c w past
  -- Those who hear that the step begins may put another tape in place: it goes on from `d`.
  refine grounded_bind (hstart c w past) fun _ d w₁ ms₁ _ => ?_
  refine grounded_bind (founds_get d w₁ _) ?_
  rintro _ _ _ _ ⟨⟩
  refine grounded_bind (founds_modifyGet _ d w₁ _) ?_
  rintro _ _ _ _ ⟨⟩
  refine grounded_bind (hend (d.apply M t) w₁ _) fun _ b w₂ ms₂ htold => ?_
  have hkept : still → b.head = (d.apply M t).head :=
    fun hstill => announce_head_eq hkeeps hstill (fun _ => rfl) htold
  have hmovedBy := movedBy_of_announce htold
  refine grounded_bind (founds_get b w₂ _) ?_
  rintro _ _ _ _ ⟨⟩
  dsimp only
  split
  · next hmoved =>
    have hbegun : (⟨b, false, .begun (.headMoved b.head d.head)⟩ : Moment).Founded M still
        (past ++ ms₁ ++ [⟨d, false, .working⟩] ++ [⟨d.apply M t, false, .working⟩] ++ ms₂ ++
          [⟨b, false, .working⟩]) := by
      refine ⟨?_, by simp⟩
      rintro head old - ⟨⟩
      exact ⟨rfl, d, t, hmovedBy, rfl, hmoved, hkept⟩
    refine grounded_bind (grounded_announce hkeeps htell (fun _ _ => rfl) hbegun w₂)
      fun _ c' w' ms _ => ?_
    exact hworking _ _
  · exact hworking _ _

theorem founds_setTape (tape : List Symbol) (head : Int) :
    Founds M still (setTape M tell tape head) := by
  unfold setTape
  cases tape.find? (· ∉ M.alphabet) with
  | some a => exact founds_throw _
  | none =>
    exact (founds_load tape head).bind fun _ =>
      founds_announce hkeeps htell (fun _ _ => rfl) fun _ => rfl

/-- What happens in a session is founded on what is past. -/
def founding : Conduct M tell tell where
  rel x _ := Founds M still x
  rel_pure := founds_pure
  rel_throw := founds_throw
  rel_exhausted := founds_exhausted
  rel_bind := Founds.bind
  rel_look hf := founds_get.bind fun c => hf c c rfl
  rel_tryCatch := Founds.tryCatch
  rel_call _ _ _ hx := hx
  rel_setAtInitial := founds_modifyGet _
  rel_resetSteps := founds_modifyGet _
  rel_setTape := founds_setTape hkeeps htell
  rel_step := founds_find.bind (founds_take hkeeps htell)

omit hkeeps htell in
theorem founds_accept (fuel : Nat) (word : List Symbol) (maxSteps : Option Int) :
    Founds M still (accept M tell fuel word maxSteps) :=
  (silent_query M tell fuel word maxSteps).founds_aside

theorem founds_serve (fuel : Nat) (request : Request) :
    Founds M still (serve M tell fuel request) := by
  let R := founding hkeeps htell
  have haccept : ∀ word maxSteps,
      R.rel (accept M tell fuel word maxSteps) (accept M tell fuel word maxSteps) :=
    founds_accept fuel
  exact R.rel_serve haccept request (fun name _ => founds_attach name)
    fun name _ => founds_detach name

theorem founds_session (fuel : Nat) (calls : List Call) :
    Founds M still (session M tell fuel calls) :=
  let R := founding hkeeps htell
  R.rel_session (founds_accept fuel) (R.rel_runUnbounded fuel) founds_attach founds_detach calls

end Telling

theorem founds_deliver {ω : Type} (react : Observers ω) (M : Machine) (fuel : Nat) (name : Text)
    (event : Event) : Founds M react.Steady (deliver M react fuel name event) := by
  induction fuel generalizing name event with
  | zero => exact founds_exhausted
  | succ fuel ih =>
    have hkeeps : react.Steady → ∀ name event, event.followsMove →
        KeepsHead (deliver M react fuel name event) :=
      fun hsteady name event => keepsHead_deliver hsteady M fuel name
    exact (founding hkeeps ih).rel_deliver (fun _ _ _ => trivial) (fun _ _ _ _ => trivial)
      (founds_serve hkeeps ih fuel) name event

end Chronicled

namespace Moment

variable {M : Machine} {still : Prop} {ms : List Moment} {begin : Nat} {b : Config}

theorem BeginsAt.unique {e e' : Event} {b' : Config} (h : BeginsAt ms begin e b)
    (h' : BeginsAt ms begin e' b') : e = e' ∧ b = b' := by
  have hsame := Option.some.inj (h.symm.trans h')
  simp only [mk.injEq, Happening.begun.injEq, true_and] at hsame
  exact hsame.symm

theorem Grounded.heard (h : Grounded M still [] ms) {m : Moment} (hm : m ∈ ms) {name : Text}
    {event : Event} (hheard : m.happening = .heard name event begin) :
    ∃ e b, BeginsAt ms begin e b ∧ event = e.at m.config ∧
      (still → e.followsMove → m.config.head = b.head) := by
  obtain ⟨before, after, rfl⟩ := List.append_of_mem hm
  obtain ⟨e, b, hbegins, htold⟩ := h.founded.heard name event begin hheard
  exact ⟨e, b, hbegins.append _, htold⟩

theorem Grounded.moved (h : Grounded M still [] ms) {head old : Int}
    (hbegins : BeginsAt ms begin (.headMoved head old) b) :
    head = b.head ∧ ∃ d t, MovedBy M (ms.take begin) t d b ∧ old = d.head ∧ b.head ≠ d.head ∧
      (still → b.head = (d.apply M t).head) := by
  obtain ⟨hlt, hget⟩ := List.getElem?_eq_some_iff.1 hbegins
  have hms : ms = ms.take begin ++ ms[begin] :: ms.drop (begin + 1) := by simp
  rw [hget] at hms
  rw [hms] at h
  exact h.founded.moved head old rfl rfl

/-- Whoever hears of the event that begins at a place is told this of it. -/
def Tells (ms : List Moment) (begin : Nat) (told : Config → Event) : Prop :=
  ∀ m ∈ ms, ∀ name event, m.happening = .heard name event begin → event = told m.config

/-- Who hears of the event that begins at a place, and what they are told. -/
def hearings (begin : Nat) (ms : List Moment) : List (Text × Event) :=
  ms.filterMap fun m => match m.happening with
    | .heard name event k => if k = begin then some (name, event) else none
    | _ => none

theorem mem_hearings {name : Text} {event : Event} : (name, event) ∈ hearings begin ms ↔
    ∃ m ∈ ms, m.happening = .heard name event begin := by
  simp only [hearings, List.mem_filterMap]
  refine exists_congr fun m => and_congr_right fun _ => ?_
  cases m.happening with
  | heard name' event' k => simp [and_comm, and_assoc]
  | _ => simp

end Moment

/-- Whoever hears of an event in a session hears of one that has begun. All are told the same of it,
unless it is a move of the head. Such a move is announced where a step did not leave the head where
it was. All are told where the head was before, and each is told where it is then. This is where the
step has moved it, if nobody puts another tape in place between the move of a step and the end of
it. -/
theorem Execution.session_rounds {ω : Type} (react : Observers ω) (M : Machine) (fuel : Nat)
    (calls : List Call) (c : Config) (w : ω) :
    let r := session M (Chronicled.deliver M react fuel) fuel calls c w 0
    session M (deliver M react fuel) fuel calls c w = r.1 ∧
      session M (deliver M react.noting fuel) fuel calls c (w, []) =
        r.1.mapWorld (·, Moment.notes r.2) ∧
      (∀ m ∈ r.2, ∀ name event begin, m.happening = .heard name event begin →
        ∃ e b, BeginsAt r.2 begin e b) ∧
      ∀ begin e b, BeginsAt r.2 begin e b →
        (e.isHeadMoved = false ∧ Tells r.2 begin fun _ => e) ∨
        ∃ d t, MovedBy M (r.2.take begin) t d b ∧ b.head ≠ d.head ∧
          e = .headMoved b.head d.head ∧ (Tells r.2 begin fun c => .headMoved c.head d.head) ∧
          (react.Steady → b.head = (d.apply M t).head ∧ Tells r.2 begin fun _ => e) := by
  intro r
  have hgrounded : Grounded M react.Steady [] r.2 :=
    Chronicled.founds_session
      (fun hsteady name event => Chronicled.keepsHead_deliver hsteady M fuel name)
      (Chronicled.founds_deliver react M fuel) fuel calls c w []
  refine ⟨Chronicled.session_eq react M fuel calls c w,
    Chronicled.session_noting_eq react M fuel calls c w, ?_, ?_⟩
  · intro m hm name event begin hheard
    obtain ⟨e, b, hbegins, -⟩ := hgrounded.heard hm hheard
    exact ⟨e, b, hbegins⟩
  · intro begin e b hbegins
    have htold : ∀ m ∈ r.2, ∀ name event, m.happening = .heard name event begin →
        event = e.at m.config ∧ (react.Steady → e.followsMove → m.config.head = b.head) := by
      intro m hm name event hheard
      obtain ⟨e', b', hbegins', htold⟩ := hgrounded.heard hm hheard
      obtain ⟨rfl, rfl⟩ := hbegins.unique hbegins'
      exact htold
    cases hmove : e.isHeadMoved with
    | false =>
      refine .inl ⟨rfl, fun m hm name event hheard => ?_⟩
      rw [(htold m hm name event hheard).1, e.at_eq_self hmove]
    | true =>
      obtain ⟨head, old, rfl⟩ := Event.exists_of_isHeadMoved hmove
      obtain ⟨rfl, d, t, hmovedBy, rfl, hne, hstill⟩ := hgrounded.moved hbegins
      have hlive : Tells r.2 begin fun c => .headMoved c.head d.head :=
        fun m hm name event hheard => (htold m hm name event hheard).1
      refine .inr ⟨d, t, hmovedBy, hne, rfl, hlive, fun hsteady => ⟨hstill hsteady, ?_⟩⟩
      intro m hm _ event hheard
      have hhead : m.config.head = b.head := (htold m hm _ event hheard).2 hsteady rfl
      have hlocal := hlive m hm _ event hheard
      exact hlocal.trans (congrArg (fun head : Nat => Event.headMoved head d.head) hhead)

/-- A step that two observe. -/
def twoWatch : List Call :=
  [.ask (.setTape [.ofChar 'x'] 0), .ask (.attach (some "a")), .ask (.attach (some "b")), .step]

/-- Each puts another tape in place when a step begins. -/
def advance : Observers Unit := fun _ event w _ => match event with
  | .stepStart _ _ => .ask w (.setTape [.ofChar 'x', .ofChar 'x'] 1) fun w _ _ => .done w
  | _ => .done w

theorem advance_steady : advance.Steady := by
  intro name event w c hmove
  cases event with
  | stepEnd q a m => exact .done _
  | headMoved head old => exact .done _
  | _ => cases hmove

/-- The step moves the head on the tape that was put in place last, and both are told so. -/
theorem Execution.advance_session_rounds :
    let r := session Traced.wiper (Chronicled.deliver Traced.wiper advance 2) 2 twoWatch
      Traced.wiper.start () 0
    r.1.outcome?.isSome ∧
      hearings 40 r.2 = ([("a", .headMoved 2 1), ("b", .headMoved 2 1)] : List (Text × Event)) ∧
      ∃ b d t, BeginsAt r.2 40 (.headMoved 2 1) b ∧ MovedBy Traced.wiper (r.2.take 40) t d b ∧
        b.head = (d.apply Traced.wiper t).head ∧ Tells r.2 40 fun _ => .headMoved 2 1 := by
  intro r
  have hended : r.1.outcome?.isSome := by decide +kernel
  have hheard : hearings 40 r.2 =
      ([("a", .headMoved 2 1), ("b", .headMoved 2 1)] : List (Text × Event)) := by
    decide +kernel
  obtain ⟨-, -, hbegun, hrounds⟩ :=
    session_rounds advance Traced.wiper 2 twoWatch Traced.wiper.start ()
  obtain ⟨m, hm, hfirst⟩ := mem_hearings.1 (hheard ▸ List.mem_cons_self)
  obtain ⟨e, b, hbegins⟩ := hbegun m hm _ _ _ hfirst
  refine ⟨hended, hheard, b, ?_⟩
  rcases hrounds 40 e b hbegins with ⟨hother, htold⟩ | ⟨d, t, hmovedBy, -, -, -, hsteady⟩
  · obtain rfl : e = .headMoved 2 1 := (htold m hm _ _ hfirst).symm
    cases hother
  · obtain ⟨hhead, htold⟩ := hsteady advance_steady
    obtain rfl := htold m hm _ _ hfirst
    exact ⟨d, t, hbegins, hmovedBy, hhead, htold⟩

/-- `a` puts another tape in place when the head has moved. -/
def rewind : Observers Unit := fun name event w _ => match event with
  | .headMoved _ _ =>
    if name = "a" then .ask w (.setTape [.ofChar 'x'] 0) fun w _ _ => .done w else .done w
  | _ => .done w

theorem rewind_calm : rewind.Calm := by
  intro name event w c
  cases event with
  | headMoved head old =>
    simp only [rewind]
    split
    · exact .ask _ _ fun _ _ _ => .done _
    · exact .done _
  | _ => exact .done _

/-- Of one and the same move of the head `a` and `b` are told different things, and `b` is told that
the head is where it was. -/
theorem Execution.rewind_round_differs :
    let r := session Traced.wiper (Chronicled.deliver Traced.wiper rewind 2) 2 twoWatch
      Traced.wiper.start () 0
    rewind.Calm ∧ r.1.outcome?.isSome ∧
      hearings 24 r.2 = ([("a", .headMoved 1 0), ("b", .headMoved 0 0)] : List (Text × Event)) := by
  intro r
  have hended : r.1.outcome?.isSome := by decide +kernel
  have hheard : hearings 24 r.2 =
      ([("a", .headMoved 1 0), ("b", .headMoved 0 0)] : List (Text × Event)) := by
    decide +kernel
  exact ⟨rewind_calm, hended, hheard⟩

end SingleTape

import SingleTape.Proofs.Execution.Discipline
import SingleTape.Proofs.Execution.Query
import SingleTape.Proofs.Execution.Soundness

/-!
The discipline of delivery. As long as those who observe a machine do not throw, its chronicle is an
orderly one, whatever they ask of the machine when they hear of an event. Reactions are served in
the middle of an event, and the events to which they lead are over before it goes on.
-/

namespace SingleTape

open Engine

/-- A reaction that does not throw, whatever comes of its requests. -/
inductive Reaction.Calm {ω : Type} : Reaction ω → Prop
  | done (w : ω) : Calm (.done w)
  | ask (w : ω) (request : Request) {next : ω → Config → Except Failure (Option Bool) → Reaction ω}
    (hnext : ∀ w c answer, Calm (next w c answer)) : Calm (.ask w request next)

def Observers.Calm {ω : Type} (react : Observers ω) : Prop :=
  ∀ name event w c, (react name event w c).Calm

open Watch

namespace Chronicled

section Keeping

variable {ω α β : Type}

/-- The watch lets the work pass, and whoever observes the machine in the end is known to it. -/
def Passes (s : Watch) (due : List Frame) (r : Result ω α × List Moment) : Prop :=
  ∃ s', s.Follows r.2 s' ∧ r.1.Leaves fun c => s' = ⟨s.time + r.2.length, c.observers, due⟩

/-- What is due is left as it is. -/
def Orderly (x : Chronicled ω α) : Prop :=
  ∀ c w n due, Passes ⟨n, c.observers, due⟩ due (x c w n)

/-- The work does not fail. -/
def Calm (x : Chronicled ω α) : Prop := ∀ c w n e d v, (x c w n).1 ≠ .error e d v

theorem Passes.prepend {s s' : Watch} {due : List Frame} {ms : List Moment}
    {r : Result ω α × List Moment} (hms : s.Follows ms s')
    (htime : s'.time = s.time + ms.length) (h : Passes s' due r) :
    Passes s due (r.1, ms ++ r.2) := by
  obtain ⟨s'', hfollows, hleaves⟩ := h
  refine ⟨s'', hms.append hfollows, ?_⟩
  rw [List.length_append, ← Nat.add_assoc, ← htime]
  exact hleaves

theorem orderly_pure (a : α) : Orderly (pure a : Chronicled ω α) :=
  fun _ _ _ _ => ⟨_, .nil _, rfl⟩

theorem orderly_throw (e : Failure) : Orderly (throw e : Chronicled ω α) :=
  fun _ _ _ _ => ⟨_, .nil _, rfl⟩

theorem orderly_exhausted : Orderly (exhausted : Chronicled ω α) :=
  fun _ _ _ _ => ⟨_, .nil _, trivial⟩

theorem orderly_get : Orderly (get : Chronicled ω Config) :=
  fun _ _ _ _ => ⟨_, Sees.working.follows, rfl⟩

theorem orderly_modifyGet {f : Config → α × Config} (hf : ∀ c, (f c).2.observers = c.observers) :
    Orderly (modifyGet f : Chronicled ω α) := by
  intro c w n due
  rw [modifyGet_apply, ← hf c]
  exact ⟨_, Sees.working.follows, rfl⟩

theorem orderly_modify {f : Config → Config} (hf : ∀ c, (f c).observers = c.observers) :
    Orderly (modify f : Chronicled ω Unit) := orderly_modifyGet hf

/-- What is due after the first part of the work is due in the second. If the first part fails, it
must have left what is due in the end. -/
theorem Passes.bind {x : Chronicled ω α} {f : α → Chronicled ω β} {c : Config} {w : ω} {n : Nat}
    {roster : List Text} {due due' due'' : List Frame}
    (hx : Passes ⟨n, roster, due⟩ due' (x c w n))
    (hf : ∀ a c' w' k, Passes ⟨k, c'.observers, due'⟩ due'' (f a c' w' k))
    (hfail : due' = due'' ∨ Calm x) : Passes ⟨n, roster, due⟩ due'' ((x >>= f) c w n) := by
  obtain ⟨s, hfollows, hleaves⟩ := hx
  rw [bind_apply]
  rcases hxc : x c w n with ⟨⟨a, c', w'⟩ | ⟨e, c', w'⟩ | _, ms⟩
  · rw [hxc] at hfollows hleaves
    obtain rfl := hleaves
    exact .prepend hfollows rfl (hf a c' w' (n + ms.length))
  · rw [hxc] at hfollows hleaves
    rcases hfail with rfl | hcalm
    · exact ⟨s, hfollows, hleaves⟩
    · exact absurd (congrArg Prod.fst hxc) (hcalm c w n e c' w')
  · rw [hxc] at hfollows
    exact ⟨s, hfollows, trivial⟩

theorem Orderly.bind {x : Chronicled ω α} {f : α → Chronicled ω β} (hx : Orderly x)
    (hf : ∀ a, Orderly (f a)) : Orderly (x >>= f) :=
  fun c w n due => .bind (hx c w n due) (fun a c' w' k => hf a c' w' k due) (.inl rfl)

theorem calm_pure (a : α) : Calm (pure a : Chronicled ω α) := by
  intro c w n e d v h
  cases h

theorem calm_note (happening : Happening) : Calm (note happening : Chronicled ω Unit) := by
  intro c w n e d v h
  cases h

theorem calm_get : Calm (get : Chronicled ω Config) := by
  intro c w n e d v h
  cases h

theorem calm_silently (f : Config → ω → α × Config × ω) :
    Calm (silently f : Chronicled ω α) := by
  intro c w n e d v h
  cases h

theorem calm_attempt (x : Chronicled ω α) : Calm (attempt x) := by
  intro c w n e d v h
  rw [attempt_apply] at h
  split at h <;> cases h

theorem Calm.bind {x : Chronicled ω α} {f : α → Chronicled ω β} (hx : Calm x)
    (hf : ∀ a, Calm (f a)) : Calm (x >>= f) := by
  intro c w n e d v h
  rw [bind_apply] at h
  rcases hxc : x c w n with ⟨⟨a, c', w'⟩ | ⟨e', c', w'⟩ | _, ms⟩
  · rw [hxc] at h
    exact hf a c' w' (n + ms.length) e d v h
  · exact hx c w n e' c' w' (congrArg Prod.fst hxc)
  · rw [hxc] at h
    cases h

theorem Orderly.tryCatch {x : Chronicled ω α} {f : Failure → Chronicled ω α} (hx : Orderly x)
    (hf : ∀ e, Orderly (f e)) : Orderly (tryCatch x f) := by
  intro c w n due
  obtain ⟨s, hfollows, hleaves⟩ := hx c w n due
  rw [tryCatch_apply]
  rcases hxc : x c w n with ⟨⟨a, c', w'⟩ | ⟨e, c', w'⟩ | _, ms⟩
  · rw [hxc] at hfollows hleaves
    exact ⟨s, hfollows, hleaves⟩
  · rw [hxc] at hfollows hleaves
    obtain rfl := hleaves
    exact .prepend hfollows rfl (hf e c' w' (n + ms.length) due)
  · rw [hxc] at hfollows
    exact ⟨s, hfollows, trivial⟩

theorem orderly_attach (name : Option Text) : Orderly (attach name : Chronicled ω Unit) := by
  cases name with
  | none => exact fun _ _ _ _ => ⟨_, .nil _, rfl⟩
  | some name => exact fun _ _ _ _ => ⟨_, Sees.attached.follows, rfl⟩

theorem orderly_detach (name : Option Text) : Orderly (detach name : Chronicled ω Unit) := by
  cases name with
  | none => exact orderly_pure ()
  | some name => exact fun _ _ _ _ => ⟨_, Sees.detached.follows, rfl⟩

end Keeping

section Queries

variable {ω α β : Type}

/-- Where nobody is attached, nobody comes, goes or hears of anything. -/
def Silent (x : Chronicled ω α) : Prop :=
  ∀ c w n, c.observers = [] →
    (∀ m ∈ (x c w n).2, m.config.observers = [] ∧ m.happening.isSilent) ∧
      (x c w n).1.Leaves fun c => c.observers = []

theorem silent_modifyGet {f : Config → α × Config} (hf : ∀ c, (f c).2.observers = c.observers) :
    Silent (modifyGet f : Chronicled ω α) := by
  intro c w n hobs
  rw [modifyGet_apply]
  have hc := (hf c).trans hobs
  refine ⟨fun m hm => ?_, hc⟩
  obtain rfl := List.mem_singleton.1 hm
  exact ⟨hc, rfl⟩

theorem silent_modify {f : Config → Config} (hf : ∀ c, (f c).observers = c.observers) :
    Silent (modify f : Chronicled ω Unit) := silent_modifyGet hf

theorem silent_get : Silent (get : Chronicled ω Config) := by
  intro c w n hobs
  refine ⟨fun m hm => ?_, hobs⟩
  obtain rfl := List.mem_singleton.1 hm
  exact ⟨hobs, rfl⟩

theorem silent_pure (a : α) : Silent (pure a : Chronicled ω α) :=
  fun _ _ _ hobs => ⟨fun _ hm => absurd hm List.not_mem_nil, hobs⟩

theorem silent_throw (e : Failure) : Silent (throw e : Chronicled ω α) :=
  fun _ _ _ hobs => ⟨fun _ hm => absurd hm List.not_mem_nil, hobs⟩

theorem Silent.bind {x : Chronicled ω α} {f : α → Chronicled ω β} (hx : Silent x)
    (hf : ∀ a, Silent (f a)) : Silent (x >>= f) := by
  intro c w n hobs
  obtain ⟨hms, hend⟩ := hx c w n hobs
  rw [bind_apply]
  rcases hxc : x c w n with ⟨⟨a, c', w'⟩ | ⟨e, c', w'⟩ | _, ms⟩
  · rw [hxc] at hms hend
    obtain ⟨hms', hend'⟩ := hf a c' w' (n + ms.length) hend
    exact ⟨fun m hm => (List.mem_append.1 hm).elim (hms m) (hms' m), hend'⟩
  · rw [hxc] at hms hend
    exact ⟨hms, hend⟩
  · rw [hxc] at hms
    exact ⟨hms, trivial⟩

theorem Silent.tryCatch {x : Chronicled ω α} {f : Failure → Chronicled ω α} (hx : Silent x)
    (hf : ∀ e, Silent (f e)) : Silent (tryCatch x f) := by
  intro c w n hobs
  obtain ⟨hms, hend⟩ := hx c w n hobs
  rw [tryCatch_apply]
  rcases hxc : x c w n with ⟨⟨a, c', w'⟩ | ⟨e, c', w'⟩ | _, ms⟩
  · rw [hxc] at hms hend
    exact ⟨hms, hend⟩
  · rw [hxc] at hms hend
    obtain ⟨hms', hend'⟩ := hf e c' w' (n + ms.length) hend
    exact ⟨fun m hm => (List.mem_append.1 hm).elim (hms m) (hms' m), hend'⟩
  · rw [hxc] at hms
    exact ⟨hms, trivial⟩

theorem silent_announce (tell : Text → Event → Chronicled ω Unit) (event : Config → Event) :
    Silent (announce tell event) := by
  intro c w n hobs
  have hnobody : announceTo tell event n c.observers c w (n + 2) = (.ok () c w, []) := by
    rw [hobs]
    rfl
  rw [announce_apply, hnobody]
  refine ⟨fun m hm => ?_, hobs⟩
  simp only [List.nil_append, List.mem_cons, List.not_mem_nil, or_false] at hm
  rcases hm with rfl | rfl | rfl <;> exact ⟨hobs, rfl⟩

/-- What the machine does for a query is silent where nobody is attached. -/
def silencing (M : Machine) (tell : Text → Event → Chronicled ω Unit) :
    Correspondence M tell tell where
  rel x _ := Silent x
  rel_pure := silent_pure
  rel_throw := silent_throw
  rel_exhausted _ _ _ _ := ⟨fun _ hm => absurd hm List.not_mem_nil, trivial⟩
  rel_bind := Silent.bind
  rel_look hf := silent_get.bind fun c => hf c c rfl
  rel_tryCatch := Silent.tryCatch
  rel_call _ _ _ hx := hx
  rel_setAtInitial := silent_modify fun _ => rfl
  rel_resetSteps := silent_modify fun _ => rfl
  rel_place tape head := silent_modifyGet fun c => c.load_observers tape head
  rel_finding hx := hx
  rel_store t := silent_modify fun c => c.apply_observers t
  rel_countStep := silent_modify fun _ => rfl
  rel_announce event _ := silent_announce tell event

theorem silent_query (M : Machine) (tell : Text → Event → Chronicled ω Unit) (fuel : Nat)
    (word : List Symbol) (maxSteps : Option Int) : Silent (query M tell fuel word maxSteps) :=
  let R := (silencing M tell).toConduct
  R.rel_query (R.rel_runUnbounded fuel) word maxSteps

theorem follows_queried {ms : List Moment}
    (hms : ∀ m ∈ ms, m.config.observers = [] ∧ m.happening.isSilent) (s : Watch) :
    s.Follows (ms.map fun m => { m with queried := true })
      { s with time := s.time + ms.length } := by
  induction ms generalizing s with
  | nil => exact .nil s
  | cons m ms ih =>
    obtain ⟨⟨hobs, hsilent⟩, hrest⟩ := List.forall_mem_cons.1 hms
    have hfollows := ih hrest { s with time := s.time + 1 }
    rw [Nat.add_assoc, Nat.add_comm 1] at hfollows
    exact .cons (.query hobs hsilent) hfollows

theorem Silent.aside {x : Chronicled ω α} (hx : Silent x) : Orderly (aside x) := by
  intro c w n due
  obtain ⟨hms, -⟩ := hx { c with observers := [] } w n rfl
  rw [aside_apply]
  rcases hxc : x { c with observers := [] } w n with ⟨⟨a, c', w'⟩ | ⟨e, c', w'⟩ | _, ms⟩
  · rw [hxc] at hms
    exact ⟨_, follows_queried hms _, by simp [Result.Leaves]⟩
  · rw [hxc] at hms
    exact ⟨_, follows_queried hms _, by simp [Result.Leaves]⟩
  · rw [hxc] at hms
    exact ⟨_, follows_queried hms _, trivial⟩

theorem orderly_accept (M : Machine) (tell : Text → Event → Chronicled ω Unit) (fuel : Nat)
    (word : List Symbol) (maxSteps : Option Int) : Orderly (accept M tell fuel word maxSteps) :=
  (silent_query M tell fuel word maxSteps).aside

end Queries

section Telling

variable {ω : Type} {tell : Text → Event → Chronicled ω Unit}
  (htell : ∀ name event, Orderly (tell name event)) (hcalm : ∀ name event, Calm (tell name event))

include hcalm

theorem calm_hearing (begin : Nat) (name : Text) (event : Event) :
    Calm (hearing name event begin (tell name event)) :=
  (calm_note _).bind fun _ => hcalm name event

theorem calm_announceTo (event : Config → Event) (begin : Nat) (names : List Text) :
    Calm (announceTo tell event begin names) := by
  induction names with
  | nil => exact calm_pure ()
  | cons name names ih =>
    exact calm_get.bind fun c => (calm_hearing hcalm begin name (event c)).bind fun _ => ih

include htell

/-- All who have yet to hear of an event hear of it, and of all that comes of it meanwhile. -/
theorem passes_announceTo {event : Config → Event} {e : Event} (he : ∀ c, e.at c = event c)
    (begin : Nat) (names : List Text) (c : Config) (w : ω) (n : Nat) (due : List Frame) :
    Passes ⟨n, c.observers, ⟨begin, e, names⟩ :: due⟩ (⟨begin, e, []⟩ :: due)
      (announceTo tell event begin names c w n) := by
  induction names generalizing c w n with
  | nil => exact ⟨_, .nil _, rfl⟩
  | cons name names ih =>
    have hheard : ∀ k, Passes ⟨k, c.observers, ⟨begin, e, name :: names⟩ :: due⟩
        (⟨begin, e, names⟩ :: due)
        (hearing name (event c) begin (tell name (event c)) c w k) := by
      intro k
      rw [← he c]
      exact .prepend Sees.heard.follows rfl (htell name (e.at c) c w (k + 1) _)
    have hrest := Passes.bind (hheard (n + 1)) (fun _ c' w' k => ih c' w' k)
      (.inr (calm_hearing hcalm begin name (event c)))
    exact .prepend Sees.working.follows rfl hrest

theorem orderly_announce {event : Config → Event} (hevent : ∀ c d, (event c).at d = event d) :
    Orderly (announce tell event) := by
  intro c w n due
  have hended : ∀ c' w' k, Passes ⟨k, c'.observers, ⟨n, event c, []⟩ :: due⟩ due
      ((note (.ended n) : Chronicled ω Unit) c' w' k) :=
    fun _ _ _ => ⟨_, Sees.ended.follows, rfl⟩
  have hall : Passes ⟨n + 1, c.observers, ⟨n, event c, c.observers⟩ :: due⟩
      (⟨n, event c, []⟩ :: due)
      ((get >>= fun d => announceTo tell event n d.observers) c w (n + 1)) :=
    .prepend Sees.working.follows rfl
      (passes_announceTo htell hcalm (hevent c) n c.observers c w (n + 2) due)
  have hcalmly := calm_get.bind fun d : Config => calm_announceTo hcalm event n d.observers
  exact .prepend Sees.begun.follows rfl (hall.bind (fun _ => hended) (.inr hcalmly))

/-- Work is orderly as long as those who are told do not throw. -/
def ordering (M : Machine) : Correspondence M tell tell where
  rel x _ := Orderly x
  rel_pure := orderly_pure
  rel_throw := orderly_throw
  rel_exhausted := orderly_exhausted
  rel_bind := Orderly.bind
  rel_look hf := orderly_get.bind fun c => hf c c rfl
  rel_tryCatch := Orderly.tryCatch
  rel_call _ _ _ hx := hx
  rel_setAtInitial := orderly_modify fun _ => rfl
  rel_resetSteps := orderly_modify fun _ => rfl
  rel_place tape head := orderly_modifyGet fun c => c.load_observers tape head
  rel_finding hx := hx
  rel_store t := orderly_modify fun c => c.apply_observers t
  rel_countStep := orderly_modify fun _ => rfl
  rel_announce _ hevent := orderly_announce htell hcalm hevent

theorem orderly_serve (M : Machine) (fuel : Nat) (request : Request) :
    Orderly (serve M tell fuel request) := by
  let R := (ordering htell hcalm M).toConduct
  have haccept : ∀ word maxSteps,
      R.rel (accept M tell fuel word maxSteps) (accept M tell fuel word maxSteps) :=
    orderly_accept M tell fuel
  exact R.rel_serve haccept request (fun name _ => orderly_attach name)
    fun name _ => orderly_detach name

theorem orderly_session (M : Machine) (fuel : Nat) (calls : List Call) :
    Orderly (session M tell fuel calls) :=
  let R := (ordering htell hcalm M).toConduct
  R.rel_session (orderly_accept M tell fuel) (R.rel_runUnbounded fuel) orderly_attach
    orderly_detach calls

end Telling

section Observers

variable {ω : Type} {serve : Request → Chronicled ω (Option Bool)} {r : Reaction ω}

theorem calm_perform (hr : r.Calm) : Calm (perform serve r) := by
  induction hr with
  | done w => exact calm_silently _
  | ask v request hnext ih =>
    refine (calm_silently _).bind fun _ => (calm_attempt _).bind fun a => ?_
    exact (calm_silently _).bind fun p => ih p.2 p.1 a

theorem calm_deliver {react : Observers ω} (hreact : react.Calm) (M : Machine) (fuel : Nat)
    (name : Text) (event : Event) : Calm (deliver M react fuel name event) := by
  cases fuel with
  | zero =>
    intro c w n e d v h
    cases h
  | succ fuel =>
    exact (calm_silently _).bind fun p => calm_perform (hreact name event p.2 p.1)

theorem orderly_deliver {react : Observers ω} (hreact : react.Calm) (M : Machine) (fuel : Nat)
    (name : Text) (event : Event) : Orderly (deliver M react fuel name event) := by
  induction fuel generalizing name event with
  | zero => exact orderly_exhausted
  | succ fuel ih =>
    have hcalm := calm_deliver hreact M fuel
    exact (ordering ih hcalm M).rel_deliver (fun _ _ _ _ => ⟨_, .nil _, rfl⟩)
      (fun _ _ _ _ _ => ⟨_, .nil _, rfl⟩) (orderly_serve ih hcalm M fuel) name event

end Observers

end Chronicled

open Moment

/-- As long as those who observe a machine do not throw, a session of calls is one with an orderly
chronicle, in which those are told who note an event. If it ends, all events that began are over. -/
theorem Execution.session_delivers {ω : Type} {react : Observers ω} (hreact : react.Calm)
    (M : Machine) (fuel : Nat) (calls : List Call) {c : Config} (hobs : c.observers = []) (w : ω) :
    let r := session M (Chronicled.deliver M react fuel) fuel calls c w 0
    session M (deliver M react fuel) fuel calls c w = r.1 ∧
      session M (deliver M react.noting fuel) fuel calls c (w, []) =
        r.1.mapWorld (·, Moment.notes r.2) ∧
      (∀ before m after, r.2 = before ++ m :: after → m.Fits before) ∧
      r.1.Leaves fun c' => InOrder r.2 c'.observers ∧
        ∀ begin event b, BeginsAt r.2 begin event b →
          ∃ d, { config := d, happening := .ended begin } ∈ r.2 := by
  intro r
  have horderly := Chronicled.orderly_session (Chronicled.orderly_deliver hreact M fuel)
    (Chronicled.calm_deliver hreact M fuel) M fuel calls c w 0 []
  rw [hobs] at horderly
  obtain ⟨s, hfollows, hleaves⟩ := horderly
  refine ⟨Chronicled.session_eq react M fuel calls c w,
    Chronicled.session_noting_eq react M fuel calls c w, ?_, ?_⟩
  · intro before m after hr
    have hpast : Follows ⟨0, [], []⟩ (before ++ m :: after) s := hr ▸ hfollows
    exact hpast.fits
  · refine hleaves.imp fun c' hend => ?_
    rw [hend] at hfollows
    exact hfollows.all_ended

/-- When a step begins they hand over to `b`, who puts another tape in place when it was made. -/
def relay : Observers Unit := fun name event w _ => match event with
  | .stepStart _ _ => .ask w (.attach (some "b")) fun w _ _ =>
    .ask w (.detach (some name)) fun w _ _ => .done w
  | .stepEnd _ _ _ => .ask w (.setTape [] 1) fun w _ _ => .done w
  | _ => .done w

theorem relay_calm : relay.Calm := by
  intro name event w c
  cases event with
  | stepStart q a => exact .ask _ _ fun _ _ _ => .ask _ _ fun _ _ _ => .done _
  | stepEnd q a m => exact .ask _ _ fun _ _ _ => .done _
  | tapeChanged head => exact .done _
  | headMoved head old => exact .done _

/-- A step under observation. -/
def relayCalls : List Call :=
  [.ask (.setTape [.ofChar 'x'] 0), .ask (.attach (some "a")), .ask (.attach (some "c")), .step]

/-- Those who hand over still hear of the beginning of the step, and nobody but `b` hears of the
rest of it. -/
theorem Execution.relay_session_delivers :
    let r := session Traced.wiper (Chronicled.deliver Traced.wiper relay 2) 2 relayCalls
      Traced.wiper.start () 0
    session Traced.wiper (deliver Traced.wiper relay.noting 2) 2 relayCalls Traced.wiper.start
        ((), []) = r.1.mapWorld (·, Moment.notes r.2) ∧
      (∀ before m after, r.2 = before ++ m :: after → m.Fits before) ∧
      hearers 7 r.2 = (["a", "c"] : List Text) ∧ hearers 20 r.2 = (["b"] : List Text) ∧
      hearers 25 r.2 = (["b"] : List Text) ∧ hearers 32 r.2 = (["b"] : List Text) ∧
      r.1.outcome?.isSome ∧ r.1.Leaves fun c' => InOrder r.2 c'.observers := by
  intro r
  have hheard : hearers 7 r.2 = (["a", "c"] : List Text) ∧ hearers 20 r.2 = (["b"] : List Text) ∧
      hearers 25 r.2 = (["b"] : List Text) ∧ hearers 32 r.2 = (["b"] : List Text) ∧
      r.1.outcome?.isSome := by
    decide +kernel
  have hdelivers :=
    session_delivers relay_calm Traced.wiper 2 relayCalls (c := Traced.wiper.start) rfl ()
  -- From here on the session is but a name, lest it be run again.
  generalize hr : session Traced.wiper (Chronicled.deliver Traced.wiper relay 2) 2 relayCalls
    Traced.wiper.start () 0 = s at hdelivers
  have hsame : r = s := hr
  clear_value r
  subst hsame
  obtain ⟨-, hnoted, hfits, hend⟩ := hdelivers
  obtain ⟨hstart, hstop, htape, hhead, hended⟩ := hheard
  exact ⟨hnoted, hfits, hstart, hstop, htape, hhead, hended, hend.imp fun _ h => h.1⟩

end SingleTape

import SingleTape.Engine

/-!
Executions: the plain way in which the engine of a machine works. It changes the configuration and
the world of the observers, and it may fail. A failure keeps both as they are at that point. Work
that may not end is cut off when its fuel is used up, and then has no result.
-/

namespace SingleTape

inductive Result (ω α : Type) where
  | ok (value : α) (config : Config) (world : ω)
  | error (failure : Failure) (config : Config) (world : ω)
  | exhausted

def Execution (ω α : Type) : Type := Config → ω → Result ω α

open Engine

namespace Execution

variable {ω α β : Type}

instance : Monad (Execution ω) where
  pure a := fun c w => .ok a c w
  bind x f := fun c w => match x c w with
    | .ok a c w => f a c w
    | .error e c w => .error e c w
    | .exhausted => .exhausted

instance : MonadStateOf Config (Execution ω) where
  get := fun c w => .ok c c w
  set c := fun _ w => .ok () c w
  modifyGet f := fun c w => .ok (f c).1 (f c).2 w

instance : MonadExceptOf Failure (Execution ω) where
  throw e := fun c w => .error e c w
  tryCatch x handle := fun c w => match x c w with
    | .error e c w => handle e c w
    | r => r

theorem map_id_eq (x : Execution ω α) : id <$> x = x := by
  funext c w
  simp only [Functor.map]
  cases x c w <;> rfl

theorem bind_assoc_eq {γ : Type} (x : Execution ω α) (f : α → Execution ω β)
    (g : β → Execution ω γ) : x >>= f >>= g = x >>= fun a => f a >>= g := by
  funext c w
  simp only [bind]
  cases x c w <;> rfl

instance : LawfulMonad (Execution ω) :=
  LawfulMonad.mk' _ map_id_eq (fun _ _ => rfl) bind_assoc_eq

instance : Engine ω (Execution ω) where
  exhausted := fun _ _ => .exhausted
  silently f := fun c w => .ok (f c w).1 (f c w).2.1 (f c w).2.2
  doing _ x := x
  announcing _ tell := tell 0
  hearing _ _ _ x := x

/-- Delivery under which an observer's requests are served by the machine that it observes. -/
abbrev deliver (M : Machine) (react : Observers ω) (fuel : Nat) :
    Text → Event → Execution ω Unit := Engine.deliver M react fuel

@[simp] theorem pure_apply (a : α) (c : Config) (w : ω) :
    (pure a : Execution ω α) c w = .ok a c w := rfl

theorem bind_apply (x : Execution ω α) (f : α → Execution ω β) (c : Config) (w : ω) :
    (x >>= f) c w = match x c w with
      | .ok a c w => f a c w
      | .error e c w => .error e c w
      | .exhausted => .exhausted := rfl

@[simp] theorem get_apply (c : Config) (w : ω) : (get : Execution ω Config) c w = .ok c c w := rfl

@[simp] theorem modify_apply (f : Config → Config) (c : Config) (w : ω) :
    (modify f : Execution ω Unit) c w = .ok () (f c) w := rfl

@[simp] theorem modifyGet_apply (f : Config → α × Config) (c : Config) (w : ω) :
    (modifyGet f : Execution ω α) c w = .ok (f c).1 (f c).2 w := rfl

@[simp] theorem throw_apply (e : Failure) (c : Config) (w : ω) :
    (throw e : Execution ω α) c w = .error e c w := rfl

@[simp] theorem exhausted_apply (c : Config) (w : ω) :
    (exhausted : Execution ω α) c w = .exhausted := rfl

@[simp] theorem doing_eq (what : Doing) (x : Execution ω α) : doing what x = x := rfl

@[simp] theorem hearing_eq (name : Text) (event : Event) (number : Nat) (x : Execution ω Unit) :
    hearing name event number x = x := rfl

theorem tryCatch_apply (x : Execution ω α) (handle : Failure → Execution ω α) (c : Config) (w : ω) :
    tryCatch x handle c w = match x c w with
      | .error e c w => handle e c w
      | r => r := rfl

@[simp] theorem silently_apply (f : Config → ω → α × Config × ω) (c : Config) (w : ω) :
    (silently f : Execution ω α) c w = .ok (f c w).1 (f c w).2.1 (f c w).2.2 := rfl

theorem attempt_apply (x : Execution ω α) (c : Config) (w : ω) : attempt x c w = match x c w with
    | .ok a c w => .ok (.ok a) c w
    | .error e c w => .ok (.error e) c w
    | .exhausted => .exhausted := by
  simp only [attempt, tryCatch_apply, bind_apply]
  cases x c w <;> rfl

/-- Apart from what it answers, such work leaves no trace in the configuration. -/
theorem aside_apply (x : Execution ω α) (c : Config) (w : ω) :
    aside x c w = match x { c with observers := [] } w with
      | .ok a _ w => .ok a c w
      | .error e _ w => .error e c w
      | .exhausted => .exhausted := by
  simp only [aside, bind_apply, silently_apply, doing_eq, attempt_apply]
  cases x { c with observers := [] } w <;> rfl

section Work

variable {M : Machine} {deliver : Text → Event → Execution ω Unit}

theorem announce_apply (event : Config → Event) (c : Config) (w : ω) :
    announce deliver event c w = announceTo deliver event 0 c.observers c w := rfl

theorem load_apply (tape : List Symbol) (head : Int) (c : Config) (w : ω) :
    (load M tape head : Execution ω Unit) c w = match c.load M tape head with
      | (c, none) => .ok () c w
      | (c, some e) => .error e c w := by
  simp only [load, bind_apply, modifyGet_apply]
  rcases c.load M tape head with ⟨d, _ | e⟩ <;> rfl

theorem find_apply (c : Config) (w : ω) :
    (find M : Execution ω Transition) c w = match c.next M with
      | .ok t => .ok t c w
      | .error e => .error (.error e) c w := by
  simp only [find, doing_eq, bind_apply, get_apply]
  cases c.next M <;> rfl

theorem accept_apply (fuel : Nat) (word : List Symbol) (maxSteps : Option Int) (c : Config)
    (w : ω) : accept M deliver fuel word maxSteps c w =
      match query M deliver fuel word maxSteps { c with observers := [] } w with
      | .ok a _ w => .ok a c w
      | .error e _ w => .error e c w
      | .exhausted => .exhausted := by
  rw [accept, doing_eq, aside_apply]
  cases query M deliver fuel word maxSteps { c with observers := [] } w <;> rfl

section Reaction

variable {serve : Request → Execution ω (Option Bool)} {c : Config} {w : ω}

@[simp] theorem perform_done (v : ω) : perform serve (.done v) c w = .ok () c v := rfl

@[simp] theorem perform_fail (v : ω) (e : Failure) :
    perform serve (.fail v e) c w = .error e c v := rfl

theorem perform_ask (v : ω) (request : Request)
    (next : ω → Config → Except Failure (Option Bool) → Reaction ω) :
    perform serve (.ask v request next) c w = match serve request c v with
      | .ok answer c w => perform serve (next w c (.ok answer)) c w
      | .error e c w => perform serve (next w c (.error e)) c w
      | .exhausted => .exhausted := by
  simp only [perform, bind_apply, setWorld, view, silently_apply, attempt_apply]
  cases serve request c v <;> rfl

end Reaction

theorem deliver_succ (M : Machine) (react : Observers ω) (fuel : Nat) (name : Text) (event : Event)
    (c : Config) (w : ω) : Execution.deliver M react (fuel + 1) name event c w =
      perform (serve M (Execution.deliver M react fuel) fuel) (react name event w c) c w := rfl

theorem announce_of_observers_eq_nil {c : Config} (h : c.observers = [])
    (event : Config → Event) (w : ω) : announce deliver event c w = .ok () c w := by
  rw [announce_apply, h]
  rfl

/-- Without observers a step is one transition. -/
theorem step_of_observers_eq_nil {c : Config} (h : c.observers = []) (w : ω) :
    step M deliver c w = match c.next M with
      | .ok t => .ok () (c.apply M t).countStep w
      | .error e => .error (.error e) c w := by
  cases hn : c.next M with
  | error e => simp [step, bind_apply, find_apply, hn]
  | ok t =>
    have ht : (c.apply M t).observers = [] := by rw [Config.apply_observers, h]
    by_cases hh : (c.apply M t).head = c.head <;>
      simp [step, take, bind_apply, find_apply, hn, announce_of_observers_eq_nil h,
        announce_of_observers_eq_nil ht, hh]

end Work

end Execution
end SingleTape

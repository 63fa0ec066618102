import SingleTape.Proofs.Execution.Soundness

/-!
What cannot be undone. If each operation on a configuration keeps a property, then so does
everything that a machine does, also when it fails and whatever those who observe it ask of it. An
example is that the tape is set.
-/

namespace SingleTape

open Engine

/-- A property of configurations that each operation keeps. -/
structure Config.Stable (M : Machine) (P : Config → Prop) : Prop where
  load : ∀ {c : Config} (tape : List Symbol) (head : Int), P c → P (c.load M tape head).1
  apply : ∀ {c : Config} (t : Transition), P c → P (c.apply M t)
  countStep : ∀ {c : Config}, P c → P c.countStep
  setAtInitial : ∀ {c : Config}, P c → P (c.setAtInitial M)
  resetSteps : ∀ {c : Config}, P c → P c.resetSteps
  attach : ∀ {c : Config} (name : Text), P c → P (c.attach name)
  detach : ∀ {c : Config} (name : Text), P c → P (c.detach name)

/-- A tape that was set is there for good. -/
theorem Config.stable_tapeSet (M : Machine) : Stable M (·.tapeSet = true) where
  load tape head h := by
    unfold Config.load
    repeat' split
    all_goals first | exact h | rfl
  apply t h := by rwa [apply_tapeSet]
  countStep h := h
  setAtInitial h := h
  resetSteps h := h
  attach name h := by
    unfold Config.attach
    split <;> exact h
  detach _ h := h

namespace Execution

variable {ω α β : Type} {M : Machine} {P : Config → Prop}

/-- Where the property holds before the work it holds afterwards. -/
def Retains (P : Config → Prop) (x : Execution ω α) : Prop := ∀ c w, P c → (x c w).Leaves P

theorem retains_modify {f : Config → Config} (hf : ∀ {c}, P c → P (f c)) :
    Retains P (modify f : Execution ω Unit) := fun _ _ h => hf h

theorem retains_bind {x : Execution ω α} {f : α → Execution ω β} (hx : Retains P x)
    (hf : ∀ a, Retains P (f a)) : Retains P (x >>= f) := by
  intro c w h
  have hend := hx c w h
  rw [bind_apply]
  cases hxc : x c w with
  | ok a d v =>
    rw [hxc] at hend
    exact hf a d v hend
  | error e d v => rwa [hxc] at hend
  | exhausted => trivial

theorem retains_tryCatch {x : Execution ω α} {handle : Failure → Execution ω α}
    (hx : Retains P x) (hhandle : ∀ e, Retains P (handle e)) : Retains P (tryCatch x handle) := by
  intro c w h
  have hend := hx c w h
  rw [tryCatch_apply]
  cases hxc : x c w with
  | ok a d v => rwa [hxc] at hend
  | error e d v =>
    rw [hxc] at hend
    exact hhandle e d v hend
  | exhausted => trivial

theorem retains_aside (x : Execution ω α) : Retains P (aside x) := by
  intro c w h
  rw [aside_apply]
  cases x { c with observers := [] } w with
  | exhausted => trivial
  | _ => exact h

section Work

variable {deliver : Text → Event → Execution ω Unit} (hP : Config.Stable M P)
  (hd : ∀ name event, Retains P (deliver name event))

include hd in
theorem retains_announce (event : Config → Event) : Retains P (announce deliver event) := by
  have hall : ∀ names, Retains P (announceTo deliver event 0 names) := by
    intro names
    induction names with
    | nil => exact fun _ _ h => h
    | cons name names ih =>
      exact fun c w h => retains_bind (hd name (event c)) (fun _ => ih) c w h
  exact fun c w h => hall c.observers c w h

/-- A property that each operation keeps is kept by all of the work. -/
def retaining : Correspondence M deliver deliver where
  rel x _ := Retains P x
  rel_pure _ _ _ h := h
  rel_throw _ _ _ h := h
  rel_exhausted _ _ _ := trivial
  rel_bind := retains_bind
  rel_look hf c w h := hf c c rfl c w h
  rel_tryCatch := retains_tryCatch
  rel_call _ _ _ hx := hx
  rel_setAtInitial := retains_modify hP.setAtInitial
  rel_resetSteps := retains_modify hP.resetSteps
  rel_place tape head _ _ h := hP.load tape head h
  rel_finding hx := hx
  rel_store t := retains_modify (hP.apply t)
  rel_countStep := retains_modify hP.countStep
  rel_announce event _ := retains_announce hd event

include hP

theorem retains_attach (name : Option Text) : Retains P (attach name : Execution ω Unit) := by
  cases name with
  | none => exact fun _ _ h => h
  | some name => exact retains_modify (hP.attach name)

theorem retains_detach (name : Option Text) : Retains P (detach name : Execution ω Unit) := by
  cases name with
  | none => exact fun _ _ h => h
  | some name => exact retains_modify (hP.detach name)

include hd

theorem retains_step : Retains P (step M deliver) := (retaining hP hd).rel_step

theorem retains_serve (fuel : Nat) (request : Request) :
    Retains P (serve M deliver fuel request) :=
  let R := (retaining hP hd).toConduct
  R.rel_serve (R.rel_accept (R.rel_runUnbounded fuel) fun _ => retains_aside _) request
    (fun name _ => retains_attach hP name) fun name _ => retains_detach hP name

end Work

theorem retains_deliver (hP : Config.Stable M P) (react : Observers ω) (fuel : Nat) (name : Text)
    (event : Event) : Retains P (deliver M react fuel name event) := by
  induction fuel generalizing name event with
  | zero => exact fun _ _ _ => trivial
  | succ fuel ih =>
    exact (retaining hP ih).rel_deliver (fun _ _ h => h) (fun _ _ _ h => h)
      (retains_serve hP ih fuel) name event

end Execution
end SingleTape

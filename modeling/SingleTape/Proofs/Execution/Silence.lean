import SingleTape.Proofs.Execution.Transparency
import SingleTape.Transcript

/-!
Observers who ask nothing. They may write down what they hear; a machine that they observe runs on a
tape as it does when nobody is there.
-/

namespace SingleTape

open Engine

open Point

/-- Whatever they hear, they are done with it at once. -/
def Observers.Silent {ω : Type} (react : Observers ω) : Prop :=
  ∀ name event w c, ∃ v, react name event w c = .done v

theorem Transcript.observers_silent : Observers.Silent Transcript.observers :=
  fun _ _ _ _ => ⟨_, rfl⟩

/-- Without anything to be answered, no fuel is needed to hear of all events. -/
theorem Observers.Silent.exists_attend {ω : Type} {react : Observers ω} (h : react.Silent)
    (M : Machine) (ps : List Point) (w : ω) : ∃ v, react.Attend M 0 w (heard ps) v := by
  induction ps generalizing w with
  | nil => exact ⟨w, .nil w⟩
  | cons p ps ih =>
    cases p with
    | entered name event c =>
      obtain ⟨u, hu⟩ := h name event w c
      obtain ⟨v, hv⟩ := ih u
      exact ⟨v, .cons (hu ▸ .done u) hv⟩
    | _ => exact ih w

theorem Config.unobserved_attach (c : Config) (name : Text) :
    (c.attach name).unobserved = c.unobserved := by
  unfold attach
  split <;> rfl

/-- What comes of the work, without its observers and their world. -/
def Result.forget {ω α : Type} : Result ω α → Result Unit α
  | .ok a c _ => .ok a c.unobserved ()
  | .error e c _ => .error e c.unobserved ()
  | .exhausted => .exhausted

namespace Traced

/-- With some fuel for each event, nobody waits for an answer. -/
theorem Mirrors.forget_eq {ω α : Type} {react : Observers ω} {M : Machine} {fuel : Nat} {w u v : ω}
    {r : Result ω α × List Point} {r' : Result Unit α × List Point}
    (h : Mirrors react M (fuel + 1) w v r r') (hattend : react.Attend M 0 w (heard r.2) u) :
    r.1.forget = r'.1.forget := by
  cases h with
  | ok => rfl
  | error => rfl
  | exhausted => rfl
  | waiting _ hfew => exact absurd hattend (hfew 0 (Nat.succ_pos fuel) u)

variable {ω : Type} {M : Machine}

/-- Apart from the observers, those who ask nothing change nothing. -/
theorem forget_runOn {react : Observers ω} (h : react.Silent) (fuel loops : Nat)
    (tape : List Symbol) (head : Int) (maxSteps : Option Int) (c : Config) (w : ω) :
    (runOn M (deliver M react (fuel + 1)) loops tape head maxSteps c w).1.forget =
      (runOn M mute loops tape head maxSteps c.unobserved ()).1 := by
  obtain ⟨v, hattend⟩ :=
    h.exists_attend M (runOn M (deliver M react (fuel + 1)) loops tape head maxSteps c w).2 w
  let F := (following react M (fuel + 1)).toConduct
  have hmirrors := F.rel_runOn (F.rel_runUnbounded loops) tape head maxSteps c w 0 v hattend
  -- From the observed run to the muted one, and from there to the one without observers.
  let O := (overlooking M).toConduct
  have hoverlooks := O.rel_runOn (O.rel_runUnbounded loops) tape head maxSteps c
  rw [hmirrors.forget_eq hattend, ← hoverlooks]
  cases (runOn M mute loops tape head maxSteps c ()).1 <;> rfl

end Traced

namespace Execution

variable {ω : Type} {M : Machine}

theorem erase_runOn_mute (fuel : Nat) (tape : List Symbol) (head : Int) (maxSteps : Option Int) :
    Traced.erase (runOn M Traced.mute fuel tape head maxSteps) =
      runOn M nobody fuel tape head maxSteps :=
  let R := Traced.erasing M Traced.mute
  Traced.erase_eq (R.rel_runOn (R.rel_runUnbounded fuel) tape head maxSteps)

/-- Observers who ask nothing do not change what comes of a run. -/
theorem forget_runOn {react : Observers ω} (h : react.Silent) (fuel loops : Nat)
    (tape : List Symbol) (head : Int) (maxSteps : Option Int) (c : Config) (w : ω) :
    (runOn M (Execution.deliver M react (fuel + 1)) loops tape head maxSteps c w).forget =
      runOn M nobody loops tape head maxSteps c.unobserved () := by
  let R := Traced.erasing M (Traced.deliver M react (fuel + 1))
  have hwatched := Traced.erase_eq (R.rel_runOn (R.rel_runUnbounded loops) tape head maxSteps)
  rw [Traced.erase_deliver] at hwatched
  rw [← hwatched, ← erase_runOn_mute]
  exact Traced.forget_runOn h fuel loops tape head maxSteps c w

/-- More fuel changes nothing about a run that ends. -/
theorem runOn_of_le {fuel fuel' : Nat} (h : fuel ≤ fuel') {tape : List Symbol} {head : Int}
    {maxSteps : Option Int} {c : Config}
    (hend : runOn M nobody fuel tape head maxSteps c () ≠ .exhausted) :
    runOn M nobody fuel' tape head maxSteps c () = runOn M nobody fuel tape head maxSteps c () := by
  have hextends := (Traced.extending M Traced.mute).toConduct.rel_runOn
    (Traced.extends_runUnbounded M Traced.mute h) tape head maxSteps c ()
  rw [← erase_runOn_mute] at hend ⊢
  rw [← erase_runOn_mute]
  exact congrArg Prod.fst (hextends.eq_of_ne hend).symm

end Execution
end SingleTape

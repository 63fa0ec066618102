import SingleTape.Execution
import SingleTape.Proofs.Execution.Correspondence

/-!
Work that nobody observes: it changes the configuration alone. Whoever would be told, and in which
world, makes no difference to it.
-/

namespace SingleTape

open Engine

namespace Config

variable {M : Machine}

theorem load_observers (c : Config) (tape : List Symbol) (head : Int) :
    (c.load M tape head).1.observers = c.observers := by
  unfold load
  repeat' split
  all_goals rfl

theorem load_steps (c : Config) (tape : List Symbol) (head : Int) :
    (c.load M tape head).1.steps = c.steps := by
  unfold load
  repeat' split
  all_goals rfl

end Config

namespace Result

variable {ω α : Type}

/-- The result in a world that the work does not touch. -/
def inWorld (w : ω) : Result Unit α → Result ω α
  | .ok a c _ => .ok a c w
  | .error e c _ => .error e c w
  | .exhausted => .exhausted

/-- Nobody is attached in the end. -/
def Unobserved : Result ω α → Prop
  | .ok _ c _ => c.observers = []
  | .error _ c _ => c.observers = []
  | .exhausted => True

end Result

namespace Execution

variable {ω : Type} {M : Machine} {deliver : Text → Event → Execution ω Unit}

theorem setTape_of_observers_eq_nil {c : Config} (h : c.observers = []) (tape : List Symbol)
    (head : Int) (w : ω) :
    setTape M deliver tape head c w = match tape.find? (· ∉ M.alphabet) with
      | some a => .error (.error (.invalidSymbol a)) c w
      | none => match c.load M tape head with
        | (c, none) => .ok () c w
        | (c, some e) => .error e c w := by
  cases hf : tape.find? (· ∉ M.alphabet) with
  | some a => simp only [setTape, doing_eq, hf, throw_apply]
  | none =>
    have hl : (c.load M tape head).1.observers = [] := by rw [Config.load_observers, h]
    simp only [setTape, doing_eq, hf, bind_apply, load_apply]
    cases hc : c.load M tape head with
    | mk c' e =>
      rw [hc] at hl
      cases e with
      | none => exact announce_of_observers_eq_nil hl _ w
      | some e => rfl

/-- A tape is set if and only if its symbols are known and it fits. -/
theorem setTape_eq_ok_iff {c : Config} (h : c.observers = []) {tape : List Symbol} {head : Int}
    {w : ω} {c' : Config} {w' : ω} :
    setTape M deliver tape head c w = .ok () c' w' ↔
      (∀ a ∈ tape, a ∈ M.alphabet) ∧ c.load M tape head = (c', none) ∧ w' = w := by
  rw [setTape_of_observers_eq_nil h]
  split
  · next a ha =>
    have hm := List.mem_of_find?_eq_some ha
    have hn : a ∉ M.alphabet := by simpa using List.find?_some ha
    constructor
    · intro he
      cases he
    · intro he
      exact absurd (he.1 a hm) hn
  · next ha =>
    have hm : ∀ a ∈ tape, a ∈ M.alphabet := by simpa using ha
    cases hc : c.load M tape head with
    | mk d e =>
      cases e with
      | none =>
        simp only [Result.ok.injEq, true_and, Prod.mk.injEq, and_true]
        constructor
        · intro he
          exact ⟨hm, he.1, he.2.symm⟩
        · intro he
          exact ⟨he.2.1, he.2.2.symm⟩
      | some e => simp

/-- The given number of steps, one after another. -/
def steps (M : Machine) (deliver : Text → Event → Execution ω Unit) : Nat → Execution ω Unit
  | 0 => pure ()
  | n + 1 => do
    step M deliver
    steps M deliver n

theorem steps_succ_of_observers_eq_nil {c : Config} (h : c.observers = []) {t : Transition}
    (ht : c.next M = .ok t) (n : Nat) (w : ω) :
    steps M deliver (n + 1) c w = steps M deliver n (c.apply M t).countStep w := by
  simp only [steps, bind_apply, step_of_observers_eq_nil h, ht]

section Solitary

variable {α β : Type}

/-- Nobody hears of any event. -/
def nobody : Text → Event → Execution Unit Unit := fun _ _ => pure ()

/-- Where nobody is attached, the work is that of the other, in whatever world. -/
def Solitary (x : Execution ω α) (y : Execution Unit α) : Prop :=
  ∀ c w, c.observers = [] → x c w = (y c ()).inWorld w ∧ (y c ()).Unobserved

theorem solitary_bind {x : Execution ω α} {y : Execution Unit α} {f : α → Execution ω β}
    {g : α → Execution Unit β} (hx : Solitary x y) (hf : ∀ a, Solitary (f a) (g a)) :
    Solitary (x >>= f) (y >>= g) := by
  intro c w h
  obtain ⟨hxy, hend⟩ := hx c w h
  rw [bind_apply, bind_apply, hxy]
  cases hy : y c () with
  | ok a c' _ =>
    rw [hy] at hend
    exact hf a c' w hend
  | error e c' _ =>
    rw [hy] at hend
    exact ⟨rfl, hend⟩
  | exhausted => exact ⟨rfl, trivial⟩

theorem solitary_tryCatch {x : Execution ω α} {y : Execution Unit α}
    {handle : Failure → Execution ω α} {handle' : Failure → Execution Unit α} (hx : Solitary x y)
    (hhandle : ∀ e, Solitary (handle e) (handle' e)) :
    Solitary (tryCatch x handle) (tryCatch y handle') := by
  intro c w h
  obtain ⟨hxy, hend⟩ := hx c w h
  rw [tryCatch_apply, tryCatch_apply, hxy]
  cases hy : y c () with
  | ok a c' _ =>
    rw [hy] at hend
    exact ⟨rfl, hend⟩
  | error e c' _ =>
    rw [hy] at hend
    exact hhandle e c' w hend
  | exhausted => exact ⟨rfl, trivial⟩

theorem solitary_modify {f : Config → Config}
    (hf : ∀ c, c.observers = [] → (f c).observers = []) :
    Solitary (modify f : Execution ω Unit) (modify f) :=
  fun c _ h => ⟨rfl, hf c h⟩

/-- There is nobody to be told. -/
theorem solitary_announce (deliver : Text → Event → Execution ω Unit) (event : Config → Event) :
    Solitary (announce deliver event) (announce nobody event) := by
  intro c w h
  rw [announce_of_observers_eq_nil h, announce_of_observers_eq_nil h]
  exact ⟨rfl, h⟩

/-- Where nobody is attached, it makes no difference who would be told, and in which world. -/
def solitary (M : Machine) (deliver : Text → Event → Execution ω Unit) :
    Correspondence M deliver nobody where
  rel := Solitary
  rel_pure _ _ _ h := ⟨rfl, h⟩
  rel_throw _ _ _ h := ⟨rfl, h⟩
  rel_exhausted _ _ _ := ⟨rfl, trivial⟩
  rel_bind := solitary_bind
  rel_look hfg c w h := hfg c c rfl c w h
  rel_tryCatch := solitary_tryCatch
  rel_call _ _ _ hxy := hxy
  rel_setAtInitial := solitary_modify fun _ h => h
  rel_resetSteps := solitary_modify fun _ h => h
  rel_place tape head c _ h := ⟨rfl, (c.load_observers tape head).trans h⟩
  rel_finding hxy := hxy
  rel_store t := solitary_modify fun c h => (c.apply_observers t).trans h
  rel_countStep := solitary_modify fun _ h => h
  rel_announce event _ := solitary_announce deliver event

variable (M : Machine) (deliver : Text → Event → Execution ω Unit)

theorem solitary_query (fuel : Nat) (word : List Symbol) (maxSteps : Option Int) :
    Solitary (query M deliver fuel word maxSteps) (query M nobody fuel word maxSteps) :=
  let R := (solitary M deliver).toConduct
  R.rel_query (R.rel_runUnbounded fuel) word maxSteps

end Solitary

end Execution
end SingleTape

import SingleTape.Proofs.Execution.Correspondence
import SingleTape.Proofs.Execution.Trace

/-!
What traced work is without its trace. Dropping the points gives the execution itself, and what the
observers of an execution hear is what the points say. In both cases the observers of one world are
seen as those of another.
-/

namespace SingleTape

open Engine

/-- The result in another world. -/
def Result.mapWorld {ω ω' α : Type} (φ : ω → ω') : Result ω α → Result ω' α
  | .ok a c w => .ok a c (φ w)
  | .error e c w => .error e c (φ w)
  | .exhausted => .exhausted

@[simp] theorem Result.mapWorld_id {ω α : Type} (r : Result ω α) : r.mapWorld (fun w => w) = r := by
  cases r <;> rfl

/-- A reaction of an observer who keeps notes beside what it knows. -/
def Reaction.noting {ω : Type} (notes : List Point) : Reaction ω → Reaction (ω × List Point)
  | .done w => .done (w, notes)
  | .fail w e => .fail (w, notes) e
  | .ask w request next =>
    .ask (w, notes) request fun w c answer => (next w.1 c answer).noting w.2

/-- Observers who note each event that they hear of, and otherwise do as before. -/
def Observers.noting {ω : Type} (react : Observers ω) : Observers (ω × List Point) :=
  fun name event w c => (react name event w.1 c).noting (w.2 ++ [.entered name event c])

/-- A way to see the observers of one world as those of another, which may depend on what was heard
so far and leaves what they do the same. -/
structure Reading {ω ω' : Type} (react : Observers ω) (react' : Observers ω') where
  world : List Point → ω → ω'
  reaction : List Point → Reaction ω → Reaction ω'
  reaction_done : ∀ notes w, reaction notes (.done w) = .done (world notes w)
  reaction_fail : ∀ notes w e, reaction notes (.fail w e) = .fail (world notes w) e
  reaction_ask : ∀ notes w request next, ∃ next',
    reaction notes (.ask w request next) = .ask (world notes w) request next' ∧
      ∀ notes' w' c a, next' (world notes' w') c a = reaction notes' (next w' c a)
  react_eq : ∀ notes name event w c, react' name event (world notes w) c =
    reaction (notes ++ [.entered name event c]) (react name event w c)

namespace Reading

variable {ω : Type}

/-- The observers as they are. -/
def same (react : Observers ω) : Reading react react where
  world _ w := w
  reaction _ r := r
  reaction_done _ _ := rfl
  reaction_fail _ _ _ := rfl
  reaction_ask _ _ _ next := ⟨next, rfl, fun _ _ _ _ => rfl⟩
  react_eq _ _ _ _ _ := rfl

/-- Each of them notes what it hears. -/
def noting (react : Observers ω) : Reading react react.noting where
  world notes w := (w, notes)
  reaction notes r := r.noting notes
  reaction_done _ _ := rfl
  reaction_fail _ _ _ := rfl
  reaction_ask _ _ _ _ := ⟨_, rfl, fun _ _ _ _ => rfl⟩
  react_eq _ _ _ _ _ := rfl

end Reading

def Point.isEntry : Point → Bool
  | entered _ _ _ => true
  | _ => false

namespace Traced

section Agreement

variable {ω ω' α β : Type}

/-- The one work is the other, apart from its points and with the world as it is seen after what
was heard so far. -/
def Agrees (φ : List Point → ω → ω') (x : Traced ω α) (y : Execution ω' α) : Prop :=
  ∀ c w notes, y c (φ notes w) =
    (x c w).1.mapWorld (φ (notes ++ (x c w).2.filter Point.isEntry))

variable {φ : List Point → ω → ω'}

theorem agrees_pure (a : α) : Agrees φ (pure a) (pure a) := by
  intro c w notes
  simp [Result.mapWorld]

theorem Agrees.bind {x : Traced ω α} {y : Execution ω' α} {f : α → Traced ω β}
    {g : α → Execution ω' β} (hx : Agrees φ x y) (hf : ∀ a, Agrees φ (f a) (g a)) :
    Agrees φ (x >>= f) (y >>= g) := by
  intro c w notes
  simp only [bind_apply, Execution.bind_apply, hx c w notes]
  rcases x c w with ⟨⟨a, c', w'⟩ | ⟨e, c', w'⟩ | _, ps⟩
  · simp only [Result.mapWorld, List.filter_append, ← List.append_assoc]
    exact hf a c' w' _
  · rfl
  · rfl

theorem Agrees.tryCatch {x : Traced ω α} {y : Execution ω' α} {f : Failure → Traced ω α}
    {g : Failure → Execution ω' α} (hx : Agrees φ x y) (hf : ∀ e, Agrees φ (f e) (g e)) :
    Agrees φ (tryCatch x f) (tryCatch y g) := by
  intro c w notes
  simp only [tryCatch_apply, Execution.tryCatch_apply, hx c w notes]
  rcases x c w with ⟨⟨a, c', w'⟩ | ⟨e, c', w'⟩ | _, ps⟩
  · rfl
  · simp only [Result.mapWorld, List.filter_append, ← List.append_assoc]
    exact hf e c' w' _
  · rfl

theorem Agrees.aside {x : Traced ω α} {y : Execution ω' α} (hx : Agrees φ x y) :
    Agrees φ (aside x) (aside y) := by
  intro c w notes
  simp only [aside_apply, Execution.aside_apply, hx { c with observers := [] } w notes]
  rcases x { c with observers := [] } w with ⟨a | e | _, ps⟩ <;> rfl

theorem Agrees.ending {x : Traced ω α} {y : Execution ω' α} (hx : Agrees φ x y) (call : Call) :
    Agrees φ (ending call x) y := by
  intro c w notes
  rw [hx c w notes, Traced.ending]
  rcases x c w with ⟨a | e | _, ps⟩ <;> simp [Result.mapWorld, Point.isEntry]

theorem Agrees.marking {x : Traced ω α} {y : Execution ω' α} (hx : Agrees φ x y)
    {point : Config → Point} (hpoint : ∀ c, (point c).isEntry = false) :
    Agrees φ (marking point x) y := by
  intro c w notes
  simp only [hx c w notes, Traced.marking, List.filter_cons, hpoint]
  rfl

theorem Agrees.asking {x : Traced ω α} {y : Execution ω' α} (hx : Agrees φ x y) (M : Machine) :
    Agrees φ (asking M x) y := by
  intro c w notes
  rw [Traced.asking]
  split
  · exact hx.marking (fun _ => rfl) c w notes
  · exact hx c w notes

theorem agrees_attach (name : Option Text) :
    Agrees φ (attach name : Traced ω Unit) (attach name) := by
  intro c w notes
  cases name <;> simp [attach, Result.mapWorld]

theorem agrees_detach (name : Option Text) :
    Agrees φ (detach name : Traced ω Unit) (detach name) := by
  intro c w notes
  cases name <;> simp [detach, Result.mapWorld]

variable {M : Machine} {deliver : Text → Event → Traced ω Unit}
  {deliver' : Text → Event → Execution ω' Unit}
  (h : ∀ name event, Agrees φ (marking (.entered name event) (deliver name event))
    (deliver' name event))

include h

theorem agrees_announceTo (event : Config → Event) (number : Nat) (names : List Text) :
    Agrees φ (announceTo deliver event number names) (announceTo deliver' event number names) := by
  induction names with
  | nil => exact agrees_pure ()
  | cons name names ih =>
    intro c w notes
    exact ((h name (event c)).bind fun _ => ih) c w notes

theorem agrees_announce (event : Config → Event) :
    Agrees φ (announce deliver event) (announce deliver' event) :=
  fun c w notes => agrees_announceTo h event 0 c.observers c w notes

def agreeing : Correspondence M deliver deliver' where
  rel := Agrees φ
  rel_pure := agrees_pure
  rel_throw _ _ _ _ := by simp [Result.mapWorld]
  rel_exhausted _ _ _ := rfl
  rel_bind := Agrees.bind
  rel_look hfg c w notes := hfg c c rfl c w notes
  rel_tryCatch := Agrees.tryCatch
  rel_call call _ _ hx := hx.ending call
  rel_setAtInitial _ _ _ := by simp [Result.mapWorld]
  rel_resetSteps _ _ _ := by simp [Result.mapWorld]
  rel_place _ _ _ _ _ := by simp [Result.mapWorld]
  rel_finding hx := hx.asking M
  rel_store t := Agrees.marking (fun _ _ _ => by simp [Result.mapWorld]) fun _ => rfl
  rel_countStep _ _ _ := by simp [Result.mapWorld]
  rel_announce event _ := agrees_announce h event

theorem agrees_serve (fuel : Nat) (request : Request) :
    Agrees φ (serve M deliver fuel request) (serve M deliver' fuel request) :=
  let R := (agreeing h).toConduct
  R.rel_serve (R.rel_accept (R.rel_runUnbounded fuel) Agrees.aside) request
    (fun name _ => agrees_attach name) fun name _ => agrees_detach name

theorem agrees_call (fuel : Nat) (c : Call) :
    Agrees φ (call M deliver fuel c) (call M deliver' fuel c) :=
  let R := (agreeing h).toConduct
  let hloop := R.rel_runUnbounded fuel
  R.rel_callOf (R.rel_accept hloop Agrees.aside) hloop agrees_attach agrees_detach c

theorem agrees_session (fuel : Nat) (calls : List Call) :
    Agrees φ (session M deliver fuel calls) (session M deliver' fuel calls) :=
  let R := (agreeing h).toConduct
  let hloop := R.rel_runUnbounded fuel
  R.rel_session (R.rel_accept hloop Agrees.aside) hloop agrees_attach agrees_detach calls

theorem agrees_converse (fuel : Nat) (calls : List Call) :
    Agrees φ (converse M deliver fuel calls) (converse M deliver' fuel calls) :=
  let R := (agreeing h).toConduct
  let hloop := R.rel_runUnbounded fuel
  R.rel_converse (R.rel_accept hloop Agrees.aside) hloop agrees_attach agrees_detach
    (fun _ _ _ => by simp [Result.mapWorld]) calls

end Agreement

section Observers

variable {ω ω' : Type} {react : Observers ω} {react' : Observers ω'} (R : Reading react react')

/-- Reactions that correspond do the same if their requests are served in the same way. -/
theorem perform_reaction {serve : Request → Traced ω (Option Bool)}
    {serve' : Request → Execution ω' (Option Bool)}
    (hserve : ∀ request, Agrees R.world (serve request) (serve' request)) (r : Reaction ω)
    (notes : List Point) (c : Config) (w : ω) (w' : ω') :
    perform serve' (R.reaction notes r) c w' = (perform serve r c w).1.mapWorld
      (R.world (notes ++ (perform serve r c w).2.filter Point.isEntry)) := by
  induction r generalizing notes c w w' with
  | done v =>
    rw [R.reaction_done]
    simp [Result.mapWorld]
  | fail v e =>
    rw [R.reaction_fail]
    simp [Result.mapWorld]
  | ask v request next ih =>
    obtain ⟨next', hask, hnext⟩ := R.reaction_ask notes v request next
    rw [hask, perform_ask, Execution.perform_ask, hserve request c v notes]
    rcases serve request c v with ⟨⟨a, c', u⟩ | ⟨e, c', u⟩ | _, ps⟩
    · simp only [Result.mapWorld, List.filter_append, ← List.append_assoc, hnext]
      exact ih u c' (.ok a) _ c' u _
    · simp only [Result.mapWorld, List.filter_append, ← List.append_assoc, hnext]
      exact ih u c' (.error e) _ c' u _
    · rfl

theorem agrees_deliver (M : Machine) (fuel : Nat) (name : Text) (event : Event) :
    Agrees R.world (marking (.entered name event) (deliver M react fuel name event))
      (Execution.deliver M react' fuel name event) := by
  induction fuel generalizing name event with
  | zero => exact fun _ _ _ => rfl
  | succ fuel ih =>
    intro c w notes
    have hperform := perform_reaction R (agrees_serve ih (M := M) fuel) (react name event w c)
      (notes ++ [.entered name event c]) c w (R.world notes w)
    rw [← R.react_eq] at hperform
    rw [List.append_assoc] at hperform
    exact hperform

end Observers

section Erasure

variable {ω α : Type}

/-- The execution without its points. -/
def erase (x : Traced ω α) : Execution ω α := fun c w => (x c w).1

/-- What those who note an event have noted in the end. -/
def noted (x : Traced ω α) : Execution (ω × List Point) α := fun c w =>
  (x c w.1).1.mapWorld (·, w.2 ++ (x c w.1).2.filter Point.isEntry)

theorem erase_eq {x : Traced ω α} {y : Execution ω α} (h : Agrees (fun _ w => w) x y) :
    erase x = y := by
  funext c w
  rw [h c w [], Result.mapWorld_id, erase]

theorem noted_eq {x : Traced ω α} {y : Execution (ω × List Point) α}
    (h : Agrees (fun notes w => (w, notes)) x y) : noted x = y := by
  funext c w
  exact (h c w.1 w.2).symm

/-- Without its points traced work is the work itself. -/
def erasing (M : Machine) (deliver : Text → Event → Traced ω Unit) :
    Conduct M deliver fun name event => erase (deliver name event) :=
  (agreeing (φ := fun _ w => w) fun name event c w _ => by
    rw [Result.mapWorld_id]
    rfl).toConduct

theorem erase_deliver (M : Machine) (react : Observers ω) (fuel : Nat) :
    (fun name event => erase (deliver M react fuel name event)) =
      Execution.deliver M react fuel := by
  funext name event
  exact erase_eq fun c w notes => agrees_deliver (.same react) M fuel name event c w notes

theorem erase_step (M : Machine) (react : Observers ω) (fuel : Nat) :
    erase (step M (deliver M react fuel)) = step M (Execution.deliver M react fuel) := by
  rw [← erase_deliver]
  exact erase_eq (erasing M _).rel_step

/-- Without its points a traced session is the session. -/
theorem erase_session (M : Machine) (react : Observers ω) (fuel : Nat) {loops : Nat}
    (calls : List Call) : erase (session M (deliver M react fuel) loops calls) =
      session M (Execution.deliver M react fuel) loops calls :=
  erase_eq (agrees_session (agrees_deliver (.same react) M fuel) loops calls)

/-- Without its points a traced conversation is the conversation. -/
theorem erase_converse (M : Machine) (react : Observers ω) (fuel : Nat) (calls : List Call) :
    erase (converse M (deliver M react fuel) fuel calls) =
      converse M (Execution.deliver M react fuel) fuel calls :=
  erase_eq (agrees_converse (agrees_deliver (.same react) M fuel) fuel calls)

/-- What the observers of a session hear, and where, is what its points say. -/
theorem noted_session (M : Machine) (react : Observers ω) (fuel : Nat) (calls : List Call) :
    noted (session M (deliver M react fuel) fuel calls) =
      session M (Execution.deliver M react.noting fuel) fuel calls :=
  noted_eq (agrees_session (agrees_deliver (.noting react) M fuel) fuel calls)

end Erasure

end Traced
end SingleTape

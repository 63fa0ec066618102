import SingleTape.Proofs.Execution.Interpretation
import SingleTape.Proofs.Execution.Query

/-!
Fuel. A conversation that ends does so with more fuel as well, and in the same way; with less it may
be cut off, but what happens before that is the same.
-/

namespace SingleTape

open Engine

namespace Traced

section Fuel

variable {ω α β : Type}

/-- The same result with the same points, or work that was cut off before it came to that. -/
inductive CutOff : Result ω α × List Point → Result ω α × List Point → Prop
  | same (r : Result ω α × List Point) : CutOff r r
  | cut {ps : List Point} {r : Result ω α × List Point} (h : ps <+: r.2) : CutOff (.exhausted, ps) r

theorem CutOff.append (ps : List Point) {r r' : Result ω α × List Point} (h : CutOff r r') :
    CutOff (r.1, ps ++ r.2) (r'.1, ps ++ r'.2) := by
  cases h with
  | same => exact .same _
  | cut h => exact .cut ((List.prefix_append_right_inj ps).2 h)

theorem CutOff.eq_of_ne {r r' : Result ω α × List Point} (h : CutOff r r') (hr : r.1 ≠ .exhausted) :
    r = r' := by
  cases h with
  | same => rfl
  | cut => exact absurd rfl hr

theorem CutOff.begins {r r' : Result ω α × List Point} (h : CutOff r r') : r.2 <+: r'.2 := by
  cases h with
  | same => exact List.prefix_refl _
  | cut h => exact h

/-- The one work goes as far as the other, or is cut off before. -/
def Extends (x y : Traced ω α) : Prop := ∀ c w, CutOff (x c w) (y c w)

theorem extends_refl (x : Traced ω α) : Extends x x := fun _ _ => .same _

theorem extends_bind {x y : Traced ω α} {f g : α → Traced ω β} (h : Extends x y)
    (hf : ∀ a, Extends (f a) (g a)) : Extends (x >>= f) (y >>= g) := by
  intro c w
  have hxy := h c w
  rw [bind_apply, bind_apply]
  generalize x c w = r at hxy ⊢
  generalize y c w = r' at hxy ⊢
  cases hxy with
  | same =>
    rcases r with ⟨⟨a, c, w⟩ | ⟨e, c, w⟩ | _, ps⟩
    · exact (hf a c w).append ps
    · exact .same _
    · exact .same _
  | cut h =>
    rcases r' with ⟨⟨a, c, w⟩ | ⟨e, c, w⟩ | _, ps⟩
    · exact .cut (h.trans (List.prefix_append _ _))
    · exact .cut h
    · exact .cut h

theorem extends_tryCatch {x y : Traced ω α} {f g : Failure → Traced ω α} (h : Extends x y)
    (hf : ∀ e, Extends (f e) (g e)) : Extends (tryCatch x f) (tryCatch y g) := by
  intro c w
  have hxy := h c w
  rw [tryCatch_apply, tryCatch_apply]
  generalize x c w = r at hxy ⊢
  generalize y c w = r' at hxy ⊢
  cases hxy with
  | same =>
    rcases r with ⟨⟨a, c, w⟩ | ⟨e, c, w⟩ | _, ps⟩
    · exact .same _
    · exact (hf e c w).append ps
    · exact .same _
  | cut h =>
    rcases r' with ⟨⟨a, c, w⟩ | ⟨e, c, w⟩ | _, ps⟩
    · exact .cut h
    · exact .cut (h.trans (List.prefix_append _ _))
    · exact .cut h

theorem extends_aside {x y : Traced ω α} (h : Extends x y) : Extends (aside x) (aside y) := by
  intro c w
  have hxy := h { c with observers := [] } w
  rw [aside_apply, aside_apply]
  generalize x { c with observers := [] } w = r at hxy ⊢
  generalize y { c with observers := [] } w = r' at hxy ⊢
  cases hxy with
  | same => exact .same _
  | cut h => rcases r' with ⟨⟨a, c, w⟩ | ⟨e, c, w⟩ | _, ps⟩ <;> exact .cut h

theorem extends_ending (call : Call) {x y : Traced ω α} (h : Extends x y) :
    Extends (ending call x) (ending call y) := by
  intro c w
  have hxy := h c w
  simp only [ending]
  generalize x c w = r at hxy ⊢
  generalize y c w = r' at hxy ⊢
  cases hxy with
  | same => exact .same _
  | cut h =>
    rcases r' with ⟨⟨a, c, w⟩ | ⟨e, c, w⟩ | _, ps⟩
    · exact .cut (h.trans (List.prefix_append _ _))
    · exact .cut (h.trans (List.prefix_append _ _))
    · exact .cut h

theorem extends_marking (point : Config → Point) {x y : Traced ω α} (h : Extends x y) :
    Extends (marking point x) (marking point y) :=
  fun c w => (h c w).append [point c]

theorem extends_asking (M : Machine) {x y : Traced ω α} (h : Extends x y) :
    Extends (asking M x) (asking M y) := by
  intro c w
  unfold asking
  split
  · exact extends_marking _ h c w
  · exact h c w

variable (M : Machine) (deliver : Text → Event → Traced ω Unit)

def extending : Correspondence M deliver deliver where
  rel := Extends
  rel_pure _ := extends_refl _
  rel_throw _ := extends_refl _
  rel_exhausted := extends_refl _
  rel_bind := extends_bind
  rel_look h := extends_bind (extends_refl get) fun c => h c c rfl
  rel_tryCatch := extends_tryCatch
  rel_call call _ _ := extends_ending call
  rel_setAtInitial := extends_refl _
  rel_resetSteps := extends_refl _
  rel_place _ _ := extends_refl _
  rel_finding := extends_asking M
  rel_store _ := extends_refl _
  rel_countStep := extends_refl _
  rel_announce _ _ := extends_refl _

theorem extends_runUnbounded {fuel fuel' : Nat} (h : fuel ≤ fuel') :
    Extends (runUnbounded M deliver fuel) (runUnbounded M deliver fuel') := by
  induction fuel generalizing fuel' with
  | zero =>
    intro c w
    exact .cut List.nil_prefix
  | succ fuel ih =>
    obtain ⟨fuel', rfl⟩ := Nat.exists_eq_succ_of_ne_zero (show fuel' ≠ 0 by omega)
    exact (extending M deliver).toConduct.rel_round (ih (Nat.le_of_succ_le_succ h))

theorem extends_query {fuel fuel' : Nat} (h : fuel ≤ fuel') (word : List Symbol)
    (maxSteps : Option Int) :
    Extends (query M deliver fuel word maxSteps) (query M deliver fuel' word maxSteps) :=
  (extending M deliver).toConduct.rel_query (extends_runUnbounded M deliver h) word maxSteps

theorem extends_converse {fuel fuel' : Nat} (h : fuel ≤ fuel') (calls : List Call) :
    Extends (converse M deliver fuel calls) (converse M deliver fuel' calls) :=
  let R := (extending M deliver).toConduct
  let hloop := extends_runUnbounded M deliver h
  R.rel_converse (R.rel_accept hloop extends_aside) hloop (fun _ => extends_refl _)
    (fun _ => extends_refl _) (extends_refl _) calls

end Fuel

/-- Delivery to observers who do nothing at all. -/
def mute : Text → Event → Traced Unit Unit := fun _ _ => pure ()

end Traced

namespace Execution

variable {M : Machine} {fuel fuel' : Nat} {q : Query} {c : Config}
  {a a' : Except Failure (Option Bool)}

/-- An answer is the same with more fuel. -/
theorem answer?_of_le (h : fuel ≤ fuel') (ha : answer? M fuel q c = some a) :
    answer? M fuel' q c = some a := by
  have herase : ∀ fuel, query M nobody fuel q.word q.maxSteps =
      Traced.erase (query M Traced.mute fuel q.word q.maxSteps) := by
    intro fuel
    have herasing := (Traced.erasing M Traced.mute).rel_runUnbounded fuel
    exact (Traced.erase_eq ((Traced.erasing M _).rel_query herasing q.word q.maxSteps)).symm
  have hextends :=
    Traced.extends_query M Traced.mute h q.word q.maxSteps { c with observers := [] } ()
  rw [answer?, herase, Traced.erase] at ha ⊢
  rw [← hextends.eq_of_ne]
  · exact ha
  · intro hend
    rw [hend] at ha
    cases ha

theorem answer?_unique (ha : answer? M fuel q c = some a) (ha' : answer? M fuel' q c = some a') :
    a = a' := by
  have hmax := answer?_of_le (Nat.le_max_left fuel fuel') ha
  have hmax' := answer?_of_le (Nat.le_max_right fuel fuel') ha'
  exact Option.some.inj (hmax.symm.trans hmax')

end Execution
end SingleTape

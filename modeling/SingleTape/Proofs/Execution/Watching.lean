import SingleTape.Proofs.Execution.Conversation

/-!
Observers who only watch. They look at the configuration, and they may ask queries that come to an
end; nothing that they do shows in what comes of a call, and nobody hears of it.
-/

namespace SingleTape

open Engine

/-- The points at which an observer hears of an event. -/
def Point.heard (ps : List Point) : List Point := ps.filter isEntry

@[simp] theorem Point.heard_append (ps qs : List Point) : heard (ps ++ qs) = heard ps ++ heard qs :=
  List.filter_append ps qs

@[simp] theorem Point.heard_snoc_ended (ps : List Point) (call : Call) (e : Option Failure)
    (c : Config) : heard (ps ++ [.ended call e c]) = heard ps := by
  simp [heard, isEntry]

open Point

/-- A reaction that comes to an end in the world `v`, having looked at the configuration and asked
queries that have an answer within the fuel. -/
inductive Reaction.Watches {ω : Type} (M : Machine) (fuel : Nat) (c : Config) :
    Reaction ω → ω → Prop
  | done (w : ω) : Watches M fuel c (.done w) w
  | ask {word : List Symbol} {maxSteps : Option Int} {a : Except Failure (Option Bool)} {w v : ω}
    {next : ω → Config → Except Failure (Option Bool) → Reaction ω}
    (ha : Execution.answer? M fuel ⟨word, maxSteps⟩ c = some a)
    (hnext : Watches M fuel c (next w c a) v) :
    Watches M fuel c (.ask w (.accept word maxSteps) next) v

/-- The observers only watch when they hear of these events one after another. -/
inductive Observers.Attend {ω : Type} (react : Observers ω) (M : Machine) (fuel : Nat) :
    ω → List Point → ω → Prop
  | nil (w : ω) : Attend react M fuel w [] w
  | cons {name : Text} {event : Event} {c : Config} {w v u : ω} {ps : List Point}
    (hreaction : (react name event w c).Watches M fuel c v) (hrest : Attend react M fuel v ps u) :
    Attend react M fuel w (.entered name event c :: ps) u

namespace Reaction.Watches

variable {ω : Type} {M : Machine} {fuel fuel' : Nat} {c : Config} {r : Reaction ω} {v v' : ω}

theorem of_le (h : fuel ≤ fuel') (hr : r.Watches M fuel c v) : r.Watches M fuel' c v := by
  induction hr with
  | done w => exact .done w
  | ask ha _ ih => exact .ask (Execution.answer?_of_le h ha) ih

theorem unique (hr : r.Watches M fuel c v) (hr' : r.Watches M fuel' c v') : v = v' := by
  induction hr with
  | done w =>
    cases hr'
    rfl
  | @ask _ _ a _ _ _ ha _ ih =>
    cases hr' with
    | @ask _ _ a' _ _ _ ha' hnext =>
      obtain rfl : a = a' := Execution.answer?_unique ha ha'
      exact ih hnext

end Reaction.Watches

namespace Observers.Attend

variable {ω : Type} {react : Observers ω} {M : Machine} {fuel fuel' : Nat} {w v v' u : ω}
  {ps qs : List Point}

theorem of_le (h : fuel ≤ fuel') (hw : react.Attend M fuel w ps v) :
    react.Attend M fuel' w ps v := by
  induction hw with
  | nil w => exact .nil w
  | cons hreaction _ ih => exact .cons (hreaction.of_le h) ih

theorem unique (hw : react.Attend M fuel w ps v) (hw' : react.Attend M fuel' w ps v') : v = v' := by
  induction hw with
  | nil w =>
    cases hw'
    rfl
  | cons hreaction _ ih =>
    cases hw' with
    | cons hreaction' hrest =>
      obtain rfl := hreaction.unique hreaction'
      exact ih hrest

theorem append (h : react.Attend M fuel w ps v) (h' : react.Attend M fuel v qs u) :
    react.Attend M fuel w (ps ++ qs) u := by
  induction h with
  | nil w => exact h'
  | cons hreaction _ ih => exact .cons hreaction (ih h')

theorem split (h : react.Attend M fuel w (ps ++ qs) u) :
    ∃ v, react.Attend M fuel w ps v ∧ react.Attend M fuel v qs u := by
  induction ps generalizing w with
  | nil => exact ⟨w, .nil w, h⟩
  | cons p ps ih =>
    cases h with
    | cons hreaction hrest =>
      obtain ⟨v, hps, hqs⟩ := ih hrest
      exact ⟨v, .cons hreaction hps, hqs⟩

/-- With enough fuel the observers can attend to all beginnings that they can attend to at all. -/
theorem exists_fuel (react : Observers ω) (M : Machine) (w : ω) (qs : List Point) :
    ∃ N, ∀ ps, ps <+: qs → ∀ fuel v, react.Attend M fuel w ps v → react.Attend M N w ps v := by
  induction qs generalizing w with
  | nil =>
    refine ⟨0, fun ps hps fuel v h => ?_⟩
    obtain rfl := List.prefix_nil.1 hps
    cases h
    exact .nil w
  | cons q qs ih =>
    by_cases hq : ∃ m u, react.Attend M m w [q] u
    · obtain ⟨m, u, hq⟩ := hq
      obtain ⟨N, hN⟩ := ih u
      refine ⟨max m N, fun ps hps fuel v h => ?_⟩
      rcases List.prefix_cons_iff.1 hps with rfl | ⟨rest, rfl, hrest⟩
      · cases h
        exact .nil w
      · have hcons : react.Attend M fuel w ([q] ++ rest) v := h
        obtain ⟨u', hu', hattend⟩ := hcons.split
        obtain rfl := hq.unique hu'
        exact append (hq.of_le (Nat.le_max_left m N))
          ((hN rest hrest fuel v hattend).of_le (Nat.le_max_right m N))
    · refine ⟨0, fun ps hps fuel v h => ?_⟩
      rcases List.prefix_cons_iff.1 hps with rfl | ⟨rest, rfl, -⟩
      · cases h
        exact .nil w
      · have hcons : react.Attend M fuel w ([q] ++ rest) v := h
        obtain ⟨u, hu, -⟩ := hcons.split
        exact absurd ⟨fuel, u, hu⟩ hq

end Observers.Attend

theorem Observers.attend_singleton_iff {ω : Type} {react : Observers ω} {M : Machine} {fuel : Nat}
    {w v : ω} {name : Text} {event : Event} {c : Config} :
    react.Attend M fuel w [.entered name event c] v ↔
      (react name event w c).Watches M fuel c v := by
  constructor
  · intro h
    cases h with
    | cons hreaction hrest =>
      cases hrest
      exact hreaction
  · intro h
    exact .cons h (.nil v)

namespace Traced

section Unheard

variable {ω α β : Type}

/-- Unobserved, the work is heard of by nobody. -/
def Unheard (x : Traced ω α) : Prop :=
  ∀ c w, c.observers = [] → heard (x c w).2 = [] ∧ (x c w).1.Unobserved

theorem unheard_modify {f : Config → Config} (hf : ∀ c, (f c).observers = c.observers) :
    Unheard (modify f : Traced ω Unit) :=
  fun c _ h => ⟨rfl, (hf c).trans h⟩

theorem unheard_bind {x : Traced ω α} {f : α → Traced ω β} (hx : Unheard x)
    (hf : ∀ a, Unheard (f a)) : Unheard (x >>= f) := by
  intro c w h
  obtain ⟨hheard, hend⟩ := hx c w h
  rw [bind_apply]
  rcases hxc : x c w with ⟨⟨a, c', w'⟩ | ⟨e, c', w'⟩ | _, ps⟩
  · rw [hxc] at hheard hend
    obtain ⟨hheard', hend'⟩ := hf a c' w' hend
    exact ⟨by simp [hheard, hheard'], hend'⟩
  · rw [hxc] at hheard hend
    exact ⟨hheard, hend⟩
  · rw [hxc] at hheard
    exact ⟨hheard, trivial⟩

theorem unheard_tryCatch {x : Traced ω α} {f : Failure → Traced ω α} (hx : Unheard x)
    (hf : ∀ e, Unheard (f e)) : Unheard (tryCatch x f) := by
  intro c w h
  obtain ⟨hheard, hend⟩ := hx c w h
  rw [tryCatch_apply]
  rcases hxc : x c w with ⟨⟨a, c', w'⟩ | ⟨e, c', w'⟩ | _, ps⟩
  · rw [hxc] at hheard hend
    exact ⟨hheard, hend⟩
  · rw [hxc] at hheard hend
    obtain ⟨hheard', hend'⟩ := hf e c' w' hend
    exact ⟨by simp [hheard, hheard'], hend'⟩
  · rw [hxc] at hheard
    exact ⟨hheard, trivial⟩

theorem heard_aside {x : Traced ω α} (hx : Unheard x) (c : Config) (w : ω) :
    heard (aside x c w).2 = [] := by
  obtain ⟨hheard, -⟩ := hx { c with observers := [] } w rfl
  rw [aside_apply]
  rcases hxc : x { c with observers := [] } w with ⟨⟨a, c', w'⟩ | ⟨e, c', w'⟩ | _, ps⟩ <;>
  · rw [hxc] at hheard
    exact hheard

theorem heard_ending (call : Call) (x : Traced ω α) (c : Config) (w : ω) :
    heard (ending call x c w).2 = heard (x c w).2 := by
  simp only [ending]
  rcases x c w with ⟨⟨a, c', w'⟩ | ⟨e, c', w'⟩ | _, ps⟩ <;> simp only [heard_snoc_ended]

theorem unheard_ending (call : Call) {x : Traced ω α} (hx : Unheard x) :
    Unheard (ending call x) := by
  intro c w h
  obtain ⟨hheard, hend⟩ := hx c w h
  refine ⟨(heard_ending call x c w).trans hheard, ?_⟩
  simp only [ending]
  rcases hxc : x c w with ⟨⟨a, c', w'⟩ | ⟨e, c', w'⟩ | _, ps⟩ <;>
  · rw [hxc] at hend
    exact hend

theorem heard_marking {point : Config → Point} (hpoint : ∀ c, (point c).isEntry = false)
    (x : Traced ω α) (c : Config) (w : ω) : heard (marking point x c w).2 = heard (x c w).2 := by
  simp [marking, heard, hpoint]

theorem heard_asking (M : Machine) (x : Traced ω α) (c : Config) (w : ω) :
    heard (asking M x c w).2 = heard (x c w).2 := by
  unfold asking
  split
  · exact heard_marking (fun _ => rfl) x c w
  · rfl

theorem unheard_asking (M : Machine) {x : Traced ω α} (hx : Unheard x) : Unheard (asking M x) := by
  intro c w h
  refine ⟨(heard_asking M x c w).trans (hx c w h).1, ?_⟩
  unfold asking
  split
  · exact (hx c w h).2
  · exact (hx c w h).2

def unhearing (M : Machine) (deliver : Text → Event → Traced ω Unit) :
    Correspondence M deliver deliver where
  rel x _ := Unheard x
  rel_pure _ _ _ h := ⟨rfl, h⟩
  rel_throw _ _ _ h := ⟨rfl, h⟩
  rel_exhausted _ _ _ := ⟨rfl, trivial⟩
  rel_bind := unheard_bind
  rel_look hf c w h := hf c c rfl c w h
  rel_tryCatch := unheard_tryCatch
  rel_call call _ _ := unheard_ending call
  rel_setAtInitial := unheard_modify fun _ => rfl
  rel_resetSteps := unheard_modify fun _ => rfl
  rel_place tape head c _ h := ⟨rfl, (c.load_observers tape head).trans h⟩
  rel_finding := unheard_asking M
  rel_store t c _ h := ⟨rfl, (c.apply_observers t).trans h⟩
  rel_countStep := unheard_modify fun _ => rfl
  rel_announce event _ c w h := by
    rw [announce_apply, h]
    exact ⟨rfl, h⟩

/-- A query is answered where the machine stands, whoever observes it, and nobody hears of it. -/
theorem serve_accept_eq (M : Machine) (deliver : Text → Event → Traced ω Unit) (fuel : Nat)
    (word : List Symbol) (maxSteps : Option Int) (c : Config) (w : ω) :
    ∃ ps, heard ps = [] ∧ serve M deliver fuel (.accept word maxSteps) c w =
      (match Execution.answer? M fuel ⟨word, maxSteps⟩ c with
        | some a => .leaving c w a
        | none => .exhausted, ps) := by
  have hunheard : Unheard (query M deliver fuel word maxSteps) :=
    (unhearing M deliver).toConduct.rel_query
      ((unhearing M deliver).toConduct.rel_runUnbounded fuel) word maxSteps
  refine ⟨_, ?_, Prod.ext ?_ rfl⟩
  · exact (heard_ending _ _ c w).trans (heard_aside hunheard c w)
  · let R := erasing M deliver
    have herase := erase_eq
      (R.rel_accept (R.rel_runUnbounded fuel) Agrees.aside word maxSteps)
    have hanswer := Execution.accept_eq_answer? M
      (fun name event => erase (deliver name event)) fuel ⟨word, maxSteps⟩ c w
    exact (congrFun (congrFun herase c) w).trans hanswer

/-- Performing a reaction of an observer who only watches; the fuel may be too little for its
queries. -/
theorem perform_of_watches {M : Machine} (deliver : Text → Event → Traced ω Unit) {m : Nat}
    {c : Config} {r : Reaction ω} {v : ω} (h : r.Watches M m c v) (fuel : Nat) (w : ω) :
    ∃ ps, heard ps = [] ∧
      (perform (serve M deliver fuel) r c w = (.ok () c v, ps) ∨
        perform (serve M deliver fuel) r c w = (.exhausted, ps) ∧
          ∀ n ≤ fuel, ∀ u, ¬r.Watches M n c u) := by
  induction h generalizing w with
  | done u => exact ⟨[], rfl, .inl rfl⟩
  | @ask word maxSteps a u v next ha _ ih =>
    obtain ⟨ps, hps, hserve⟩ := serve_accept_eq M deliver fuel word maxSteps c u
    cases hanswer : Execution.answer? M fuel ⟨word, maxSteps⟩ c with
    | none =>
      rw [hanswer] at hserve
      refine ⟨ps, hps, .inr ⟨by simp only [perform_ask, hserve], ?_⟩⟩
      intro n hn u' hwatch
      cases hwatch with
      | ask ha' _ =>
        rw [Execution.answer?_of_le hn ha'] at hanswer
        cases hanswer
    | some a' =>
      obtain rfl : a = a' := Execution.answer?_unique ha hanswer
      rw [hanswer] at hserve
      obtain ⟨qs, hqs, hrest⟩ := ih u
      have hperform : perform (serve M deliver fuel) (.ask u (.accept word maxSteps) next) c w =
          ((perform (serve M deliver fuel) (next u c a) c u).1,
            ps ++ (perform (serve M deliver fuel) (next u c a) c u).2) := by
        cases a <;> simp only [perform_ask, hserve, Result.leaving]
      refine ⟨ps ++ qs, by simp [hps, hqs], ?_⟩
      rw [hperform]
      rcases hrest with hdone | ⟨hwait, hfew⟩
      · exact .inl (by rw [hdone])
      · refine .inr ⟨by rw [hwait], fun n hn u' hwatch => ?_⟩
        cases hwatch with
        | @ask _ _ a' _ _ _ ha' hnext =>
          obtain rfl : a = a' := Execution.answer?_unique hanswer ha'
          exact hfew n hn u' hnext

end Unheard

section Following

variable {ω α β : Type}

/-- The one result is that of observers who only watch, in the world `v` after the world `w`, and
the other that of observers who do nothing. The first may also be cut off when somebody waits for
the answer to a query. -/
inductive Mirrors (react : Observers ω) (M : Machine) (fuel : Nat) (w v : ω) :
    Result ω α × List Point → Result Unit α × List Point → Prop
  | ok {a : α} {c : Config} {ps qs : List Point} (h : heard ps = heard qs) :
    Mirrors react M fuel w v (.ok a c v, ps) (.ok a c (), qs)
  | error {e : Failure} {c : Config} {ps qs : List Point} (h : heard ps = heard qs) :
    Mirrors react M fuel w v (.error e c v, ps) (.error e c (), qs)
  | exhausted {ps qs : List Point} (h : heard ps = heard qs) :
    Mirrors react M fuel w v (.exhausted, ps) (.exhausted, qs)
  | waiting {ps : List Point} {r : Result Unit α × List Point} (h : heard ps <+: heard r.2)
    (hfew : ∀ n < fuel, ∀ u, ¬react.Attend M n w (heard ps) u) :
    Mirrors react M fuel w v (.exhausted, ps) r

variable {react : Observers ω} {M : Machine} {fuel : Nat}

theorem Mirrors.prepend {m : Nat} {w u v : ω} {ps qs : List Point}
    {r : Result ω α × List Point} {r' : Result Unit α × List Point}
    (hattend : react.Attend M m w (heard ps) u) (heq : heard ps = heard qs)
    (h : Mirrors react M fuel u v r r') :
    Mirrors react M fuel w v (r.1, ps ++ r.2) (r'.1, qs ++ r'.2) := by
  cases h with
  | ok h => exact .ok (by simp [heq, h])
  | error h => exact .error (by simp [heq, h])
  | exhausted h => exact .exhausted (by simp [heq, h])
  | waiting h hfew =>
    refine .waiting ?_ fun n hn u' hall => ?_
    · simpa [heq] using h
    · rw [heard_append] at hall
      obtain ⟨u'', hps, hrest⟩ := hall.split
      obtain rfl := hps.unique hattend
      exact hfew n hn u' hrest

/-- As long as the observers only watch, the one work does what the other does. -/
def Follows (react : Observers ω) (M : Machine) (fuel : Nat) (x : Traced ω α)
    (y : Traced Unit α) : Prop :=
  ∀ c w m v, react.Attend M m w (heard (x c w).2) v → Mirrors react M fuel w v (x c w) (y c ())

theorem follows_pure (a : α) : Follows react M fuel (pure a) (pure a) := by
  intro c w m v h
  cases h
  exact .ok rfl

theorem follows_throw (e : Failure) : Follows react M fuel (throw e : Traced ω α) (throw e) := by
  intro c w m v h
  cases h
  exact .error rfl

theorem follows_modifyGet (f : Config → α × Config) :
    Follows react M fuel (modifyGet f) (modifyGet f) := by
  intro c w m v h
  cases h
  exact .ok rfl

theorem follows_modify (f : Config → Config) : Follows react M fuel (modify f) (modify f) :=
  follows_modifyGet _

theorem follows_get : Follows react M fuel get get := by
  intro c w m v h
  cases h
  exact .ok rfl

theorem follows_marking (point : Config → Point) (hpoint : ∀ c, (point c).isEntry = false)
    {x : Traced ω α} {y : Traced Unit α} (hx : Follows react M fuel x y) :
    Follows react M fuel (marking point x) (marking point y) := by
  intro c w m v h
  rw [heard_marking hpoint] at h
  have hattend : react.Attend M m w (heard [point c]) w := by
    have hnothing : heard [point c] = [] := by simp [heard, hpoint c]
    rw [hnothing]
    exact .nil w
  exact Mirrors.prepend hattend rfl (hx c w m v h)

theorem follows_asking {x : Traced ω α} {y : Traced Unit α} (hx : Follows react M fuel x y) :
    Follows react M fuel (asking M x) (asking M y) := by
  intro c w m v h
  rw [heard_asking] at h
  have hmarking := follows_marking .lookup (fun _ => rfl) hx c w m v
  rw [heard_marking fun _ => rfl] at hmarking
  unfold asking
  split
  · exact hmarking h
  · exact hx c w m v h

theorem follows_bind {x : Traced ω α} {y : Traced Unit α} {f : α → Traced ω β}
    {g : α → Traced Unit β} (hx : Follows react M fuel x y)
    (hf : ∀ a, Follows react M fuel (f a) (g a)) : Follows react M fuel (x >>= f) (y >>= g) := by
  intro c w m v h
  have hxy := hx c w m
  rw [bind_apply] at h ⊢
  rw [bind_apply]
  generalize x c w = r at hxy h ⊢
  generalize y c () = r' at hxy ⊢
  rcases r with ⟨⟨a, c', w'⟩ | ⟨e, c', w'⟩ | _, ps⟩
  · rw [heard_append] at h
    obtain ⟨u, hps, hrest⟩ := h.split
    cases hxy u hps with
    | ok heq => exact .prepend hps heq (hf a c' w' m v hrest)
  · cases hxy v h with
    | error heq => exact .error heq
  · cases hxy v h with
    | exhausted heq => exact .exhausted heq
    | waiting hbegin hfew =>
      rcases r' with ⟨⟨a, c', w'⟩ | ⟨e, c', w'⟩ | _, qs⟩
      · refine .waiting (hbegin.trans ?_) hfew
        simp
      · exact .waiting hbegin hfew
      · exact .waiting hbegin hfew

theorem follows_tryCatch {x : Traced ω α} {y : Traced Unit α} {f : Failure → Traced ω α}
    {g : Failure → Traced Unit α} (hx : Follows react M fuel x y)
    (hf : ∀ e, Follows react M fuel (f e) (g e)) :
    Follows react M fuel (tryCatch x f) (tryCatch y g) := by
  intro c w m v h
  have hxy := hx c w m
  rw [tryCatch_apply] at h ⊢
  rw [tryCatch_apply]
  generalize x c w = r at hxy h ⊢
  generalize y c () = r' at hxy ⊢
  rcases r with ⟨⟨a, c', w'⟩ | ⟨e, c', w'⟩ | _, ps⟩
  · cases hxy v h with
    | ok heq => exact .ok heq
  · rw [heard_append] at h
    obtain ⟨u, hps, hrest⟩ := h.split
    cases hxy u hps with
    | error heq => exact .prepend hps heq (hf e c' w' m v hrest)
  · cases hxy v h with
    | exhausted heq => exact .exhausted heq
    | waiting hbegin hfew =>
      rcases r' with ⟨⟨a, c', w'⟩ | ⟨e, c', w'⟩ | _, qs⟩
      · exact .waiting hbegin hfew
      · refine .waiting (hbegin.trans ?_) hfew
        simp
      · exact .waiting hbegin hfew

theorem follows_aside {x : Traced ω α} {y : Traced Unit α} (hx : Follows react M fuel x y) :
    Follows react M fuel (aside x) (aside y) := by
  intro c w m v h
  have hxy := hx { c with observers := [] } w m
  rw [aside_apply] at h ⊢
  rw [aside_apply]
  generalize x { c with observers := [] } w = r at hxy h ⊢
  generalize y { c with observers := [] } () = r' at hxy ⊢
  rcases r with ⟨⟨a, c', w'⟩ | ⟨e, c', w'⟩ | _, ps⟩
  · cases hxy v h with
    | ok heq => exact .ok heq
  · cases hxy v h with
    | error heq => exact .error heq
  · cases hxy v h with
    | exhausted heq => exact .exhausted heq
    | waiting hbegin hfew =>
      rcases r' with ⟨⟨a, c', w'⟩ | ⟨e, c', w'⟩ | _, qs⟩ <;> exact .waiting hbegin hfew

theorem follows_ending (call : Call) {x : Traced ω α} {y : Traced Unit α}
    (hx : Follows react M fuel x y) : Follows react M fuel (ending call x) (ending call y) := by
  intro c w m v h
  rw [heard_ending] at h
  have hxy := hx c w m v h
  simp only [ending]
  generalize x c w = r at hxy ⊢
  generalize y c () = r' at hxy ⊢
  cases hxy with
  | ok heq => exact .ok (by simpa using heq)
  | error heq => exact .error (by simpa using heq)
  | exhausted heq => exact .exhausted heq
  | waiting hbegin hfew =>
    refine .waiting ?_ hfew
    rcases r' with ⟨⟨a, c', w'⟩ | ⟨e, c', w'⟩ | _, qs⟩
    · rwa [heard_snoc_ended]
    · rwa [heard_snoc_ended]
    · exact hbegin

/-- Whoever only watches an event hears of it as those do who do nothing. -/
theorem follows_hear (name : Text) (event : Event) :
    Follows react M fuel (marking (.entered name event) (deliver M react fuel name event))
      (marking (.entered name event) (mute name event)) := by
  intro c w m v h
  cases fuel with
  | zero => exact .waiting (List.prefix_refl _) fun n hn => absurd hn (Nat.not_lt_zero n)
  | succ fuel =>
    have hdeliver : marking (.entered name event) (deliver M react (fuel + 1) name event) c w =
        ((perform (serve M (deliver M react fuel) fuel) (react name event w c) c w).1,
          [.entered name event c] ++
            (perform (serve M (deliver M react fuel) fuel) (react name event w c) c w).2) := rfl
    have hentered : heard [.entered name event c] = [.entered name event c] := rfl
    rw [hdeliver, heard_append, hentered] at h
    obtain ⟨u, hevent, hrest⟩ := h.split
    obtain ⟨ps, hps, hperform⟩ :=
      perform_of_watches (deliver M react fuel) (Observers.attend_singleton_iff.1 hevent) fuel w
    have hheard : heard ([.entered name event c] ++ ps) = [.entered name event c] := by
      rw [heard_append, hps, hentered, List.append_nil]
    rcases hperform with hdone | ⟨hwait, hfew⟩
    · rw [hdone, hps] at hrest
      cases hrest
      rw [hdeliver, hdone]
      exact .ok hheard
    · rw [hdeliver, hwait]
      have hbegin : heard ([.entered name event c] ++ ps) <+:
          heard (marking (.entered name event) (mute name event) c ()).2 := by
        rw [hheard]
        exact List.prefix_refl _
      refine .waiting hbegin fun n hn u' hfirst => ?_
      rw [hheard, Observers.attend_singleton_iff] at hfirst
      exact hfew n (Nat.le_of_lt_succ hn) u' hfirst

theorem follows_announceTo (event : Config → Event) (number : Nat) (names : List Text) :
    Follows react M fuel (announceTo (deliver M react fuel) event number names)
      (announceTo mute event number names) := by
  induction names with
  | nil => exact follows_pure ()
  | cons name names ih =>
    intro c
    exact follows_bind (follows_hear name (event c)) (fun _ => ih) c

def following (react : Observers ω) (M : Machine) (fuel : Nat) :
    Correspondence M (deliver M react fuel) mute where
  rel := Follows react M fuel
  rel_pure := follows_pure
  rel_throw := follows_throw
  rel_exhausted _ _ _ _ _ := .exhausted rfl
  rel_bind := follows_bind
  rel_look hf := follows_bind follows_get fun c => hf c c rfl
  rel_tryCatch := follows_tryCatch
  rel_call call _ _ := follows_ending call
  rel_setAtInitial := follows_modify _
  rel_resetSteps := follows_modify _
  rel_place _ _ := follows_modifyGet _
  rel_finding := follows_asking
  rel_store _ := follows_marking _ (fun _ => rfl) (follows_modify _)
  rel_countStep := follows_modify _
  rel_announce event _ c := follows_announceTo event 0 c.observers c

theorem follows_attach (name : Option Text) :
    Follows react M fuel (attach name) (attach name) := by
  cases name with
  | none => exact follows_throw _
  | some name => exact follows_modify _

theorem follows_detach (name : Option Text) :
    Follows react M fuel (detach name) (detach name) := by
  cases name with
  | none => exact follows_pure ()
  | some name => exact follows_modify _

theorem follows_converse (loops : Nat) (calls : List Call) :
    Follows react M fuel (converse M (deliver M react fuel) loops calls)
      (converse M mute loops calls) :=
  let R := (following react M fuel).toConduct
  let hloop := R.rel_runUnbounded loops
  R.rel_converse (R.rel_accept hloop follows_aside) hloop follows_attach follows_detach follows_get
    calls

end Following

end Traced
end SingleTape

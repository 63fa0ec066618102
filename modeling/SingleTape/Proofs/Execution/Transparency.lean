import SingleTape.Proofs.Execution.Watching

/-!
Watching changes nothing. Whoever watches a conversation, each call returns what it returns and does
what it does when nobody is there, and all who watch hear the same, whatever they ask.
-/

namespace SingleTape

open Engine

open Point

theorem Config.load_unobserved {M : Machine} (c : Config) (tape : List Symbol) (head : Int) :
    c.unobserved.load M tape head =
      ((c.load M tape head).1.unobserved, (c.load M tape head).2) := by
  unfold load
  repeat' split
  all_goals rfl

/-- The result without the observers. -/
def Result.unobserved {ω α : Type} : Result ω α → Result ω α
  | .ok a c w => .ok a c.unobserved w
  | .error e c w => .error e c.unobserved w
  | .exhausted => .exhausted

/-- A call that does more than to attach or detach somebody. -/
def Call.isWork : Call → Bool
  | .ask (.attach _) => false
  | .ask (.detach _) => false
  | _ => true

def Exchange.unobserved (x : Exchange) : Exchange := { x with config := x.config.unobserved }

/-- What is left of a conversation when those who observe it are left out. -/
def Exchange.work (log : List Exchange) : List Exchange :=
  (log.filter (·.call.isWork)).map unobserved

def Result.work {ω : Type} : Result ω (List Exchange) → Result Unit (List Exchange)
  | .ok log c _ => .ok (Exchange.work log) c.unobserved ()
  | .error e c _ => .error e c.unobserved ()
  | .exhausted => .exhausted

namespace Traced

section Overlooking

variable {α β : Type} {M : Machine}

/-- Apart from the observers the one work does what the other does unobserved. -/
def Overlooks (x y : Traced Unit α) : Prop :=
  ∀ c : Config, (x c ()).1.unobserved = (y c.unobserved ()).1

theorem overlooks_modify {f : Config → Config} (hf : ∀ c, (f c).unobserved = f c.unobserved) :
    Overlooks (modify f) (modify f) := fun c => congrArg (Result.ok () · ()) (hf c)

theorem overlooks_bind {x y : Traced Unit α} {f g : α → Traced Unit β} (hx : Overlooks x y)
    (hf : ∀ a, Overlooks (f a) (g a)) : Overlooks (x >>= f) (y >>= g) := by
  intro c
  have hxy := hx c
  rw [bind_apply, bind_apply]
  generalize x c () = r at hxy ⊢
  generalize y c.unobserved () = r' at hxy ⊢
  rcases r' with ⟨_, qs⟩
  rcases r with ⟨⟨a, c', w'⟩ | ⟨e, c', w'⟩ | _, ps⟩
  · obtain rfl := hxy
    exact hf a c'
  · obtain rfl := hxy
    rfl
  · obtain rfl := hxy
    rfl

theorem overlooks_tryCatch {x y : Traced Unit α} {f g : Failure → Traced Unit α}
    (hx : Overlooks x y) (hf : ∀ e, Overlooks (f e) (g e)) :
    Overlooks (tryCatch x f) (tryCatch y g) := by
  intro c
  have hxy := hx c
  rw [tryCatch_apply, tryCatch_apply]
  generalize x c () = r at hxy ⊢
  generalize y c.unobserved () = r' at hxy ⊢
  rcases r' with ⟨_, qs⟩
  rcases r with ⟨⟨a, c', w'⟩ | ⟨e, c', w'⟩ | _, ps⟩
  · obtain rfl := hxy
    rfl
  · obtain rfl := hxy
    exact hf e c'
  · obtain rfl := hxy
    rfl

theorem overlooks_aside {x y : Traced Unit α} (hx : Overlooks x y) :
    Overlooks (aside x) (aside y) := by
  intro c
  have hxy : (x c.unobserved ()).1.unobserved = (y c.unobserved ()).1 := hx c.unobserved
  rw [aside_apply, aside_apply]
  simp only [Config.unobserved] at hxy ⊢
  generalize x _ () = r at hxy ⊢
  generalize y _ () = r' at hxy ⊢
  rcases r' with ⟨_, qs⟩
  rcases r with ⟨⟨a, c', w'⟩ | ⟨e, c', w'⟩ | _, ps⟩ <;>
  · obtain rfl := hxy
    rfl

theorem overlooks_ending (call : Call) {x y : Traced Unit α} (hx : Overlooks x y) :
    Overlooks (ending call x) (ending call y) := by
  intro c
  have hxy := hx c
  simp only [ending]
  generalize x c () = r at hxy ⊢
  generalize y c.unobserved () = r' at hxy ⊢
  rcases r' with ⟨_, qs⟩
  rcases r with ⟨⟨a, c', w'⟩ | ⟨e, c', w'⟩ | _, ps⟩ <;>
  · obtain rfl := hxy
    rfl

theorem overlooks_asking {x y : Traced Unit α} (hx : Overlooks x y) :
    Overlooks (asking M x) (asking M y) := by
  have hplain : ∀ (z : Traced Unit α) c, (asking M z c ()).1 = (z c ()).1 := by
    intro z c
    unfold asking
    split <;> rfl
  intro c
  rw [hplain, hplain]
  exact hx c

theorem announceTo_mute (event : Config → Event) (number : Nat) (names : List Text) (c : Config) :
    (announceTo mute event number names c ()).1 = .ok () c () := by
  induction names with
  | nil => rfl
  | cons name names ih => exact ih

theorem overlooks_announce (event : Config → Event) :
    Overlooks (announce mute event) (announce mute event) := by
  intro c
  have hmute : ∀ c, (announce mute event c ()).1 = .ok () c () :=
    fun c => announceTo_mute event 0 c.observers c
  rw [hmute, hmute]
  rfl

def overlooking (M : Machine) : Correspondence M mute mute where
  rel := Overlooks
  rel_pure _ _ := rfl
  rel_throw _ _ := rfl
  rel_exhausted _ := rfl
  rel_bind := overlooks_bind
  rel_look h c := h c c.unobserved rfl c
  rel_tryCatch := overlooks_tryCatch
  rel_call call _ _ := overlooks_ending call
  rel_setAtInitial := overlooks_modify fun _ => rfl
  rel_resetSteps := overlooks_modify fun _ => rfl
  rel_place tape head c := by
    rw [modifyGet_apply, modifyGet_apply, Config.load_unobserved]
    rfl
  rel_finding := overlooks_asking
  rel_store t := overlooks_modify fun c => c.unobserved_apply M t
  rel_countStep := overlooks_modify fun _ => rfl
  rel_announce event _ := overlooks_announce event

/-- Unobserved, the machine answers a call as it would be answered under observation. -/
theorem overlooks_reply (fuel : Nat) {call : Call} (hwork : call.isWork) :
    Overlooks (attempt (reply M mute fuel call)) (attempt (reply M mute fuel call)) := by
  let R := (overlooking M).toConduct
  let hloop := R.rel_runUnbounded fuel
  refine R.rel_attempt (R.rel_reply (R.rel_accept hloop overlooks_aside) hloop call ?_ ?_)
  · rintro name rfl
    cases hwork
  · rintro name rfl
    cases hwork

end Overlooking

end Traced

namespace Execution

variable {M : Machine}

theorem attempt_reply_unobserved (fuel : Nat) {call : Call} (hwork : call.isWork) (c : Config) :
    (attempt (reply M nobody fuel call) c ()).unobserved =
      attempt (reply M nobody fuel call) c.unobserved () := by
  have herase : Traced.erase (attempt (reply M Traced.mute fuel call)) =
      attempt (reply M nobody fuel call) :=
    let R := Traced.erasing M Traced.mute
    let hloop := R.rel_runUnbounded fuel
    Traced.erase_eq (R.rel_attempt (R.rel_reply (R.rel_accept hloop Traced.Agrees.aside) hloop call
      (fun name _ => Traced.agrees_attach name) fun name _ => Traced.agrees_detach name))
  rw [← herase]
  exact Traced.overlooks_reply fuel hwork c

/-- To attach or detach somebody changes nothing else. -/
theorem attempt_reply_of_not_isWork (fuel : Nat) {call : Call} (hwork : call.isWork = false)
    (c : Config) :
    ∃ r c', attempt (reply M nobody fuel call) c () = .ok r c' () ∧
      c'.unobserved = c.unobserved := by
  cases call with
  | ask request =>
    cases request with
    | attach name =>
      cases name with
      | none => exact ⟨_, c, rfl, rfl⟩
      | some name =>
        refine ⟨_, c.attach name, rfl, ?_⟩
        unfold Config.attach
        split <;> rfl
    | detach name =>
      cases name with
      | none => exact ⟨_, c, rfl, rfl⟩
      | some name => exact ⟨_, c.detach name, rfl, rfl⟩
    | _ => cases hwork
  | _ => cases hwork

/-- Where nobody does anything, the work of a conversation is the conversation without observers. -/
theorem work_converse (fuel : Nat) (calls : List Call) (c : Config) :
    (converse M nobody fuel calls c ()).work =
      converse M nobody fuel (calls.filter Call.isWork) c.unobserved () := by
  induction calls generalizing c with
  | nil => rfl
  | cons call calls ih =>
    cases hwork : call.isWork with
    | true =>
      have hreply := attempt_reply_unobserved (M := M) fuel hwork c
      simp only [List.filter_cons, hwork, if_true, converse, bind_apply]
      rw [← hreply]
      cases attempt (reply M nobody fuel call) c () with
      | ok r c' _ =>
        simp only [Result.unobserved, get_apply, ← ih]
        cases converse M nobody fuel calls c' () with
        | ok log c'' _ => simp [Result.work, Exchange.work, hwork, Exchange.unobserved]
        | error e c'' _ => rfl
        | exhausted => rfl
      | error e c' _ => rfl
      | exhausted => rfl
    | false =>
      obtain ⟨r, c', hreply, hc'⟩ := attempt_reply_of_not_isWork (M := M) fuel hwork c
      have hfilter : (call :: calls).filter Call.isWork = calls.filter Call.isWork := by
        simp [hwork]
      simp only [hfilter, converse, bind_apply, hreply, get_apply, ← hc', ← ih]
      cases converse M nobody fuel calls c' () with
      | ok log c'' _ => simp [Result.work, Exchange.work, hwork]
      | error e c'' _ => rfl
      | exhausted => rfl

end Execution

namespace Traced

variable {ω : Type}

/-- What those who observe a conversation hear of, and where, in the order in which they hear it. -/
def hearing (M : Machine) (react : Observers ω) (fuel : Nat) (calls : List Call) (c : Config)
    (w : ω) : List Point :=
  heard (converse M (deliver M react fuel) fuel calls c w).2

variable {M : Machine} {react : Observers ω} {calls : List Call} {c : Config} {w : ω}

theorem erase_converse_mute (fuel : Nat) (calls : List Call) :
    erase (converse M mute fuel calls) = converse M Execution.nobody fuel calls := by
  refine erase_eq (agrees_converse (fun name event c w notes => ?_) fuel calls)
  rfl

theorem Mirrors.begins {α : Type} {fuel : Nat} {w v : ω} {r : Result ω α × List Point}
    {r' : Result Unit α × List Point} (h : Mirrors react M fuel w v r r') :
    heard r.2 <+: heard r'.2 := by
  cases h with
  | ok h => simp only [h, List.prefix_refl]
  | error h => simp only [h, List.prefix_refl]
  | exhausted h => simp only [h, List.prefix_refl]
  | waiting h _ => exact h

theorem Mirrors.work_eq {fuel : Nat} {w v : ω} {r : Result ω (List Exchange) × List Point}
    {r' : Result Unit (List Exchange) × List Point} (h : Mirrors react M fuel w v r r')
    (hr : r.1 ≠ .exhausted) : r.1.work = r'.1.work := by
  cases h with
  | ok => rfl
  | error => rfl
  | exhausted => exact absurd rfl hr
  | waiting => exact absurd rfl hr

end Traced

/-- Whatever these observers are told in a conversation, they only watch. -/
def Observers.OnlyWatch {ω : Type} (react : Observers ω) (M : Machine) (calls : List Call)
    (c : Config) (w : ω) : Prop :=
  ∀ fuel, ∃ m v, react.Attend M m w (Traced.hearing M react fuel calls c w) v

namespace Observers.OnlyWatch

variable {ω : Type} {react : Observers ω} {M : Machine} {calls : List Call} {c : Config} {w : ω}

theorem mirrors (h : react.OnlyWatch M calls c w) (fuel : Nat) :
    ∃ m v, react.Attend M m w (Traced.hearing M react fuel calls c w) v ∧
      Traced.Mirrors react M fuel w v
        (converse M (Traced.deliver M react fuel) fuel calls c w)
        (converse M Traced.mute fuel calls c ()) := by
  obtain ⟨m, v, hattend⟩ := h fuel
  exact ⟨m, v, hattend, Traced.follows_converse fuel calls c w m v hattend⟩

/-- A conversation that ends is the one without observers. -/
theorem converse_eq (h : react.OnlyWatch M calls c w) {fuel : Nat}
    (hend : converse M (Execution.deliver M react fuel) fuel calls c w ≠ .exhausted) :
    converse M Execution.nobody fuel (calls.filter Call.isWork) c.unobserved () =
      (converse M (Execution.deliver M react fuel) fuel calls c w).work := by
  obtain ⟨m, v, -, hmirrors⟩ := h.mirrors fuel
  rw [← Traced.erase_converse] at hend ⊢
  rw [← Execution.work_converse, ← Traced.erase_converse_mute]
  exact (hmirrors.work_eq hend).symm

/-- With enough fuel all is heard that those who do nothing hear of, and the conversation ends if
theirs does. -/
theorem exists_fuel (h : react.OnlyWatch M calls c w) (g : Nat) :
    ∃ F, ∀ fuel ≥ F,
      heard (converse M Traced.mute g calls c ()).2 <+:
        Traced.hearing M react fuel calls c w ∧
      ((converse M Traced.mute g calls c ()).1 ≠ .exhausted →
        (converse M (Traced.deliver M react fuel) fuel calls c w).1 ≠ .exhausted) := by
  obtain ⟨N, hN⟩ := Observers.Attend.exists_fuel react M w
    (heard (converse M Traced.mute g calls c ()).2)
  refine ⟨max (N + 1) g, fun fuel hfuel => ?_⟩
  obtain ⟨m, v, hattend, hmirrors⟩ := h.mirrors fuel
  have hfuel' : g ≤ fuel := by omega
  have hmute := Traced.extends_converse M Traced.mute hfuel' calls c ()
  unfold Traced.hearing at hattend ⊢
  generalize converse M (Traced.deliver M react fuel) fuel calls c w = r at *
  generalize converse M Traced.mute g calls c () = s at *
  generalize converse M Traced.mute fuel calls c () = s' at *
  have hbegin : heard s.2 <+: heard s'.2 := hmute.begins.filter isEntry
  cases hmirrors with
  | ok heq => exact ⟨heq ▸ hbegin, by simp⟩
  | error heq => exact ⟨heq ▸ hbegin, by simp⟩
  | exhausted heq =>
    refine ⟨heq ▸ hbegin, fun hend => ?_⟩
    rw [hmute.eq_of_ne hend] at hend
    exact absurd rfl hend
  | @waiting ps _ hps hfew =>
    -- Nobody waits where the others are done, for all queries asked so far have an answer by then.
    have hbeyond : ¬heard ps <+: heard s.2 :=
      fun hbefore => hfew N (by omega) v (hN (heard ps) hbefore m v hattend)
    refine ⟨?_, fun hend => ?_⟩
    · exact (List.prefix_or_prefix_of_prefix hbegin hps).resolve_right hbeyond
    · rw [hmute.eq_of_ne hend] at hbeyond
      exact absurd hps hbeyond

end Observers.OnlyWatch

namespace Execution

/-- More fuel changes nothing about a conversation that ends. -/
theorem converse_of_le {M : Machine} {g fuel : Nat} (h : g ≤ fuel) {calls : List Call} {c : Config}
    (hend : converse M nobody g calls c () ≠ .exhausted) :
    converse M nobody g calls c () = converse M nobody fuel calls c () := by
  have hmute := Traced.extends_converse M Traced.mute h calls c ()
  rw [← Traced.erase_converse_mute] at hend ⊢
  rw [← Traced.erase_converse_mute]
  exact congrArg Prod.fst (hmute.eq_of_ne hend)

/-- Watching changes nothing. A conversation that ends is the one without observers: each call
returns the same or fails in the same way, and leaves the same behind. If the conversation without
observers ends, so does the one that is watched. And all who watch hear the same, whatever they
ask. -/
theorem converse_of_onlyWatch {ω : Type} {react : Observers ω} {M : Machine} {calls : List Call}
    {c : Config} {w : ω} (h : react.OnlyWatch M calls c w) :
    (∀ fuel, converse M (deliver M react fuel) fuel calls c w ≠ .exhausted →
      converse M nobody fuel (calls.filter Call.isWork) c.unobserved () =
        (converse M (deliver M react fuel) fuel calls c w).work) ∧
    (∀ g, converse M nobody g (calls.filter Call.isWork) c.unobserved () ≠ .exhausted →
      ∃ F, ∀ fuel ≥ F, (converse M (deliver M react fuel) fuel calls c w).work =
        converse M nobody g (calls.filter Call.isWork) c.unobserved ()) ∧
    ∀ (ω' : Type) (react' : Observers ω') (w' : ω'), react'.OnlyWatch M calls c w' →
      ∀ g, ∃ F, ∀ fuel ≥ F,
        Traced.hearing M react g calls c w <+: Traced.hearing M react' fuel calls c w' := by
  refine ⟨fun fuel hend => h.converse_eq hend, ?_, ?_⟩
  · intro g hend
    obtain ⟨F, hF⟩ := h.exists_fuel g
    refine ⟨max F g, fun fuel hfuel => ?_⟩
    have hmute : (converse M Traced.mute g calls c ()).1 ≠ .exhausted := by
      intro hcut
      rw [← work_converse, ← Traced.erase_converse_mute, Traced.erase, hcut] at hend
      exact hend rfl
    have hwatched : converse M (deliver M react fuel) fuel calls c w ≠ .exhausted := by
      rw [← Traced.erase_converse]
      exact (hF fuel (by omega)).2 hmute
    rw [← h.converse_eq hwatched]
    exact (converse_of_le (show g ≤ fuel by omega) hend).symm
  · intro ω' react' w' h' g
    obtain ⟨m, v, -, hmirrors⟩ := h.mirrors g
    obtain ⟨F, hF⟩ := h'.exists_fuel g
    exact ⟨F, fun fuel hfuel => hmirrors.begins.trans (hF fuel hfuel).1⟩

end Execution

/-- Observers who only watch whatever they are told. -/
theorem Observers.onlyWatch_of_forall {ω : Type} {react : Observers ω} {M : Machine}
    (h : ∀ name event w c, ∃ m v, (react name event w c).Watches M m c v) (calls : List Call)
    (c : Config) (w : ω) : react.OnlyWatch M calls c w := by
  have hattend : ∀ ps w, ∃ m v, react.Attend M m w (heard ps) v := by
    intro ps
    induction ps with
    | nil => exact fun w => ⟨0, w, .nil w⟩
    | cons p ps ih =>
      intro w
      cases p with
      | entered name event c =>
        obtain ⟨m, u, hreaction⟩ := h name event w c
        obtain ⟨n, v, hrest⟩ := ih u
        exact ⟨max m n, v, .cons (hreaction.of_le (Nat.le_max_left m n))
          (hrest.of_le (Nat.le_max_right m n))⟩
      | _ => exact ih w
  exact fun fuel => hattend _ w

namespace Execution

/-- Asks whether the machine would accept an `a` from where it stands, and counts the answers. The
observer who keeps the log does not ask. -/
def curious : Observers Nat := fun name _ w _ =>
  if name = Text.ofString "log" then .done w
  else .ask w (.accept (Text.symbols "a") (some 2)) fun w _ _ => .done (w + 1)

/-- A tape, two observers, a step, a run, and a step that fails. -/
def watched : List Call :=
  [.ask (.setTape (Text.symbols "ax") 0), .ask (.attach (some "log")),
    .ask (.attach (some "guess")), .step, .run none, .ask (.detach (some "log")), .step]

theorem curious_onlyWatch (M : Machine) (calls : List Call) (c : Config) (w : Nat) :
    curious.OnlyWatch M calls c w := by
  refine Observers.onlyWatch_of_forall (fun name event w c => ?_) calls c w
  unfold curious
  split
  · exact ⟨0, w, .done w⟩
  · have hanswer := answer?_ne_none M 0 (Text.symbols "a") 2 c
    obtain ⟨a, ha⟩ := Option.ne_none_iff_exists'.1 hanswer
    exact ⟨0, w + 1, .ask ha (.done (w + 1))⟩

/-- Four calls do something, and the last of them fails. -/
theorem curious_converse_unchanged :
    curious.OnlyWatch Machine.opening watched Machine.opening.start 0 ∧
      (∃ log c, converse Machine.opening nobody 1 (watched.filter Call.isWork)
          Machine.opening.start () = .ok log c () ∧ log.length = 4 ∧ c.steps = 1) ∧
      ∃ F, ∀ fuel ≥ F, (converse Machine.opening (deliver Machine.opening curious fuel) fuel watched
          Machine.opening.start 0).work = converse Machine.opening nobody 1
            (watched.filter Call.isWork) Machine.opening.start () := by
  have hwatch := curious_onlyWatch Machine.opening watched Machine.opening.start 0
  obtain ⟨log, c, hend, hlength, hsteps⟩ : ∃ log c, converse Machine.opening nobody 1
      (watched.filter Call.isWork) Machine.opening.start () = .ok log c () ∧ log.length = 4 ∧
        c.steps = 1 := ⟨_, _, rfl, rfl, rfl⟩
  obtain ⟨-, hends, -⟩ := converse_of_onlyWatch hwatch
  refine ⟨hwatch, ⟨log, c, hend, hlength, hsteps⟩, hends 1 ?_⟩
  intro hexhausted
  cases hend.symm.trans hexhausted

end Execution
end SingleTape

import SingleTape.Machine.Validity
import SingleTape.Proofs.Execution.Interpretation

/-!
A machine at work stays sound: it is in a state of its own, its tape holds symbols of its alphabet
and its head is on the tape. This is so at every point at which it can be looked at, whatever the
observers do, until a tape is set that is too large.
-/

namespace SingleTape

open Engine

/-- What a step may store. -/
structure Machine.Allows (M : Machine) (t : Transition) : Prop where
  write_mem : t.write ∈ M.alphabet
  next_mem : t.next ∈ M.states
  move_valid : t.move.isValid

namespace Config

structure Sound (M : Machine) (c : Config) : Prop where
  state_mem : c.state ∈ M.states
  tape_subset : ∀ a ∈ c.tape, a ∈ M.alphabet
  head_lt : c.tapeSet → c.head < c.tape.length

variable {M : Machine} {c : Config}

theorem sound_start (hM : M.Valid) : M.start.Sound M where
  state_mem := hM.initial_mem
  tape_subset := by simp [Machine.start]
  head_lt := by simp [Machine.start]

theorem Sound.scanned_mem (hM : M.Valid) (h : c.Sound M) : c.scanned M ∈ M.alphabet := by
  unfold scanned
  rw [List.getD_eq_getElem?_getD]
  cases hcell : c.tape[c.head]? with
  | none => exact hM.blank_mem
  | some a => exact h.tape_subset a (List.mem_of_getElem? hcell)

/-- A step finds only what the table declares, and only on a tape. -/
theorem allows_of_next (hM : M.Valid) {t : Transition} (ht : c.next M = .ok t) :
    M.Allows t ∧ c.tapeSet := by
  unfold next at ht
  split at ht
  · cases ht
  split at ht
  · cases ht
  next hset =>
  split at ht
  · next t' hfind =>
    obtain rfl := Except.ok.inj ht
    have hfits := hM.fits ⟨c.state, c.scanned M, t'⟩ (Table.mem_entries.2 hfind)
    exact ⟨⟨hfits.write_mem, hfits.next_mem, hfits.move_valid⟩, by simpa using hset⟩
  · cases ht

theorem moveHead_tape_subset (hM : M.Valid) (h : ∀ a ∈ c.tape, a ∈ M.alphabet) (m : Move) :
    ∀ a ∈ (c.moveHead M m).tape, a ∈ M.alphabet := by
  cases m with
  | left =>
    simp only [moveHead]
    split
    · exact List.forall_mem_cons.2 ⟨hM.blank_mem, h⟩
    · exact h
  | right =>
    simp only [moveHead]
    split
    · exact List.forall_mem_append.2 ⟨h, List.forall_mem_singleton.2 hM.blank_mem⟩
    · exact h
  | stay => exact h
  | invalid code hc => exact h

theorem Sound.apply (hM : M.Valid) (h : c.Sound M) {t : Transition} (ht : M.Allows t) :
    (c.apply M t).Sound M where
  state_mem := by
    rw [apply_state]
    exact ht.next_mem
  tape_subset := by
    apply moveHead_tape_subset hM
    intro a ha
    rcases List.mem_or_eq_of_mem_set ha with ha | rfl
    · exact h.tape_subset a ha
    · exact ht.write_mem
  head_lt := by
    rw [apply_tapeSet]
    intro hset
    exact apply_head_lt (h.head_lt hset) t

theorem load_eq_some {tape : List Symbol} {head : Int} {e : Failure}
    (h : (c.load M tape head).2 = some e) : e = .tapeTooLarge :=
  (load_eq_some_iff.1 (Prod.ext rfl h : c.load M tape head = ((c.load M tape head).1, some e))).1

theorem Sound.load (hM : M.Valid) (h : c.Sound M) {tape : List Symbol}
    (htape : ∀ a ∈ tape, a ∈ M.alphabet) {head : Int} {c' : Config}
    (hload : c.load M tape head = (c', none)) : c'.Sound M ∧ c'.tapeSet := by
  have hblanks : ∀ n, ∀ a ∈ List.replicate n M.blank, a ∈ M.alphabet := by
    intro n a ha
    rw [List.eq_of_mem_replicate ha]
    exact hM.blank_mem
  have hhead := load_head_lt hload
  rcases load_eq_none_iff.1 hload with ⟨-, -, rfl⟩ | ⟨-, -, rfl⟩
  · exact ⟨⟨h.state_mem, List.forall_mem_append.2 ⟨hblanks _, htape⟩, fun _ => hhead⟩, rfl⟩
  · exact ⟨⟨h.state_mem, List.forall_mem_append.2 ⟨htape, hblanks _⟩, fun _ => hhead⟩, rfl⟩

end Config

namespace Point

/-- A tape was set that is too large. -/
def isOverflow : Point → Bool
  | ended (.ask (.setTape _ _)) (some .tapeTooLarge) _ => true
  | _ => false

/-- The configuration is sound, and a step reads and writes on the tape, nothing but declared states
and symbols. -/
def Sound (M : Machine) : Point → Prop
  | entered _ _ c => c.Sound M
  | ended _ _ c => c.Sound M
  | lookup c => c.Sound M ∧ c.head < c.tape.length ∧ c.scanned M ∈ M.alphabet
  | store c t => c.Sound M ∧ c.head < c.tape.length ∧ M.Allows t

/-- Sound up to the first tape that is too large. -/
def AllSound (M : Machine) (ps : List Point) : Prop :=
  ∀ p ∈ ps.takeWhile (fun p => !p.isOverflow), p.Sound M

/-- No tape was too large. -/
def AllFit (ps : List Point) : Prop := ∀ p ∈ ps, p.isOverflow = false

variable {M : Machine}

theorem allSound_nil : AllSound M [] := by simp [AllSound]

theorem allSound_cons {p : Point} {ps : List Point} :
    AllSound M (p :: ps) ↔ (p.isOverflow = false → p.Sound M ∧ AllSound M ps) := by
  unfold AllSound
  cases hp : p.isOverflow with
  | true => simp [hp]
  | false => simp [hp]

theorem allSound_append {ps qs : List Point} :
    AllSound M (ps ++ qs) ↔ AllSound M ps ∧ (AllFit ps → AllSound M qs) := by
  induction ps with
  | nil => simp [allSound_nil, AllFit]
  | cons p ps ih =>
    simp only [List.cons_append, allSound_cons, ih, AllFit, List.forall_mem_cons]
    cases hp : p.isOverflow with
    | true => simp
    | false => simp [and_assoc]

theorem allSound_singleton {p : Point} (h : p.Sound M) : AllSound M [p] :=
  allSound_cons.2 fun _ => ⟨h, allSound_nil⟩

theorem allFit_append {ps qs : List Point} : AllFit (ps ++ qs) ↔ AllFit ps ∧ AllFit qs :=
  List.forall_mem_append

end Point

/-- Where work may begin and end; the tape is set if this is asked for, and then it stays set. -/
def Config.Ready (M : Machine) (set : Prop) (c : Config) : Prop := c.Sound M ∧ (set → c.tapeSet)

namespace Config.Ready

variable {M : Machine} {set : Prop} {c c' : Config}

/-- Neither the observers nor the count of steps matters. -/
theorem congr (h : c.Ready M set) (hstate : c'.state = c.state) (htape : c'.tape = c.tape)
    (hhead : c'.head = c.head) (hset : c'.tapeSet = c.tapeSet) : c'.Ready M set := by
  obtain ⟨hsound, hasked⟩ := h
  constructor
  · constructor
    · rw [hstate]
      exact hsound.state_mem
    · rw [htape]
      exact hsound.tape_subset
    · rw [htape, hhead, hset]
      exact hsound.head_lt
  · rw [hset]
    exact hasked

theorem attach (h : c.Ready M set) (name : Text) : (c.attach name).Ready M set := by
  apply h.congr
  all_goals
    unfold Config.attach
    split <;> rfl

theorem detach (h : c.Ready M set) (name : Text) : (c.detach name).Ready M set :=
  h.congr rfl rfl rfl rfl

theorem resetSteps (h : c.Ready M set) : c.resetSteps.Ready M set := h.congr rfl rfl rfl rfl

theorem countStep (h : c.Ready M set) : c.countStep.Ready M set := h.congr rfl rfl rfl rfl

theorem unobserved (h : c.Ready M set) : ({ c with observers := [] } : Config).Ready M set :=
  h.congr rfl rfl rfl rfl

theorem setAtInitial (hM : M.Valid) (h : c.Ready M set) : (c.setAtInitial M).Ready M set :=
  ⟨⟨hM.initial_mem, h.1.tape_subset, h.1.head_lt⟩, h.2⟩

theorem apply (hM : M.Valid) (h : c.Ready M set) {t : Transition} (ht : M.Allows t) :
    (c.apply M t).Ready M set := by
  constructor
  · exact h.1.apply hM ht
  · rw [apply_tapeSet]
    exact h.2

end Config.Ready

/-- What holds of the configuration in which work ends, if it ends. -/
def Result.Leaves {ω α : Type} (P : Config → Prop) : Result ω α → Prop
  | .ok _ c _ => P c
  | .error _ c _ => P c
  | .exhausted => True

theorem Result.Leaves.imp {ω α : Type} {P Q : Config → Prop} {r : Result ω α} (h : r.Leaves P)
    (hPQ : ∀ c, P c → Q c) : r.Leaves Q := by
  cases r with
  | ok a c w => exact hPQ c h
  | error e c w => exact hPQ c h
  | exhausted => trivial

namespace Traced

variable {ω α β : Type} {M : Machine} {set : Prop}

/-- The points are sound, and unless a tape was too large the machine is left sound as well. -/
def Good (M : Machine) (set : Prop) (r : Result ω α × List Point) : Prop :=
  Point.AllSound M r.2 ∧ (Point.AllFit r.2 → r.1.Leaves (Config.Ready M set))

/-- What comes after a tape that is too large does not count. -/
theorem good_append {r : Result ω α} {ps qs : List Point} (hps : Point.AllSound M ps)
    (hr : Point.AllFit ps → Good M set (r, qs)) : Good M set (r, ps ++ qs) := by
  constructor
  · exact Point.allSound_append.2 ⟨hps, fun hfit => (hr hfit).1⟩
  · intro hfit
    obtain ⟨hfit, hfit'⟩ := Point.allFit_append.1 hfit
    exact (hr hfit).2 hfit'

theorem Good.weaken {r : Result ω α × List Point} (h : Good M True r) : Good M set r := by
  refine ⟨h.1, fun hfit => ?_⟩
  have hend := h.2 hfit
  cases hr : r.1 with
  | ok a c w =>
    rw [hr] at hend
    exact ⟨hend.1, fun _ => hend.2 trivial⟩
  | error e c w =>
    rw [hr] at hend
    exact ⟨hend.1, fun _ => hend.2 trivial⟩
  | exhausted => trivial

/-- Work that keeps a machine sound. -/
def Keeps (M : Machine) (set : Prop) (x : Traced ω α) : Prop :=
  ∀ c w, c.Ready M set → Good M set (x c w)

theorem keeps_pure (a : α) : Keeps M set (pure a : Traced ω α) := by
  intro c w hc
  exact ⟨Point.allSound_nil, fun _ => hc⟩

theorem keeps_throw (e : Failure) : Keeps M set (throw e : Traced ω α) := by
  intro c w hc
  exact ⟨Point.allSound_nil, fun _ => hc⟩

theorem keeps_exhausted : Keeps M set (exhausted : Traced ω α) := by
  intro c w _
  exact ⟨Point.allSound_nil, fun _ => trivial⟩

theorem keeps_get : Keeps M set (get : Traced ω Config) := by
  intro c w hc
  exact ⟨Point.allSound_nil, fun _ => hc⟩

theorem keeps_modify {f : Config → Config} (hf : ∀ c, c.Ready M set → (f c).Ready M set) :
    Keeps M set (modify f : Traced ω Unit) := by
  intro c w hc
  exact ⟨Point.allSound_nil, fun _ => hf c hc⟩

theorem keeps_marking {point : Config → Point} (hp : ∀ c, c.Ready M set → (point c).Sound M)
    {x : Traced ω α} (hx : Keeps M set x) : Keeps M set (marking point x) := by
  intro c w hc
  exact good_append (Point.allSound_singleton (hp c hc)) fun _ => hx c w hc

theorem keeps_ite {p : Prop} [Decidable p] {x y : Traced ω α} (hx : Keeps M set x)
    (hy : Keeps M set y) : Keeps M set (if p then x else y) := by
  split
  · exact hx
  · exact hy

theorem keeps_bind {x : Traced ω α} {f : α → Traced ω β} (hx : Keeps M set x)
    (hf : ∀ a, Keeps M set (f a)) : Keeps M set (x >>= f) := by
  intro c w hc
  have hgood := hx c w hc
  rw [bind_apply]
  rcases hxc : x c w with ⟨⟨a, c', w'⟩ | ⟨e, c', w'⟩ | _, ps⟩
  · rw [hxc] at hgood
    exact good_append hgood.1 fun hfit => hf a c' w' (hgood.2 hfit)
  · rwa [hxc] at hgood
  · rw [hxc] at hgood
    exact ⟨hgood.1, fun _ => trivial⟩

theorem keeps_tryCatch {x : Traced ω α} {handle : Failure → Traced ω α} (hx : Keeps M set x)
    (hhandle : ∀ e, Keeps M set (handle e)) : Keeps M set (tryCatch x handle) := by
  intro c w hc
  have hgood := hx c w hc
  rw [tryCatch_apply]
  rcases hxc : x c w with ⟨⟨a, c', w'⟩ | ⟨e, c', w'⟩ | _, ps⟩
  · rwa [hxc] at hgood
  · rw [hxc] at hgood
    exact good_append hgood.1 fun hfit => hhandle e c' w' (hgood.2 hfit)
  · rw [hxc] at hgood
    exact ⟨hgood.1, fun _ => trivial⟩

theorem keeps_ending (call : Call) {x : Traced ω α} (hx : Keeps M set x) :
    Keeps M set (ending call x) := by
  intro c w hc
  have hgood := hx c w hc
  simp only [ending]
  rcases hxc : x c w with ⟨⟨a, c', w'⟩ | ⟨e, c', w'⟩ | _, ps⟩
  · rw [hxc] at hgood
    refine good_append hgood.1 fun hfit => ⟨?_, fun _ => hgood.2 hfit⟩
    exact Point.allSound_singleton (hgood.2 hfit).1
  · rw [hxc] at hgood
    refine good_append hgood.1 fun hfit => ⟨?_, fun _ => hgood.2 hfit⟩
    exact Point.allSound_singleton (hgood.2 hfit).1
  · rw [hxc] at hgood
    exact ⟨hgood.1, fun _ => trivial⟩

/-- Work after which the configuration is as it was. -/
theorem keeps_aside {x : Traced ω α} (hx : Keeps M set x) : Keeps M set (aside x) := by
  intro c w hc
  have hgood := hx { c with observers := [] } w hc.unobserved
  rw [aside_apply]
  rcases hxc : x { c with observers := [] } w with ⟨⟨a, c', w'⟩ | ⟨e, c', w'⟩ | _, ps⟩
  · rw [hxc] at hgood
    exact ⟨hgood.1, fun _ => hc⟩
  · rw [hxc] at hgood
    exact ⟨hgood.1, fun _ => hc⟩
  · rw [hxc] at hgood
    exact ⟨hgood.1, fun _ => trivial⟩

section Work

variable {deliver : Text → Event → Traced ω Unit}

theorem keeps_announceTo (hd : ∀ name event, Keeps M set (deliver name event))
    (event : Config → Event) (number : Nat) (names : List Text) :
    Keeps M set (announceTo deliver event number names) := by
  induction names with
  | nil => exact keeps_pure ()
  | cons name names ih =>
    have hfirst : ∀ told, Keeps M set (marking (.entered name told) (deliver name told)) := by
      intro told
      refine keeps_marking (fun c hc => ?_) (hd name told)
      exact hc.1
    exact keeps_bind keeps_get fun c => keeps_bind (hfirst (event c)) fun _ => ih

theorem keeps_announce (hd : ∀ name event, Keeps M set (deliver name event))
    (event : Config → Event) : Keeps M set (announce deliver event) :=
  keeps_bind keeps_get fun c => keeps_announceTo hd event 0 c.observers

/-- A tape that is too large is a point of its own, behind which nothing counts. -/
theorem keeps_setTape (hM : M.Valid) (hd : ∀ name event, Keeps M set (deliver name event))
    (tape : List Symbol) (head : Int) : Keeps M set (setTape M deliver tape head) := by
  intro c w hc
  rw [setTape_apply]
  cases hf : tape.find? (· ∉ M.alphabet) with
  | some a => exact keeps_ending (.ask (.setTape tape head)) (keeps_throw _) c w hc
  | none =>
    have htape : ∀ a ∈ tape, a ∈ M.alphabet := by simpa using hf
    rcases hload : c.load M tape head with ⟨c', _ | e⟩
    · obtain ⟨hc', hset⟩ := hc.1.load hM htape hload
      exact keeps_ending _ (keeps_announce hd _) c' w ⟨hc', fun _ => hset⟩
    · obtain rfl : e = .tapeTooLarge := Config.load_eq_some (by rw [hload])
      refine ⟨Point.allSound_cons.2 fun hfit => ?_, fun hfit => ?_⟩
      · cases hfit
      · cases hfit _ (List.mem_singleton.2 rfl)

theorem find_points_sound (hM : M.Valid) {c : Config} (hc : c.Sound M) :
    Point.AllSound M (if ¬c.isHalted M ∧ c.tapeSet then [.lookup c] else []) := by
  split
  · next h => exact Point.allSound_singleton ⟨hc, hc.head_lt h.2, hc.scanned_mem hM⟩
  · exact Point.allSound_nil

theorem keeps_take (hM : M.Valid) (hd : ∀ set name event, Keeps M set (deliver name event))
    {t : Transition} (ht : M.Allows t) : Keeps M True (take M deliver t) := by
  have hannounce : ∀ event, Keeps M True (announce deliver event) := keeps_announce (hd True)
  have happly : Keeps M True (modify (·.apply M t) : Traced ω Unit) :=
    keeps_modify fun c hc => hc.apply hM ht
  have hstore : Keeps M True (marking (.store · t) (modify (·.apply M t)) : Traced ω Unit) := by
    refine keeps_marking (fun c hc => ?_) happly
    exact ⟨hc.1, hc.1.head_lt (hc.2 trivial), ht⟩
  have hcount : Keeps M True (modify Config.countStep : Traced ω Unit) :=
    keeps_modify fun c hc => hc.countStep
  refine keeps_bind (hannounce _) fun _ => keeps_bind keeps_get fun old => ?_
  refine keeps_bind hstore fun _ => ?_
  refine keeps_bind (hannounce _) fun _ => keeps_bind keeps_get fun c => ?_
  exact keeps_ite (keeps_bind (hannounce _) fun _ => hcount) hcount

/-- Where a transition is found the tape is set, and it stays set while the transition is taken. -/
theorem keeps_step (hM : M.Valid) (hd : ∀ set name event, Keeps M set (deliver name event)) :
    Keeps M set (step M deliver) := by
  refine keeps_ending _ fun c w hc => ?_
  have hfind := find_points_sound hM hc.1
  rw [bind_apply, find_apply, Execution.find_apply]
  cases hn : c.next M with
  | error e => exact ⟨hfind, fun _ => hc⟩
  | ok t =>
    obtain ⟨ht, hset⟩ := Config.allows_of_next hM hn
    refine good_append hfind fun _ => Good.weaken ?_
    exact keeps_take hM hd ht c w ⟨hc.1, fun _ => hset⟩

/-- All of the work keeps a machine sound if those do who hear of its events. -/
def keeping (set : Prop) (hM : M.Valid) (hd : ∀ set name event, Keeps M set (deliver name event)) :
    Conduct M deliver deliver where
  rel x _ := Keeps M set x
  rel_pure := keeps_pure
  rel_throw := keeps_throw
  rel_exhausted := keeps_exhausted
  rel_bind := keeps_bind
  rel_look hf := keeps_bind keeps_get fun c => hf c c rfl
  rel_tryCatch := keeps_tryCatch
  rel_call call _ _ hx := keeps_ending call hx
  rel_setAtInitial := keeps_modify fun _ hc => hc.setAtInitial hM
  rel_resetSteps := keeps_modify fun _ hc => hc.resetSteps
  rel_setTape := keeps_setTape hM (hd set)
  rel_step := keeps_step hM hd

theorem keeps_attach (name : Option Text) : Keeps M set (attach name : Traced ω Unit) := by
  cases name with
  | none => exact keeps_throw _
  | some name => exact keeps_modify fun c hc => hc.attach name

theorem keeps_detach (name : Option Text) : Keeps M set (detach name : Traced ω Unit) := by
  cases name with
  | none => exact keeps_pure ()
  | some name => exact keeps_modify fun c hc => hc.detach name

theorem keeps_serve (hM : M.Valid) (hd : ∀ set name event, Keeps M set (deliver name event))
    (fuel : Nat) (request : Request) : Keeps M set (serve M deliver fuel request) :=
  let R := keeping set hM hd
  R.rel_serve (R.rel_accept (R.rel_runUnbounded fuel) keeps_aside) request
    (fun name _ => keeps_attach name) fun name _ => keeps_detach name

theorem keeps_session (hM : M.Valid) (hd : ∀ set name event, Keeps M set (deliver name event))
    (fuel : Nat) (calls : List Call) : Keeps M set (session M deliver fuel calls) :=
  let R := keeping set hM hd
  let hloop := R.rel_runUnbounded fuel
  R.rel_session (R.rel_accept hloop keeps_aside) hloop keeps_attach keeps_detach calls

end Work

theorem keeps_deliver (hM : M.Valid) (react : Observers ω) (fuel : Nat) (set : Prop) (name : Text)
    (event : Event) : Keeps M set (deliver M react fuel name event) := by
  induction fuel generalizing set name event with
  | zero => exact keeps_exhausted
  | succ fuel ih =>
    have hsilent : ∀ {α : Type} {f : Config → ω → α × Config × ω}, (∀ c w, (f c w).2.1 = c) →
        Keeps M set (silently f : Traced ω α) := by
      intro α f hf c w hc
      rw [silently_apply, hf]
      exact ⟨Point.allSound_nil, fun _ => hc⟩
    exact (keeping set hM ih).rel_deliver (hsilent fun _ _ => rfl) (fun w => hsilent fun _ _ => rfl)
      (keeps_serve hM ih fuel) name event

/-- Every point of a session is sound, however it is observed, until a tape is too large. The
machine is the same throughout. The points are those of the session: without them the traced session
is the session, and observers who take notes note just the points at which they hear of an event. -/
theorem session_points_sound {M : Machine} (hM : M.Valid) (react : Observers ω) (fuel : Nat)
    (calls : List Call) (w : ω) :
    erase (session M (deliver M react fuel) fuel calls) =
        session M (Execution.deliver M react fuel) fuel calls ∧
      noted (session M (deliver M react fuel) fuel calls) =
        session M (Execution.deliver M react.noting fuel) fuel calls ∧
      ∀ p ∈ (session M (deliver M react fuel) fuel calls M.start w).2.takeWhile
        (fun p => !p.isOverflow), p.Sound M := by
  have hstart : M.start.Ready M False := ⟨Config.sound_start hM, False.elim⟩
  have hkeeps := keeps_session hM (keeps_deliver hM react fuel) fuel calls M.start w hstart
  exact ⟨erase_session M react fuel calls, noted_session M react fuel calls, hkeeps.1⟩

/-- Two cells are wiped, and the machine halts on the first blank. -/
def wiper : Machine where
  states := .ofList ["1", "2"]
  input := .ofList [.ofChar 'x']
  alphabet := .ofList [.ofChar 'x', .ofChar '#']
  table := ((∅ : Table).set "1" (.ofChar 'x') ⟨.ofChar 'x', .ofChar '#', .right, "1"⟩).set "1"
    (.ofChar '#') ⟨.ofChar '#', .ofChar '#', .stay, "2"⟩
  initial := "1"
  halt := "2"

/-- Puts another tape in place whenever a step begins, and gives up when the head has moved. -/
def meddle : Observers Nat := fun _ event w _ => match event with
  | .stepStart _ _ => .ask w (.setTape [.ofChar 'x'] (-2)) fun w _ _ => .done (w + 1)
  | .headMoved _ _ => .fail w (.error (.unsetTape []))
  | _ => .done w

/-- A step that fails, a run, and a tape that is too large. -/
def meddled : Result Nat Unit × List Point :=
  session wiper (deliver wiper meddle 3) 3
    [.ask (.setTape [.ofChar 'x', .ofChar 'x'] 0), .ask (.attach (some "a")), .step, .run (some 3),
      .ask (.setTape [.ofChar 'x'] 0x7fffffffffffffff), .step] wiper.start 0

theorem meddled_points_sound : wiper.Valid ∧ meddled.2.length = 20 ∧
    (meddled.2.takeWhile fun p => !p.isOverflow).length = 18 ∧
      ∀ p ∈ meddled.2.takeWhile (fun p => !p.isOverflow), p.Sound wiper := by
  have hvalid : wiper.Valid := Machine.check_eq_ok_iff.1 rfl
  have hlength : meddled.2.length = 20 := by decide +kernel
  have hfit : (meddled.2.takeWhile fun p => !p.isOverflow).length = 18 := by decide +kernel
  exact ⟨hvalid, hlength, hfit, (session_points_sound hvalid meddle 3 _ 0).2.2⟩

end Traced
end SingleTape

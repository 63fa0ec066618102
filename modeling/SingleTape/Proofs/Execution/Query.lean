import SingleTape.Proofs.Execution.Unobserved

/-!
Queries leave no trace. Whatever comes of a query, the machine is as it was and nobody has heard of
it, and so each of many queries is answered as if it were the only one.
-/

namespace SingleTape

open Engine

namespace Result

variable {ω α : Type}

/-- What comes of work that leaves configuration and world as they are. -/
def leaving (c : Config) (w : ω) : Except Failure α → Result ω α
  | .ok a => .ok a c w
  | .error e => .error e c w

/-- The value or the failure with which the work ends, if it ends. -/
def outcome? : Result ω α → Option (Except Failure α)
  | .ok a _ _ => some (.ok a)
  | .error e _ _ => some (.error e)
  | .exhausted => none

end Result

/-- A word and how many steps may be made on it. -/
structure Query where
  word : List Symbol
  maxSteps : Option Int

/-- Accepts the words that begin with an `a`, and is stuck on an `x`. -/
def Machine.opening : Machine :=
  ({ initial := "1", halt := "2", finals := .ofList ["2"] } : Machine).addTransition "1"
    (.ofChar 'a') (.ofChar 'x') .right "2"

namespace Execution

/-- The answer that a machine in the given configuration has for a query, if it comes to an end. -/
def answer? (M : Machine) (fuel : Nat) (q : Query) (c : Config) :
    Option (Except Failure (Option Bool)) :=
  (query M nobody fuel q.word q.maxSteps { c with observers := [] } ()).outcome?

theorem attempt_of_leaving {ω α : Type} {x : Execution ω α} {c : Config} {w : ω}
    {a : Except Failure α} (h : x c w = .leaving c w a) : attempt x c w = .ok a c w := by
  rw [attempt_apply, h]
  cases a <;> rfl

section Queries

variable {ω : Type} (M : Machine) (deliver : Text → Event → Execution ω Unit) (fuel : Nat)

/-- Asks one query after another and collects what comes of each. -/
def acceptEach : List Query → Execution ω (List (Except Failure (Option Bool)))
  | [] => pure []
  | q :: qs => do
    let a ← attempt (accept M deliver fuel q.word q.maxSteps)
    let as ← acceptEach qs
    return a :: as

/-- A run with a bound ends. -/
theorem runBounded_ne_exhausted {c : Config} (h : c.observers = []) (n : Nat) (w : ω) :
    runBounded M deliver n c w ≠ .exhausted := by
  induction n generalizing c with
  | zero =>
    by_cases hhalt : c.isHalted M <;> simp [runBounded, bind_apply, hhalt]
  | succ n ih =>
    by_cases hhalt : c.isHalted M
    · simp [runBounded, bind_apply, hhalt]
    · simp only [runBounded, bind_apply, get_apply, if_neg hhalt, step_of_observers_eq_nil h]
      cases hnext : c.next M with
      | ok t =>
        apply ih
        rw [Config.countStep, Config.apply_observers, h]
      | error e => simp

theorem run_ne_exhausted {c : Config} (h : c.observers = []) (n : Int) (w : ω) :
    run M deliver fuel (some n) c w ≠ .exhausted := by
  have hbounded := runBounded_ne_exhausted M deliver h n.toNat w
  simp only [run, doing_eq, tryCatch_apply]
  cases hrun : runBounded M deliver n.toNat c w with
  | ok outcome c' w' => simp
  | error e c' w' =>
    cases e with
    | tapeTooLarge => simp
    | error e => cases e <;> simp
  | exhausted => exact absurd hrun hbounded

theorem query_ne_exhausted {c : Config} (h : c.observers = []) (word : List Symbol) (n : Int)
    (w : ω) : query M deliver fuel word (some n) c w ≠ .exhausted := by
  simp only [query, bind_apply, setTape_of_observers_eq_nil h]
  cases word.find? (· ∉ M.alphabet) with
  | some a => simp
  | none =>
    rcases hload : c.load M word 0 with ⟨c', _ | e⟩
    · have hobs : c'.observers = [] := by rw [← h, ← c.load_observers word 0, hload]
      have hended := run_ne_exhausted M deliver fuel hobs n w
      cases hrun : run M deliver fuel (some n) c' w with
      | ok outcome c'' w'' => cases outcome <;> simp [hrun, bind_apply]
      | error e c'' w'' => simp [hrun]
      | exhausted => exact absurd hrun hended
    · simp

/-- A query with a bound has an answer. -/
theorem answer?_ne_none (word : List Symbol) (n : Int) (c : Config) :
    answer? M fuel ⟨word, some n⟩ c ≠ none := by
  have hended := query_ne_exhausted M nobody fuel (c := { c with observers := [] }) rfl word n ()
  unfold answer?
  cases hrun : query M nobody fuel word (some n) { c with observers := [] } () with
  | ok a c' _ => simp [Result.outcome?]
  | error e c' _ => simp [Result.outcome?]
  | exhausted => exact absurd hrun hended

/-- Whoever observes the machine, only the answer comes of a query. -/
theorem accept_eq_answer? (q : Query) (c : Config) (w : ω) :
    accept M deliver fuel q.word q.maxSteps c w = match answer? M fuel q c with
      | some a => .leaving c w a
      | none => .exhausted := by
  have hsolitary := solitary_query M deliver fuel q.word q.maxSteps { c with observers := [] } w rfl
  rw [accept_apply, answer?, hsolitary.1]
  cases query M nobody fuel q.word q.maxSteps { c with observers := [] } () <;> rfl

variable {M} {fuel}

theorem accept_of_answer? {q : Query} {c : Config} {a : Except Failure (Option Bool)}
    (h : answer? M fuel q c = some a) (w : ω) :
    accept M deliver fuel q.word q.maxSteps c w = .leaving c w a := by
  rw [accept_eq_answer?, h]

/-- A reaction goes on after a query as if it had known the answer. -/
theorem perform_ask_of_answer? {q : Query} {c : Config} {a : Except Failure (Option Bool)}
    (h : answer? M fuel q c = some a)
    (next : ω → Config → Except Failure (Option Bool) → Reaction ω) (v w : ω) :
    perform (serve M deliver fuel) (.ask w (.accept q.word q.maxSteps) next) c v =
      perform (serve M deliver fuel) (next w c a) c w := by
  have haccept := accept_of_answer? deliver h w
  simp only [perform_ask, serve, haccept]
  cases a <;> rfl

theorem acceptEach_of_answers {qs : List Query} {answer : Query → Except Failure (Option Bool)}
    {c : Config} (h : ∀ q ∈ qs, answer? M fuel q c = some (answer q)) (w : ω) :
    acceptEach M deliver fuel qs c w = .ok (qs.map answer) c w := by
  induction qs with
  | nil => rfl
  | cons q qs ih =>
    obtain ⟨hq, hqs⟩ := List.forall_mem_cons.1 h
    have hattempt := attempt_of_leaving (accept_of_answer? deliver hq w)
    simp only [acceptEach, bind_apply, hattempt, ih hqs, pure_apply, List.map_cons]

end Queries

/-- What it is for a query to have an answer and to leave no trace. The answer is that of running
the word; whoever observes the machine and in whatever world, the query ends with it, in the
configuration and the world in which it began, and also a reaction in the middle of an event goes on
from there. -/
structure Traceless (M : Machine) (fuel : Nat) (c : Config) (q : Query)
    (a : Except Failure (Option Bool)) : Prop where
  answer_eq : answer? M fuel q c = some a
  accept_eq : ∀ (ω : Type) (deliver : Text → Event → Execution ω Unit) (w : ω),
    accept M deliver fuel q.word q.maxSteps c w = .leaving c w a
  perform_eq : ∀ (ω : Type) (deliver : Text → Event → Execution ω Unit) (v w : ω)
    (next : ω → Config → Except Failure (Option Bool) → Reaction ω),
    perform (serve M deliver fuel) (.ask w (.accept q.word q.maxSteps) next) c v =
      perform (serve M deliver fuel) (next w c a) c w

theorem traceless_of_answer? {M : Machine} {fuel : Nat} {c : Config} {q : Query}
    {a : Except Failure (Option Bool)} (h : answer? M fuel q c = some a) :
    Traceless M fuel c q a where
  answer_eq := h
  accept_eq _ deliver w := accept_of_answer? deliver h w
  perform_eq _ deliver v w next := perform_ask_of_answer? deliver h next v w

/-- Queries leave no trace, and in whatever order and however often they are asked, each of them is
answered as it would be alone. This is so of all queries with a bound, and of those without one
that end. -/
theorem accept_leaves_no_trace (M : Machine) {ω : Type}
    (deliver : Text → Event → Execution ω Unit) (fuel : Nat) (c : Config) (w : ω)
    (queries : List Query)
    (hends : ∀ q ∈ queries, q.maxSteps = none →
      accept M deliver fuel q.word none c w ≠ .exhausted) :
    ∃ answer : Query → Except Failure (Option Bool),
      (∀ q ∈ queries, Traceless M fuel c q (answer q)) ∧
      ∀ qs ⊆ queries, ∀ (ω' : Type) (deliver' : Text → Event → Execution ω' Unit) (w' : ω'),
        acceptEach M deliver' fuel qs c w' = .ok (qs.map answer) c w' := by
  have hsome : ∀ q ∈ queries, answer? M fuel q c ≠ none := by
    rintro ⟨word, maxSteps⟩ hq hnone
    cases maxSteps with
    | none =>
      apply hends _ hq rfl
      rw [accept_eq_answer? M deliver fuel ⟨word, none⟩, hnone]
    | some n => exact answer?_ne_none M fuel word n c hnone
  have hanswer : ∀ q ∈ queries,
      answer? M fuel q c = some ((answer? M fuel q c).getD (.ok none)) := by
    intro q hq
    obtain ⟨a, ha⟩ := Option.ne_none_iff_exists'.1 (hsome q hq)
    rw [ha, Option.getD_some]
  refine ⟨fun q => (answer? M fuel q c).getD (.ok none), ?_, ?_⟩
  · intro q hq
    exact traceless_of_answer? (hanswer q hq)
  · intro qs hqs ω' deliver' w'
    exact acceptEach_of_answers deliver' (fun q hq => hanswer q (hqs hq)) w'

/-- Asked while it is observed and at work, a machine answers in each of the four ways, and then it
can go on. -/
theorem opening_leaves_no_trace :
    let c := { Machine.opening.start with
      tape := Text.symbols "xa#", tapeSet := true, head := 1, steps := 7, observers := ["log"] }
    let queries : List Query :=
      [⟨Text.symbols "a", none⟩, ⟨Text.symbols "xa", some 3⟩, ⟨Text.symbols "a", some 0⟩,
        ⟨Text.symbols "ab", none⟩]
    ∃ answer : Query → Except Failure (Option Bool),
      queries.map answer = [.ok (some true), .ok (some false), .ok none,
        .error (.error (.invalidSymbol (.ofChar 'b')))] ∧
      ∀ q ∈ queries, Traceless Machine.opening 2 c q (answer q) := by
  intro c queries
  have hends : ∀ q ∈ queries, q.maxSteps = none →
      accept Machine.opening nobody 2 q.word none c () ≠ .exhausted := by
    have haccepted : accept Machine.opening nobody 2 (Text.symbols "a") none c () =
        .ok (some true) c () := rfl
    have hforeign : accept Machine.opening nobody 2 (Text.symbols "ab") none c () =
        .error (.error (.invalidSymbol (.ofChar 'b'))) c () := rfl
    simp [queries, haccepted, hforeign]
  obtain ⟨answer, htraceless, hall⟩ :=
    accept_leaves_no_trace Machine.opening nobody 2 c () queries hends
  have hanswers := hall queries (List.Subset.refl _) Unit nobody ()
  refine ⟨answer, ?_, htraceless⟩
  have hrun : acceptEach Machine.opening nobody 2 queries c () =
      .ok [.ok (some true), .ok (some false), .ok none,
        .error (.error (.invalidSymbol (.ofChar 'b')))] c () := rfl
  rw [hrun] at hanswers
  injection hanswers with hlist
  exact hlist.symm

end Execution
end SingleTape

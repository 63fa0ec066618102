import SingleTape.Proofs.CommandLine.Jobs
import SingleTape.Proofs.Execution.Acceptance
import SingleTape.Proofs.Execution.Atomicity

/-!
What can go wrong with a job. It fails before the machine runs or not at all, so its fault can be
told without running anything; and it ends unless it starts a run that does not.
-/

namespace SingleTape

open Execution
open Engine (query run runOn setTape)

/-- Why a machine does not take a tape: the first foreign symbol on it, or its size. -/
def Machine.refusal (M : Machine) (tape : List Symbol) (head : Int) : Option Failure :=
  match tape.find? (· ∉ M.alphabet) with
  | some a => some (.error (.invalidSymbol a))
  | none => (M.start.load M tape head).2

/-- The machine with a tape on it that it takes. -/
def Machine.loaded (M : Machine) (tape : List Symbol) (head : Int) : Config :=
  (M.start.load M tape head).1

namespace Config

theorem load_tapeSet {M : Machine} {c c' : Config} {tape : List Symbol} {head : Int}
    (h : c.load M tape head = (c', none)) : c'.tapeSet = true := by
  rcases load_eq_none_iff.1 h with ⟨-, -, rfl⟩ | ⟨-, -, rfl⟩ <;> rfl

end Config

namespace Execution

variable {M : Machine} {tape : List Symbol} {head : Int} {maxSteps : Option Int} {c : Config}

/-- A run on a tape ends well unless it has no bound and makes a step for all of the fuel. -/
theorem run_ok_or_exhausted (hset : c.tapeSet = true) (hobs : c.observers = []) (fuel : Nat)
    (maxSteps : Option Int) :
    (∃ outcome d, run M nobody fuel maxSteps c () = .ok outcome d ()) ∨
      maxSteps = none ∧ run M nobody fuel maxSteps c () = .exhausted := by
  cases maxSteps with
  | some n =>
    obtain ⟨k, outcome, d, hends⟩ := exists_ends (M := M) hset hobs n.toNat
    exact .inl ⟨outcome, d, (hends.executes hset hobs fuel).run_eq Unit nobody ()⟩
  | none =>
    rcases exists_steps_or_rests (M := M) hset hobs fuel with
      ⟨d, hd⟩ | ⟨k, hlt, d, outcome, hrests⟩
    · exact .inr ⟨rfl, run_eq_exhausted_of_steps hobs hd nobody ()⟩
    · have hrun : Executes M fuel none c k outcome d := hrests.executes hset hobs hlt
      exact .inl ⟨outcome, d, hrun.run_eq Unit nobody ()⟩

/-- If there is an end to the steps, some fuel suffices. -/
theorem exists_run_ok (hset : c.tapeSet = true) (hobs : c.observers = [])
    (hends : maxSteps = none → ¬Endless M c) :
    ∃ F, ∀ fuel ≥ F, ∃ outcome d, run M nobody fuel maxSteps c () = .ok outcome d () := by
  cases maxSteps with
  | some n =>
    refine ⟨0, fun fuel _ => ?_⟩
    exact (run_ok_or_exhausted hset hobs fuel (some n)).resolve_right (by simp)
  | none =>
    obtain ⟨k, d, outcome, hrests⟩ := (rests_or_endless hset hobs).resolve_right (hends rfl)
    refine ⟨k + 1, fun fuel hfuel => ⟨outcome, d, ?_⟩⟩
    have hrun : Executes M fuel none c k outcome d := hrests.executes hset hobs hfuel
    exact hrun.run_eq Unit nobody ()

/-- Either the tape is refused, or the machine runs on it. -/
theorem print?_runOn_start (fuel : Nat) (text : RunOutcome → Config → Text) :
    (runOn M nobody fuel tape head maxSteps M.start ()).print? text =
      match M.refusal tape head with
      | some e => some (.error e)
      | none => (run M nobody fuel maxSteps (M.loaded tape head) ()).print? text := by
  have hobs : M.start.observers = [] := rfl
  simp only [runOn, bind_apply, setTape_of_observers_eq_nil hobs, Machine.refusal, Machine.loaded]
  cases tape.find? (· ∉ M.alphabet) with
  | some a => rfl
  | none => rcases M.start.load M tape head with ⟨d, _ | e⟩ <;> rfl

/-- A tape that is not refused is on the machine, and nobody observes it. -/
theorem loaded_of_refusal (h : M.refusal tape head = none) :
    (M.loaded tape head).tapeSet = true ∧ (M.loaded tape head).observers = [] := by
  unfold Machine.refusal at h
  split at h
  · cases h
  · exact ⟨Config.load_tapeSet (Prod.ext rfl h), M.start.load_observers tape head⟩

end Execution

namespace Job

/-- Why a job fails. -/
def fault (o : Options) (M : Machine) : Job → Option Failure
  | describe => none
  | source => match M.toSource with
    | .ok _ => none
    | .error e => some e
  | ask word => M.refusal word.symbols 0
  | run => M.refusal o.tape.symbols o.head

/-- Where the machine starts to run for a job. -/
def start? (o : Options) (M : Machine) : Job → Option Config
  | ask word => some (M.loaded word.symbols 0)
  | run => some (M.loaded o.tape.symbols o.head)
  | _ => none

/-- How a job goes, depending on the fuel: it has its fault at once, or it goes well unless it
starts a run from the given configuration that does not end. -/
structure Goes (M : Machine) (maxSteps : Option Int) (fault : Option Failure)
    (start : Option Config) (result : Nat → Option (Except Failure Text)) : Prop where
  of_fault : ∀ e, fault = some e → ∀ fuel, result fuel = some (.error e)
  of_result : fault = none → ∀ fuel r, result fuel = some r → ∃ t, r = .ok t
  ends : fault = none → (∀ c, start = some c → maxSteps = none → ¬Endless M c) →
    ∃ F, ∀ fuel ≥ F, result fuel ≠ none
  endless : fault = none → ∀ c, start = some c → maxSteps = none → Endless M c →
    ∀ fuel, result fuel = none

variable {M : Machine} {maxSteps : Option Int}

theorem goes_of_ok (t : Text) : Goes M maxSteps none none fun _ => some (.ok t) where
  of_fault := nofun
  of_result _ _ _ h := ⟨t, (Option.some.inj h).symm⟩
  ends _ _ := ⟨0, fun _ _ => nofun⟩
  endless _ _ hstart := nomatch hstart

theorem goes_of_error (e : Failure) : Goes M maxSteps (some e) none fun _ => some (.error e) where
  of_fault e' h _ := by rw [Option.some.inj h]
  of_result := nofun
  ends := nofun
  endless := nofun

/-- Jobs that run on a tape. -/
theorem goes_runOn (tape : List Symbol) (head : Int) (text : RunOutcome → Config → Text) :
    Goes M maxSteps (M.refusal tape head) (some (M.loaded tape head)) fun fuel =>
      (runOn M nobody fuel tape head maxSteps M.start ()).print? text where
  of_fault e he fuel := by simp only [print?_runOn_start, he]
  of_result hnone fuel r hr := by
    obtain ⟨hset, hobs⟩ := loaded_of_refusal hnone
    simp only [print?_runOn_start, hnone] at hr
    rcases run_ok_or_exhausted hset hobs fuel maxSteps with ⟨outcome, d, hrun⟩ | ⟨-, hcut⟩
    · rw [hrun, Result.print?_ok] at hr
      exact ⟨_, (Option.some.inj hr).symm⟩
    · rw [hcut, Result.print?_exhausted] at hr
      cases hr
  ends hnone hends := by
    obtain ⟨hset, hobs⟩ := loaded_of_refusal hnone
    obtain ⟨F, hF⟩ := exists_run_ok hset hobs (hends _ rfl)
    refine ⟨F, fun fuel hfuel => ?_⟩
    obtain ⟨outcome, d, hrun⟩ := hF fuel hfuel
    simp [print?_runOn_start, hnone, hrun]
  endless hnone c hc hfree hendless fuel := by
    obtain rfl := Option.some.inj hc
    obtain ⟨-, hobs⟩ := loaded_of_refusal hnone
    have hcut := hendless.run_eq_exhausted hobs nobody fuel ()
    simp only [print?_runOn_start, hnone, hfree, hcut, Result.print?_exhausted]

/-- A query is a run whose outcome is a verdict. -/
theorem perform_ask (fuel : Nat) (o : Options) (word : Text) :
    (ask word).perform fuel o M =
      (runOn M nobody fuel word.symbols 0 o.maxSteps M.start ()).print? fun outcome c =>
        CommandLine.answerLine word (outcome.verdict M c) := by
  have hstart : ({ M.start with observers := [] } : Config) = M.start := rfl
  simp only [perform, answer?, hstart, query, runOn, bind_apply]
  rcases setTape M nobody word.symbols 0 M.start () with ⟨_, d, _⟩ | ⟨e, d, _⟩ | _
  · simp only
    rcases Engine.run M nobody fuel o.maxSteps d () with ⟨outcome, d', _⟩ | ⟨e, d', _⟩ | _
    · cases outcome <;> rfl
    · rfl
    · rfl
  · rfl
  · rfl

theorem goes (o : Options) (j : Job) :
    Goes M o.maxSteps (j.fault o M) (j.start? o M) fun fuel => j.perform fuel o M := by
  cases j with
  | describe => exact goes_of_ok _
  | source =>
    simp only [fault, start?, perform]
    cases M.toSource with
    | ok t => exact goes_of_ok t
    | error e => exact goes_of_error (.error e)
  | ask word =>
    simp only [perform_ask]
    exact goes_runOn _ _ _
  | run => exact goes_runOn _ _ _

/-- The job has its turn: those before it have no fault. -/
inductive Reached (o : Options) (M : Machine) (j : Job) : List Job → Prop
  | head (js : List Job) : Reached o M j (j :: js)
  | tail {b : Job} {js : List Job} (hb : b.fault o M = none) (h : Reached o M j js) :
    Reached o M j (b :: js)

/-- When its turn comes, the job lets the machine run from this configuration. -/
def StartsFrom (o : Options) (M : Machine) (js : List Job) (c : Config) : Prop :=
  ∃ j, Reached o M j js ∧ j.fault o M = none ∧ j.start? o M = some c

/-- The first fault of the jobs. -/
def firstFault (o : Options) (M : Machine) (js : List Job) : Option Failure :=
  js.findSome? fun j => j.fault o M

section All

variable {o : Options} {js : List Job} {fuel : Nat}

/-- The jobs fail with the first fault. -/
theorem performAll_result {out : Text} {r : Except Failure Unit}
    (h : performAll fuel o M js = some (out, r)) :
    r = match firstFault o M js with
      | some e => .error e
      | none => .ok () := by
  induction js generalizing out with
  | nil =>
    cases h
    rfl
  | cons j js ih =>
    have hgoes := goes (M := M) o j
    rw [firstFault, List.findSome?_cons]
    cases hfault : j.fault o M with
    | some e =>
      have hfail := hgoes.of_fault e hfault fuel
      simp only [performAll, hfail] at h
      cases h
      rfl
    | none =>
      cases hj : j.perform fuel o M with
      | none => simp [performAll, hj] at h
      | some r' =>
        obtain ⟨t, rfl⟩ := hgoes.of_result hfault fuel r' hj
        simp only [performAll, hj, Option.map_eq_some_iff] at h
        obtain ⟨⟨out', r'⟩, hrest, heq⟩ := h
        cases heq
        exact ih hrest

theorem exists_performAll
    (hends : ∀ c, StartsFrom o M js c → o.maxSteps = none → ¬Endless M c) :
    ∃ F, ∀ fuel ≥ F, performAll fuel o M js ≠ none := by
  induction js with
  | nil => exact ⟨0, fun _ _ => nofun⟩
  | cons j js ih =>
    have hgoes := goes (M := M) o j
    cases hfault : j.fault o M with
    | some e =>
      refine ⟨0, fun fuel _ => ?_⟩
      simp [performAll, hgoes.of_fault e hfault fuel]
    | none =>
      obtain ⟨F, hF⟩ := hgoes.ends hfault fun c hc => hends c ⟨j, .head js, hfault, hc⟩
      obtain ⟨G, hG⟩ := ih fun c hc hfree => by
        obtain ⟨b, hb, hstart⟩ := hc
        exact hends c ⟨b, .tail hfault hb, hstart⟩ hfree
      refine ⟨max F G, fun fuel hfuel => ?_⟩
      obtain ⟨r, hr⟩ := Option.ne_none_iff_exists'.1 (hF fuel (by omega))
      obtain ⟨t, rfl⟩ := hgoes.of_result hfault fuel r hr
      simpa [performAll, hr] using hG fuel (by omega)

/-- A job that is reached and does not end keeps the others waiting. -/
theorem performAll_endless {c : Config} (h : StartsFrom o M js c) (hfree : o.maxSteps = none)
    (hendless : Endless M c) (fuel : Nat) : performAll fuel o M js = none := by
  obtain ⟨j, hreached, hfault, hstart⟩ := h
  induction hreached with
  | head js =>
    have hnone := (goes (M := M) o j).endless hfault c hstart hfree hendless fuel
    simp only [performAll, hnone]
  | @tail b js hb _ ih =>
    cases hperform : b.perform fuel o M with
    | none => simp only [performAll, hperform]
    | some r =>
      obtain ⟨t, rfl⟩ := (goes (M := M) o b).of_result hb fuel r hperform
      simp only [performAll, hperform, ih, Option.map_none]

end All

end Job
end SingleTape

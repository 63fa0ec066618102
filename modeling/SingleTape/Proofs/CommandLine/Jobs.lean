import SingleTape.CommandLine
import SingleTape.Proofs.Execution.Silence

/-!
What the command line does: one job after another, until one of them fails. What a job prints
does not depend on whether somebody watches.
-/

namespace SingleTape

open Execution
open Engine (accept runOn)

inductive Job where
  | describe
  | source
  | ask (word : Text)
  | run

/-- The jobs that are asked for. A run is one if there is a tape for it or nothing to query. -/
def Options.jobs (o : Options) : List Job :=
  (if o.describe then [.describe] else []) ++ (if o.source then [.source] else []) ++
    o.words.map .ask ++ if o.words = [] ∨ o.tape ≠ [] then [.run] else []

/-- What a result puts on the standard output, or with what it fails, if it ends. -/
def Result.print? {ω α : Type} (text : α → Config → Text) :
    Result ω α → Option (Except Failure Text)
  | .ok a c _ => some (.ok (text a c))
  | .error e _ _ => some (.error e)
  | .exhausted => none

section Print

variable {ω α : Type} {text : α → Config → Text}

@[simp] theorem Result.print?_ok (a : α) (c : Config) (w : ω) :
    (Result.ok a c w).print? text = some (.ok (text a c)) := rfl

@[simp] theorem Result.print?_exhausted :
    (Result.exhausted : Result ω α).print? text = none := rfl

theorem Result.print?_forget (h : ∀ a c, text a c.unobserved = text a c) (r : Result ω α) :
    r.forget.print? text = r.print? text := by
  cases r with
  | ok a c w => simp only [forget, print?_ok, h]
  | error e c w => rfl
  | exhausted => rfl

end Print

namespace Job

/-- What a job prints, or with what it fails, if it ends. -/
def perform (fuel : Nat) (o : Options) (M : Machine) : Job → Option (Except Failure Text)
  | describe => some (.ok (M.summary ++ "\n"))
  | source => some (M.toSource.mapError Failure.error)
  | ask word => (answer? M fuel ⟨word.symbols, o.maxSteps⟩ M.start).map fun a =>
    a.map (CommandLine.answerLine word)
  | run => (runOn M nobody fuel o.tape.symbols o.head o.maxSteps M.start ()).print?
    (CommandLine.runReport M)

/-- Performs jobs until one fails: what they print, and the failure. -/
def performAll (fuel : Nat) (o : Options) (M : Machine) :
    List Job → Option (Text × Except Failure Unit)
  | [] => some ([], .ok ())
  | j :: js => match j.perform fuel o M with
    | some (.ok t) => (performAll fuel o M js).map fun r => (t ++ r.1, r.2)
    | some (.error e) => some ([], .error e)
    | none => none

/-- Performs the jobs that are asked for on the machine of a text. -/
def performAsked (fuel : Nat) (o : Options) (source : Text) : Option (Text × Except Failure Unit) :=
  match Machine.ofSource source with
  | .ok M => performAll fuel o M o.jobs
  | .error e => some ([], .error e)

section Fuel

variable {fuel fuel' : Nat} {o : Options} {M : Machine}

/-- More fuel changes nothing about what ends. -/
theorem perform_of_le (h : fuel ≤ fuel') {j : Job} {r : Except Failure Text}
    (hr : j.perform fuel o M = some r) : j.perform fuel' o M = some r := by
  cases j with
  | describe => exact hr
  | source => exact hr
  | ask word =>
    simp only [perform, Option.map_eq_some_iff] at hr ⊢
    obtain ⟨a, ha, rfl⟩ := hr
    exact ⟨a, answer?_of_le h ha, rfl⟩
  | run =>
    unfold perform at hr ⊢
    rw [runOn_of_le h]
    · exact hr
    · intro hcut
      rw [hcut] at hr
      cases hr

end Fuel

end Job

namespace Command

variable {α β : Type}

theorem run_bind (x : Command α) (f : α → Command β) (k : Console) :
    (x >>= f).run k = match x.run k with
      | some (.ok a, k) => (f a).run k
      | some (.error e, k) => some (.error e, k)
      | none => none := by
  change (x.run k).bind _ = _
  rcases x.run k with _ | ⟨_ | _, k⟩ <;> rfl

/-- A command puts this on the standard output and has this result, if it ends. -/
def Shows (x : Command α) (seen : Option (Text × Except Failure α)) : Prop :=
  ∀ k : Console, (x.run k).map (fun p => (p.2.stdout, p.1)) =
    seen.map fun s => (k.stdout ++ s.1, s.2)

theorem shows_pure (a : α) : Shows (pure a) (some ([], .ok a)) := by
  intro k
  have hrun : (pure a : Command α).run k = some (.ok a, k) := rfl
  simp [hrun]

theorem shows_throw (e : Failure) : Shows (throw e : Command α) (some ([], .error e)) := by
  intro k
  have hrun : (throw e : Command α).run k = some (.error e, k) := rfl
  simp [hrun]

theorem shows_print (t : Text) : Shows (print t) (some (t, .ok ())) := fun _ => rfl

theorem shows_report (t : Text) : Shows (report t) (some ([], .ok ())) := by
  intro k
  have hrun : (report t).run k = some (.ok (), { k with stderr := k.stderr ++ t }) := rfl
  simp [hrun]

theorem Shows.bind {x : Command α} {f : α → Command β} {t : Text} {a : α}
    {seen : Option (Text × Except Failure β)} (hx : Shows x (some (t, .ok a)))
    (hf : Shows (f a) seen) : Shows (x >>= f) (seen.map fun s => (t ++ s.1, s.2)) := by
  intro k
  have hx := hx k
  rw [run_bind]
  rcases hxk : x.run k with _ | ⟨e | b, k'⟩
  · simp [hxk] at hx
  · simp [hxk] at hx
  · obtain ⟨hout, rfl⟩ : k'.stdout = k.stdout ++ t ∧ b = a := by simpa [hxk] using hx
    rw [hf k', hout]
    simp [Function.comp_def]

theorem Shows.bind_error {x : Command α} {t : Text} {e : Failure}
    (hx : Shows x (some (t, .error e))) (f : α → Command β) :
    Shows (x >>= f) (some (t, .error e)) := by
  intro k
  have hx := hx k
  rw [run_bind]
  rcases hxk : x.run k with _ | ⟨e' | b, k'⟩
  · simp [hxk] at hx
  · simpa [hxk] using hx
  · simp [hxk] at hx

theorem Shows.bind_none {x : Command α} (hx : Shows x none) (f : α → Command β) :
    Shows (x >>= f) none := by
  intro k
  have hx := hx k
  rw [run_bind]
  rcases hxk : x.run k with _ | ⟨e' | b, k'⟩
  · rfl
  · simp [hxk] at hx
  · simp [hxk] at hx

/-- A report does not show. -/
theorem Shows.after_report {x : Unit → Command α} {seen : Option (Text × Except Failure α)}
    (h : Shows (x ()) seen) (t : Text) : Shows (report t >>= x) seen := by
  have hbind := (shows_report t).bind h
  simpa using hbind

theorem shows_ite {p : Prop} [Decidable p] {x y : Command α}
    {seen : Option (Text × Except Failure α)} (hx : Shows x seen) (hy : Shows y seen) :
    Shows (if p then x else y) seen := by
  split
  · exact hx
  · exact hy

theorem shows_perform_ok {x : Execution Transcript α} {c d : Config} {a : α} {t : Transcript}
    (h : x c ∅ = .ok a d t) : Shows (perform x c) (some ([], .ok (a, d))) := by
  rw [perform, h]
  exact (shows_pure (a, d)).after_report t.text

theorem shows_perform_error {x : Execution Transcript α} {c d : Config} {e : Failure}
    {t : Transcript} (h : x c ∅ = .error e d t) : Shows (perform x c) (some ([], .error e)) := by
  rw [perform, h]
  exact (shows_throw e).after_report t.text

theorem shows_perform_exhausted {x : Execution Transcript α} {c : Config}
    (h : x c ∅ = .exhausted) : Shows (perform x c) none := by
  rw [perform, h]
  exact fun _ => rfl

end Command

namespace CommandLine

open Command Job

/-- What is seen of a command that prints this and has the result `b`. -/
def printed {α : Type} (b : α) : Except Failure Text → Text × Except Failure α
  | .ok t => (t, .ok b)
  | .error e => ([], .error e)

theorem shows_perform_print {α : Type} (x : Execution Transcript α) (c : Config)
    (text : α → Config → Text) :
    Shows (do let (a, c) ← perform x c; print (text a c))
      (((x c ∅).print? text).map (printed ())) := by
  cases hxc : x c ∅ with
  | ok a d t =>
    exact (shows_perform_ok hxc).bind (f := fun p => print (text p.1 p.2)) (shows_print (text a d))
  | error e d t => exact (shows_perform_error hxc).bind_error _
  | exhausted => exact (shows_perform_exhausted hxc).bind_none _

variable {fuel : Nat} {o : Options} {M : Machine} {js : List Job}

/-- First the one job, then the others if it does not fail. -/
theorem shows_job {α : Type} {j : Job} {x : Command α} {b : α} {f : α → Command Unit}
    (hx : Shows x ((j.perform fuel o M).map (printed b)))
    (hf : Shows (f b) (performAll fuel o M js)) :
    Shows (x >>= f) (performAll fuel o M (j :: js)) := by
  unfold performAll
  rcases hj : j.perform fuel o M with _ | ⟨e | t⟩
  · rw [hj] at hx
    exact hx.bind_none f
  · rw [hj] at hx
    exact hx.bind_error f
  · rw [hj] at hx
    exact hx.bind hf

theorem shows_job_if {p : Prop} [Decidable p] {j : Job} {x : Command Unit}
    {f : Unit → Command Unit} (hx : Shows x ((j.perform fuel o M).map (printed ())))
    (hf : Shows (f ()) (performAll fuel o M js)) :
    Shows (if p then x >>= f else f ()) (performAll fuel o M ((if p then [j] else []) ++ js)) := by
  split
  · exact shows_job hx hf
  · exact hf

/-- A query leaves the machine as it was. -/
theorem shows_ask (deliver : Text → Event → Execution Transcript Unit) (word : Text) :
    Shows
      (do
        let (accepted, c) ← perform (accept M deliver fuel word.symbols o.maxSteps) M.start
        print (answerLine word accepted)
        return c)
      (((Job.ask word).perform fuel o M).map (printed M.start)) := by
  have haccept := accept_eq_answer? M deliver fuel ⟨word.symbols, o.maxSteps⟩ M.start ∅
  rw [Job.perform]
  cases hanswer : answer? M fuel ⟨word.symbols, o.maxSteps⟩ M.start with
  | none =>
    rw [hanswer] at haccept
    exact (shows_perform_exhausted haccept).bind_none _
  | some a =>
    rw [hanswer] at haccept
    cases a with
    | error e => exact (shows_perform_error haccept).bind_error _
    | ok accepted =>
      have hok := shows_perform_ok (a := accepted) (d := M.start) (t := ∅) haccept
      have hline := (shows_print (answerLine word accepted)).bind (f := fun _ => pure M.start)
        (shows_pure M.start)
      have hshows := hok.bind (f := fun p : Option Bool × Config => do
        print (answerLine word p.1)
        return p.2) hline
      simpa [printed, Except.map] using hshows

theorem shows_answerWords (deliver : Text → Event → Execution Transcript Unit) (words : List Text)
    {f : Config → Command Unit} (hf : Shows (f M.start) (performAll fuel o M js)) :
    Shows (answerWords fuel o M deliver words M.start >>= f)
      (performAll fuel o M (words.map .ask ++ js)) := by
  induction words with
  | nil => exact hf
  | cons word words ih =>
    have hcons := shows_job (f := fun c => answerWords fuel o M deliver words c >>= f)
      (shows_ask deliver word) ih
    rw [List.map_cons, List.cons_append]
    simpa only [answerWords, bind_assoc, pure_bind] using hcons

/-- Under observation or not. -/
theorem shows_runTape :
    Shows (runTape (fuel + 1) o M (Execution.deliver M Transcript.observers (fuel + 1)) M.start)
      ((Job.run.perform (fuel + 1) o M).map (printed ())) := by
  have hreport : ∀ outcome c,
      runReport M outcome c.unobserved = runReport M outcome c := fun _ _ => rfl
  let c := if o.verbose then M.start.attach "transcript" else M.start
  have hc : c.unobserved = M.start := by
    unfold c
    split
    · exact M.start.unobserved_attach _
    · rfl
  have hrun := forget_runOn (M := M) Transcript.observers_silent fuel (fuel + 1) o.tape.symbols
    o.head o.maxSteps c ∅
  rw [hc] at hrun
  rw [Job.perform, ← hrun, Result.print?_forget hreport]
  exact shows_perform_print _ c (runReport M)

theorem shows_source {source : Except Error Text} :
    Shows (ofExcept source >>= print) (some (printed () (source.mapError Failure.error))) := by
  cases source with
  | ok t =>
    have hbind := (shows_pure t).bind (f := print) (shows_print t)
    exact hbind
  | error e => exact (shows_throw (.error e)).bind_error print

/-- What is seen of the jobs does not depend on who watches. -/
theorem shows_jobs (fuel : Nat) (o : Options) (M : Machine) :
    Shows
      (do
        if o.describe then print (M.summary ++ "\n")
        if o.source then print (← ofExcept M.toSource)
        let c ← answerWords (fuel + 1) o M
          (Execution.deliver M Transcript.observers (fuel + 1)) o.words M.start
        if o.words = [] ∨ o.tape ≠ [] then
          runTape (fuel + 1) o M (Execution.deliver M Transcript.observers (fuel + 1)) c)
      (performAll (fuel + 1) o M o.jobs) := by
  -- From the last job to the first: each is put in front of what is known of the others.
  have hrun : Shows
      (if o.words = [] ∨ o.tape ≠ [] then
        runTape (fuel + 1) o M (Execution.deliver M Transcript.observers (fuel + 1)) M.start
      else pure ())
      (performAll (fuel + 1) o M (if o.words = [] ∨ o.tape ≠ [] then [.run] else [])) := by
    have htape : Shows
        (runTape (fuel + 1) o M (Execution.deliver M Transcript.observers (fuel + 1)) M.start)
        ((Job.run.perform (fuel + 1) o M).map (printed ())) := shows_runTape
    have hlast : Shows (pure ()) (performAll (fuel + 1) o M []) := shows_pure ()
    have hif := shows_job_if (p := o.words = [] ∨ o.tape ≠ []) (f := pure) htape hlast
    simpa only [bind_pure, List.append_nil] using hif
  have hwords := shows_answerWords (Execution.deliver M Transcript.observers (fuel + 1)) o.words
    (f := fun c => if o.words = [] ∨ o.tape ≠ [] then
      runTape (fuel + 1) o M (Execution.deliver M Transcript.observers (fuel + 1)) c else pure ())
    hrun
  have hsource := shows_job_if (p := o.source) (j := .source) (f := fun _ => _) shows_source hwords
  have hall := shows_job_if (p := o.describe) (j := .describe) (f := fun _ => _)
    (shows_print (M.summary ++ "\n")) hsource
  simpa only [Options.jobs, List.append_assoc, bind_assoc] using hall

/-- What is seen of the simulation does not depend on who watches. -/
theorem shows_simulate (fuel : Nat) (o : Options) (source : Text) :
    Shows (simulate (fuel + 1) o source) (performAsked (fuel + 1) o source) := by
  have hrest : Shows
      (do
        let M ← ofExcept (Machine.ofSource source)
        if o.verbose then report (stats M)
        if o.describe then print (M.summary ++ "\n")
        if o.source then print (← ofExcept M.toSource)
        let c ← answerWords (fuel + 1) o M
          (Execution.deliver M Transcript.observers (fuel + 1)) o.words M.start
        if o.words = [] ∨ o.tape ≠ [] then
          runTape (fuel + 1) o M (Execution.deliver M Transcript.observers (fuel + 1)) c)
      (performAsked (fuel + 1) o source) := by
    unfold performAsked
    cases Machine.ofSource source with
    | error e => exact (shows_throw (.error e)).bind_error _
    | ok M =>
      have hjobs := shows_jobs fuel o M
      exact shows_ite (hjobs.after_report (x := fun _ => _) _) hjobs
  exact shows_ite (hrest.after_report (x := fun _ => _) _) hrest

end CommandLine
end SingleTape

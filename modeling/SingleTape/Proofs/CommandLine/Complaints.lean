import SingleTape.Proofs.CommandLine.Endings

/-!
What can still go wrong when the description was read. The machine may have parts that cannot be
written, and a word or the tape may hold a symbol that the machine does not know; nothing else is
ever reported. What was printed before is then all that is printed.
-/

namespace SingleTape

open Execution CommandLine
open Engine (accept run runOn setTape)

namespace Job

variable {o : Options} {M : Machine}

/-- What a job prints when it goes well; the machine works unobserved and with fuel enough. -/
inductive Prints (o : Options) (M : Machine) : Job → Text → Prop
  | describe : Prints o M describe (M.summary ++ "\n")
  | source {t : Text} (h : M.toSource = .ok t) : Prints o M source t
  | ask {word : Text} {fuel : Nat} {a : Option Bool}
      (h : accept M nobody fuel word.symbols o.maxSteps M.start () = .ok a M.start ()) :
    Prints o M (ask word) (answerLine word a)
  | run {fuel : Nat} {c d : Config} {outcome : RunOutcome}
      (hset : setTape M nobody o.tape.symbols o.head M.start () = .ok () c ())
      (hrun : Engine.run M nobody fuel o.maxSteps c () = .ok outcome d ()) :
    Prints o M run (runReport M outcome d)

/-- The error with which a job fails. -/
inductive Complains (o : Options) (M : Machine) : Job → Error → Prop
  | source {e : Error} (h : M.toSource = .error e) : Complains o M source e
  | ask {word : Text} {front back : List Symbol} {a : Symbol}
      (hword : word.symbols = front ++ a :: back) (hfront : ∀ b ∈ front, b ∈ M.alphabet)
      (ha : a ∉ M.alphabet) : Complains o M (ask word) (.invalidSymbol a)
  | run {front back : List Symbol} {a : Symbol} (htape : o.tape.symbols = front ++ a :: back)
      (hfront : ∀ b ∈ front, b ∈ M.alphabet) (ha : a ∉ M.alphabet) :
    Complains o M run (.invalidSymbol a)

theorem Complains.kind_mem {j : Job} {e : Error} (h : j.Complains o M e) :
    e.kind ∈ [.malformedInput, .invalidSymbol] := by
  cases h with
  | source h =>
    obtain ⟨t, rfl⟩ := M.malformedOnly_toSource e h
    exact List.mem_cons_self
  | ask => exact List.mem_cons_of_mem _ List.mem_cons_self
  | run => exact List.mem_cons_of_mem _ List.mem_cons_self

theorem prints_of_perform {fuel : Nat} {j : Job} {t : Text}
    (h : j.perform fuel o M = some (.ok t)) : j.Prints o M t := by
  cases j with
  | describe =>
    cases h
    exact .describe
  | source =>
    cases hs : M.toSource with
    | ok s =>
      rw [perform, hs] at h
      cases h
      exact .source hs
    | error e =>
      rw [perform, hs] at h
      cases h
  | ask word =>
    rw [perform, Option.map_eq_some_iff] at h
    obtain ⟨a, hanswer, ha⟩ := h
    have haccept := accept_of_answer? nobody hanswer ()
    cases a with
    | error e => cases ha
    | ok b =>
      cases ha
      exact .ask haccept
  | run =>
    rw [perform, runOn, bind_apply] at h
    cases hset : setTape M nobody o.tape.symbols o.head M.start () with
    | ok _ c _ =>
      cases hrun : Engine.run M nobody fuel o.maxSteps c () with
      | ok outcome d _ =>
        simp only [hset, hrun] at h
        cases h
        exact .run hset hrun
      | error e d _ => simp [hset, hrun, Result.print?] at h
      | exhausted => simp [hset, hrun] at h
    | error e c _ => simp [hset, Result.print?] at h
    | exhausted => simp [hset] at h

theorem exists_of_refusal {tape : List Symbol} {head : Int} {e : Error}
    (h : M.refusal tape head = some (.error e)) :
    ∃ front back a, tape = front ++ a :: back ∧ (∀ b ∈ front, b ∈ M.alphabet) ∧ a ∉ M.alphabet ∧
      e = .invalidSymbol a := by
  unfold Machine.refusal at h
  cases hfind : tape.find? (· ∉ M.alphabet) with
  | none =>
    rw [hfind] at h
    cases Config.load_eq_some h
  | some a =>
    rw [hfind] at h
    cases h
    obtain ⟨front, back, htape, hfront, ha⟩ := Config.find?_foreign_iff.1 hfind
    exact ⟨front, back, a, htape, hfront, ha, rfl⟩

theorem complains_of_fault {j : Job} {e : Error} (h : j.fault o M = some (.error e)) :
    j.Complains o M e := by
  cases j with
  | describe => cases h
  | source =>
    unfold fault at h
    cases hs : M.toSource with
    | ok s =>
      rw [hs] at h
      cases h
    | error e' =>
      rw [hs] at h
      cases h
      exact .source hs
  | ask word =>
    obtain ⟨front, back, a, hword, hfront, ha, rfl⟩ := exists_of_refusal h
    exact .ask hword hfront ha
  | run =>
    obtain ⟨front, back, a, htape, hfront, ha, rfl⟩ := exists_of_refusal h
    exact .run htape hfront ha

theorem fault_of_perform_ok {fuel : Nat} {j : Job} {t : Text}
    (h : j.perform fuel o M = some (.ok t)) : j.fault o M = none := by
  cases hfault : j.fault o M with
  | none => rfl
  | some f =>
    have hfails := (goes (M := M) o j).of_fault f hfault fuel
    rw [h] at hfails
    cases hfails

theorem fault_of_perform_error {fuel : Nat} {j : Job} {f : Failure}
    (h : j.perform fuel o M = some (.error f)) : j.fault o M = some f := by
  cases hfault : j.fault o M with
  | none =>
    obtain ⟨t, ht⟩ := (goes (M := M) o j).of_result hfault fuel _ h
    cases ht
  | some f' =>
    have hfails := (goes (M := M) o j).of_fault f' hfault fuel
    rw [h] at hfails
    cases hfails
    rfl

/-- Either the first job fails, or it prints and the others go on. -/
theorem performAll_cons {fuel : Nat} {j : Job} {js : List Job} {out : Text}
    {r : Except Failure Unit} (h : performAll fuel o M (j :: js) = some (out, r)) :
    (∃ f, j.perform fuel o M = some (.error f) ∧ out = [] ∧ r = .error f) ∨
      ∃ t out', j.perform fuel o M = some (.ok t) ∧ performAll fuel o M js = some (out', r) ∧
        out = t ++ out' := by
  rw [performAll] at h
  rcases hj : j.perform fuel o M with _ | ⟨f | t⟩
  · rw [hj] at h
    cases h
  · rw [hj] at h
    cases h
    exact .inl ⟨f, rfl, rfl, rfl⟩
  · rw [hj, Option.map_eq_some_iff] at h
    obtain ⟨⟨out', r'⟩, hrest, heq⟩ := h
    cases heq
    exact .inr ⟨t, out', rfl, hrest, rfl⟩

/-- Jobs that all go well print one after another. -/
theorem prints_of_performAll {fuel : Nat} {js : List Job} {out : Text}
    (h : performAll fuel o M js = some (out, .ok ())) :
    ∃ ts, List.Forall₂ (Prints o M) js ts ∧ out = ts.flatten := by
  induction js generalizing out with
  | nil =>
    cases h
    exact ⟨[], .nil, rfl⟩
  | cons j js ih =>
    obtain ⟨f, -, -, hr⟩ | ⟨t, out', hj, hrest, rfl⟩ := performAll_cons h
    · cases hr
    · obtain ⟨ts, hts, rfl⟩ := ih hrest
      exact ⟨t :: ts, .cons (prints_of_perform hj) hts, rfl⟩

/-- Jobs fail where the first of them does, after the others have printed. -/
theorem fails_of_performAll {fuel : Nat} {js : List Job} {out : Text} {f : Failure}
    (h : performAll fuel o M js = some (out, .error f)) :
    ∃ done j rest ts, js = done ++ j :: rest ∧ List.Forall₂ (Prints o M) done ts ∧
      out = ts.flatten ∧ j.fault o M = some f := by
  induction js generalizing out with
  | nil => cases h
  | cons j js ih =>
    obtain ⟨f', hj, rfl, hr⟩ | ⟨t, out', hj, hrest, rfl⟩ := performAll_cons h
    · cases hr
      exact ⟨[], j, js, [], rfl, .nil, rfl, fault_of_perform_error hj⟩
    · obtain ⟨done, b, rest, ts, rfl, hts, rfl, hb⟩ := ih hrest
      exact ⟨j :: done, b, rest, t :: ts, rfl, .cons (prints_of_perform hj) hts, rfl, hb⟩

theorem mem_jobs_iff {j : Job} : j ∈ o.jobs ↔
    (j = describe ∧ o.describe) ∨ (j = source ∧ o.source) ∨ (∃ word ∈ o.words, j = ask word) ∨
      (j = run ∧ (o.words = [] ∨ o.tape ≠ [])) := by
  have hif : ∀ (p : Prop) [Decidable p] (b : Job), j ∈ (if p then [b] else []) ↔ j = b ∧ p := by
    intro p _ b
    split <;> simp [*]
  simp only [Options.jobs, List.mem_append, hif, List.mem_map, or_assoc, eq_comm (a := j)]

end Job

namespace CommandLine

variable {o : Options} {M : Machine} {program : Text} {args : List Text}
  {files : Text → Option Text}

/-- Some part of the machine cannot be written, or a word or the tape of a run is not over the
alphabet. -/
def Faulty (o : Options) (M : Machine) : Prop :=
  (o.source ∧ ¬M.IsWritable) ∨ (∃ word ∈ o.words, ∃ a ∈ word.symbols, a ∉ M.alphabet) ∨
    ((o.words = [] ∨ o.tape ≠ []) ∧ ∃ a ∈ o.tape.symbols, a ∉ M.alphabet)

theorem faulty_of_complains {j : Job} {e : Error} (hj : j ∈ o.jobs) (h : j.Complains o M e) :
    Faulty o M := by
  cases h with
  | source hs =>
    have hsource : o.source := by simpa [Job.mem_jobs_iff] using hj
    refine .inl ⟨hsource, ?_⟩
    rw [← Machine.exists_toSource_iff, hs]
    simp
  | @ask word front back a hword hfront ha =>
    have hmem : word ∈ o.words := by simpa [Job.mem_jobs_iff] using hj
    exact .inr (.inl ⟨word, hmem, a, by simp [hword], ha⟩)
  | @run front back a htape hfront ha =>
    have hrun : o.words = [] ∨ o.tape ≠ [] := by simpa [Job.mem_jobs_iff] using hj
    exact .inr (.inr ⟨hrun, a, by simp [htape], ha⟩)

theorem known_of_refusal {tape : List Symbol} {head : Int} (h : M.refusal tape head = none) :
    ∀ a ∈ tape, a ∈ M.alphabet := by
  unfold Machine.refusal at h
  split at h
  · cases h
  · next hfind => simpa using hfind

/-- Apart from a tape too large this is all that can go wrong. -/
theorem firstFault_eq_none_iff (hfits : ¬Overfull o M) :
    Job.firstFault o M o.jobs = none ↔ ¬Faulty o M := by
  constructor
  · intro hnone hfaulty
    have hjob : ∀ j ∈ o.jobs, j.fault o M = none := List.findSome?_eq_none_iff.1 hnone
    rcases hfaulty with ⟨hsource, hwrite⟩ | ⟨word, hword, a, ha, hforeign⟩ | ⟨hrun, a, ha, hforeign⟩
    · exact hwrite (fault_source_eq_none_iff.1 (hjob _ (by simp [Job.mem_jobs_iff, hsource])))
    · have hfault := hjob (.ask word) (by simp [Job.mem_jobs_iff, hword])
      exact hforeign (known_of_refusal hfault a ha)
    · have hfault := hjob .run (by simp [Job.mem_jobs_iff, hrun])
      exact hforeign (known_of_refusal hfault a ha)
  · intro hfaultless
    cases hfault : Job.firstFault o M o.jobs with
    | none => rfl
    | some f =>
      obtain ⟨j, hj, hf⟩ := List.exists_of_findSome?_eq_some hfault
      cases f with
      | tapeTooLarge => exact absurd (firstFault_eq_tapeTooLarge_iff.1 hfault) hfits
      | error e => exact absurd (faulty_of_complains hj (Job.complains_of_fault hf)) hfaultless

theorem Loads.unique {o' : Options} {M' : Machine} (h : Loads args files o M)
    (h' : Loads args files o' M') : o = o' ∧ M = M' := by
  obtain ⟨hread, source, hfile, hM⟩ := h
  obtain ⟨hread', source', hfile', hM'⟩ := h'
  obtain rfl := Except.ok.inj (hread.symm.trans hread')
  obtain rfl := Option.some.inj (hfile.symm.trans hfile')
  exact ⟨rfl, Except.ok.inj (hM.symm.trans hM')⟩

theorem Loads.exists_run_iff (h : Loads args files o M) :
    (∃ F, ∀ fuel ≥ F, ∃ x, run fuel program args files = some x) ↔
      ∀ c, Job.StartsFrom o M o.jobs c → o.maxSteps = none → ¬Endless M c := by
  rw [CommandLine.exists_run_iff]
  constructor
  · exact fun hends c => hends o M c h
  · intro hends o' M' c h'
    obtain ⟨rfl, rfl⟩ := h.unique h'
    exact hends c

/-- The outcome is that of the jobs. -/
theorem Loads.performAll_of_run (h : Loads args files o M) {fuel : Nat} {x : Outcome}
    (hx : run (fuel + 1) program args files = some x) :
    ∃ r, Job.performAll (fuel + 1) o M o.jobs = some (x.console.stdout, r) ∧ x.ending = .of r ∧
      ∀ e, r = .error (.error e) → errorReport e <:+ x.console.stderr := by
  obtain ⟨hread, source, hfile, hM⟩ := h
  have hexecute : execute (fuel + 1) o (some source) = some x := by
    simpa only [run, hread, hfile] using hx
  obtain ⟨out, r, hasked, hending, rfl, hreport⟩ := ending_of_execute hexecute
  refine ⟨r, ?_, hending, hreport⟩
  simpa only [Job.performAsked, hM] using hasked

/-- Which errors are reported when the description was read, if all runs that are started end and
the tape of the run is not too large. The exit code is 1 if and only if the machine is to be written
and cannot be, or a word that is asked or the tape of a run has a symbol that the machine does not
know, and otherwise it is 0. With code 0 all actions have printed what they print. With code 1 this
is so of those in front of the first one that fails, nothing else is printed, and what it complains
about is reported, which is a malformed part or a foreign symbol and never another kind of error. -/
theorem exit_of_loads (hloads : Loads args files o M) (hfits : ¬Overfull o M)
    (hends : ∀ c, Job.StartsFrom o M o.jobs c → o.maxSteps = none → ¬Endless M c) :
    (∃ F, ∀ fuel ≥ F, ∃ x, run fuel program args files = some x) ∧
    ∀ fuel x, run (fuel + 1) program args files = some x →
      (x.ending = .exit 1 ↔
        (o.source ∧ ¬M.IsWritable) ∨ (∃ word ∈ o.words, ∃ a ∈ word.symbols, a ∉ M.alphabet) ∨
          ((o.words = [] ∨ o.tape ≠ []) ∧ ∃ a ∈ o.tape.symbols, a ∉ M.alphabet)) ∧
      (x.ending ≠ .exit 1 → x.ending = .exit 0 ∧
        ∃ ts, List.Forall₂ (Job.Prints o M) o.jobs ts ∧ x.console.stdout = ts.flatten) ∧
      (x.ending = .exit 1 → ∃ done j rest ts e, o.jobs = done ++ j :: rest ∧
        List.Forall₂ (Job.Prints o M) done ts ∧ x.console.stdout = ts.flatten ∧
        j.Complains o M e ∧ errorReport e <:+ x.console.stderr ∧
        e.kind ∈ [.malformedInput, .invalidSymbol]) := by
  refine ⟨hloads.exists_run_iff.2 hends, fun fuel x hx => ?_⟩
  obtain ⟨r, hall, hending, hreport⟩ := hloads.performAll_of_run hx
  have hresult := Job.performAll_result hall
  have hnone := firstFault_eq_none_iff hfits
  cases hfault : Job.firstFault o M o.jobs with
  | none =>
    rw [hfault] at hresult
    subst hresult
    have hzero : x.ending = .exit 0 := hending
    have hone : x.ending ≠ .exit 1 := by simp [hzero]
    refine ⟨iff_of_false hone (hnone.1 hfault), ?_, fun h => absurd h hone⟩
    exact fun _ => ⟨hzero, Job.prints_of_performAll hall⟩
  | some f =>
    cases f with
    | tapeTooLarge => exact absurd (firstFault_eq_tapeTooLarge_iff.1 hfault) hfits
    | error e =>
      rw [hfault] at hresult
      subst hresult
      have hone : x.ending = .exit 1 := hending
      have hfaulty : Faulty o M := by
        refine Classical.byContradiction fun h => ?_
        rw [hnone.2 h] at hfault
        cases hfault
      refine ⟨iff_of_true hone hfaulty, fun h => absurd hone h, fun _ => ?_⟩
      obtain ⟨done, j, rest, ts, hjobs, hts, hout, hj⟩ := Job.fails_of_performAll hall
      have hcomplains := Job.complains_of_fault hj
      exact ⟨done, j, rest, ts, e, hjobs, hts, hout, hcomplains, hreport e rfl,
        hcomplains.kind_mem⟩

def describedArgs : List Text := ["-d", "-n", "5", "-a", "a", "-t", "ab", "m.tm"]

/-- The machine is described and the word is answered before the tape is refused. -/
theorem exit_of_described :
    ∃ o M, Loads describedArgs (fun _ => some markerText) o M ∧ ¬Overfull o M ∧
      o.maxSteps ≠ none ∧ ∃ x, run 2 "tms" describedArgs (fun _ => some markerText) = some x ∧
        x.ending = .exit 1 ∧ ∃ done j rest ts e, o.jobs = done ++ j :: rest ∧
          List.Forall₂ (Job.Prints o M) done ts ∧ x.console.stdout = ts.flatten ∧
          j.Complains o M e ∧ errorReport e <:+ x.console.stderr ∧
          e.kind ∈ [.malformedInput, .invalidSymbol] := by
  obtain ⟨o, hread, hhead, hbound⟩ : ∃ o, Options.read describedArgs = .ok o ∧ o.head = 0 ∧
      o.maxSteps = some 5 := ⟨_, rfl, rfl, rfl⟩
  obtain ⟨M, hM⟩ : ∃ M, Machine.ofSource markerText = .ok M := ⟨_, rfl⟩
  have hloads : Loads describedArgs (fun _ => some markerText) o M := ⟨hread, _, rfl, hM⟩
  have hfits : ¬Overfull o M := by
    intro h
    have hlarge := h.large
    rw [hhead] at hlarge
    rcases hlarge with ⟨hneg, -⟩ | hlarge
    · exact absurd hneg (by decide)
    · exact absurd hlarge (by decide)
  obtain ⟨-, hexit⟩ := exit_of_loads hloads hfits fun c _ hfree => by
    rw [hbound] at hfree
    cases hfree
  have hcode : (run 2 "tms" describedArgs fun _ => some markerText).map Outcome.ending =
      some (.exit 1) := by decide +kernel
  obtain ⟨x, hx, hending⟩ := Option.map_eq_some_iff.1 hcode
  obtain ⟨-, -, hstops⟩ := hexit 1 x hx
  exact ⟨o, M, hloads, hfits, by simp [hbound], x, hx, hending, hstops hending⟩

end CommandLine
end SingleTape

import SingleTape.Proofs.CommandLine.Arguments
import SingleTape.Proofs.CommandLine.Complaints
import SingleTape.Proofs.CommandLine.Report

/-!
Further queries. If the words that are added are over the alphabet and the runs on them end, then
the exit code and the report of the run are as without them, and a word has the same answer in any
company.
-/

namespace SingleTape

open Execution CommandLine Text
open Engine (accept)

/-- The jobs in front of the queries. -/
def Options.prelude (o : Options) : List Job :=
  (if o.describe then [.describe] else []) ++ if o.source then [.source] else []

theorem Options.jobs_of_tape {o : Options} (h : o.tape ≠ []) :
    o.jobs = o.prelude ++ (o.words.map .ask ++ [.run]) := by
  have hrun : o.words = [] ∨ o.tape ≠ [] := .inr h
  simp only [jobs, prelude, if_pos hrun, List.append_assoc]

namespace Job

variable {o : Options} {M : Machine} {fuel fuel' : Nat} {js ks : List Job} {c : Config} {out : Text}
  {r : Except Failure Unit}

section Asking

variable (o) (M) (ws : List Text)

theorem performAll_asking (fuel : Nat) (js : List Job) :
    performAll fuel (o.asking ws) M js = performAll fuel o M js := by
  induction js with
  | nil => rfl
  | cons j js ih =>
    have hj : j.perform fuel (o.asking ws) M = j.perform fuel o M := by cases j <;> rfl
    rw [performAll, performAll, hj, ih]

theorem fault_asking (j : Job) : j.fault (o.asking ws) M = j.fault o M := by cases j <;> rfl

theorem start?_asking (j : Job) : j.start? (o.asking ws) M = j.start? o M := by cases j <;> rfl

end Asking

theorem startsFrom_cons {j : Job} : StartsFrom o M (j :: js) c ↔
    j.fault o M = none ∧ (j.start? o M = some c ∨ StartsFrom o M js c) := by
  constructor
  · rintro ⟨b, hreached, hfault, hstart⟩
    cases hreached with
    | head => exact ⟨hfault, .inl hstart⟩
    | tail hj hreached => exact ⟨hj, .inr ⟨b, hreached, hfault, hstart⟩⟩
  · rintro ⟨hj, hstart | ⟨b, hreached, hfault, hstart⟩⟩
    · exact ⟨j, .head js, hj, hstart⟩
    · exact ⟨b, .tail hj hreached, hfault, hstart⟩

theorem startsFrom_asking (ws : List Text) :
    StartsFrom (o.asking ws) M js c ↔ StartsFrom o M js c := by
  induction js with
  | nil =>
    constructor <;> rintro ⟨_, hreached, -⟩ <;> cases hreached
  | cons j js ih => rw [startsFrom_cons, startsFrom_cons, fault_asking, start?_asking, ih]

section Interleaves

variable {added both : List Job}

/-- With jobs in between that have no fault the others still have their turns. -/
theorem StartsFrom.interleaves (h : Interleaves js added both)
    (hadded : ∀ j ∈ added, j.fault o M = none) (hc : StartsFrom o M js c) :
    StartsFrom o M both c := by
  induction h with
  | nil => exact hc
  | left j _ ih =>
    obtain ⟨hj, hc⟩ := startsFrom_cons.1 hc
    exact startsFrom_cons.2 ⟨hj, hc.imp_right (ih hadded)⟩
  | right j _ ih =>
    obtain ⟨hj, hadded⟩ := List.forall_mem_cons.1 hadded
    exact startsFrom_cons.2 ⟨hj, .inr (ih hadded hc)⟩

/-- And nothing starts but they and those in between. -/
theorem StartsFrom.of_interleaves (h : Interleaves js added both) (hc : StartsFrom o M both c) :
    StartsFrom o M js c ∨ ∃ j ∈ added, j.start? o M = some c := by
  induction h with
  | nil => exact .inl hc
  | left j _ ih =>
    obtain ⟨hj, hc | hc⟩ := startsFrom_cons.1 hc
    · exact .inl (startsFrom_cons.2 ⟨hj, .inl hc⟩)
    · exact (ih hc).imp_left fun hc => startsFrom_cons.2 ⟨hj, .inr hc⟩
  | right j _ ih =>
    obtain ⟨-, hc | hc⟩ := startsFrom_cons.1 hc
    · exact .inr ⟨j, List.mem_cons_self, hc⟩
    · refine (ih hc).imp_right ?_
      rintro ⟨b, hb, hstart⟩
      exact ⟨b, List.mem_cons_of_mem j hb, hstart⟩

theorem interleaves_jobs {words ws : List Text} (htape : o.tape ≠ [])
    (h : Interleaves o.words words ws) :
    Interleaves o.jobs (words.map ask) (o.asking ws).jobs := by
  have hjobs : (o.asking ws).jobs = o.prelude ++ (ws.map ask ++ [run]) :=
    Options.jobs_of_tape (o := o.asking ws) htape
  have hboth := (Interleaves.refl o.prelude).append ((h.map ask).append (Interleaves.refl [run]))
  rw [Options.jobs_of_tape htape, hjobs]
  simpa using hboth

end Interleaves

theorem performAll_append (h : performAll fuel o M (js ++ ks) = some (out, r)) :
    (∃ e, performAll fuel o M js = some (out, .error e) ∧ r = .error e) ∨
      ∃ front back, performAll fuel o M js = some (front, .ok ()) ∧
        performAll fuel o M ks = some (back, r) ∧ out = front ++ back := by
  induction js generalizing out with
  | nil => exact .inr ⟨[], out, rfl, h, rfl⟩
  | cons j js ih =>
    obtain ⟨e, hj, rfl, rfl⟩ | ⟨t, out', hj, hrest, rfl⟩ := performAll_cons h
    · exact .inl ⟨e, by rw [performAll, hj], rfl⟩
    · obtain ⟨e, hfails, rfl⟩ | ⟨front, back, hjs, hks, rfl⟩ := ih hrest
      · refine .inl ⟨e, ?_, rfl⟩
        rw [performAll, hj, hfails]
        rfl
      · refine .inr ⟨t ++ front, back, ?_, hks, by simp⟩
        rw [performAll, hj, hjs]
        rfl

theorem performAll_prelude (fuel : Nat) :
    performAll fuel o M o.prelude = performAll 0 o M o.prelude := by
  unfold Options.prelude
  split <;> split <;> rfl

/-- What is printed in front of the answers. -/
def preface (o : Options) (M : Machine) : Text :=
  ((performAll 0 o M o.prelude).map Prod.fst).getD []

theorem preface_of_performAll (h : performAll fuel o M o.prelude = some (out, r)) :
    out = preface o M := by
  rw [performAll_prelude] at h
  simp only [preface, h, Option.map_some, Option.getD_some]

theorem passedOver_of_forall₂ {source : Text} (hM : Machine.ofSource source = .ok M)
    {ts : List Text} (h : List.Forall₂ (Prints o M) js ts)
    (hjs : ∀ j ∈ js, j = describe ∨ j = Job.source) :
    PassedOver reportMark ts.flatten := by
  induction h with
  | nil => exact passedOver_nil
  | @cons j t js ts hj _ ih =>
    obtain ⟨hfirst, hjs⟩ := List.forall_mem_cons.1 hjs
    have ht : PassedOver reportMark t := by
      rcases hfirst with rfl | rfl
      · cases hj
        exact passedOver_summary hM
      · cases hj with
        | source hs => exact passedOver_toSource hs
    exact ht.append (ih hjs)

theorem passedOver_prelude {source : Text} (hM : Machine.ofSource source = .ok M)
    (h : performAll fuel o M o.prelude = some (out, r)) : PassedOver reportMark out := by
  have hprelude : ∀ j ∈ o.prelude, j = describe ∨ j = Job.source := by
    intro j hj
    unfold Options.prelude at hj
    rcases List.mem_append.1 hj with hj | hj <;> split at hj <;> simp at hj
    · exact .inl hj
    · exact .inr hj
  cases r with
  | ok =>
    obtain ⟨ts, hts, rfl⟩ := prints_of_performAll h
    exact passedOver_of_forall₂ hM hts hprelude
  | error e =>
    obtain ⟨done, j, rest, ts, hjobs, hts, rfl, -⟩ := fails_of_performAll h
    refine passedOver_of_forall₂ hM hts fun b hb => hprelude b ?_
    rw [hjobs]
    exact List.mem_append_left _ hb

theorem answer?_of_accept {word : List Symbol} {maxSteps : Option Int} {a : Option Bool}
    (h : accept M nobody fuel word maxSteps M.start () = .ok a M.start ()) :
    answer? M fuel ⟨word, maxSteps⟩ M.start = some (.ok a) := by
  have haccept := accept_eq_answer? M nobody fuel ⟨word, maxSteps⟩ M.start ()
  rcases hanswer : answer? M fuel ⟨word, maxSteps⟩ M.start with _ | ⟨e | b⟩
  · rw [hanswer, h] at haccept
    cases haccept
  · rw [hanswer, h] at haccept
    cases haccept
  · rw [hanswer, h] at haccept
    cases haccept
    rfl

/-- The answers do not depend on the fuel. -/
theorem exists_answers (M : Machine) (maxSteps : Option Int) : ∃ answer : Text → Option Bool,
    ∀ word fuel a, accept M nobody fuel word.symbols maxSteps M.start () = .ok a M.start () →
      answer word = a := by
  have hword : ∀ word : Text, ∃ b : Option Bool, ∀ fuel a,
      accept M nobody fuel word.symbols maxSteps M.start () = .ok a M.start () → b = a := by
    intro word
    by_cases h : ∃ fuel b, accept M nobody fuel word.symbols maxSteps M.start () = .ok b M.start ()
    · obtain ⟨fuel, b, hb⟩ := h
      refine ⟨b, fun fuel' a ha => ?_⟩
      exact Except.ok.inj (answer?_unique (answer?_of_accept hb) (answer?_of_accept ha))
    · exact ⟨none, fun fuel a ha => absurd ⟨fuel, a, ha⟩ h⟩
  exact Classical.skolem.1 hword

/-- First the answers, then the report; or answers up to a fault. -/
theorem performAll_asks {answer : Text → Option Bool}
    (hanswer : ∀ word fuel a,
      accept M nobody fuel word.symbols o.maxSteps M.start () = .ok a M.start () → answer word = a)
    {words : List Text} (h : performAll fuel o M (words.map ask ++ [run]) = some (out, r)) :
    ∃ asked rest tail, words = asked ++ rest ∧
      out = asked.flatMap (fun word => answerLine word (answer word)) ++ tail ∧
      (∀ word ∈ asked, ∀ a ∈ word.symbols, a ∈ M.alphabet) ∧
      (r = .ok () ∧ rest = [] ∧ run.perform fuel o M = some (.ok tail) ∨
        r ≠ .ok () ∧ tail = []) := by
  induction words generalizing out with
  | nil =>
    refine ⟨[], [], out, rfl, rfl, by simp, ?_⟩
    obtain ⟨e, -, rfl, rfl⟩ | ⟨t, out', hrun, hnil, rfl⟩ := performAll_cons h
    · exact .inr ⟨by simp, rfl⟩
    · cases hnil
      exact .inl ⟨rfl, rfl, by simpa using hrun⟩
  | cons word words ih =>
    obtain ⟨e, -, rfl, rfl⟩ | ⟨t, out', hj, hrest, rfl⟩ := performAll_cons h
    · exact ⟨[], word :: words, [], rfl, rfl, by simp, .inr ⟨by simp, rfl⟩⟩
    · obtain ⟨asked, rest, tail, rfl, rfl, hknown, hends⟩ := ih hrest
      have hword := known_of_refusal (fault_of_perform_ok hj)
      refine ⟨word :: asked, rest, tail, rfl, ?_, List.forall_mem_cons.2 ⟨hword, hknown⟩, hends⟩
      cases prints_of_perform hj with
      | ask haccept =>
        rw [List.flatMap_cons, hanswer word _ _ haccept, List.append_assoc]

/-- What all jobs print: the preface, answers, and the report if nothing fails. -/
theorem printed_of_performAll {source : Text} (hM : Machine.ofSource source = .ok M)
    (htape : o.tape ≠ []) {answer : Text → Option Bool}
    (hanswer : ∀ word fuel a,
      accept M nobody fuel word.symbols o.maxSteps M.start () = .ok a M.start () → answer word = a)
    (h : performAll fuel o M o.jobs = some (out, r)) :
    ∃ asked rest, o.words = asked ++ rest ∧
      out = preface o M ++ asked.flatMap (fun word => answerLine word (answer word)) ++
        reportOf out ∧
      (r = .ok () ∧ rest = [] ∧ run.perform fuel o M = some (.ok (reportOf out)) ∨
        r ≠ .ok () ∧ reportOf out = []) := by
  rw [Options.jobs_of_tape htape] at h
  obtain ⟨e, hpreface, rfl⟩ | ⟨front, back, hfront, hback, rfl⟩ := performAll_append h
  · have hreport : reportOf out = [] := (passedOver_prelude hM hpreface).fromLine_eq_nil
    refine ⟨[], o.words, rfl, ?_, .inr ⟨by simp, hreport⟩⟩
    simpa [hreport] using preface_of_performAll hpreface
  · obtain ⟨asked, rest, tail, hwords, rfl, hknown, hends⟩ := performAll_asks hanswer hback
    have hanswers : PassedOver reportMark
        (asked.flatMap fun word => answerLine word (answer word)) := by
      refine passedOver_flatten (List.forall_mem_map.2 fun word hword => ?_)
      exact passedOver_answerLine (Machine.newline_notMem_of_symbols hM (hknown word hword)) _
    have htail : reportOf tail = tail := by
      rcases hends with ⟨-, -, hrun⟩ | ⟨-, rfl⟩
      · cases prints_of_perform hrun with
        | run => exact reportOf_runReport _ _ _
      · rfl
    have hreport : reportOf (front ++
        (asked.flatMap (fun word => answerLine word (answer word)) ++ tail)) = tail := by
      rw [← List.append_assoc]
      exact ((passedOver_prelude hM hfront).append hanswers tail).trans htail
    refine ⟨asked, rest, hwords, ?_, ?_⟩
    · rw [hreport, preface_of_performAll hfront, List.append_assoc]
    · rw [hreport]
      exact hends

/-- A result does not depend on the fuel. -/
theorem perform_inj {j : Job} {a b : Except Failure Text} (ha : j.perform fuel o M = some a)
    (hb : j.perform fuel' o M = some b) : a = b := by
  have hmost := perform_of_le (Nat.le_max_left fuel fuel') ha
  have hmost' := perform_of_le (Nat.le_max_right fuel fuel') hb
  exact Option.some.inj (hmost.symm.trans hmost')

theorem fault_ask_eq_none {word : Text} (h : ∀ a ∈ word.symbols, a ∈ M.alphabet) :
    (ask word).fault o M = none := by
  rw [fault, refusal_word, Option.map_eq_none_iff, List.find?_eq_none]
  simpa using h

theorem firstFault_asking {words ws : List Text} (htape : o.tape ≠ [])
    (h : Interleaves o.words words ws)
    (hwords : ∀ word ∈ words, ∀ a ∈ word.symbols, a ∈ M.alphabet) :
    firstFault (o.asking ws) M (o.asking ws).jobs = firstFault o M o.jobs := by
  have hasked : ∀ j ∈ words.map ask, j.fault o M = none :=
    List.forall_mem_map.2 fun word hword => fault_ask_eq_none (hwords word hword)
  simp only [firstFault, fault_asking]
  exact (interleaves_jobs htape h).findSome?_eq hasked

/-- The same runs are started, besides those on the words. -/
theorem ends_asking_iff {words ws : List Text} (htape : o.tape ≠ [])
    (h : Interleaves o.words words ws)
    (hwords : ∀ word ∈ words, (∀ a ∈ word.symbols, a ∈ M.alphabet) ∧
      (o.maxSteps = none → ¬Endless M (M.loaded word.symbols 0))) :
    (∀ c, StartsFrom (o.asking ws) M (o.asking ws).jobs c → o.maxSteps = none → ¬Endless M c) ↔
      ∀ c, StartsFrom o M o.jobs c → o.maxSteps = none → ¬Endless M c := by
  have hjobs := interleaves_jobs htape h
  constructor
  · intro hends c hc
    refine hends c ((startsFrom_asking ws).2 (hc.interleaves hjobs ?_))
    exact List.forall_mem_map.2 fun word hword => fault_ask_eq_none (hwords word hword).1
  · intro hends c hc
    rcases ((startsFrom_asking ws).1 hc).of_interleaves hjobs with hc | ⟨j, hj, hstart⟩
    · exact hends c hc
    · obtain ⟨word, hword, rfl⟩ := List.mem_map.1 hj
      obtain rfl : M.loaded word.symbols 0 = c := Option.some.inj hstart
      exact (hwords word hword).2

end Job

theorem Ending.eq_ok_of_exit_zero {r : Except Failure Unit} (h : Ending.of r = .exit 0) :
    r = .ok () := by
  rcases r with (e | _) | ⟨⟩
  · cases h
  · cases h
  · rfl

namespace CommandLine

/-- Further queries do not disturb the run. Let a machine be loaded and a tape be given, and put any
queries between the options, for words over the alphabet on which the runs end. Then the command
line ends if and only if it did before, with the same exit code and the same report from the line on
that starts with `Result:`. In front of the report are the same preface and the answers, each
determined by its word alone: those to all words in the order in which they are asked if the exit
code is 0, and else those to some first of them. -/
theorem run_of_withQueries (program : Text) {args : List Text} {files : Text → Option Text}
    {o : Options} {M : Machine} (hloads : Loads args files o M) (htape : o.tape ≠ []) :
    ∃ (preface : Text) (answer : Text → Option Bool),
      (∀ word fuel a, accept M nobody fuel word.symbols o.maxSteps M.start () = .ok a M.start () →
        answer word = a) ∧
      ∀ words args', WithQueries args words args' →
        (∀ word ∈ words, (∀ a ∈ word.symbols, a ∈ M.alphabet) ∧
          (o.maxSteps = none → ¬Endless M (M.loaded word.symbols 0))) →
        ∃ ws, Interleaves o.words words ws ∧ Loads args' files (o.asking ws) M ∧
          ((∃ F, ∀ fuel ≥ F, ∃ x, run fuel program args' files = some x) ↔
            ∃ F, ∀ fuel ≥ F, ∃ x, run fuel program args files = some x) ∧
          ∀ fuel fuel' x x', run (fuel + 1) program args files = some x →
            run (fuel' + 1) program args' files = some x' →
            x'.ending = x.ending ∧ reportOf x'.console.stdout = reportOf x.console.stdout ∧
            (∃ asked rest, ws = asked ++ rest ∧ x'.console.stdout = preface ++
              asked.flatMap (fun word => answerLine word (answer word)) ++
                reportOf x'.console.stdout ∧ (x'.ending = .exit 0 → rest = [])) ∧
            (x.ending = .exit 0 → Job.run.Prints o M (reportOf x.console.stdout)) := by
  obtain ⟨answer, hanswer⟩ := Job.exists_answers M o.maxSteps
  refine ⟨Job.preface o M, answer, hanswer, fun words args' hwith hwords => ?_⟩
  obtain ⟨hread, source, hfile, hM⟩ := hloads
  obtain ⟨ws, hread', hws⟩ := hwith.read hread
  have hloads : Loads args files o M := ⟨hread, source, hfile, hM⟩
  have hloads' : Loads args' files (o.asking ws) M := ⟨hread', source, hfile, hM⟩
  refine ⟨ws, hws, hloads', ?_, ?_⟩
  · rw [hloads'.exists_run_iff, hloads.exists_run_iff]
    exact Job.ends_asking_iff htape hws hwords
  · intro fuel fuel' x x' hx hx'
    obtain ⟨r, hall, hending, -⟩ := hloads.performAll_of_run hx
    obtain ⟨r', hall', hending', -⟩ := hloads'.performAll_of_run hx'
    -- The first fault is the same, and with it how the jobs end.
    obtain rfl : r' = r := by
      rw [Job.performAll_result hall, Job.performAll_result hall',
        Job.firstFault_asking htape hws fun word hword => (hwords word hword).1]
    obtain ⟨_, _, -, -, hends⟩ := Job.printed_of_performAll hM htape hanswer hall
    obtain ⟨asked, rest, hasked, hout, hends'⟩ :=
      Job.printed_of_performAll (o := o.asking ws) hM htape hanswer hall'
    have hpreface : Job.preface (o.asking ws) M = Job.preface o M := by
      rw [Job.preface, Job.performAll_asking]
      rfl
    rw [hpreface] at hout
    rcases hends with ⟨rfl, -, hrun⟩ | ⟨hfails, hnone⟩
    · obtain ⟨-, hrest, hrun'⟩ := hends'.resolve_right fun h => h.1 rfl
      have hreport := Except.ok.inj (Job.perform_inj hrun' hrun)
      exact ⟨hending'.trans hending.symm, hreport, ⟨asked, rest, hasked, hout, fun _ => hrest⟩,
        fun _ => Job.prints_of_perform hrun⟩
    · obtain ⟨-, hnone'⟩ := hends'.resolve_left fun h => hfails h.1
      have hcode : ∀ {x : Outcome}, x.ending = .of r' → x.ending ≠ .exit 0 :=
        fun h hzero => hfails (Ending.eq_ok_of_exit_zero (h.symm.trans hzero))
      refine ⟨hending'.trans hending.symm, hnone'.trans hnone.symm,
        ⟨asked, rest, hasked, hout, fun h => absurd h (hcode hending')⟩, ?_⟩
      exact fun h => absurd h (hcode hending)

def markedArgs : List Text := ["-s", "-t", "aa", "-n", "5", "m.tm"]

def addedWords : List Text := ["aa", "x"]

def askingArgs : List Text := ["-s", "-a", "aa", "-t", "aa", "-n", "5", "-a", "x", "m.tm"]

/-- One query in front of the tape and one behind it. -/
theorem run_of_askingArgs :
    WithQueries markedArgs addedWords askingArgs ∧
      ∃ o M x x', Loads markedArgs (fun _ => some markerText) o M ∧ o.tape ≠ [] ∧
        (∀ word ∈ addedWords, (∀ a ∈ word.symbols, a ∈ M.alphabet) ∧
          (o.maxSteps = none → ¬Endless M (M.loaded word.symbols 0))) ∧
        run 2 "tms" markedArgs (fun _ => some markerText) = some x ∧
        run 2 "tms" askingArgs (fun _ => some markerText) = some x' ∧
        x.ending = .exit 0 ∧ x'.ending = x.ending ∧
        reportOf x'.console.stdout = reportOf x.console.stdout := by
  have hwith : WithQueries markedArgs addedWords askingArgs :=
    .alone (by decide) (.query _ (.valued (by decide) _ (.valued (by decide) _
      (.query _ (.alone (by decide) .nil)))))
  obtain ⟨o, hread, htape, hbound⟩ : ∃ o, Options.read markedArgs = .ok o ∧ o.tape ≠ [] ∧
      o.maxSteps = some 5 := ⟨_, rfl, by decide, rfl⟩
  obtain ⟨M, hM⟩ : ∃ M, Machine.ofSource markerText = .ok M := ⟨_, rfl⟩
  have halphabet : (Machine.ofSource markerText).toOption.map (·.alphabet.toList) =
      some [⟨35⟩, ⟨97⟩, ⟨120⟩] := by decide +kernel
  have hknown : ∀ word ∈ addedWords, ∀ a ∈ word.symbols, a ∈ M.alphabet := by
    rw [hM] at halphabet
    have halphabet : M.alphabet.toList = [⟨35⟩, ⟨97⟩, ⟨120⟩] := Option.some.inj halphabet
    simp only [SortedSet.mem_def, halphabet]
    decide
  have hloads : Loads markedArgs (fun _ => some markerText) o M := ⟨hread, _, rfl, hM⟩
  have hwords : ∀ word ∈ addedWords, (∀ a ∈ word.symbols, a ∈ M.alphabet) ∧
      (o.maxSteps = none → ¬Endless M (M.loaded word.symbols 0)) :=
    fun word hword => ⟨hknown word hword, by simp [hbound]⟩
  have hrun : (run 2 "tms" markedArgs fun _ => some markerText).map Outcome.ending =
      some (.exit 0) := by
    decide +kernel
  have hrun' : (run 2 "tms" askingArgs fun _ => some markerText).isSome := by decide +kernel
  obtain ⟨x, hx, hzero⟩ := Option.map_eq_some_iff.1 hrun
  obtain ⟨x', hx'⟩ := Option.isSome_iff_exists.1 hrun'
  obtain ⟨preface, answer, -, hsame⟩ := run_of_withQueries "tms" hloads htape
  obtain ⟨ws, -, -, -, hsame⟩ := hsame _ _ hwith hwords
  obtain ⟨hending, hreport, -⟩ := hsame 1 1 x x' hx hx'
  exact ⟨hwith, o, M, x, x', hloads, htape, hwords, hx, hx', hzero, hending, hreport⟩

end CommandLine
end SingleTape

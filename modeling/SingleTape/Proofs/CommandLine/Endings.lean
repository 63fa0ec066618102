import SingleTape.Proofs.CommandLine.Faults
import SingleTape.Proofs.CommandLine.Verbosity
import SingleTape.Proofs.Source.Image

/-!
How the command line ends. It does end unless it starts a run that does not. Whatever goes wrong is
reported and gives the exit code 1, with one exception: a tape too large to exist is not handled.
-/

namespace SingleTape
namespace CommandLine

open Command

inductive Trouble where
  | reported (report : Text)
  | tapeTooLarge
  deriving DecidableEq

def Trouble.of : Failure → Trouble
  | .error e => .reported (errorReport e)
  | .tapeTooLarge => .tapeTooLarge

/-- What goes wrong, told without running a machine. -/
def trouble? (program : Text) (args : List Text) (files : Text → Option Text) : Option Trouble :=
  match Options.read args with
  | .error e => some (.reported (e.text program))
  | .ok o => match files o.file with
    | none => some (.reported ("Error: Cannot open input file: " ++ o.file ++ "\n"))
    | some source => match Machine.ofSource source with
      | .error e => some (.reported (errorReport e))
      | .ok M => (Job.firstFault o M o.jobs).map Trouble.of

/-- The outcome tells of what went wrong. -/
def Tells (x : Outcome) : Option Trouble → Prop
  | none => x.ending = .exit 0
  | some (.reported report) => x.ending = .exit 1 ∧ report <:+ x.console.stderr
  | some .tapeTooLarge => x.ending = .tapeTooLarge

/-- The arguments are in order and name a file that describes a machine. -/
def Loads (args : List Text) (files : Text → Option Text) (o : Options) (M : Machine) : Prop :=
  Options.read args = .ok o ∧ ∃ source, files o.file = some source ∧ Machine.ofSource source = .ok M

/-- A run on a tape too large is all that goes wrong. -/
structure Overfull (o : Options) (M : Machine) : Prop where
  source : o.source → M.IsWritable
  words : ∀ word ∈ o.words, ∀ a ∈ word.symbols, a ∈ M.alphabet
  run : o.words = [] ∨ o.tape ≠ []
  tape : ∀ a ∈ o.tape.symbols, a ∈ M.alphabet
  large : o.head < 0 ∧ Config.maxCells < o.head.natAbs + o.tape.length ∨ Config.maxCells ≤ o.head

section Faults

variable {o : Options} {M : Machine} {tape : List Symbol} {head : Int}

theorem load_tooLarge_iff : (M.start.load M tape head).2 = some .tapeTooLarge ↔
    head < 0 ∧ Config.maxCells < head.natAbs + tape.length ∨ Config.maxCells ≤ head := by
  have hpair : (M.start.load M tape head).2 = some .tapeTooLarge ↔
      ∃ c, M.start.load M tape head = (c, some .tapeTooLarge) := by
    constructor
    · intro h
      exact ⟨_, Prod.ext rfl h⟩
    · rintro ⟨c, hc⟩
      rw [hc]
  rw [hpair]
  simp only [Config.load_eq_some_iff, true_and]
  constructor
  · rintro ⟨c, ⟨hneg, hlarge, -⟩ | ⟨hneg, -, hlarge, -⟩ | ⟨hlarge, -⟩⟩
    · exact .inl ⟨hneg, Nat.lt_add_right _ hlarge⟩
    · exact .inl ⟨hneg, hlarge⟩
    · exact .inr hlarge
  · rintro (⟨hneg, hlarge⟩ | hlarge)
    · rcases Nat.lt_or_ge Config.maxCells head.natAbs with hfront | hfit
      · exact ⟨_, .inl ⟨hneg, hfront, rfl⟩⟩
      · exact ⟨_, .inr (.inl ⟨hneg, hfit, hlarge, rfl⟩)⟩
    · exact ⟨_, .inr (.inr ⟨hlarge, rfl⟩)⟩

theorem refusal_eq_tapeTooLarge_iff : M.refusal tape head = some .tapeTooLarge ↔
    (∀ a ∈ tape, a ∈ M.alphabet) ∧
      (head < 0 ∧ Config.maxCells < head.natAbs + tape.length ∨ Config.maxCells ≤ head) := by
  rw [← load_tooLarge_iff (M := M), Machine.refusal]
  cases hfind : tape.find? (· ∉ M.alphabet) with
  | none =>
    have hknown : ∀ a ∈ tape, a ∈ M.alphabet := by simpa using hfind
    exact (and_iff_right hknown).symm
  | some a =>
    have hforeign : a ∉ M.alphabet := by simpa using List.find?_some hfind
    simp only [Option.some.injEq, reduceCtorEq, false_iff]
    exact fun h => hforeign (h.1 a (List.mem_of_find?_eq_some hfind))

/-- A word is refused for a foreign symbol only. -/
theorem refusal_word (word : List Symbol) : M.refusal word 0 =
    (word.find? (· ∉ M.alphabet)).map fun a => .error (.invalidSymbol a) := by
  rw [Machine.refusal, Config.load_word]
  cases word.find? (· ∉ M.alphabet) <;> rfl

theorem fault_source_eq_none_iff : Job.source.fault o M = none ↔ M.IsWritable := by
  rw [← Machine.exists_toSource_iff, Job.fault]
  cases M.toSource <;> simp

theorem firstFault_jobs : Job.firstFault o M o.jobs =
    ((if o.source then Job.source.fault o M else none).or
      (o.words.findSome? fun word => M.refusal word.symbols 0)).or
      (if o.words = [] ∨ o.tape ≠ [] then M.refusal o.tape.symbols o.head else none) := by
  have hif : ∀ (p : Prop) [Decidable p] (j : Job),
      (if p then [j] else []).findSome? (fun j => j.fault o M) =
        if p then j.fault o M else none := by
    intro p _ j
    split <;> simp
  have hwords : (o.words.map Job.ask).findSome? (fun j => j.fault o M) =
      o.words.findSome? fun word => M.refusal word.symbols 0 := List.findSome?_map
  have hdescribe : Job.describe.fault o M = none := rfl
  have hrun : Job.run.fault o M = M.refusal o.tape.symbols o.head := rfl
  simp only [Job.firstFault, Options.jobs, List.findSome?_append, hwords, hif, hdescribe, hrun,
    ite_self, Option.none_or]

theorem sourceFault_eq_none_iff :
    (if o.source then Job.source.fault o M else none) = none ↔ (o.source → M.IsWritable) := by
  split
  · next hs => simp [fault_source_eq_none_iff, hs]
  · next hs => simp [hs]

theorem wordFault_eq_none_iff :
    (o.words.findSome? fun word => M.refusal word.symbols 0) = none ↔
      ∀ word ∈ o.words, ∀ a ∈ word.symbols, a ∈ M.alphabet := by
  simp [refusal_word]

/-- Only the run can ask for too large a tape. -/
theorem firstFault_eq_tapeTooLarge_iff :
    Job.firstFault o M o.jobs = some .tapeTooLarge ↔ Overfull o M := by
  have hsource : (if o.source then Job.source.fault o M else none) ≠ some .tapeTooLarge := by
    unfold Job.fault
    cases M.toSource <;> split <;> simp
  have hwords : (o.words.findSome? fun word => M.refusal word.symbols 0) ≠ some .tapeTooLarge := by
    intro h
    obtain ⟨word, -, hword⟩ := List.exists_of_findSome?_eq_some h
    simp [refusal_word] at hword
  have hlength : o.tape.symbols.length = o.tape.length := List.length_map _
  rw [firstFault_jobs, Option.or_eq_some_iff, Option.or_eq_some_iff, Option.or_eq_none_iff,
    sourceFault_eq_none_iff, wordFault_eq_none_iff]
  constructor
  · rintro ((h | ⟨-, h⟩) | ⟨⟨hwritable, hknown⟩, h⟩)
    · exact absurd h hsource
    · exact absurd h hwords
    · split at h
      · next hrun =>
        obtain ⟨htape, hlarge⟩ := refusal_eq_tapeTooLarge_iff.1 h
        exact ⟨hwritable, hknown, hrun, htape, hlength ▸ hlarge⟩
      · cases h
  · intro h
    refine .inr ⟨⟨h.source, h.words⟩, ?_⟩
    rw [if_pos h.run]
    exact refusal_eq_tapeTooLarge_iff.2 ⟨h.tape, hlength ▸ h.large⟩

end Faults

variable {program : Text} {args : List Text} {files : Text → Option Text}

theorem trouble?_eq_tapeTooLarge_iff : trouble? program args files = some .tapeTooLarge ↔
    ∃ o M, Loads args files o M ∧ Overfull o M := by
  simp only [← firstFault_eq_tapeTooLarge_iff]
  unfold trouble? Loads
  cases Options.read args with
  | error e => simp
  | ok o =>
    cases hfile : files o.file with
    | none => simp [hfile]
    | some source =>
      cases hM : Machine.ofSource source with
      | error e => simp [hfile, hM]
      | ok M =>
        cases hfault : Job.firstFault o M o.jobs with
        | none => simp [hfile, hM, hfault]
        | some e => cases e <;> simp [hfile, hM, hfault, Trouble.of]

/-- The outcome and what goes wrong. -/
theorem ending_of_execute {fuel : Nat} {o : Options} {source : Text} {x : Outcome}
    (h : execute (fuel + 1) o (some source) = some x) :
    ∃ out r, Job.performAsked (fuel + 1) o source = some (out, r) ∧ x.ending = .of r ∧
      x.console.stdout = out ∧ ∀ e, r = .error (.error e) → errorReport e <:+ x.console.stderr := by
  have hshows := shows_simulate fuel o source {}
  rw [execute, Option.map_eq_some_iff] at h
  obtain ⟨⟨r, k⟩, hrun, rfl⟩ := h
  have hasked : Job.performAsked (fuel + 1) o source = some (k.stdout, r) := by
    simpa [hrun] using hshows.symm
  refine ⟨k.stdout, r, hasked, ?_⟩
  rcases r with (e | _) | ⟨⟩
  · refine ⟨rfl, rfl, fun e' he => ?_⟩
    cases he
    exact List.suffix_append k.stderr (errorReport e)
  · refine ⟨rfl, rfl, fun e' he => ?_⟩
    cases he
  · refine ⟨rfl, rfl, fun e' he => ?_⟩
    cases he

/-- Either the command line ends before it has a text to work on, or it works on one. -/
theorem ends_or_executes (program : Text) (args : List Text) (files : Text → Option Text) :
    (∃ x, (∀ fuel, run fuel program args files = some x) ∧ Tells x (trouble? program args files) ∧
      ∀ o M, ¬Loads args files o M) ∨
    ∃ o source, Options.read args = .ok o ∧ files o.file = some source ∧
      ∀ fuel, run fuel program args files = execute fuel o (some source) := by
  cases hread : Options.read args with
  | error e =>
    refine .inl ⟨usageOutcome program e, fun fuel => by simp only [run, hread], ?_, ?_⟩
    · simp only [trouble?, hread]
      exact ⟨rfl, List.suffix_refl _⟩
    · rintro o M ⟨ho, -⟩
      cases hread.symm.trans ho
  | ok o =>
    cases hfile : files o.file with
    | none =>
      let missing : Outcome :=
        ⟨.exit 1, { stderr := "Error: Cannot open input file: " ++ o.file ++ "\n" }⟩
      have hrun : ∀ fuel, run fuel program args files = some missing := by
        intro fuel
        simp only [run, hread, hfile]
        rfl
      refine .inl ⟨missing, hrun, ?_, ?_⟩
      · simp only [trouble?, hread, hfile]
        exact ⟨rfl, List.suffix_refl _⟩
      · rintro o' M ⟨ho, source, hsource, -⟩
        obtain rfl := Except.ok.inj (hread.symm.trans ho)
        cases hfile.symm.trans hsource
    | some source =>
      exact .inr ⟨o, source, rfl, hfile, fun fuel => by simp only [run, hread, hfile]⟩

/-- What goes wrong decides how the command line ends. -/
theorem tells_of_run {fuel : Nat} {x : Outcome} (h : run (fuel + 1) program args files = some x) :
    Tells x (trouble? program args files) := by
  obtain ⟨y, hy, htells, -⟩ | ⟨o, source, hread, hfile, hexecute⟩ :=
    ends_or_executes program args files
  · obtain rfl := Option.some.inj ((hy _).symm.trans h)
    exact htells
  · rw [hexecute] at h
    obtain ⟨out, r, hasked, hending, -, hreport⟩ := ending_of_execute h
    cases hM : Machine.ofSource source with
    | error e =>
      simp only [Job.performAsked, hM] at hasked
      cases hasked
      simp only [trouble?, hread, hfile, hM]
      exact ⟨hending, hreport e rfl⟩
    | ok M =>
      simp only [Job.performAsked, hM] at hasked
      have hresult := Job.performAll_result hasked
      simp only [trouble?, hread, hfile, hM]
      cases hfault : Job.firstFault o M o.jobs with
      | none =>
        rw [hfault] at hresult
        exact hending.trans (congrArg Ending.of hresult)
      | some e =>
        rw [hfault] at hresult
        have hending := hending.trans (congrArg Ending.of hresult)
        cases e with
        | error e => exact ⟨hending, hreport e hresult⟩
        | tapeTooLarge => exact hending

/-- Some fuel suffices just if all runs that are started end. -/
theorem exists_run_iff : (∃ F, ∀ fuel ≥ F, ∃ x, run fuel program args files = some x) ↔
    ∀ o M c, Loads args files o M → Job.StartsFrom o M o.jobs c → o.maxSteps = none →
      ¬Execution.Endless M c := by
  obtain ⟨x, hx, -, hnone⟩ | ⟨o, source, hread, hfile, hexecute⟩ :=
    ends_or_executes program args files
  · exact iff_of_true ⟨0, fun fuel _ => ⟨x, hx fuel⟩⟩ fun o M c hloads => absurd hloads (hnone o M)
  simp only [hexecute]
  constructor
  · rintro ⟨F, hF⟩ o' M c ⟨ho, source', hsource, hM⟩ hstarts hfree hendless
    obtain rfl := Except.ok.inj (hread.symm.trans ho)
    obtain rfl := Option.some.inj (hfile.symm.trans hsource)
    have hcut := Job.performAll_endless hstarts hfree hendless (F + 1)
    have hasked : Job.performAsked (F + 1) o source = none := by
      simpa only [Job.performAsked, hM] using hcut
    obtain ⟨x, hx⟩ := hF (F + 1) (Nat.le_succ F)
    cases hx.symm.trans (execute_eq_none_iff.2 hasked)
  · intro h
    have hasked : ∃ F, ∀ fuel ≥ F, Job.performAsked fuel o source ≠ none := by
      unfold Job.performAsked
      cases hM : Machine.ofSource source with
      | error e => exact ⟨0, fun _ _ => Option.some_ne_none _⟩
      | ok M => exact Job.exists_performAll fun c hc => h o M c ⟨hread, source, hfile, hM⟩ hc
    obtain ⟨F, hF⟩ := hasked
    -- Without any fuel not even the transcript can be told of an event, so there is one more unit.
    refine ⟨F + 1, fun fuel hfuel => ?_⟩
    obtain ⟨fuel, rfl⟩ := Nat.exists_eq_succ_of_ne_zero (show fuel ≠ 0 by omega)
    exact Option.ne_none_iff_exists'.1 (mt execute_eq_none_iff.1 (hF (fuel + 1) (by omega)))

/-- If all runs that are started end, the command line ends. What went wrong, which can be told
without running anything, is then reported on the diagnostic stream and gives the exit code 1, and
otherwise the code is 0. Only a tape too large to exist is not reported; it is all that went wrong
then. -/
theorem ending_of_run (program : Text) (args : List Text) (files : Text → Option Text) :
    ((∃ F, ∀ fuel ≥ F, ∃ x, run fuel program args files = some x) ↔
      ∀ o M c, Loads args files o M → Job.StartsFrom o M o.jobs c → o.maxSteps = none →
        ¬Execution.Endless M c) ∧
    (∀ fuel x, run (fuel + 1) program args files = some x → Tells x (trouble? program args files)) ∧
    (trouble? program args files = some .tapeTooLarge ↔
      ∃ o M, Loads args files o M ∧ Overfull o M) :=
  ⟨exists_run_iff, fun _ _ => tells_of_run, trouble?_eq_tapeTooLarge_iff⟩

/-- A machine that writes a mark over an `a`. -/
def markerText : Text := "INITIAL 1\nBLANK #\nHALT 2\n1, a -> 2, x, _\n"

/-- The word is answered before the tape with the foreign symbol is refused. -/
theorem ending_of_foreign_symbol :
    ∃ x, run 2 "tms" ["-a", "a", "-t", "ab", "m.tm"] (fun _ => some markerText) = some x ∧
      x.ending = .exit 1 ∧ x.console.stdout = "Word \"a\": REJECT\n" ∧
      Text.ofString "Error (InvalidSymbol): Invalid tape symbol: b\n" <:+ x.console.stderr := by
  obtain ⟨-, htells, -⟩ :=
    ending_of_run "tms" ["-a", "a", "-t", "ab", "m.tm"] fun _ => some markerText
  have hrun : run 2 "tms" ["-a", "a", "-t", "ab", "m.tm"] (fun _ => some markerText) =
      some ⟨.exit 1, ⟨"Word \"a\": REJECT\n", "Error (InvalidSymbol): Invalid tape symbol: b\n"⟩⟩ :=
    by decide +kernel
  have htrouble : trouble? "tms" ["-a", "a", "-t", "ab", "m.tm"] (fun _ => some markerText) =
      some (.reported "Error (InvalidSymbol): Invalid tape symbol: b\n") := by decide +kernel
  have hx := htells 1 _ hrun
  rw [htrouble] at hx
  exact ⟨_, hrun, hx.1, rfl, hx.2⟩

/-- A head position whose tape cannot exist is neither reported nor does it give an exit code. -/
theorem run_tapeTooLarge :
    ∃ x, run 1 "tms" ["-p", "9223372036854775807", "m.tm"] (fun _ => some markerText) = some x ∧
      (∀ code, x.ending ≠ .exit code) ∧ x.console.stderr = [] := by
  have hrun : run 1 "tms" ["-p", "9223372036854775807", "m.tm"] (fun _ => some markerText) =
      some ⟨.tapeTooLarge, ⟨[], []⟩⟩ := by decide +kernel
  exact ⟨_, hrun, nofun, rfl⟩

end CommandLine
end SingleTape

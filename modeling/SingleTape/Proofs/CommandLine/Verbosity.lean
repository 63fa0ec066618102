import SingleTape.Proofs.CommandLine.Jobs

/-!
Verbosity. With `-v` in front of the arguments the run is watched and the diagnostic stream says
more; the ending and the standard output are the same.
-/

namespace SingleTape

namespace Options

def loud (o : Options) : Options := { o with verbose := true }

theorem performAll_loud (o : Options) (fuel : Nat) (M : Machine) (js : List Job) :
    Job.performAll fuel o.loud M js = Job.performAll fuel o M js := by
  induction js with
  | nil => rfl
  | cons j js ih =>
    have hj : j.perform fuel o.loud M = j.perform fuel o M := by cases j <;> rfl
    rw [Job.performAll, Job.performAll, hj, ih]

/-- No job depends on it. -/
theorem performAsked_loud (o : Options) (fuel : Nat) (source : Text) :
    Job.performAsked fuel o.loud source = Job.performAsked fuel o source := by
  unfold Job.performAsked
  cases Machine.ofSource source with
  | error e => rfl
  | ok M => exact o.performAll_loud fuel M o.jobs

theorem switch_loud (o : Options) (a : Text) : o.loud.switch a = (o.switch a).map loud := by
  unfold switch
  by_cases hd : a = Text.ofString "-d"
  · simp only [if_pos hd]
    rfl
  · by_cases hs : a = Text.ofString "-s"
    · simp only [if_neg hd, if_pos hs]
      rfl
    · by_cases hv : a = Text.ofString "-v"
      · simp only [if_neg hd, if_neg hs, if_pos hv]
        rfl
      · simp only [if_neg hd, if_neg hs, if_neg hv]
        split <;> rfl

theorem valued?_loud (o : Options) (a value : Text) :
    o.loud.valued? a value = (o.valued? a value).map (Except.map loud) := by
  unfold valued?
  split
  · rfl
  split
  · cases value.toInt64? <;> rfl
  split
  · cases value.toInt64? <;> rfl
  split <;> rfl

/-- Verbosity that is asked for at the front is verbosity in the end. -/
theorem readFrom_loud (o : Options) (args : List Text) :
    o.loud.readFrom args = (o.readFrom args).map loud := by
  fun_induction readFrom o args with
  | case1 o => rfl
  | case2 o a => exact o.switch_loud a
  | case3 o a value rest o' hvalued ih =>
    rw [readFrom, valued?_loud, hvalued]
    exact ih
  | case4 o a value rest e hvalued =>
    rw [readFrom, valued?_loud, hvalued]
    rfl
  | case5 o a value rest hvalued o' hswitch ih =>
    rw [readFrom, valued?_loud, hvalued, switch_loud, hswitch]
    exact ih
  | case6 o a value rest hvalued e hswitch =>
    rw [readFrom, valued?_loud, hvalued, switch_loud, hswitch]
    rfl

theorem readFrom_verbose (o : Options) (args : List Text) :
    o.readFrom ("-v" :: args) = (o.readFrom args).map loud := by
  cases args with
  | nil => rfl
  | cons a args =>
    have hvalued : o.valued? "-v" a = none := rfl
    have hswitch : o.switch "-v" = .ok o.loud := rfl
    rw [readFrom, hvalued, hswitch]
    exact o.readFrom_loud (a :: args)

/-- Without any arguments another complaint is made, about the missing file. -/
theorem read_verbose {args : List Text} (h : args ≠ []) :
    read ("-v" :: args) = (read args).map loud := by
  rw [read, read, if_neg h, if_neg (List.cons_ne_nil _ _), readFrom_verbose]
  cases readFrom {} args with
  | error e => rfl
  | ok o =>
    have hfile : o.loud.file = o.file := rfl
    simp only [Except.map, hfile]
    split <;> rfl

end Options

/-- The outcome without what was reported. -/
def Outcome.visible (x : Outcome) : Ending × Text := (x.ending, x.console.stdout)

/-- How the command line ends after its jobs. -/
def Ending.of : Except Failure Unit → Ending
  | .ok () => .exit 0
  | .error (.error _) => .exit 1
  | .error .tapeTooLarge => .tapeTooLarge

namespace CommandLine

/-- What is seen of the command line, in terms of its jobs. -/
theorem visible_execute (fuel : Nat) (o : Options) (source : Text) :
    (execute (fuel + 1) o (some source)).map Outcome.visible =
      (Job.performAsked (fuel + 1) o source).map fun s => (.of s.2, s.1) := by
  have hshows := shows_simulate fuel o source {}
  simp only [List.nil_append, Option.map_id'] at hshows
  rw [← hshows, execute, Option.map_map, Option.map_map]
  congr 1
  funext p
  rcases p with ⟨(_ | _) | _, k⟩ <;> rfl

theorem execute_eq_none_iff {fuel : Nat} {o : Options} {source : Text} :
    execute (fuel + 1) o (some source) = none ↔ Job.performAsked (fuel + 1) o source = none := by
  rw [← Option.map_eq_none_iff (f := Outcome.visible), visible_execute, Option.map_eq_none_iff]

/-- With `-v` in front, the command line ends in the same way and puts the same on the standard
output, or does not end in either case. -/
theorem run_verbose (fuel : Nat) (program : Text) (args : List Text) (files : Text → Option Text) :
    (run (fuel + 1) program ("-v" :: args) files).map Outcome.visible =
      (run (fuel + 1) program args files).map Outcome.visible := by
  by_cases hargs : args = []
  · -- Both complain, about different things, and that is not seen.
    subst hargs
    rfl
  · rw [run, run, Options.read_verbose hargs]
    cases Options.read args with
    | error e => rfl
    | ok o =>
      have hfile : o.loud.file = o.file := rfl
      simp only [Except.map, hfile]
      cases files o.file with
      | none => rfl
      | some source =>
        rw [visible_execute, visible_execute, o.performAsked_loud]

end CommandLine
end SingleTape

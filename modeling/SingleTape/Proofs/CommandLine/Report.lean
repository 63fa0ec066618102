import SingleTape.CommandLine
import SingleTape.Proofs.Source.Vocabulary

/-!
The report of the run within what the command line prints. It is what stands from the first line on
that starts with `Result:`. No line of a summary, of a written machine or of an answer starts so, as
states are words and no symbol is a line feed.
-/

namespace SingleTape
namespace Text

/-- A text from the first line on that starts with the mark. The flag tells that a line starts
here. -/
def fromLine (mark : Text) : Bool → Text → Text
  | _, [] => []
  | start, b :: t =>
    if start ∧ mark.isPrefixOf (b :: t) then b :: t else fromLine mark (b = newline) t

/-- The search for the mark goes on behind this text. -/
def PassedOver (mark t : Text) : Prop :=
  ∀ rest, fromLine mark true (t ++ rest) = fromLine mark true rest

/-- A line without the mark. -/
def Unmarked (mark l : Text) : Prop := newline ∉ l ∧ ¬mark <+: l

section Mark

variable {mark : Text}

theorem fromLine_of_prefix {t : Text} (h : mark <+: t) (hmark : mark ≠ []) :
    fromLine mark true t = t := by
  cases t with
  | nil => exact absurd (List.prefix_nil.1 h) hmark
  | cons b t => exact if_pos ⟨rfl, List.isPrefixOf_iff_prefix.2 h⟩

/-- Within a line nothing is found. -/
theorem fromLine_false {l : Text} (h : newline ∉ l) (rest : Text) :
    fromLine mark false (l ++ newline :: rest) = fromLine mark true rest := by
  induction l with
  | nil => simp [fromLine]
  | cons b l ih =>
    obtain ⟨hb, hl⟩ : newline ≠ b ∧ newline ∉ l := by simpa using h
    simpa [fromLine, Ne.symm hb] using ih hl

theorem prefix_of_prefix_line {l rest : Text} (hmark : newline ∉ mark)
    (h : mark <+: l ++ newline :: rest) : mark <+: l := by
  rcases List.prefix_or_prefix_of_prefix h (List.prefix_append l _) with hprefix | ⟨t, rfl⟩
  · exact hprefix
  · rcases t with _ | ⟨b, t⟩
    · simp
    · obtain ⟨rfl, -⟩ := List.cons_prefix_cons.1 ((List.prefix_append_right_inj l).1 h)
      simp at hmark

theorem Unmarked.passedOver {l : Text} (h : Unmarked mark l) (hmark : newline ∉ mark) :
    PassedOver mark (l ++ [newline]) := by
  obtain ⟨hl, hprefix⟩ := h
  intro rest
  rw [List.append_assoc, List.singleton_append]
  have hnot : ¬mark <+: l ++ newline :: rest := mt (prefix_of_prefix_line hmark) hprefix
  cases l with
  | nil =>
    have hfirst : ¬mark.isPrefixOf (newline :: rest) := mt List.isPrefixOf_iff_prefix.1 hnot
    simp [fromLine, hfirst]
  | cons b l =>
    obtain ⟨hb, hl⟩ : newline ≠ b ∧ newline ∉ l := by simpa using hl
    have hfirst : ¬mark.isPrefixOf (b :: (l ++ newline :: rest)) :=
      mt List.isPrefixOf_iff_prefix.1 hnot
    simpa [fromLine, hfirst, Ne.symm hb] using fromLine_false hl rest

/-- A line with a label that is not the mark, and that the mark does not start with. -/
theorem unmarked_append {label t : Text}
    (hlabel : newline ∉ label ∧ ¬mark <+: label ∧ ¬label <+: mark) (ht : newline ∉ t) :
    Unmarked mark (label ++ t) := by
  obtain ⟨hline, hmark, hlonger⟩ := hlabel
  refine ⟨by simp [hline, ht], fun h => ?_⟩
  rcases List.prefix_or_prefix_of_prefix h (List.prefix_append label t) with h | h
  · exact hmark h
  · exact hlonger h

theorem passedOver_nil : PassedOver mark [] := fun _ => rfl

theorem PassedOver.append {t u : Text} (ht : PassedOver mark t) (hu : PassedOver mark u) :
    PassedOver mark (t ++ u) := by
  intro rest
  rw [List.append_assoc, ht, hu]

theorem PassedOver.fromLine_eq_nil {t : Text} (h : PassedOver mark t) :
    fromLine mark true t = [] := by
  have hnil := h []
  rwa [List.append_nil] at hnil

theorem passedOver_flatten {ts : List Text} (h : ∀ t ∈ ts, PassedOver mark t) :
    PassedOver mark ts.flatten := by
  induction ts with
  | nil => exact passedOver_nil
  | cons t ts ih =>
    obtain ⟨ht, hts⟩ := List.forall_mem_cons.1 h
    exact ht.append (ih hts)

theorem passedOver_lines {ls : List Text} (hmark : newline ∉ mark)
    (h : ∀ l ∈ ls, Unmarked mark l) : PassedOver mark (ls.map (· ++ [newline])).flatten := by
  refine passedOver_flatten (List.forall_mem_map.2 fun l hl => ?_)
  exact (h l hl).passedOver hmark

end Mark

theorem newline_notMem_intercalate (sep : Text) (hsep : newline ∉ sep) {ts : List Text}
    (h : ∀ t ∈ ts, newline ∉ t) : newline ∉ sep.intercalate ts := by
  induction ts with
  | nil => simp
  | cons t ts ih =>
    obtain ⟨ht, hts⟩ := List.forall_mem_cons.1 h
    cases ts with
    | nil => simpa using ht
    | cons u ts =>
      rw [List.intercalate_cons_cons]
      simp only [List.mem_append, ht, hsep, ih hts, or_self, not_false_eq_true]

theorem newline_notMem_braced {ts : List Text} (h : ∀ t ∈ ts, newline ∉ t) :
    newline ∉ braced ts := by
  have hopen : newline ∉ ofString "\x7b" := by decide
  have hinner := newline_notMem_intercalate ", " (by decide) h
  have hclose : newline ∉ ofString "\x7d" := by decide
  simp only [braced, List.mem_append, hopen, hinner, hclose, or_self, not_false_eq_true]

end Text

namespace CommandLine

open Text

def reportMark : Text := "Result:"

/-- The report of the run within what was printed, if there is one. -/
def reportOf (out : Text) : Text := fromLine reportMark true out

theorem newline_notMem_reportMark : newline ∉ reportMark := by decide

theorem passedOver_labelled (label : Text) {t : Text}
    (hlabel : newline ∉ label ∧ ¬reportMark <+: label ∧ ¬label <+: reportMark) (ht : newline ∉ t) :
    PassedOver reportMark (label ++ t ++ "\n") :=
  (unmarked_append hlabel ht).passedOver newline_notMem_reportMark

/-- The report is all of itself. -/
theorem reportOf_runReport (M : Machine) (outcome : RunOutcome) (c : Config) :
    reportOf (runReport M outcome c) = runReport M outcome c := by
  apply fromLine_of_prefix
  · have hmark : Text.ofString "Result: " = reportMark ++ " " := rfl
    simp only [runReport, hmark, List.append_assoc, List.prefix_append]
  · decide

theorem passedOver_answerLine {word : Text} (hword : newline ∉ word) (accepted : Option Bool) :
    PassedOver reportMark (answerLine word accepted) := by
  have hverdict : newline ∉ verdict accepted := by
    rcases accepted with _ | _ | _ <;> decide
  have hcolon : newline ∉ ofString "\": " := by decide
  have hrest : newline ∉ word ++ "\": " ++ verdict accepted := by
    simp only [List.mem_append, hword, hcolon, hverdict, or_self, not_false_eq_true]
  have hline := passedOver_labelled "Word \"" (by decide) hrest
  simpa only [answerLine, List.append_assoc] using hline

/-- A line that says something is not marked. -/
theorem unmarked_of_statement {l : Text} (hl : newline ∉ l) {s : Statement}
    (h : Statement.ofLine? l = some s) : Unmarked reportMark l := by
  refine ⟨hl, ?_⟩
  rintro ⟨t, rfl⟩
  have hnone : Statement.ofLine? (reportMark ++ t) = none := rfl
  rw [hnone] at h
  cases h

/-- A written machine consists of lines that say something. -/
theorem passedOver_toSource {M : Machine} {s : Text} (h : M.toSource = .ok s) :
    PassedOver reportMark s := by
  simp only [Machine.toSource, bind_eq_ok_iff, pure_eq_ok_iff] at h
  obtain ⟨ts, hts, rfl⟩ := h
  obtain ⟨l, hheader, hl, hcomment⟩ := M.exists_line_of_header
  obtain ⟨ls, rfl, hls, hmap⟩ := Statement.exists_lines_of_mapM_render hts
  rw [hheader]
  have hlines : ∀ l ∈ ls, Unmarked reportMark l := by
    intro l hl
    have hmem : Statement.ofLine? l ∈ M.statements.map fun s => some s.reread := by
      rw [← hmap]
      exact List.mem_map_of_mem hl
    obtain ⟨s, -, hs⟩ := List.mem_map.1 hmem
    exact unmarked_of_statement (hls l hl).1 hs.symm
  have hfirst := (unmarked_of_statement hl.1 hcomment).passedOver newline_notMem_reportMark
  exact hfirst.append (passedOver_lines newline_notMem_reportMark hlines)

theorem newline_notMem_describe {q : State} {a : Symbol} {t : Transition} (hq : newline ∉ q)
    (ha : newline ∉ a.text) (hnext : newline ∉ t.next) (hwrite : newline ∉ t.write.text) :
    newline ∉ t.describe q a := by
  have hmove : newline ∉ t.move.name := by
    cases t.move <;> simp only [Move.name] <;> decide
  have hopen : newline ∉ ofString "(" := by decide
  have hcomma : newline ∉ ofString ", " := by decide
  have harrow : newline ∉ ofString ") -> (" := by decide
  have hclose : newline ∉ ofString ")" := by decide
  simp only [Transition.describe, List.mem_append, hopen, hq, hcomma, ha, harrow, hnext, hwrite,
    hmove, hclose, or_self, not_false_eq_true]

/-- A summary consists of lines with other labels. -/
theorem passedOver_summary {source : Text} {M : Machine} (hM : Machine.ofSource source = .ok M) :
    PassedOver reportMark (M.summary ++ "\n") := by
  have hvalid := (Machine.plain_of_ofSource hM).valid
  have hstate : ∀ q ∈ M.states, newline ∉ q :=
    fun q hq => (Machine.isWord_of_mem_states hM hq).newline_notMem
  have hsymbol : ∀ a ∈ M.alphabet, newline ∉ a.text := by
    intro a ha hnew
    exact Machine.byte_ne_newline_of_mem_alphabet hM ha (List.mem_singleton.1 hnew).symm
  have hstates := passedOver_labelled "States: " (by decide) (newline_notMem_braced hstate)
  have hinput := passedOver_labelled "Input alphabet: " (by decide)
    (newline_notMem_braced (List.forall_mem_map.2 fun a ha =>
      hsymbol a (hvalid.input_subset a ha)))
  have halphabet := passedOver_labelled "Tape alphabet: " (by decide)
    (newline_notMem_braced (List.forall_mem_map.2 hsymbol))
  have hblank := passedOver_labelled "Blank symbol: " (by decide)
    (hsymbol M.blank hvalid.blank_mem)
  have hinitial := passedOver_labelled "Initial state: " (by decide)
    (hstate M.initial hvalid.initial_mem)
  have hfinals := passedOver_labelled "Final states: " (by decide)
    (newline_notMem_braced fun q hq => hstate q (hvalid.finals_subset q hq))
  have hhalt := passedOver_labelled "Halt state: " (by decide)
    (hstate M.halt hvalid.halt_mem)
  have hempty : PassedOver reportMark "\n" :=
    Unmarked.passedOver (l := []) ⟨by decide, by decide⟩ newline_notMem_reportMark
  have htitle := passedOver_labelled "Transition function:" (t := []) (by decide)
    (by simp)
  have hentries : PassedOver reportMark (M.table.entries.flatMap Machine.summaryLine) := by
    refine passedOver_flatten (List.forall_mem_map.2 fun e he => ?_)
    have hfits := hvalid.fits e he
    exact passedOver_labelled "  " (by decide) (newline_notMem_describe (hstate _ hfits.source_mem)
      (hsymbol _ hfits.symbol_mem) (hstate _ hfits.next_mem) (hsymbol _ hfits.write_mem))
  have hall := hstates.append (hinput.append (halphabet.append (hblank.append (hinitial.append
    (hfinals.append (hhalt.append (hempty.append (htitle.append (hentries.append hempty)))))))))
  have hbreaks : ofString "\nInput alphabet: " = "\n" ++ "Input alphabet: " ∧
      ofString "\nTape alphabet: " = "\n" ++ "Tape alphabet: " ∧
      ofString "\nBlank symbol: " = "\n" ++ "Blank symbol: " ∧
      ofString "\nInitial state: " = "\n" ++ "Initial state: " ∧
      ofString "\nFinal states: " = "\n" ++ "Final states: " ∧
      ofString "\nHalt state: " = "\n" ++ "Halt state: " ∧
      ofString "\n\nTransition function:\n" = "\n" ++ ("\n" ++ ("Transition function:" ++ "\n")) :=
    ⟨rfl, rfl, rfl, rfl, rfl, rfl, rfl⟩
  obtain ⟨h₁, h₂, h₃, h₄, h₅, h₆, h₇⟩ := hbreaks
  simpa only [Machine.summary, h₁, h₂, h₃, h₄, h₅, h₆, h₇, List.append_assoc, List.nil_append]
    using hall

end CommandLine
end SingleTape

import SingleTape.Proofs.Source.Reading
import SingleTape.Source.Writing

/-!
What is read back of a line that was written. A white space symbol in front of an arrow comes back
as a space, for the arrow is written with a space in front of it; everything else comes back.
-/

namespace SingleTape
namespace Text

theorem lines_append {l : Text} (h : newline ∉ l) (t : Text) :
    lines (l ++ newline :: t) = l :: lines t := by
  induction l with
  | nil => simp [lines]
  | cons b l ih =>
    obtain ⟨hb, hl⟩ := not_or.1 (mt List.mem_cons.2 h)
    rw [List.cons_append, lines, if_neg (Ne.symm hb), ih hl]

/-- A line that ends only where its line feed stands. -/
def IsLine (l : Text) : Prop := newline ∉ l ∧ l.dropReturn = l

theorem lines_flatten {ls : List Text} (h : ∀ l ∈ ls, IsLine l) :
    lines (ls.map (· ++ [newline])).flatten = ls := by
  induction ls with
  | nil => rfl
  | cons l ls ih =>
    have hrest : lines (ls.map (· ++ [newline])).flatten = ls :=
      ih fun l' hl' => h l' (List.mem_cons_of_mem l hl')
    rw [List.map_cons, List.flatten_cons, List.append_assoc, List.singleton_append,
      lines_append (h l (by simp)).1, hrest]

/-- A line feed and a carriage return in no word and no symbol. -/
theorem isLine_append {l : Text} {b : UInt8} (hl : newline ∉ l) (hn : b ≠ newline)
    (hr : b ≠ carriageReturn) : IsLine (l ++ [b]) := by
  constructor
  · simp [hl, Ne.symm hn]
  · simp [dropReturn, hr]

theorem IsWord.newline_notMem {w : Text} (h : w.IsWord) : newline ∉ w := by
  intro hw
  exact absurd (h.2 newline hw) (by decide)

/-- A word at the end of a line. -/
theorem IsWord.isLine_append {w l : Text} (h : w.IsWord) (hl : newline ∉ l) : IsLine (l ++ w) := by
  have hsplit : w = w.dropLast ++ [w.getLast h.1] := (List.dropLast_concat_getLast h.1).symm
  have hlast : isWordByte (w.getLast h.1) := h.2 _ (List.getLast_mem h.1)
  rw [hsplit, ← List.append_assoc]
  apply Text.isLine_append
  · rw [List.mem_append, not_or]
    exact ⟨hl, fun hw => h.newline_notMem (List.dropLast_subset w hw)⟩
  · intro he
    exact absurd (he ▸ hlast) (by decide)
  · intro he
    exact absurd (he ▸ hlast) (by decide)

end Text

namespace Statement

open Text Scan

theorem stateField_eq_ok_iff {q t : Text} : stateField q = .ok t ↔ q.IsWord ∧ q = t := by
  unfold stateField
  split <;> simp [*]

theorem symbolField_eq_ok_iff {c : Symbol} {t : Text} :
    symbolField c = .ok t ↔ c.byte ∉ [newline, carriageReturn, 0] ∧ c.text = t := by
  unfold symbolField
  split
  · next hc => simp [hc]
  · next hc => simp only [hc, not_false_eq_true, true_and, Except.ok.injEq]

/-- A symbol as it comes back from the position in front of an arrow. -/
def rereadKey (c : Symbol) : Symbol := if isSpace c.byte then .ofChar ' ' else c

/-- An invalid move is written as no move. -/
def rereadMove (m : Move) : Move := if m.isValid then m else .stay

/-- A statement as it comes back from its line. -/
def reread : Statement → Statement
  | transition q a t b m => transition q (rereadKey a) t b (rereadMove m)
  | s => s

theorem denotes_spaced (c : Symbol) : Denotes [32, c.byte] c := by
  by_cases hc : isSpace c.byte
  · exact .space (u := [32]) (by decide) hc
  · exact .plain (u := [32]) (v := []) (by decide) (by simpa using hc) spaces_nil

/-- The space in front of the arrow belongs to the symbol position. -/
theorem denotes_rereadKey (c : Symbol) : Denotes [32, c.byte, 32] (rereadKey c) := by
  unfold rereadKey
  by_cases hc : isSpace c.byte
  · rw [if_pos hc]
    exact .space (u := [32, c.byte]) (spaces_cons.2 ⟨rfl, spaces_cons.2 ⟨hc, spaces_nil⟩⟩) rfl
  · rw [if_neg hc]
    exact .plain (u := [32]) (v := [32]) (by decide) (by simpa using hc) (by decide)

theorem isValid_rereadMove (m : Move) : (rereadMove m).isValid := by
  unfold rereadMove
  split
  · assumption
  · rfl

theorem token_rereadMove (m : Move) : (rereadMove m).token = m.token := by
  cases m <;> rfl

theorem newline_notMem_text {c : Symbol} (h : c.byte ∉ [newline, carriageReturn, 0]) :
    newline ∉ c.text := by
  intro hc
  obtain hc := List.mem_singleton.1 hc
  simp [← hc] at h

theorem isSpace_token_eq_false (m : Move) : isSpace m.token.byte = false := by
  rw [← token_rereadMove m]
  exact isSpace_token (isValid_rereadMove m)

/-- The written line of a keyword and a state. -/
theorem stateLine_of_isWord {k : Text} (hk : k.IsWord) {q : State} (hq : q.IsWord) :
    (k ++ " " ++ q).IsLine ∧ StateLine k q (k ++ " " ++ q) := by
  have hspace : Text.ofString " " = [32] := rfl
  have hspaces : Spaces [32] := by decide
  rw [hspace]
  constructor
  · apply hq.isLine_append
    rw [List.mem_append, not_or]
    exact ⟨hk.newline_notMem, by decide⟩
  · have hline := StateLine.mk (k := k) spaces_nil hspaces (by simp) hq spaces_nil
    simpa only [List.nil_append, List.append_nil] using hline

theorem transitionLine_of_isWord {q t : State} {a b : Symbol} (hq : q.IsWord) (ht : t.IsWord)
    (ha : a.byte ∉ [newline, carriageReturn, 0]) (hb : b.byte ∉ [newline, carriageReturn, 0])
    (m : Move) :
    (q ++ ", " ++ a.text ++ " -> " ++ t ++ ", " ++ b.text ++ ", " ++ m.token.text).IsLine ∧
      TransitionLine q (rereadKey a) t b (rereadMove m)
        (q ++ ", " ++ a.text ++ " -> " ++ t ++ ", " ++ b.text ++ ", " ++ m.token.text) := by
  have hcomma : Text.ofString ", " = [44, 32] := rfl
  have harrow : Text.ofString " -> " = [32, 45, 62, 32] := rfl
  have hmove := isSpace_token_eq_false m
  rw [hcomma, harrow]
  constructor
  · apply isLine_append
    · have hq := hq.newline_notMem
      have ht := ht.newline_notMem
      have ha := newline_notMem_text ha
      have hb := newline_notMem_text hb
      have hcommas : newline ∉ [44, 32] := by decide
      have harrows : newline ∉ [32, 45, 62, 32] := by decide
      simp only [List.mem_append, hq, ht, ha, hb, hcommas, harrows, or_self, not_false_eq_true]
    · intro he
      exact absurd (he ▸ hmove) (by decide)
    · intro he
      exact absurd (he ▸ hmove) (by decide)
  · have hspaces : Spaces [32] := by decide
    have hline := TransitionLine.mk spaces_nil hq spaces_nil (denotes_rereadKey a) hspaces ht
      spaces_nil (denotes_spaced b) hspaces (isValid_rereadMove m) spaces_nil
    have hmark : comma = [44] := rfl
    have hmark' : arrow = [45, 62] := rfl
    rw [token_rereadMove] at hline
    simpa only [hmark, hmark', Symbol.text, List.nil_append, List.append_nil, List.append_assoc,
      List.cons_append] using hline

theorem denotes_text (c : Symbol) : Denotes c.text c := by
  by_cases hc : isSpace c.byte
  · exact .space (u := []) spaces_nil hc
  · exact .plain (u := []) (v := []) spaces_nil (by simpa using hc) spaces_nil

theorem blankLine_text {c : Symbol} (hc : c.byte ∉ [newline, carriageReturn, 0]) :
    (blankKeyword ++ " " ++ c.text).IsLine ∧ BlankLine c (blankKeyword ++ " " ++ c.text) := by
  have hspace : Text.ofString " " = [32] := rfl
  rw [hspace]
  constructor
  · apply isLine_append (by decide)
    · intro he
      simp [he] at hc
    · intro he
      simp [he] at hc
  · have hline := BlankLine.mk (w := []) spaces_nil (x := 32) rfl (denotes_text c)
    simpa only [List.nil_append, List.append_assoc, List.cons_append] using hline

/-- A written line is read as the statement that it was written for, but for what is lost. -/
theorem spells_of_render {s : Statement} {line : Text} (h : render s = .ok line) :
    ∃ l, line = l ++ [newline] ∧ l.IsLine ∧ Spells l s.reread := by
  cases s with
  | transition q a t b m =>
    simp only [render, bind_eq_ok_iff, pure_eq_ok_iff, stateField_eq_ok_iff,
      symbolField_eq_ok_iff] at h
    obtain ⟨_, ⟨hq, rfl⟩, _, ⟨ha, rfl⟩, _, ⟨ht, rfl⟩, _, ⟨hb, rfl⟩, rfl⟩ := h
    obtain ⟨hl, hspells⟩ := transitionLine_of_isWord hq ht ha hb m
    exact ⟨_, rfl, hl, hspells⟩
  | comment =>
    obtain rfl : commentMark ++ "\n" = line := Except.ok.inj h
    exact ⟨commentMark, rfl, ⟨by decide, by decide⟩, CommentLine.mk (w := []) (r := []) spaces_nil⟩
  | final q =>
    simp only [render, bind_eq_ok_iff, pure_eq_ok_iff, stateField_eq_ok_iff] at h
    obtain ⟨_, ⟨hq, rfl⟩, rfl⟩ := h
    obtain ⟨hl, hspells⟩ := stateLine_of_isWord isWord_finalKeyword hq
    exact ⟨_, rfl, hl, hspells⟩
  | initial q =>
    simp only [render, bind_eq_ok_iff, pure_eq_ok_iff, stateField_eq_ok_iff] at h
    obtain ⟨_, ⟨hq, rfl⟩, rfl⟩ := h
    obtain ⟨hl, hspells⟩ := stateLine_of_isWord isWord_initialKeyword hq
    exact ⟨_, rfl, hl, hspells⟩
  | blank c =>
    simp only [render, bind_eq_ok_iff, pure_eq_ok_iff, symbolField_eq_ok_iff] at h
    obtain ⟨_, ⟨hc, rfl⟩, rfl⟩ := h
    obtain ⟨hl, hspells⟩ := blankLine_text hc
    exact ⟨_, rfl, hl, hspells⟩
  | halt q =>
    simp only [render, bind_eq_ok_iff, pure_eq_ok_iff, stateField_eq_ok_iff] at h
    obtain ⟨_, ⟨hq, rfl⟩, rfl⟩ := h
    obtain ⟨hl, hspells⟩ := stateLine_of_isWord isWord_haltKeyword hq
    exact ⟨_, rfl, hl, hspells⟩

theorem proper_reread (s : Statement) : s.reread.Proper := by
  cases s with
  | transition q a t b m => exact isValid_rereadMove m
  | _ => trivial

theorem filterMap_directive?_reread (ss : List Statement) :
    (ss.map reread).filterMap directive? = ss.filterMap directive? := by
  have hreread : directive? ∘ reread = directive? := by
    funext s
    cases s <;> rfl
  rw [List.filterMap_map, hreread]

/-- The lines of a written list of statements. -/
theorem exists_lines_of_mapM_render {ss : List Statement} {ts : List Text}
    (h : ss.mapM render = .ok ts) :
    ∃ ls : List Text, ts = ls.map (· ++ [newline]) ∧ (∀ l ∈ ls, l.IsLine) ∧
      ls.map ofLine? = ss.map fun s => some s.reread := by
  induction ss generalizing ts with
  | nil =>
    obtain rfl : [] = ts := Except.ok.inj h
    exact ⟨[], rfl, by simp, rfl⟩
  | cons s ss ih =>
    simp only [List.mapM_cons, bind_eq_ok_iff, pure_eq_ok_iff] at h
    obtain ⟨t, ht, ts', hts', rfl⟩ := h
    obtain ⟨l, rfl, hl, hspells⟩ := spells_of_render ht
    obtain ⟨ls, rfl, hls, hmap⟩ := ih hts'
    refine ⟨l :: ls, rfl, List.forall_mem_cons.2 ⟨hl, hls⟩, ?_⟩
    rw [List.map_cons, List.map_cons, hmap, ofLine?_of_spells hspells]

end Statement

namespace Draft

open Statement

/-- Lines that all say something are read by taking in what they say. -/
theorem readLines_of_defineAll {ls : List Text} {ss : List Statement}
    (h : ls.map (fun l => ofLine? l.dropReturn) = ss.map some) {d d' : Draft}
    (hd : d.defineAll ss = .ok d') (n : Int32) : d.readLines n ls = (d', none) := by
  have hstatements : ofLines ls = ss := by
    have hsome := congrArg (List.filterMap id) h
    simpa only [ofLines, List.filterMap_map, Function.comp_def, id_eq, List.filterMap_some]
      using hsome
  rw [readLines_eq_ok_iff, hstatements]
  refine ⟨?_, hd⟩
  intro l hl
  have hmem : ofLine? l.dropReturn ∈ ss.map some := by
    rw [← h]
    exact List.mem_map_of_mem hl
  obtain ⟨s, -, hs⟩ := List.mem_map.1 hmem
  exact .inr ⟨s, hs.symm⟩

end Draft

namespace Machine

open Statement

theorem newline_notMem_ofNat (n : Nat) : Text.newline ∉ Text.ofNat n := by
  intro h
  exact absurd (Text.isDigit_of_mem_ofNat h) (by decide)

/-- The line of the counts is a comment. -/
theorem exists_line_of_header (M : Machine) :
    ∃ l, M.header = l ++ [Text.newline] ∧ l.IsLine ∧ ofLine? l = some comment := by
  let counts := Text.ofNat M.states.size ++ " states, " ++ Text.ofNat M.table.size ++ " "
  have hcounts : Text.newline ∉ commentMark ++ " " ++ counts := by
    have hstates := newline_notMem_ofNat M.states.size
    have htable := newline_notMem_ofNat M.table.size
    have hmark : Text.newline ∉ commentMark := by decide
    have hspace : Text.newline ∉ Text.ofString " " := by decide
    have hname : Text.newline ∉ Text.ofString " states, " := by decide
    simp only [counts, List.mem_append, hstates, htable, hmark, hspace, hname, or_self,
      not_false_eq_true]
  have hword : Text.IsWord "transitions" := by decide
  have hend : Text.ofString " transitions\n" = " " ++ ("transitions" ++ [Text.newline]) := rfl
  refine ⟨commentMark ++ " " ++ counts ++ "transitions", ?_, hword.isLine_append hcounts, ?_⟩
  · simp only [header, counts, hend, List.append_assoc]
  · apply ofLine?_of_spells (s := comment)
    have hline : Spells _ comment :=
      CommentLine.mk (w := []) (r := " " ++ (counts ++ "transitions")) Text.spaces_nil
    simpa only [List.nil_append, List.append_assoc] using hline

/-- What the written text of a machine says. -/
def rereadStatements (M : Machine) : List Statement := comment :: M.statements.map reread

theorem lines_of_toSource {M : Machine} {s : Text} (h : M.toSource = .ok s) :
    s.lines.map (fun l => ofLine? l.dropReturn) = M.rereadStatements.map some := by
  simp only [toSource, bind_eq_ok_iff, pure_eq_ok_iff] at h
  obtain ⟨ts, hts, rfl⟩ := h
  obtain ⟨l, hheader, hl, hcomment⟩ := M.exists_line_of_header
  obtain ⟨ls, rfl, hls, hmap⟩ := exists_lines_of_mapM_render hts
  have hlines : (M.header ++ (ls.map (· ++ [Text.newline])).flatten).lines = l :: ls := by
    have hall := Text.lines_flatten (List.forall_mem_cons.2 ⟨hl, hls⟩)
    rwa [List.map_cons, List.flatten_cons, ← hheader] at hall
  have hrest : ls.map (fun l => ofLine? l.dropReturn) = ls.map ofLine? := by
    apply List.map_congr_left
    intro l' hl'
    rw [(hls l' hl').2]
  rw [hlines, List.map_cons, hrest, hl.2, hcomment, hmap, rereadStatements, List.map_cons,
    List.map_map]
  rfl

theorem directives_rereadStatements (M : Machine) :
    M.rereadStatements.filterMap directive? = [.initial, .blank, .halt] := by
  have hfinals : (M.finals.toList.map Statement.final).filterMap directive? = [] := by
    simp [List.filterMap_map, directive?, Function.comp_def]
  have hrows : (M.table.entries.map fun e => Statement.transition e.source e.symbol
      e.transition.next e.transition.write e.transition.move).filterMap directive? = [] := by
    simp [List.filterMap_map, directive?, Function.comp_def]
  have hcomment : M.rereadStatements.filterMap directive? = M.statements.filterMap directive? :=
    filterMap_directive?_reread M.statements
  rw [hcomment, statements, directives, List.filterMap_append, List.filterMap_append, hfinals,
    hrows]
  rfl

/-- A written text is read, and the machine that it describes is drafted from its statements. -/
theorem ofSource_of_toSource {M : Machine} {s : Text} (h : M.toSource = .ok s) :
    ∃ d : Draft, d.Denotes M.rereadStatements ∧
      ofSource s = .ok ⟨d.states, d.input, d.input.insert M.blank, d.table, M.initial, d.finals,
        M.halt, M.blank⟩ := by
  have hproper : ∀ x ∈ M.rereadStatements, x.Proper := by
    refine List.forall_mem_cons.2 ⟨trivial, List.forall_mem_map.2 ?_⟩
    intro x _
    exact proper_reread x
  have hnodup : (M.rereadStatements.filterMap directive?).Nodup := by
    rw [directives_rereadStatements]
    decide
  obtain ⟨d, hd⟩ := Draft.denotes_empty.exists_defineAll_eq_ok hproper hnodup
  have hdenotes := Draft.denotes_of_defineAll hd
  have hread : (∅ : Draft).readText s = (d, none) :=
    Draft.readLines_of_defineAll (lines_of_toSource h) hd 1
  have hmem : ∀ x ∈ M.directives, x.reread ∈ M.rereadStatements := by
    intro x hx
    exact List.mem_cons_of_mem _ (List.mem_map_of_mem (List.mem_append_left _ hx))
  refine ⟨d, hdenotes, ?_⟩
  simp only [ofSource, hread]
  exact hdenotes.finish (hmem (.initial M.initial) (by simp [directives]))
    (hmem (.blank M.blank) (by simp [directives])) (hmem (.halt M.halt) (by simp [directives]))

end Machine
end SingleTape

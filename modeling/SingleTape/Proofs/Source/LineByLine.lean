import SingleTape.Proofs.Source.Rendering

/-!
A text is read line by line. However its lines end, reading the text is reading the lines in turn;
the first one that is refused is reported with its number and leaves what was read before it. So a
text can be cut at a line feed and read in two parts, where only the line numbers have to be
counted on.
-/

namespace SingleTape

/-- The same error in a text that has the given number of lines in front. -/
def Error.later (k : Nat) : Error → Error
  | parse kind line text => parse kind (line + Int32.ofNat k) text
  | e => e

theorem Error.atLine_add (e : Error) (n : Int32) (k : Nat) :
    e.atLine (n + Int32.ofNat k) = (e.atLine n).later k := by
  cases e <;> rfl

/-- Lines are counted on as numbers are, as long as the count fits into its word. -/
theorem Error.toInt_line_add {n : Int32} {k : Nat} (h : n.toInt + k < 2147483648) :
    (n + Int32.ofNat k).toInt = n.toInt + k := by
  have hlow := n.le_toInt
  have hsize : Int32.size = 4294967296 := rfl
  rw [Int32.toInt_add, Int32.toInt_ofNat', Int.add_bmod_bmod]
  apply Int.bmod_eq_of_le <;> omega

namespace Text

inductive LineEnd where
  | feed
  | returnFeed

def LineEnd.text : LineEnd → Text
  | feed => [newline]
  | returnFeed => [carriageReturn, newline]

/-- A line without what ends it. -/
structure Bare (l : Text) : Prop where
  newline_notMem : newline ∉ l
  getLast?_ne : l.getLast? ≠ some carriageReturn

/-- The text consists of the lines, each with an end of either kind; the last line may do without
one if it is not empty. -/
inductive Joined : List Text → Text → Prop
  | nil : Joined [] []
  | unended {l : Text} (hl : Bare l) (hne : l ≠ []) : Joined [l] l
  | cons {l : Text} {ls : List Text} {t : Text} (e : LineEnd) (hl : Bare l) (h : Joined ls t) :
    Joined (l :: ls) (l ++ e.text ++ t)

/-- A text is cut at its first line feed, and then what is behind it. -/
theorem cut_induction {P : Text → Prop} (last : ∀ l, newline ∉ l → P l)
    (cut : ∀ l t, newline ∉ l → P t → P (l ++ newline :: t)) (t : Text) : P t := by
  induction hn : t.length using Nat.strongRecOn generalizing t with
  | _ n ih =>
    by_cases ht : newline ∈ t
    · obtain ⟨l, r, rfl, hl⟩ := List.eq_append_cons_of_mem ht
      have hlt : r.length < n := by
        rw [← hn, List.length_append, List.length_cons]
        omega
      exact cut l r hl (ih r.length hlt r rfl)
    · exact last t ht

theorem lines_of_newline_notMem {l : Text} (h : newline ∉ l) (hne : l ≠ []) : lines l = [l] := by
  induction l with
  | nil => exact absurd rfl hne
  | cons b l ih =>
    obtain ⟨hb, hl⟩ := not_or.1 (mt List.mem_cons.2 h)
    rw [lines, if_neg (Ne.symm hb)]
    cases l with
    | nil => rfl
    | cons c l => rw [ih hl (List.cons_ne_nil c l)]

theorem Bare.dropReturn_eq {l : Text} (h : Bare l) : l.dropReturn = l := if_neg h.getLast?_ne

theorem dropReturn_snoc (l : Text) : (l ++ [carriageReturn]).dropReturn = l := by
  simp [dropReturn]

/-- Of either end nothing is left on the line. -/
theorem Joined.map_dropReturn_lines {ls : List Text} {t : Text} (h : Joined ls t) :
    t.lines.map dropReturn = ls := by
  induction h with
  | nil => rfl
  | @unended l hl hne =>
    rw [lines_of_newline_notMem hl.newline_notMem hne, List.map_singleton, hl.dropReturn_eq]
  | @cons l ls t e hl h ih =>
    cases e with
    | feed =>
      have hlines : lines (l ++ [newline] ++ t) = l :: lines t := by
        rw [List.append_assoc, List.singleton_append, lines_append hl.newline_notMem]
      rw [LineEnd.text, hlines, List.map_cons, hl.dropReturn_eq, ih]
    | returnFeed =>
      have hreturn : newline ∉ l ++ [carriageReturn] := by
        rw [List.mem_append, not_or]
        exact ⟨hl.newline_notMem, by decide⟩
      have hlines :
          lines (l ++ [carriageReturn, newline] ++ t) = (l ++ [carriageReturn]) :: lines t := by
        rw [← lines_append hreturn, List.append_assoc, List.append_assoc]
        rfl
      rw [LineEnd.text, hlines, List.map_cons, dropReturn_snoc, ih]

/-- A line feed ends a line, whatever stands behind it. -/
theorem lines_append_newline (a b : Text) :
    lines (a ++ newline :: b) = lines (a ++ [newline]) ++ lines b := by
  induction a using cut_induction with
  | last l hl => rw [lines_append hl, lines_append hl]; rfl
  | cut l t hl ih =>
    rw [List.append_assoc, List.append_assoc, List.cons_append, List.cons_append,
      lines_append hl, lines_append hl, ih, List.cons_append]

theorem length_lines_snoc (a : Text) :
    (lines (a ++ [newline])).length = a.count newline + 1 := by
  induction a using cut_induction with
  | last l hl =>
    rw [lines_append hl, List.count_eq_zero_of_not_mem hl]
    rfl
  | cut l t hl ih =>
    rw [List.append_assoc, List.cons_append, lines_append hl, List.length_cons, ih,
      List.count_append, List.count_eq_zero_of_not_mem hl, List.count_cons_self]
    omega

/-- A line feed at the end of a text ends its last line, or else it adds an empty one. -/
theorem lines_snoc_cases (a : Text) :
    lines (a ++ [newline]) = lines a ∨ lines (a ++ [newline]) = lines a ++ [[]] := by
  induction a using cut_induction with
  | last l hl =>
    rw [lines_append hl]
    by_cases hne : l = []
    · right
      rw [hne]
      rfl
    · left
      rw [lines_of_newline_notMem hl hne]
      rfl
  | cut l t hl ih =>
    rw [List.append_assoc, List.cons_append, lines_append hl, lines_append hl, List.cons_append,
      List.cons.injEq, List.cons.injEq]
    simpa using ih

end Text

namespace Draft

open Statement Text

/-- Reading lines is reading one after the other. -/
theorem readLines_eq_ok_iff_foldlM {d d' : Draft} {n : Int32} {ls : List Text} :
    d.readLines n ls = (d', none) ↔ (ls.map dropReturn).foldlM readLine d = .ok d' := by
  induction ls generalizing d n with
  | nil => simp [readLines, pure_eq_ok_iff]
  | cons l ls ih =>
    rw [readLines, List.map_cons, List.foldlM_cons, bind_eq_ok_iff]
    cases d.readLine l.dropReturn with
    | error e => simp
    | ok m => simp [ih]

/-- A line that is refused by itself is reported as a fault of no particular line. -/
theorem exists_parse_of_readLine {d : Draft} {l : Text} {e : Error}
    (h : d.readLine l = .error e) : ∃ kind text, e = .parse kind 0 text := by
  by_cases hspaces : l.Spaces
  · rw [readLine_of_spaces hspaces] at h
    cases h
  · cases hs : ofLine? l with
    | none =>
      rw [readLine_of_ofLine?_eq_none hspaces hs] at h
      exact ⟨_, _, (Except.error.inj h).symm⟩
    | some s =>
      rw [readLine_of_ofLine? hs] at h
      obtain ⟨k, -, -, rfl⟩ := repeated_of_define (proper_of_ofLine? hs) h
      cases k <;> exact ⟨_, _, rfl⟩

theorem readLines_append_of_ok {d d' : Draft} {n : Int32} {ls : List Text}
    (h : d.readLines n ls = (d', none)) (ls' : List Text) :
    d.readLines n (ls ++ ls') = d'.readLines (n + Int32.ofNat ls.length) ls' := by
  induction ls generalizing d n with
  | nil =>
    obtain rfl : d = d' := (Prod.mk.inj h).1
    rw [List.nil_append, List.length_nil, number_add_zero]
  | cons l ls ih =>
    rw [List.cons_append, readLines]
    rw [readLines] at h
    cases hl : d.readLine l.dropReturn with
    | error e =>
      rw [hl] at h
      cases (Prod.mk.inj h).2
    | ok m =>
      rw [hl] at h
      rw [List.length_cons, number_add_succ]
      exact ih h

theorem readLines_append_of_error {d d' : Draft} {n : Int32} {ls : List Text} {e : Error}
    (h : d.readLines n ls = (d', some e)) (ls' : List Text) :
    d.readLines n (ls ++ ls') = (d', some e) := by
  obtain ⟨before, l, after, e', rfl, hbefore, hl, he⟩ := readLines_eq_error_iff.1 h
  exact readLines_eq_error_iff.2
    ⟨before, l, after ++ ls', e', by simp, hbefore, hl, he⟩

/-- The number of the first line shows in the error only. -/
theorem readLines_add (d : Draft) (n : Int32) (k : Nat) (ls : List Text) :
    d.readLines (n + Int32.ofNat k) ls =
      (d.readLines n ls).map id (Option.map (Error.later k)) := by
  induction ls generalizing d n with
  | nil => rfl
  | cons l ls ih =>
    rw [readLines, readLines]
    cases d.readLine l.dropReturn with
    | error e => simp [Error.atLine_add]
    | ok m =>
      have hrest := ih m (n + 1)
      rwa [Int32.add_assoc, Int32.add_comm 1, ← Int32.add_assoc] at hrest

/-- An empty line at the end says nothing. -/
theorem readLines_lines_snoc (d : Draft) (n : Int32) (a : Text) :
    d.readLines n (lines (a ++ [newline])) = d.readLines n a.lines := by
  rcases lines_snoc_cases a with hlines | hlines
  · rw [hlines]
  · rw [hlines]
    rcases hread : d.readLines n a.lines with ⟨d', _ | e⟩
    · rw [readLines_append_of_ok hread]
      rfl
    · exact readLines_append_of_error hread _

/-- A text that was read in full is followed by the rest behind the line feed. -/
theorem readText_append_of_ok {d d' : Draft} {a : Text} (h : d.readText a = (d', none))
    (b : Text) : d.readText (a ++ newline :: b) =
      (d'.readText b).map id (Option.map (Error.later (a.count newline + 1))) := by
  rw [readText, lines_append_newline]
  rw [readText, ← readLines_lines_snoc] at h
  rw [readLines_append_of_ok h, length_lines_snoc, readLines_add]
  rfl

theorem readText_append_of_error {d d' : Draft} {a : Text} {e : Error}
    (h : d.readText a = (d', some e)) (b : Text) :
    d.readText (a ++ newline :: b) = (d', some e) := by
  rw [readText, lines_append_newline]
  rw [readText, ← readLines_lines_snoc] at h
  exact readLines_append_of_error h _

theorem readText_eq_error_iff_of_joined {d d' : Draft} {ls : List Text} {t : Text} {e : Error}
    (h : Joined ls t) : d.readText t = (d', some e) ↔ ∃ before l after kind text,
      ls = before ++ l :: after ∧ before.foldlM readLine d = .ok d' ∧
        d'.readLine l = .error (.parse kind 0 text) ∧
        e = .parse kind (Int32.ofNat (before.length + 1)) text := by
  rw [readText_eq_error_iff, ← h.map_dropReturn_lines]
  constructor
  · intro hread
    obtain ⟨before, l, after, e', hlines, hbefore, hl, rfl⟩ := hread
    obtain ⟨kind, text, rfl⟩ := exists_parse_of_readLine hl
    refine ⟨before.map dropReturn, l.dropReturn, after.map dropReturn, kind, text, ?_,
      readLines_eq_ok_iff_foldlM.1 hbefore, hl, ?_⟩
    · simp [hlines]
    · rw [List.length_map, Error.atLine]
  · intro hread
    obtain ⟨before, l, after, kind, text, hsplit, hbefore, hl, rfl⟩ := hread
    obtain ⟨before, rest, hlines, rfl, hrest⟩ := List.map_eq_append_iff.1 hsplit
    obtain ⟨l, after, rfl, rfl, -⟩ := List.map_eq_cons_iff.1 hrest
    refine ⟨before, l, after, _, hlines, readLines_eq_ok_iff_foldlM.2 hbefore, hl, ?_⟩
    rw [List.length_map, Error.atLine]

/-- An error behind a text that was read in full, with the number of its line. -/
theorem exists_readText_append_of_error {d d' d'' : Draft} {a b : Text} {kind : ErrorKind}
    {n : Int32} {text : Text} (ha : d.readText a = (d', none))
    (hb : d'.readText b = (d'', some (.parse kind n text)))
    (hn : n.toInt + (a.count newline + 1 : Nat) < 2147483648) :
    ∃ m : Int32, d.readText (a ++ newline :: b) = (d'', some (.parse kind m text)) ∧
      m.toInt = n.toInt + (a.count newline + 1 : Nat) := by
  refine ⟨n + Int32.ofNat (a.count newline + 1), ?_, Error.toInt_line_add hn⟩
  rw [readText_append_of_ok ha, hb]
  rfl

/-- Reading a text is reading its lines in turn, whatever ends them. It goes through when all of
them do; otherwise the first line that is refused is reported, under its number and with its own
kind and text, and the draft is what the lines before it made. Two texts with a line feed between
them are read one after the other, the lines of the second counted on. The number is a word of 32
bits, and it is the place of the line as long as this fits. -/
theorem readText_line_by_line (d : Draft) {ls : List Text} {t : Text} (h : Joined ls t) :
    (∀ d', d.readText t = (d', none) ↔ ls.foldlM readLine d = .ok d') ∧
      (∀ d' e, d.readText t = (d', some e) ↔ ∃ before l after kind n text,
        ls = before ++ l :: after ∧ before.foldlM readLine d = .ok d' ∧
          d'.readLine l = .error (.parse kind 0 text) ∧ e = .parse kind n text ∧
          n = Int32.ofNat (before.length + 1) ∧
          (before.length + 1 < 2147483648 → n.toInt = (before.length + 1 : Nat))) ∧
      ∀ a b d', (∀ e, d.readText a = (d', some e) →
          d.readText (a ++ newline :: b) = (d', some e)) ∧
        (d.readText a = (d', none) → d.readText (a ++ newline :: b) =
            (d'.readText b).map id (Option.map (Error.later (a.count newline + 1))) ∧
          ∀ d'' kind n text, d'.readText b = (d'', some (.parse kind n text)) →
            n.toInt + (a.count newline + 1 : Nat) < 2147483648 →
            ∃ m : Int32, d.readText (a ++ newline :: b) = (d'', some (.parse kind m text)) ∧
              m.toInt = n.toInt + (a.count newline + 1 : Nat)) := by
  refine ⟨?_, ?_, ?_⟩
  · intro d'
    rw [readText, readLines_eq_ok_iff_foldlM, h.map_dropReturn_lines]
  · intro d' e
    rw [readText_eq_error_iff_of_joined h]
    constructor
    · intro hread
      obtain ⟨before, l, after, kind, text, hsplit, hbefore, hl, he⟩ := hread
      exact ⟨before, l, after, kind, _, text, hsplit, hbefore, hl, he, rfl,
        Int32.toInt_ofNat_of_lt⟩
    · intro hread
      obtain ⟨before, l, after, kind, n, text, hsplit, hbefore, hl, he, rfl, -⟩ := hread
      exact ⟨before, l, after, kind, text, hsplit, hbefore, hl, he⟩
  · intro a b d'
    refine ⟨fun e ha => readText_append_of_error ha b, fun ha => ⟨readText_append_of_ok ha b, ?_⟩⟩
    intro d'' kind n text hb hn
    exact exists_readText_append_of_error ha hb hn

/-- Two lines with different ends and one without: the third gives the initial state again. -/
theorem readText_of_repeated_initial :
    Joined ["INITIAL 1", ([] : Text), "INITIAL 2"] "INITIAL 1\r\n\nINITIAL 2" ∧
      (∅ : Draft).readText "INITIAL 1\r\n\nINITIAL 2" = ((∅ : Draft).setInitial "1",
        some (.parse .duplicateDirective 3 "Initial state can only be defined once")) := by
  have hfirst : Bare "INITIAL 1" := ⟨by decide, by decide⟩
  have hsecond : Bare [] := ⟨by decide, by decide⟩
  have hthird : Bare "INITIAL 2" := ⟨by decide, by decide⟩
  have hjoined : Joined ["INITIAL 1", ([] : Text), "INITIAL 2"] "INITIAL 1\r\n\nINITIAL 2" :=
    .cons .returnFeed hfirst (.cons .feed hsecond (.unended hthird (by decide)))
  have hbefore : (["INITIAL 1", []] : List Text).foldlM readLine ∅ =
      .ok ((∅ : Draft).setInitial "1") := by
    decide +kernel
  have hline : ((∅ : Draft).setInitial "1").readLine "INITIAL 2" =
      .error (.parse .duplicateDirective 0 "Initial state can only be defined once") := by
    decide +kernel
  exact ⟨hjoined, ((readText_line_by_line ∅ hjoined).2.1 _ _).2
    ⟨["INITIAL 1", ([] : Text)], "INITIAL 2", [], _, _, _, rfl, hbefore, hline, rfl, rfl,
      fun _ => rfl⟩⟩

end Draft
end SingleTape

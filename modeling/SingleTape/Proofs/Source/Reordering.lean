import SingleTape.Proofs.Source.Reading

/-!
The order of the lines. A text says the same in whatever order its lines come, as long as the
transitions from one state on one symbol stay in their order. The exception is the blank: a
transition in front of the line that declares it takes it for an input symbol.
-/

namespace SingleTape

namespace Statement

open Text

/-- The same lines in another order, in which the transitions from one state on one symbol follow
each other as before. -/
structure Reordered (source source' : Text) : Prop where
  lines : (source.lines.map dropReturn).Perm (source'.lines.map dropReturn)
  transitions : ∀ q a, (ofText source).filterMap (transition? q a) =
    (ofText source').filterMap (transition? q a)

/-- A transition mentions the symbol in front of the line that declares it the blank. -/
def MentionedEarly (ss : List Statement) (c : Symbol) : Prop :=
  ∃ before after, ss = before ++ .blank c :: after ∧ ∃ s ∈ before, c ∈ s.symbols

theorem not_mentionedEarly_nil (c : Symbol) : ¬MentionedEarly [] c := by
  intro h
  obtain ⟨before, after, hsplit, -⟩ := h
  cases List.append_eq_nil_iff.1 hsplit.symm |>.2

theorem mentionedEarly_cons {s : Statement} {ss : List Statement} {c : Symbol} :
    MentionedEarly (s :: ss) c ↔ c ∈ s.symbols ∧ .blank c ∈ ss ∨ MentionedEarly ss c := by
  constructor
  · intro h
    obtain ⟨before, after, hsplit, x, hx, hsymbol⟩ := h
    cases before with
    | nil => cases hx
    | cons y before =>
      obtain ⟨rfl, rfl⟩ := List.cons.inj hsplit
      rcases List.mem_cons.1 hx with rfl | hx
      · exact .inl ⟨hsymbol, by simp⟩
      · exact .inr ⟨before, after, rfl, x, hx, hsymbol⟩
  · intro h
    rcases h with ⟨hsymbol, hblank⟩ | ⟨before, after, rfl, x, hx, hsymbol⟩
    · obtain ⟨before, after, rfl⟩ := List.append_of_mem hblank
      exact ⟨s :: before, after, rfl, s, by simp, hsymbol⟩
    · exact ⟨s :: before, after, rfl, x, by simp [hx], hsymbol⟩

instance decidableMentionedEarly : (ss : List Statement) → (c : Symbol) →
    Decidable (MentionedEarly ss c)
  | [], c => .isFalse (not_mentionedEarly_nil c)
  | s :: ss, c =>
    have := decidableMentionedEarly ss c
    decidable_of_iff (c ∈ s.symbols ∧ .blank c ∈ ss ∨ MentionedEarly ss c) mentionedEarly_cons.symm

theorem ofText_eq_filterMap (source : Text) :
    ofText source = (source.lines.map dropReturn).filterMap ofLine? := by
  rw [List.filterMap_map]
  rfl

theorem blank_notMem_of_nodup {before after : List Statement} {c : Symbol}
    (h : ((before ++ .blank c :: after).filterMap directive?).Nodup) : .blank c ∉ before := by
  intro hmem
  rw [List.filterMap_append] at h
  have hbefore : .blank ∈ before.filterMap directive? := List.mem_filterMap.2 ⟨_, hmem, rfl⟩
  exact List.disjoint_of_nodup_append h hbefore List.mem_cons_self

theorem mentionedEarly_iff {ss : List Statement} {c : Symbol} (hc : .blank c ∈ ss)
    (hnodup : (ss.filterMap directive?).Nodup) :
    MentionedEarly ss c ↔ ∃ before s after, ss = before ++ s :: after ∧ c ∈ s.symbols ∧
      .blank c ∉ before := by
  constructor
  · intro h
    obtain ⟨before, after, rfl, s, hs, hsymbol⟩ := h
    have hnone := blank_notMem_of_nodup hnodup
    obtain ⟨before, rest, rfl⟩ := List.append_of_mem hs
    refine ⟨before, s, rest ++ .blank c :: after, by simp, hsymbol, ?_⟩
    exact fun hmem => hnone (List.mem_append_left _ hmem)
  · intro h
    obtain ⟨before, s, after, rfl, hsymbol, hnone⟩ := h
    have hs : .blank c ≠ s := by
      intro he
      rw [← he] at hsymbol
      cases hsymbol
    have hafter : .blank c ∈ after := by simpa [hnone, hs] using hc
    obtain ⟨rest, after, rfl⟩ := List.append_of_mem hafter
    exact ⟨before ++ s :: rest, after, by simp, s, by simp, hsymbol⟩

namespace Reordered

variable {source source' : Text}

theorem perm (h : Reordered source source') : (ofText source).Perm (ofText source') := by
  rw [ofText_eq_filterMap, ofText_eq_filterMap]
  exact h.lines.filterMap ofLine?

theorem complete (h : Reordered source source') (hcomplete : Complete source) :
    Complete source' where
  legible l hl := by
    have hmem : l.dropReturn ∈ source.lines.map dropReturn :=
      h.lines.mem_iff.2 (List.mem_map_of_mem hl)
    obtain ⟨l', hl', hsame⟩ := List.mem_map.1 hmem
    have hlegible := hcomplete.legible l' hl'
    rwa [Legible, hsame] at hlegible
  once k := by
    rw [← (h.perm.filterMap directive?).count_eq]
    exact hcomplete.once k

end Reordered

end Statement

open Statement

namespace Machine

/-- The machine with its blank taken out of the input symbols. -/
def blankless (M : Machine) : Machine := { M with input := M.input.erase M.blank }

theorem eq_iff_of_blankless_eq {M N : Machine} (h : N.blankless = M.blankless) :
    N = M ↔ (M.blank ∈ M.input ↔ N.blank ∈ N.input) := by
  have hblank : N.blank = M.blank := (congrArg Machine.blank h :)
  have herase : N.input.erase N.blank = M.input.erase M.blank :=
    (congrArg Machine.input h :)
  constructor
  · intro he
    rw [he]
  · intro hsame
    have hinput : N.input = M.input := by
      apply SortedSet.ext
      intro c
      by_cases hc : c = M.blank
      · rw [hc, hsame, hblank]
      · have hmem : c ∈ N.input.erase N.blank ↔ c ∈ M.input.erase M.blank := by rw [herase]
        simpa [hblank, hc] using hmem
    calc N = { N.blankless with input := N.input } := rfl
      _ = { M.blankless with input := M.input } := by rw [h, hinput]
      _ = M := rfl

namespace Realizes

variable {M N : Machine} {ss ss' : List Statement}

theorem find_eq (h : M.Realizes ss) (q : State) (a : Symbol) :
    M.table.find? q a = (ss.filterMap (transition? q a)).getLast? := by
  rw [List.getLast?_filterMap]
  apply Option.ext
  intro t
  rw [h.find]
  exact findSome?_reverse_eq_some_iff.symm

/-- In another order the statements give the same machine, up to its input symbols. -/
theorem reordered (hM : M.Realizes ss) (hN : N.Realizes ss') (hperm : ss.Perm ss')
    (htransitions : ∀ q a, ss.filterMap (transition? q a) = ss'.filterMap (transition? q a)) :
    { M with input := N.input }.Realizes ss' where
  initial := hperm.mem_iff.1 hM.initial
  blank := hperm.mem_iff.1 hM.blank
  halt := hperm.mem_iff.1 hM.halt
  finals q := (hM.finals q).trans hperm.mem_iff
  states q := by simpa only [hperm.mem_iff] using hM.states q
  alphabet c := by simpa only [hperm.mem_iff] using hM.alphabet c
  input := hN.input
  find q a t := by
    rw [hM.find_eq, htransitions, ← hN.find_eq]
    exact hN.find q a t
  filled := hM.filled

/-- Besides the blank, the input symbols are all there are. -/
theorem erase_blank_input {d : Draft} (h : M.Realizes ss) (hd : d.Denotes ss) :
    M.input.erase M.blank = M.alphabet.erase M.blank := by
  apply SortedSet.ext
  intro c
  rw [SortedSet.mem_erase, SortedSet.mem_erase]
  refine and_congr_right fun hc => ?_
  have hother : .blank c ∉ ss := by
    intro hmem
    have hsome := (hd.blank c).2 hmem
    rw [(hd.blank M.blank).2 h.blank] at hsome
    exact hc (Option.some.inj hsome).symm
  rw [h.input, h.alphabet, ← mention_iff_exists, mention_iff_of_notMem hother]
  simp [hc]

theorem blank_mem_input_iff {source : Text} (h : M.Realizes (ofText source))
    (hcomplete : Complete source) : M.blank ∈ M.input ↔ MentionedEarly (ofText source) M.blank := by
  have hnodup := (count_directive?_eq_one_iff.1 hcomplete.once).1
  rw [h.input, mentionedEarly_iff h.blank hnodup]

end Realizes

/-- The blank is an input symbol just when a transition in front of the line of the blank mentions
it. So the lines can be put in another order, which keeps the transitions from one state on one
symbol in theirs, and the text is still read as the same machine; the blank as an input symbol can
come or go, and does so if and only if such a transition comes or goes. -/
theorem ofSource_reordered {source : Text} {M : Machine} (h : ofSource source = .ok M) :
    (M.blank ∈ M.input ↔ MentionedEarly (ofText source) M.blank) ∧
      ∀ source', Reordered source source' → ∃ N, ofSource source' = .ok N ∧
        N.blankless = M.blankless ∧
        (N = M ↔ (MentionedEarly (ofText source) M.blank ↔
          MentionedEarly (ofText source') M.blank)) := by
  obtain ⟨hcomplete, hM⟩ := ofSource_eq_ok_iff.1 h
  have hMblank := hM.blank_mem_input_iff hcomplete
  refine ⟨hMblank, ?_⟩
  intro source' hreordered
  have hcomplete' := hreordered.complete hcomplete
  obtain ⟨N, hread, hN⟩ := exists_ofSource_of_complete hcomplete'
  obtain ⟨d, hd⟩ := hcomplete.exists_denotes
  obtain ⟨d', hd'⟩ := hcomplete'.exists_denotes
  have hrest : { M with input := N.input } = N :=
    (hM.reordered hN hreordered.perm hreordered.transitions).eq hN hd'
  have hblank : M.blank = N.blank := (congrArg Machine.blank hrest :)
  have halphabet : M.alphabet = N.alphabet := (congrArg Machine.alphabet hrest :)
  have hinput : N.input.erase N.blank = M.input.erase M.blank := by
    rw [hN.erase_blank_input hd', hM.erase_blank_input hd, hblank, halphabet]
  have hblankless : N.blankless = M.blankless := by
    rw [blankless, hinput, ← hrest]
    rfl
  refine ⟨N, hread, hblankless, ?_⟩
  rw [eq_iff_of_blankless_eq hblankless, hMblank, hN.blank_mem_input_iff hcomplete', hblank]

/-- A mark is cleared: the second transition takes the place of the first one. -/
def clearing : Text := "INITIAL 1\nBLANK #\n1, a -> 2, x, _\n1, a -> 2, #, _\nHALT 2\n"

/-- The lines of `clearing`, the transition with the blank still behind the line of the blank. -/
def clearingShuffled : Text := "HALT 2\n1, a -> 2, x, _\nBLANK #\n1, a -> 2, #, _\nINITIAL 1"

/-- The lines of `clearing`, the line of the blank behind the transitions. -/
def clearingBlankLast : Text := "INITIAL 1\n1, a -> 2, x, _\n1, a -> 2, #, _\nHALT 2\nBLANK #\n"

def clearer : Machine where
  states := .ofList ["1", "2"]
  input := .ofList [.ofChar 'a', .ofChar 'x']
  alphabet := .ofList [.ofChar '#', .ofChar 'a', .ofChar 'x']
  table := (∅ : Table).set "1" (.ofChar 'a') ⟨.ofChar 'a', .ofChar '#', .stay, "2"⟩
  initial := "1"
  halt := "2"

theorem ofSource_clearing : ofSource clearing = .ok clearer := by rfl

theorem ofText_clearing : ofText clearing = [.initial "1", .blank (.ofChar '#'),
    .transition "1" (.ofChar 'a') "2" (.ofChar 'x') .stay,
    .transition "1" (.ofChar 'a') "2" (.ofChar '#') .stay, .halt "2"] := by rfl

theorem ofText_clearingShuffled : ofText clearingShuffled = [.halt "2",
    .transition "1" (.ofChar 'a') "2" (.ofChar 'x') .stay, .blank (.ofChar '#'),
    .transition "1" (.ofChar 'a') "2" (.ofChar '#') .stay, .initial "1"] := by rfl

theorem clearingShuffled_reordered : Reordered clearing clearingShuffled where
  lines := by decide +kernel
  transitions q a := by
    rw [ofText_clearing, ofText_clearingShuffled]
    rfl

/-- Of the two transitions only the one that does not mention the blank comes early. -/
theorem clearingShuffled_same : ofSource clearing = .ok clearer ∧
    Reordered clearing clearingShuffled ∧ ofSource clearingShuffled = .ok clearer := by
  obtain ⟨N, hN, -, hsame⟩ :=
    (ofSource_reordered ofSource_clearing).2 _ clearingShuffled_reordered
  have hearly : MentionedEarly (ofText clearing) clearer.blank ↔
      MentionedEarly (ofText clearingShuffled) clearer.blank := by
    rw [ofText_clearing, ofText_clearingShuffled]
    decide
  rw [hsame.2 hearly] at hN
  exact ⟨ofSource_clearing, clearingShuffled_reordered, hN⟩

/-- With its line at the end the blank is an input symbol. -/
theorem clearingBlankLast_input : ∃ M N, ofSource clearing = .ok M ∧
    Reordered clearing clearingBlankLast ∧ ofSource clearingBlankLast = .ok N ∧
    M.blank ∉ M.input ∧ N.blank ∈ N.input ∧ N ≠ M := by
  have hstatements : ofText clearingBlankLast = [.initial "1",
      .transition "1" (.ofChar 'a') "2" (.ofChar 'x') .stay,
      .transition "1" (.ofChar 'a') "2" (.ofChar '#') .stay, .halt "2", .blank (.ofChar '#')] := rfl
  have hreordered : Reordered clearing clearingBlankLast := by
    refine ⟨by decide +kernel, ?_⟩
    intro q a
    rw [ofText_clearing, hstatements]
    rfl
  have hread : ofSource clearingBlankLast =
      .ok { clearer with input := .ofList [.ofChar '#', .ofChar 'a', .ofChar 'x'] } := rfl
  exact ⟨_, _, ofSource_clearing, hreordered, hread, by decide, by decide, by decide⟩

end Machine
end SingleTape

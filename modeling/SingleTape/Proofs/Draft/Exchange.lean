import SingleTape.Proofs.Draft.History

/-!
Exchanging the blank. A draft counts a symbol as an input symbol when a transition mentions it while
it is not the blank. So a transition that was added when one of its symbols was the blank fits after
the blank was exchanged only if that symbol is counted elsewhere, or is the blank again in the end.
-/

namespace SingleTape

open Statement

namespace Statement

/-- A transition mentions the symbol while it is not the blank. -/
def Counted (ss : List Statement) (c : Symbol) : Prop :=
  ∃ before s, before ++ [s] <+: ss ∧ c ∈ s.symbols ∧ (before.filterMap blank?).getLast? ≠ some c

/-- The blank in the end, or counted as an input symbol. -/
def Kept (ss : List Statement) (c : Symbol) : Prop :=
  (ss.filterMap blank?).getLast? = some c ∨ Counted ss c

theorem not_counted_nil (c : Symbol) : ¬Counted [] c := by
  rintro ⟨before, s, hbefore, -⟩
  simp at hbefore

theorem counted_snoc {ss : List Statement} {s : Statement} {c : Symbol} :
    Counted (ss ++ [s]) c ↔
      Counted ss c ∨ c ∈ s.symbols ∧ (ss.filterMap blank?).getLast? ≠ some c := by
  constructor
  · rintro ⟨before, x, hbefore, hx, hblank⟩
    rcases List.prefix_concat_iff.1 hbefore with hall | hbefore
    · obtain ⟨rfl, hsame⟩ := List.append_inj' hall rfl
      obtain rfl := List.singleton_inj.1 hsame
      exact .inr ⟨hx, hblank⟩
    · exact .inl ⟨before, x, hbefore, hx, hblank⟩
  · rintro (⟨before, x, hbefore, hx, hblank⟩ | ⟨hs, hblank⟩)
    · exact ⟨before, x, hbefore.trans (List.prefix_append ss [s]), hx, hblank⟩
    · exact ⟨ss, s, List.prefix_refl _, hs, hblank⟩

end Statement

namespace Draft

theorem mem_input_addTransition {d d' : Draft} {q t : State} {a b c : Symbol} {m : Move}
    (h : d.addTransition q a t b m = .ok d') :
    c ∈ d'.input ↔ c ∈ d.input ∨ c ∈ [a, b] ∧ d.blank ≠ some c := by
  unfold addTransition at h
  split at h
  · obtain rfl := Except.ok.inj h
    simp only [mem_mention_input, mention_blank, List.mem_pair]
    tauto
  · cases h

/-- What a call that says something does to the input symbols. -/
theorem mem_input_carryOut {d d' : Draft} {call : Call} {s : Statement} {c : Symbol}
    (hs : call.statement? = some s) (h : d.carryOut call = .ok d') :
    c ∈ d'.input ↔ c ∈ d.input ∨ c ∈ s.symbols ∧ d.blank ≠ some c := by
  have hsilent : d'.input = d.input → s.symbols = [] →
      (c ∈ d'.input ↔ c ∈ d.input ∨ c ∈ s.symbols ∧ d.blank ≠ some c) := by
    intro hinput hsymbols
    simp [hinput, hsymbols]
  fun_cases Call.statement? call with
  | case1 q a t b m hm =>
    obtain rfl : .transition q a t b m = s := by simpa [Call.statement?, hm] using hs
    exact mem_input_addTransition h
  | case3 q a t b m hm =>
    obtain rfl : .transition q ⟨a⟩ t ⟨b⟩ m = s := by simpa [Call.statement?, hm] using hs
    exact mem_input_addTransition h
  | case6 q =>
    obtain rfl : .final q = s := Option.some.inj hs
    obtain rfl := Except.ok.inj h
    exact hsilent rfl rfl
  | case7 q =>
    obtain rfl : .initial q = s := Option.some.inj hs
    obtain rfl := Except.ok.inj h
    exact hsilent rfl rfl
  | case8 c =>
    obtain rfl : .blank c = s := Option.some.inj hs
    obtain rfl := Except.ok.inj h
    exact hsilent rfl rfl
  | case9 b =>
    obtain rfl : .blank ⟨b⟩ = s := Option.some.inj hs
    obtain rfl := Except.ok.inj h
    exact hsilent rfl rfl
  | case11 q =>
    obtain rfl : .halt q = s := Option.some.inj hs
    obtain rfl := Except.ok.inj h
    exact hsilent rfl rfl
  | _ => simp_all [Call.statement?]

/-- The input symbols of a draft are those that it was told of while they were not the blank. -/
theorem mem_input_afterAll_iff (calls : List Call) (c : Symbol) :
    c ∈ (afterAll calls).input ↔ Counted (Call.told calls) c := by
  induction calls using List.reverseRecOn with
  | nil => exact iff_of_false (SortedSet.notMem_empty c) (not_counted_nil c)
  | append_singleton calls call ih =>
    have hsnoc : afterAll (calls ++ [call]) = (afterAll calls).after call := by
      simp [afterAll]
    rw [hsnoc]
    -- A clean forgets both sides; otherwise the last call adds the same symbols to both.
    by_cases hclean : call = .clean
    · rw [hclean, Call.told_snoc_clean]
      exact iff_of_false (SortedSet.notMem_empty c) (not_counted_nil c)
    · rw [Call.told_snoc calls hclean]
      cases hs : call.statement? with
      | none =>
        obtain ⟨t, ht⟩ := carryOut_of_statement?_eq_none (afterAll calls) hclean hs
        simpa [after, ht] using ih
      | some s =>
        have hblank := (holds_afterAll calls).blank
        obtain ⟨d', hd', -⟩ := (holds_afterAll calls).carryOut hs
        simp only [after, hd', Option.toList_some]
        rw [mem_input_carryOut hs hd', ih, hblank, counted_snoc]

/-- A value that is given once is not exchanged. -/
theorem not_exchanged_of_length {β : Type} {f : Statement → Option β} {ss : List Statement}
    (h : (ss.filterMap f).length = 1) : ¬Exchanged f ss := by
  rintro ⟨before, a, b, after, hss, -⟩
  rw [hss, List.length_append, List.length_cons, List.length_cons] at h
  omega

theorem Holds.directives_mem {d : Draft} {ss : List Statement} (h : d.Holds ss)
    (hinitial : ss.filterMap initial? ≠ []) (hblank : ss.filterMap blank? ≠ [])
    (hhalt : ss.filterMap halt? ≠ []) (k : Directive) : k ∈ ss.filterMap directive? := by
  rw [← h.has_iff_mem]
  cases k with
  | initial => rwa [has, h.initial, List.getLast?_isSome]
  | blank => rwa [has, h.blank, List.getLast?_isSome]
  | halt => rwa [has, h.halt, List.getLast?_isSome]

theorem finish_of_assemble {d : Draft} {M : Machine} (h : d.assemble = .ok M) :
    d.finish = M.check.map fun _ => M := by
  simp only [finish, h, bind, Except.bind]
  cases M.check <;> rfl

section Told

variable {calls : List Call}

theorem mem_alphabet_iff_kept {b : Symbol} (hb : (afterAll calls).blank = some b) (c : Symbol) :
    c ∈ (afterAll calls).input.insert b ↔ Kept (Call.told calls) c := by
  rw [SortedSet.mem_insert, mem_input_afterAll_iff, Kept, ← (holds_afterAll calls).blank, hb,
    Option.some_inj, eq_comm]

theorem mem_entries_iff_told {e : Entry} : e ∈ (afterAll calls).table.entries ↔
    (Call.told calls).reverse.findSome? (transition? e.source e.symbol) = some e.transition := by
  rw [Table.mem_entries, (holds_afterAll calls).find]

/-- Unless its halt state was exchanged, only a symbol of a draft does not fit. -/
theorem symbol_of_occurs (hhalt : ¬Exchanged halt? (Call.told calls)) {q p : State} {b : Symbol}
    (hq : (afterAll calls).initial = some q) (hb : (afterAll calls).blank = some b)
    (hp : (afterAll calls).halt = some p) {v : Violation}
    (hv : v.Occurs ⟨(afterAll calls).states, (afterAll calls).input,
      (afterAll calls).input.insert b, (afterAll calls).table, q, (afterAll calls).finals, p, b⟩) :
    ∃ c e, v = .transitionSymbol c e ∧ (c = e.symbol ∨ c = e.transition.write) ∧
      (Call.told calls).reverse.findSome? (transition? e.source e.symbol) = some e.transition ∧
      ¬Kept (Call.told calls) c := by
  rcases (holds_afterAll calls).exchanged_of_occurs hq hb hp hv with ⟨-, hexchanged⟩ | ⟨hkind, -⟩
  · exact absurd hexchanged hhalt
  · cases v with
    | transitionSymbol c e =>
      obtain ⟨he, hc, hmem⟩ := hv
      exact ⟨c, e, rfl, hc, mem_entries_iff_told.1 he, mt (mem_alphabet_iff_kept hb c).2 hmem⟩
    | _ => cases hkind

end Told

/-- With its directives, and with a halt state that is set once, a draft is finished if and only if
all symbols of its transitions are kept. Then they are in the alphabet; otherwise one that is not
kept is reported. -/
theorem exists_finish_iff_kept (calls : List Call)
    (hinitial : (Call.told calls).filterMap initial? ≠ [])
    (hblank : (Call.told calls).filterMap blank? ≠ [])
    (hhalt : ((Call.told calls).filterMap halt?).length = 1) :
    ((∃ M, (afterAll calls).finish = .ok M) ↔
      ∀ q a t, (Call.told calls).reverse.findSome? (transition? q a) = some t →
        Kept (Call.told calls) a ∧ Kept (Call.told calls) t.write) ∧
    (∀ M, (afterAll calls).finish = .ok M → ∀ e ∈ M.table.entries,
      e.symbol ∈ M.alphabet ∧ e.transition.write ∈ M.alphabet) ∧
    ∀ x, (afterAll calls).finish = .error x → ∃ c e,
      x = (Violation.transitionSymbol c e).error ∧ (c = e.symbol ∨ c = e.transition.write) ∧
        (Call.told calls).reverse.findSome? (transition? e.source e.symbol) = some e.transition ∧
        ¬Kept (Call.told calls) c := by
  have hhalt' := not_exchanged_of_length hhalt
  have hall := (holds_afterAll calls).directives_mem hinitial hblank
    (List.ne_nil_of_length_eq_add_one hhalt)
  obtain ⟨q, b, p, hq, hb, hp, hassemble⟩ := (holds_afterAll calls).exists_assemble hall
  rw [finish_of_assemble hassemble]
  cases hcheck : Machine.check _ with
  | ok _ =>
    have hvalid := Machine.check_eq_ok_iff.1 hcheck
    refine ⟨⟨fun _ q a t ht => ?_, fun _ => ⟨_, rfl⟩⟩, ?_, fun x hx => nomatch hx⟩
    · have hfits := hvalid.fits ⟨q, a, t⟩ (mem_entries_iff_told.2 ht)
      exact ⟨(mem_alphabet_iff_kept hb a).1 hfits.symbol_mem,
        (mem_alphabet_iff_kept hb t.write).1 hfits.write_mem⟩
    · intro M hM e he
      obtain rfl := Except.ok.inj hM
      exact ⟨(hvalid.fits e he).symbol_mem, (hvalid.fits e he).write_mem⟩
  | error x =>
    obtain ⟨v, hv, rfl⟩ := Machine.occurs_of_check hcheck
    obtain ⟨c, e, rfl, hc, he, hlost⟩ := symbol_of_occurs hhalt' hq hb hp hv
    refine ⟨⟨?_, fun hkept => ?_⟩, ?_, fun x hx => ?_⟩
    · rintro ⟨M, hM⟩
      cases hM
    · obtain ⟨hsymbol, hwrite⟩ := hkept _ _ _ he
      rcases hc with rfl | rfl
      · exact absurd hsymbol hlost
      · exact absurd hwrite hlost
    · intro M hM
      cases hM
    · exact ⟨c, e, (Except.error.inj hx).symm, hc, he, hlost⟩

/-- The mark `#` is the blank when it is written for the first time, but not when it is read. -/
theorem finish_of_kept_mark :
    let calls := [.setInitial "0", .setBlank (.ofChar '#'), .addFinal "2", .setInitial "1",
      .addTransition "1" (.ofChar 'a') "1" (.ofChar '#') .right, .setBlankText "_", .setHalt "2",
      .addTransitionText "1" "#" "2" "a" .stay, .setBlank (.ofChar ' ')]
    Exchanged blank? (Call.told calls) ∧ Kept (Call.told calls) (.ofChar '#') ∧
      ∃ M, (afterAll calls).finish = .ok M ∧
        ∀ e ∈ M.table.entries, e.symbol ∈ M.alphabet ∧ e.transition.write ∈ M.alphabet := by
  intro calls
  obtain ⟨hkept, hsymbols, -⟩ := exists_finish_iff_kept calls (by decide) (by decide) rfl
  have hM : ∃ M, (afterAll calls).finish = .ok M := ⟨_, rfl⟩
  have hmark := (hkept.1 hM "1" (.ofChar 'a') ⟨.ofChar 'a', .ofChar '#', .right, "1"⟩ rfl).2
  obtain ⟨M, hM⟩ := hM
  exact ⟨⟨[], .ofChar '#', .ofChar '_', [.ofChar ' '], rfl, by decide⟩, hmark, M, hM,
    hsymbols M hM⟩

/-- A draft with all its directives, each set once except for the blank, that is not finished: the
first blank is read and written, and the second one has taken its place. -/
theorem not_finish_of_exchanged_blank :
    let calls := [.setInitial "1", .setBlank (.ofChar '#'), .setHalt "2",
      .addTransition "1" (.ofChar '#') "2" (.ofChar '#') .stay, .setBlank (.ofChar '_')]
    (Call.told calls).filterMap initial? ≠ [] ∧ (Call.told calls).filterMap blank? ≠ [] ∧
      ((Call.told calls).filterMap halt?).length = 1 ∧
      (afterAll calls).finish = .error (Violation.transitionSymbol (.ofChar '#')
        ⟨"1", .ofChar '#', .ofChar '#', .ofChar '#', .stay, "2"⟩).error ∧
      ¬∃ M, (afterAll calls).finish = .ok M := by
  intro calls
  have herror : (afterAll calls).finish = .error (Violation.transitionSymbol (.ofChar '#')
      ⟨"1", .ofChar '#', .ofChar '#', .ofChar '#', .stay, "2"⟩).error := rfl
  refine ⟨by decide, by decide, rfl, herror, ?_⟩
  rintro ⟨M, hM⟩
  cases herror.symm.trans hM

end Draft
end SingleTape

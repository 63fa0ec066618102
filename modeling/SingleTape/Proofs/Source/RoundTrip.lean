import SingleTape.Proofs.Source.Rendering

/-!
Writing a machine and reading it back. Every directive returns. The transitions return if none of
them reads a tab, a vertical tab or a form feed: such a key is written in front of an arrow like any
other, but what is read there is a space.
-/

namespace SingleTape

open Text

namespace Statement

theorem isSpace_iff {b : UInt8} : isSpace b ↔ b ∈ [9, newline, 11, 12, carriageReturn, 32] := by
  simp only [isSpace, newline, carriageReturn, Bool.or_eq_true, Bool.and_eq_true,
    decide_eq_true_eq, List.mem_cons, List.not_mem_nil, or_false]
  grind

theorem rereadKey_rereadKey (c : Symbol) : rereadKey (rereadKey c) = rereadKey c := by
  by_cases hc : isSpace c.byte
  · simp only [rereadKey, if_pos hc]
    rfl
  · simp only [rereadKey, if_neg hc]

/-- Among the symbols that can be written. -/
theorem rereadKey_eq_self_iff {c : Symbol} (h : c.byte ∉ [newline, carriageReturn, 0]) :
    rereadKey c = c ↔ c.byte ∉ [9, 11, 12] := by
  have hspace : rereadKey c = c ↔ isSpace c.byte → c.byte = 32 := by
    obtain ⟨b⟩ := c
    unfold rereadKey
    by_cases hb : isSpace b
    · simp [hb, Symbol.ofChar, eq_comm]
    · simp [hb]
  rw [hspace, isSpace_iff]
  simp only [newline, carriageReturn, List.mem_cons, List.not_mem_nil, or_false, not_or] at h ⊢
  grind

theorem exists_render_of_mapM {ss : List Statement} {ts : List Text}
    (h : ss.mapM render = .ok ts) {s : Statement} (hs : s ∈ ss) : ∃ t, render s = .ok t := by
  induction ss generalizing ts with
  | nil => cases hs
  | cons x ss ih =>
    simp only [List.mapM_cons, bind_eq_ok_iff, pure_eq_ok_iff] at h
    obtain ⟨t, ht, ts', hts', -⟩ := h
    rcases List.mem_cons.1 hs with rfl | hs
    · exact ⟨t, ht⟩
    · exact ih hts' hs

end Statement

namespace Machine

open Statement

/-- A machine as a draft makes it: valid, with every transition stored under the symbol that it
reads and no state with an empty row. -/
structure Plain (M : Machine) : Prop where
  valid : M.Valid
  read_eq : ∀ e ∈ M.table.entries, e.transition.read = e.symbol
  filled : M.table.Filled

end Machine

namespace Draft

/-- The drafts that come from the empty one by additions that succeed. -/
inductive Built : Draft → Prop
  | empty : Built ∅
  | addTransition {d d' : Draft} {q t : State} {a b : Symbol} {m : Move} (h : Built d)
      (hd : d.addTransition q a t b m = .ok d') : Built d'
  | addFinal {d : Draft} (h : Built d) (q : State) : Built (d.addFinal q)
  | setInitial {d : Draft} (h : Built d) (q : State) : Built (d.setInitial q)
  | setBlank {d : Draft} (h : Built d) (c : Symbol) : Built (d.setBlank c)
  | setHalt {d : Draft} (h : Built d) (q : State) : Built (d.setHalt q)

theorem Built.table {d : Draft} (h : d.Built) :
    d.table.Filled ∧ ∀ q a t, d.table.find? q a = some t → t.read = a := by
  induction h with
  | empty =>
    refine ⟨Table.filled_empty, ?_⟩
    intro q a t ht
    cases ht
  | @addTransition d d' q t a b m h hd ih =>
    obtain ⟨hfilled, hread⟩ := ih
    unfold Draft.addTransition at hd
    split at hd
    · obtain rfl := Except.ok.inj hd
      refine ⟨hfilled.set q a _, ?_⟩
      intro p c u hu
      rw [Table.find?_set] at hu
      split at hu
      · next hkey =>
        rw [← Option.some.inj hu]
        exact hkey.2
      · exact hread p c u hu
    · cases hd
  | addFinal h q ih => exact ih
  | setInitial h q ih => exact ih
  | setBlank h c ih => exact ih
  | setHalt h q ih => exact ih

/-- A draft assembles its own table. -/
theorem table_of_finish {d : Draft} {M : Machine} (h : d.finish = .ok M) : M.table = d.table := by
  simp only [finish, bind_eq_ok_iff, pure_eq_ok_iff] at h
  obtain ⟨M', hM', _, -, rfl⟩ := h
  unfold assemble at hM'
  split at hM' <;> cases hM'
  rfl

/-- Every machine that comes of a draft is plain. -/
theorem Built.plain {d : Draft} (h : d.Built) {M : Machine} (hM : d.finish = .ok M) : M.Plain := by
  have htable := table_of_finish hM
  obtain ⟨hfilled, hread⟩ := h.table
  constructor
  · simp only [finish, bind_eq_ok_iff, pure_eq_ok_iff] at hM
    obtain ⟨M', -, _, hcheck, rfl⟩ := hM
    exact Machine.check_eq_ok_iff.1 hcheck
  · intro e he
    rw [htable] at he
    exact hread _ _ _ (Table.mem_entries.1 he)
  · rw [htable]
    exact hfilled

end Draft

namespace Machine

open Statement

theorem transition_mem_rereadStatements_iff {M : Machine} {q u : State} {a b : Symbol} {m : Move} :
    .transition q a u b m ∈ M.rereadStatements ↔
      ∃ e ∈ M.table.entries, e.source = q ∧ rereadKey e.symbol = a ∧ e.transition.next = u ∧
        e.transition.write = b ∧ rereadMove e.transition.move = m := by
  simp [rereadStatements, statements, directives, reread]

theorem final_mem_rereadStatements_iff {M : Machine} {q : State} :
    .final q ∈ M.rereadStatements ↔ q ∈ M.finals := by
  simp [rereadStatements, statements, directives, reread, SortedSet.mem_def]

/-- Only symbols that can be written are keys of a machine that can be written. -/
theorem key_of_toSource {M : Machine} {s : Text} (h : M.toSource = .ok s) {e : Entry}
    (he : e ∈ M.table.entries) : e.symbol.byte ∉ [newline, carriageReturn, 0] := by
  simp only [toSource, bind_eq_ok_iff, pure_eq_ok_iff] at h
  obtain ⟨ts, hts, -⟩ := h
  have hmem : .transition e.source e.symbol e.transition.next e.transition.write e.transition.move ∈
      M.statements :=
    List.mem_append_right _ (List.mem_map_of_mem he)
  obtain ⟨t, ht⟩ := exists_render_of_mapM hts hmem
  simp only [render, bind_eq_ok_iff, symbolField_eq_ok_iff] at ht
  obtain ⟨_, _, _, ⟨hc, -⟩, -⟩ := ht
  exact hc

section Table

variable {M : Machine} {d : Draft}

/-- A transition that comes back is one of the machine, but for its key. -/
theorem exists_of_find_reread (hM : M.Plain) (hd : d.Denotes M.rereadStatements) {q : State}
    {a : Symbol} {t : Transition} (ht : d.table.find? q a = some t) :
    ∃ c, rereadKey c = a ∧ M.table.find? q c = some ⟨c, t.write, t.move, t.next⟩ := by
  obtain ⟨hmem, -⟩ := hd.mem_of_find ht
  obtain ⟨e, he, rfl, rfl, hnext, hwrite, hmove⟩ := transition_mem_rereadStatements_iff.1 hmem
  have hvalid : e.transition.move.isValid := (hM.valid.fits e he).move_valid
  have hfind := Table.mem_entries.1 he
  rw [rereadMove, if_pos hvalid] at hmove
  refine ⟨e.symbol, rfl, ?_⟩
  rw [hfind, ← hnext, ← hwrite, ← hmove, ← hM.read_eq e he]

theorem exists_find_reread (hd : d.Denotes M.rereadStatements) {q : State} {a : Symbol}
    {t : Transition} (ht : M.table.find? q a = some t) :
    ∃ t', d.table.find? q (rereadKey a) = some t' := by
  have he : ⟨q, a, t⟩ ∈ M.table.entries := Table.mem_entries.2 ht
  exact hd.exists_find (transition_mem_rereadStatements_iff.2 ⟨_, he, rfl, rfl, rfl, rfl, rfl⟩)

theorem find_reread_of_kept (hM : M.Plain) (hd : d.Denotes M.rereadStatements)
    (hkept : ∀ e ∈ M.table.entries, rereadKey e.symbol = e.symbol) (q : State) (a : Symbol) :
    d.table.find? q a = M.table.find? q a := by
  have hback : ∀ t, d.table.find? q a = some t → M.table.find? q a = some t := by
    intro t ht
    obtain ⟨c, hc, hfind⟩ := exists_of_find_reread hM hd ht
    have hca : c = a := (hkept ⟨q, c, _⟩ (Table.mem_entries.2 hfind)).symm.trans hc
    have hread : t.read = a := (hd.mem_of_find ht).2
    rw [← hca, hfind, hca, ← hread]
  cases hM' : M.table.find? q a with
  | none =>
    rw [Option.eq_none_iff_forall_ne_some]
    intro t ht
    rw [hback t ht] at hM'
    cases hM'
  | some t =>
    obtain ⟨t', ht'⟩ := exists_find_reread hd hM'
    have hkey : rereadKey a = a := hkept ⟨q, a, t⟩ (Table.mem_entries.2 hM')
    rw [hkey] at ht'
    rw [ht', ← hback t' ht', hM']

/-- The table comes back if and only if no key is lost. -/
theorem table_reread_eq_iff (hM : M.Plain) (hd : d.Denotes M.rereadStatements) :
    d.table = M.table ↔ ∀ e ∈ M.table.entries, rereadKey e.symbol = e.symbol := by
  constructor
  · intro htable e he
    have hfind := Table.mem_entries.1 he
    rw [← htable] at hfind
    obtain ⟨c, hc, -⟩ := exists_of_find_reread hM hd hfind
    rw [← hc, rereadKey_rereadKey]
  · intro hkept
    exact hd.filled.ext hM.filled (find_reread_of_kept hM hd hkept)

end Table

/-- Writing a machine and reading it back keeps the directives, and it keeps the transitions exactly
when none of them reads a tab, a vertical tab or a form feed. -/
theorem ofSource_toSource {M : Machine} (hM : M.Plain) {s : Text} (hs : M.toSource = .ok s) :
    ∃ N, ofSource s = .ok N ∧ N.finals = M.finals ∧ N.initial = M.initial ∧ N.halt = M.halt ∧
      N.blank = M.blank ∧
      (N.table = M.table ↔ ∀ e ∈ M.table.entries, e.symbol.byte ∉ [9, 11, 12]) := by
  obtain ⟨d, hd, hread⟩ := ofSource_of_toSource hs
  have hfinals : d.finals = M.finals := by
    apply SortedSet.ext
    intro q
    rw [hd.finals, final_mem_rereadStatements_iff]
  have hkeys : (∀ e ∈ M.table.entries, rereadKey e.symbol = e.symbol) ↔
      ∀ e ∈ M.table.entries, e.symbol.byte ∉ [9, 11, 12] := by
    refine forall_congr' fun e => forall_congr' fun he => ?_
    exact rereadKey_eq_self_iff (key_of_toSource hs he)
  exact ⟨_, hread, hfinals, rfl, rfl, rfl, (table_reread_eq_iff hM hd).trans hkeys⟩

/-- A machine that writes a mark over one symbol and halts. -/
def marker (c : Symbol) : Machine where
  states := .ofList ["1", "2"]
  input := .ofList [c, .ofChar 'x']
  alphabet := .ofList [c, .ofChar 'x', .ofChar '#']
  table := (∅ : Table).set "1" c ⟨c, .ofChar 'x', .stay, "2"⟩
  initial := "1"
  halt := "2"

theorem marker_plain (c : Symbol) : (marker c).Plain := by
  have hentries : ∀ e ∈ (marker c).table.entries, e = ⟨"1", c, c, .ofChar 'x', .stay, "2"⟩ :=
    fun e he => List.mem_singleton.1 he
  constructor
  · constructor
    · simp +contextual [marker]
    · simp [marker]
    · simp [marker]
    · simp [marker]
    · simp [marker]
    · intro e he
      rw [hentries e he]
      constructor <;> simp [marker, Move.isValid]
  · intro e he
    rw [hentries e he]
  · exact Table.filled_empty.set _ _ _

theorem ofSource_toSource_marker :
    (marker (.ofChar ' ')).Plain ∧ ∃ s, (marker (.ofChar ' ')).toSource = .ok s ∧
      ∃ N, ofSource s = .ok N ∧ N.table = (marker (.ofChar ' ')).table := by
  have hsource : (marker (.ofChar ' ')).toSource =
      .ok "% 2 states, 1 transitions\nINITIAL 1\nBLANK #\nHALT 2\n1,   -> 2, x, _\n" := rfl
  obtain ⟨N, hN, -, -, -, -, htable⟩ := ofSource_toSource (marker_plain (.ofChar ' ')) hsource
  exact ⟨marker_plain _, _, hsource, N, hN, htable.2 (by decide)⟩

/-- A tab comes back as a space. -/
theorem ofSource_toSource_tab_ne :
    (marker (.ofChar '\t')).Plain ∧ ∃ s N, (marker (.ofChar '\t')).toSource = .ok s ∧
      ofSource s = .ok N ∧ N.table ≠ (marker (.ofChar '\t')).table := by
  refine ⟨marker_plain _,
    "% 2 states, 1 transitions\nINITIAL 1\nBLANK #\nHALT 2\n1, \t -> 2, x, _\n",
    marker (.ofChar ' '), rfl, rfl, ?_⟩
  decide

end Machine
end SingleTape

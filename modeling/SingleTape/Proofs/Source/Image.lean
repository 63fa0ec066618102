import SingleTape.Proofs.Source.Rewriting

/-!
The image of writing a machine and reading it back, for every machine at all. Two things are lost:
an invalid move comes back as no move, and the white space keys of a state come back as a space,
where the greatest of them takes the place of the others.
-/

namespace SingleTape

open Text Statement

/-- A symbol that does not break the line on which it is written. -/
def Symbol.IsWritable (c : Symbol) : Prop := c.byte ∉ [newline, carriageReturn, 0]

instance (c : Symbol) : Decidable c.IsWritable := inferInstanceAs (Decidable (_ ∉ _))

/-- All that can go wrong is that some part is malformed. -/
def MalformedOnly {α : Type} (x : Except Error α) : Prop :=
  ∀ e, x = .error e → ∃ t, e = .malformedInput t

namespace MalformedOnly

variable {α β : Type}

theorem ok (a : α) : MalformedOnly (.ok a : Except Error α) := by
  intro e he
  cases he

theorem pure (a : α) : MalformedOnly (Pure.pure a : Except Error α) := ok a

theorem malformedInput (t : Text) :
    MalformedOnly (.error (.malformedInput t) : Except Error α) := by
  intro e he
  exact ⟨t, (Except.error.inj he).symm⟩

theorem bind {x : Except Error α} {f : α → Except Error β} (hx : MalformedOnly x)
    (hf : ∀ a, MalformedOnly (f a)) : MalformedOnly (x >>= f) := by
  intro e he
  cases x with
  | error e' => exact hx e (congrArg Except.error (Except.error.inj he))
  | ok a => exact hf a e he

theorem mapM {f : α → Except Error β} (hf : ∀ a, MalformedOnly (f a)) (l : List α) :
    MalformedOnly (l.mapM f) := by
  induction l with
  | nil => exact pure []
  | cons a l ih =>
    rw [List.mapM_cons]
    exact (hf a).bind fun b => ih.bind fun bs => pure (b :: bs)

/-- It fails just when it does not succeed. -/
theorem exists_error_iff {x : Except Error α} (hx : MalformedOnly x) :
    (∃ t, x = .error (.malformedInput t)) ↔ ¬∃ a, x = .ok a := by
  cases x with
  | error e =>
    obtain ⟨t, rfl⟩ := hx e rfl
    simp
  | ok a => simp

end MalformedOnly

theorem exists_bind_eq_ok_iff {α β : Type} {x : Except Error α} {f : α → Except Error β} :
    (∃ b, x >>= f = .ok b) ↔ ∃ a, x = .ok a ∧ ∃ b, f a = .ok b := by
  simp only [bind_eq_ok_iff]
  exact ⟨fun ⟨b, a, ha, hb⟩ => ⟨a, ha, b, hb⟩, fun ⟨a, ha, b, hb⟩ => ⟨b, a, ha, hb⟩⟩

theorem exists_pure_eq_ok {α : Type} (a : α) : ∃ b, (pure a : Except Error α) = .ok b := ⟨a, rfl⟩

namespace Statement

/-- The states are words and the symbols do not break the line. -/
def IsWritable : Statement → Prop
  | transition q a t b _ => q.IsWord ∧ a.IsWritable ∧ t.IsWord ∧ b.IsWritable
  | comment => True
  | final q => q.IsWord
  | initial q => q.IsWord
  | blank c => c.IsWritable
  | halt q => q.IsWord

theorem malformedOnly_stateField (q : State) : MalformedOnly (stateField q) := by
  unfold stateField
  split
  · exact .ok q
  · exact .malformedInput _

theorem malformedOnly_symbolField (c : Symbol) : MalformedOnly (symbolField c) := by
  unfold symbolField
  split
  · exact .malformedInput _
  · exact .ok _

theorem malformedOnly_render (s : Statement) : MalformedOnly (render s) := by
  cases s with
  | transition q a t b m =>
    refine (malformedOnly_stateField q).bind fun q => ?_
    refine (malformedOnly_symbolField a).bind fun a => ?_
    refine (malformedOnly_stateField t).bind fun t => ?_
    exact (malformedOnly_symbolField b).bind fun b => .pure _
  | comment => exact .pure _
  | final q => exact (malformedOnly_stateField q).bind fun q => .pure _
  | initial q => exact (malformedOnly_stateField q).bind fun q => .pure _
  | blank c => exact (malformedOnly_symbolField c).bind fun c => .pure _
  | halt q => exact (malformedOnly_stateField q).bind fun q => .pure _

theorem exists_stateField_iff {q : State} : (∃ t, stateField q = .ok t) ↔ q.IsWord := by
  simp [stateField_eq_ok_iff]

theorem exists_symbolField_iff {c : Symbol} : (∃ t, symbolField c = .ok t) ↔ c.IsWritable := by
  simp [symbolField_eq_ok_iff, Symbol.IsWritable]

theorem exists_render_iff {s : Statement} : (∃ t, render s = .ok t) ↔ s.IsWritable := by
  cases s <;>
    simp only [render, exists_bind_eq_ok_iff, exists_pure_eq_ok, exists_and_right, and_true,
      exists_stateField_iff, exists_symbolField_iff, IsWritable]

theorem exists_mapM_render_iff {ss : List Statement} :
    (∃ ts, ss.mapM render = .ok ts) ↔ ∀ s ∈ ss, s.IsWritable := by
  induction ss with
  | nil => exact ⟨by simp, fun _ => ⟨[], rfl⟩⟩
  | cons s ss ih =>
    rw [List.forall_mem_cons, ← ih, ← exists_render_iff]
    simp only [List.mapM_cons, exists_bind_eq_ok_iff, exists_pure_eq_ok, exists_and_right,
      and_true]

/-- What comes back is a space or no white space. -/
theorem rereadKey_byte_notMem (c : Symbol) : (rereadKey c).byte ∉ [9, 11, 12] := by
  unfold rereadKey
  by_cases hc : isSpace c.byte
  · rw [if_pos hc]
    decide
  · rw [if_neg hc]
    rw [isSpace_iff] at hc
    simp only [List.mem_cons, List.not_mem_nil, or_false, not_or] at hc ⊢
    exact ⟨hc.1, hc.2.2.1, hc.2.2.2.1⟩

theorem isSpace_iff_of_isWritable {c : Symbol} (h : c.IsWritable) :
    isSpace c.byte ↔ c.byte ∈ [9, 11, 12, 32] := by
  rw [isSpace_iff]
  simp only [Symbol.IsWritable, List.mem_cons, List.not_mem_nil, or_false, not_or] at h ⊢
  tauto

theorem rereadKey_eq_space_iff {c : Symbol} (h : c.IsWritable) :
    rereadKey c = .ofChar ' ' ↔ c.byte ∈ [9, 11, 12, 32] := by
  rw [← isSpace_iff_of_isWritable h, rereadKey]
  by_cases hc : isSpace c.byte
  · simp [hc]
  · have hne : c ≠ .ofChar ' ' := by
      rintro rfl
      exact hc rfl
    simp [hc, hne]

theorem rereadKey_eq_iff_of_notMem {c a : Symbol} (h : c.IsWritable)
    (ha : a.byte ∉ [9, 11, 12, 32]) : rereadKey c = a ↔ c = a := by
  constructor
  · intro hc
    have hspace : ¬isSpace c.byte := by
      intro hspace
      rw [← hc, rereadKey, if_pos hspace] at ha
      exact ha (by decide)
    rwa [rereadKey, if_neg hspace] at hc
  · rintro rfl
    rw [rereadKey, if_neg]
    rwa [isSpace_iff_of_isWritable h]

end Statement

namespace Table

/-- The entries of one state come in the order of their symbols. -/
theorem pairwise_entries (δ : Table) :
    δ.entries.Pairwise fun e f => e.source = f.source → compare e.symbol f.symbol = .lt := by
  refine δ.entries_increasing.imp fun {e f} hlt hsource => ?_
  rcases hlt with hlt | ⟨-, hlt⟩
  · rw [hsource, Std.ReflOrd.compare_self] at hlt
    cases hlt
  · exact hlt

/-- Among the keys of a state that come back as the symbol `a` this is the greatest one, and its
transition is the last one written. -/
structure Last (δ : Table) (q : State) (a c : Symbol) (t : Transition) : Prop where
  find : δ.find? q c = some t
  reread_eq : rereadKey c = a
  greatest : ∀ c' t', δ.find? q c' = some t' → rereadKey c' = a → (compare c' c).isLE

theorem Last.unique {δ : Table} {q : State} {a c c' : Symbol} {t t' : Transition}
    (h : δ.Last q a c t) (h' : δ.Last q a c' t') : c = c' ∧ t = t' := by
  have hle := h'.greatest c t h.find h.reread_eq
  have hge := h.greatest c' t' h'.find h'.reread_eq
  obtain rfl : c = c' := Std.LawfulEqOrd.eq_of_compare (Std.OrientedCmp.isLE_antisymm hle hge)
  exact ⟨rfl, Option.some.inj (h.find.symm.trans h'.find)⟩

/-- Looking for the entry from the end finds the greatest key. -/
theorem last_of_find_reverse {δ : Table} {q : State} {a : Symbol} {e : Entry}
    (h : δ.entries.reverse.find? (fun e => e.source = q ∧ rereadKey e.symbol = a) = some e) :
    δ.Last q a e.symbol e.transition := by
  obtain ⟨he, after, before, hsplit, hafter⟩ := List.find?_eq_some_iff_append.1 h
  obtain ⟨hsource, hreread⟩ : e.source = q ∧ rereadKey e.symbol = a := by simpa using he
  have hmem : e ∈ δ.entries := by
    rw [← List.mem_reverse, hsplit]
    simp
  have hentries : δ.entries = before.reverse ++ e :: after.reverse := by
    rw [← δ.entries.reverse_reverse, hsplit]
    simp
  refine ⟨?_, hreread, ?_⟩
  · rw [← hsource]
    exact mem_entries.1 hmem
  · intro c t ht hc
    have hf : ⟨q, c, t⟩ ∈ before.reverse ++ e :: after.reverse := by
      rw [← hentries]
      exact mem_entries.2 ht
    rcases List.mem_append.1 hf with hf | hf
    · have hlt := (List.pairwise_append.1 (hentries ▸ δ.pairwise_entries)).2.2 _ hf e (by simp)
      rw [hlt hsource.symm]
      rfl
    · rcases List.mem_cons.1 hf with rfl | hf
      · simp [Std.ReflOrd.compare_self]
      · have hne := hafter _ (List.mem_reverse.1 hf)
        simp [hc] at hne

end Table

namespace Machine

/-- The transition that is read from the last line for a state and a symbol. -/
theorem findSome?_rereadStatements (M : Machine) (q : State) (a : Symbol) :
    M.rereadStatements.reverse.findSome? (transition? q a) =
      (M.table.entries.reverse.find? fun e => e.source = q ∧ rereadKey e.symbol = a).map fun e =>
        ⟨a, e.transition.write, rereadMove e.transition.move, e.transition.next⟩ := by
  have hdirectives : ∀ s ∈ M.directives.map reread, s.transition? q a = none := by
    simp [directives, reread, transition?]
  have hrest : ((comment :: M.directives.map reread).reverse).findSome? (transition? q a) = none :=
    by
    rw [List.findSome?_eq_none_iff]
    intro s hs
    rcases List.mem_cons.1 (List.mem_reverse.1 hs) with rfl | hs
    · rfl
    · exact hdirectives s hs
  have hsplit : M.rereadStatements = (comment :: M.directives.map reread) ++
      M.table.entries.map fun e => .transition e.source (rereadKey e.symbol) e.transition.next
        e.transition.write (rereadMove e.transition.move) := by
    simp [rereadStatements, statements, reread, Function.comp_def]
  rw [hsplit, List.reverse_append, List.findSome?_append, hrest, Option.or_none, ← List.map_reverse,
    List.findSome?_map]
  induction M.table.entries.reverse with
  | nil => rfl
  | cons e l ih =>
    rw [List.findSome?_cons, List.find?_cons, ih]
    by_cases he : e.source = q ∧ rereadKey e.symbol = a
    · simp [transition?, he.1, he.2]
    · simp only [Function.comp_apply, transition?, if_neg he, decide_eq_false he]

/-- All that is written of the machine can be written. -/
structure IsWritable (M : Machine) : Prop where
  initial : M.initial.IsWord
  halt : M.halt.IsWord
  finals : ∀ q ∈ M.finals, q.IsWord
  source : ∀ e ∈ M.table.entries, e.source.IsWord
  next : ∀ e ∈ M.table.entries, e.transition.next.IsWord
  blank : M.blank.IsWritable
  symbol : ∀ e ∈ M.table.entries, e.symbol.IsWritable
  write : ∀ e ∈ M.table.entries, e.transition.write.IsWritable

theorem IsWritable.isWritable_of_find {M : Machine} (h : M.IsWritable) {q : State} {c : Symbol}
    {t : Transition} (ht : M.table.find? q c = some t) : c.IsWritable :=
  h.symbol ⟨q, c, t⟩ (Table.mem_entries.2 ht)

theorem isWritable_iff {M : Machine} : M.IsWritable ↔ ∀ s ∈ M.statements, s.IsWritable := by
  simp only [statements, directives, List.forall_mem_append, List.forall_mem_cons,
    List.forall_mem_map, Statement.IsWritable, List.not_mem_nil, false_implies, implies_true]
  constructor
  · intro h
    exact ⟨⟨⟨h.initial, h.blank, h.halt, trivial⟩, h.finals⟩, fun e he =>
      ⟨h.source e he, h.symbol e he, h.next e he, h.write e he⟩⟩
  · intro h
    obtain ⟨⟨⟨hinitial, hblank, hhalt, -⟩, hfinals⟩, hentries⟩ := h
    exact ⟨hinitial, hhalt, hfinals, fun e he => (hentries e he).1,
      fun e he => (hentries e he).2.2.1, hblank, fun e he => (hentries e he).2.1,
      fun e he => (hentries e he).2.2.2⟩

theorem exists_toSource_iff {M : Machine} : (∃ s, M.toSource = .ok s) ↔ M.IsWritable := by
  simp only [toSource, exists_bind_eq_ok_iff, exists_pure_eq_ok, and_true, exists_mapM_render_iff,
    isWritable_iff]

theorem malformedOnly_toSource (M : Machine) : MalformedOnly M.toSource :=
  (MalformedOnly.mapM malformedOnly_render M.statements).bind fun _ => .pure _

/-- What comes back of a machine: its directives, the states and symbols that are written, and its
transitions under the keys that can be read. Below a space there is the transition with the greatest
white space key. -/
structure Image (M N : Machine) : Prop where
  initial_eq : N.initial = M.initial
  halt_eq : N.halt = M.halt
  blank_eq : N.blank = M.blank
  finals_eq : N.finals = M.finals
  mem_states : ∀ q, q ∈ N.states ↔ q = M.initial ∨ q = M.halt ∨ q ∈ M.finals ∨
    ∃ e ∈ M.table.entries, q = e.source ∨ q = e.transition.next
  mem_input : ∀ a, a ∈ N.input ↔ a ≠ M.blank ∧
    ∃ e ∈ M.table.entries, a = rereadKey e.symbol ∨ a = e.transition.write
  mem_alphabet : ∀ a, a ∈ N.alphabet ↔ a = M.blank ∨ a ∈ N.input
  find_solid : ∀ q c, c.byte ∉ [9, 11, 12, 32] → N.table.find? q c =
    (M.table.find? q c).map fun t => ⟨c, t.write, rereadMove t.move, t.next⟩
  find_lost : ∀ q c, c.byte ∈ [9, 11, 12] → N.table.find? q c = none
  find_space : ∀ q t, N.table.find? q (.ofChar ' ') = some t ↔
    ∃ c u, M.table.find? q c = some u ∧ c.byte ∈ [9, 11, 12, 32] ∧
      (∀ c' u', M.table.find? q c' = some u' → c'.byte ∈ [9, 11, 12, 32] → (compare c' c).isLE) ∧
      t = ⟨.ofChar ' ', u.write, rereadMove u.move, u.next⟩
  filled : N.table.Filled

/-- There is one such machine. -/
theorem Image.unique {M N N' : Machine} (h : M.Image N) (h' : M.Image N') : N = N' := by
  have hstates : N.states = N'.states :=
    SortedSet.ext fun q => (h.mem_states q).trans (h'.mem_states q).symm
  have hinput : N.input = N'.input :=
    SortedSet.ext fun a => (h.mem_input a).trans (h'.mem_input a).symm
  have halphabet : N.alphabet = N'.alphabet := by
    apply SortedSet.ext
    intro a
    rw [h.mem_alphabet, h'.mem_alphabet, hinput]
  have htable : N.table = N'.table := by
    refine h.filled.ext h'.filled fun q c => ?_
    by_cases hspace : c.byte = 32
    · obtain rfl : c = .ofChar ' ' := congrArg Symbol.mk hspace
      apply Option.ext
      intro t
      rw [h.find_space, h'.find_space]
    · by_cases hlost : c.byte ∈ [9, 11, 12]
      · rw [h.find_lost q c hlost, h'.find_lost q c hlost]
      · have hsolid : c.byte ∉ [9, 11, 12, 32] := by simp_all
        rw [h.find_solid q c hsolid, h'.find_solid q c hsolid]
  have hinitial := h.initial_eq.trans h'.initial_eq.symm
  have hhalt := h.halt_eq.trans h'.halt_eq.symm
  have hblank := h.blank_eq.trans h'.blank_eq.symm
  have hfinals := h.finals_eq.trans h'.finals_eq.symm
  cases N
  cases N'
  simp_all

section Reread

variable {M : Machine} {d : Draft}

theorem ends_rereadStatements {q : State} :
    (∃ s ∈ M.rereadStatements, q ∈ s.ends) ↔
      ∃ e ∈ M.table.entries, q = e.source ∨ q = e.transition.next := by
  constructor
  · intro h
    obtain ⟨s, hs, hq⟩ := h
    cases s with
    | transition p c t b m =>
      obtain ⟨e, he, rfl, rfl, rfl, rfl, rfl⟩ := transition_mem_rereadStatements_iff.1 hs
      exact ⟨e, he, by simpa [ends] using hq⟩
    | _ => cases hq
  · intro h
    obtain ⟨e, he, hq⟩ := h
    have hs := transition_mem_rereadStatements_iff.2 ⟨e, he, rfl, rfl, rfl, rfl, rfl⟩
    exact ⟨_, hs, by simpa [ends] using hq⟩

theorem blank_mem_rereadStatements_iff {c : Symbol} :
    .blank c ∈ M.rereadStatements ↔ c = M.blank := by
  simp [rereadStatements, statements, directives, reread]

/-- The blank is declared before all transitions. -/
theorem mention_rereadStatements_iff {a : Symbol} :
    Mention M.rereadStatements a ↔ a ≠ M.blank ∧
      ∃ e ∈ M.table.entries, a = rereadKey e.symbol ∨ a = e.transition.write := by
  by_cases ha : a = M.blank
  · have hblank : ¬Mention M.rereadStatements a := by
      simp [rereadStatements, statements, directives, reread, mention_cons, Statement.symbols, ha]
    subst ha
    simp [hblank]
  · rw [mention_iff_of_notMem (mt blank_mem_rereadStatements_iff.1 ha), symbols_rereadStatements]
    simp [ha]

theorem find_reread_eq_some_iff (hd : d.Denotes M.rereadStatements) {q : State} {a : Symbol}
    {t : Transition} : d.table.find? q a = some t ↔
      ∃ c u, M.table.Last q a c u ∧ t = ⟨a, u.write, rereadMove u.move, u.next⟩ := by
  rw [hd.find, findSome?_rereadStatements, Option.map_eq_some_iff]
  constructor
  · intro h
    obtain ⟨e, he, rfl⟩ := h
    exact ⟨_, _, Table.last_of_find_reverse he, rfl⟩
  · intro h
    obtain ⟨c, u, hlast, rfl⟩ := h
    have hmem : ⟨q, c, u⟩ ∈ M.table.entries := Table.mem_entries.2 hlast.find
    cases hfind : M.table.entries.reverse.find?
        fun e => e.source = q ∧ rereadKey e.symbol = a with
    | none =>
      have hnone := List.find?_eq_none.1 hfind _ (List.mem_reverse.2 hmem)
      simp [hlast.reread_eq] at hnone
    | some e =>
      obtain ⟨-, hu⟩ := hlast.unique (Table.last_of_find_reverse hfind)
      exact ⟨e, rfl, by rw [hu]⟩

theorem find_reread_of_notMem (hM : M.IsWritable) (hd : d.Denotes M.rereadStatements) (q : State)
    {c : Symbol} (hc : c.byte ∉ [9, 11, 12, 32]) : d.table.find? q c =
      (M.table.find? q c).map fun t => ⟨c, t.write, rereadMove t.move, t.next⟩ := by
  apply Option.ext
  intro t
  rw [find_reread_eq_some_iff hd, Option.map_eq_some_iff]
  constructor
  · intro h
    obtain ⟨c', u, hlast, rfl⟩ := h
    obtain rfl :=
      (rereadKey_eq_iff_of_notMem (hM.isWritable_of_find hlast.find) hc).1 hlast.reread_eq
    exact ⟨u, hlast.find, rfl⟩
  · intro h
    obtain ⟨u, hu, rfl⟩ := h
    refine ⟨c, u, ⟨hu, (rereadKey_eq_iff_of_notMem (hM.isWritable_of_find hu) hc).2 rfl, ?_⟩, rfl⟩
    intro c' t' ht' hc'
    obtain rfl := (rereadKey_eq_iff_of_notMem (hM.isWritable_of_find ht') hc).1 hc'
    simp [Std.ReflOrd.compare_self]

theorem find_reread_space_eq_some_iff (hM : M.IsWritable) (hd : d.Denotes M.rereadStatements)
    (q : State) (t : Transition) : d.table.find? q (.ofChar ' ') = some t ↔
      ∃ c u, M.table.find? q c = some u ∧ c.byte ∈ [9, 11, 12, 32] ∧
        (∀ c' u', M.table.find? q c' = some u' → c'.byte ∈ [9, 11, 12, 32] →
          (compare c' c).isLE) ∧
        t = ⟨.ofChar ' ', u.write, rereadMove u.move, u.next⟩ := by
  have hkey : ∀ {c u}, M.table.find? q c = some u →
      (rereadKey c = .ofChar ' ' ↔ c.byte ∈ [9, 11, 12, 32]) :=
    fun hu => rereadKey_eq_space_iff (hM.isWritable_of_find hu)
  rw [find_reread_eq_some_iff hd]
  refine exists_congr fun c => exists_congr fun u => ?_
  constructor
  · intro h
    obtain ⟨hlast, ht⟩ := h
    refine ⟨hlast.find, (hkey hlast.find).1 hlast.reread_eq, ?_, ht⟩
    intro c' u' hu' hc'
    exact hlast.greatest c' u' hu' ((hkey hu').2 hc')
  · intro h
    obtain ⟨hu, hc, hgreatest, ht⟩ := h
    refine ⟨⟨hu, (hkey hu).2 hc, ?_⟩, ht⟩
    intro c' u' hu' hc'
    exact hgreatest c' u' hu' ((hkey hu').1 hc')

theorem find_reread_eq_none (hd : d.Denotes M.rereadStatements) (q : State) {c : Symbol}
    (hc : c.byte ∈ [9, 11, 12]) : d.table.find? q c = none := by
  rw [Option.eq_none_iff_forall_ne_some]
  intro t ht
  obtain ⟨c', u, hlast, -⟩ := (find_reread_eq_some_iff hd).1 ht
  rw [← hlast.reread_eq] at hc
  exact rereadKey_byte_notMem c' hc

theorem image_of_denotes (hM : M.IsWritable) (hd : d.Denotes M.rereadStatements) :
    M.Image ⟨d.states, d.input, d.input.insert M.blank, d.table, M.initial, d.finals, M.halt,
      M.blank⟩ := by
  have hinitial : .initial M.initial ∈ M.rereadStatements := by
    simp [rereadStatements, statements, directives, reread]
  have hhalt : .halt M.halt ∈ M.rereadStatements := by
    simp [rereadStatements, statements, directives, reread]
  have hfinals : d.finals = M.finals := by
    apply SortedSet.ext
    intro q
    rw [hd.finals, final_mem_rereadStatements_iff]
  constructor
  · rfl
  · rfl
  · rfl
  · exact hfinals
  · intro q
    rw [hd.mem_states_iff hinitial hhalt, ends_rereadStatements, hfinals]
  · intro a
    rw [hd.input, mention_rereadStatements_iff]
  · intro a
    exact SortedSet.mem_insert
  · exact fun q c => find_reread_of_notMem hM hd q
  · exact fun q c => find_reread_eq_none hd q
  · exact find_reread_space_eq_some_iff hM hd
  · exact hd.filled

end Reread

/-- Writing fails, and then with a malformed input, exactly for a machine with a part that cannot be
written. Every other machine is written, and its text is read as its image. -/
theorem ofSource_toSource_image (M : Machine) :
    ((∃ t, M.toSource = .error (.malformedInput t)) ↔ ¬M.IsWritable) ∧
      (M.IsWritable ↔ ∃ source N, M.toSource = .ok source ∧ ofSource source = .ok N ∧
        M.Image N) := by
  constructor
  · rw [(malformedOnly_toSource M).exists_error_iff, exists_toSource_iff]
  · constructor
    · intro hM
      obtain ⟨source, hsource⟩ := exists_toSource_iff.2 hM
      obtain ⟨d, hd, hread⟩ := ofSource_of_toSource hsource
      exact ⟨source, _, hsource, hread, image_of_denotes hM hd⟩
    · intro h
      obtain ⟨source, -, hsource, -⟩ := h
      exact exists_toSource_iff.1 ⟨source, hsource⟩

/-- A transition on a tab and one on a form feed, with a move that means nothing. -/
def whitespaced : Machine where
  table := ((∅ : Table).set "1" (.ofChar '\t') ⟨.ofChar 'a', .ofChar 'b', .left, "2"⟩).set "1" ⟨12⟩
    ⟨.ofChar 'a', .ofChar 'c', .ofCode 7, "3"⟩
  initial := "1"
  halt := "HALT"

example : (whitespaced.toSource >>= ofSource) = .ok {
    states := .ofList ["1", "2", "3", "HALT"]
    input := .ofList [.ofChar ' ', .ofChar 'b', .ofChar 'c']
    alphabet := .ofList [.ofChar ' ', .ofChar '#', .ofChar 'b', .ofChar 'c']
    table := (∅ : Table).set "1" (.ofChar ' ') ⟨.ofChar ' ', .ofChar 'c', .stay, "3"⟩
    initial := "1"
    halt := "HALT" } := by rfl

end Machine
end SingleTape

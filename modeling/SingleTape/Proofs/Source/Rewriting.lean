import SingleTape.Proofs.Execution.Declaration
import SingleTape.Proofs.Source.RoundTrip

/-!
Rewriting a description: reading it, writing the machine and reading that again. The two machines
take the same transitions. The second one declares only the symbols that are still in use, while the
first one also declares those of the transitions that were replaced.
-/

namespace SingleTape

open Statement

namespace Machine

/-- The blank, or a symbol that some transition reads or writes. -/
def Uses (M : Machine) (a : Symbol) : Prop :=
  a = M.blank ∨ ∃ e ∈ M.table.entries, a = e.symbol ∨ a = e.transition.write

instance (M : Machine) (a : Symbol) : Decidable (M.Uses a) := inferInstanceAs (Decidable (_ ∨ _))

theorem Valid.mem_alphabet_of_uses {M : Machine} (hM : M.Valid) {a : Symbol} (h : M.Uses a) :
    a ∈ M.alphabet := by
  rcases h with rfl | ⟨e, he, rfl | rfl⟩
  · exact hM.blank_mem
  · exact (hM.fits e he).symbol_mem
  · exact (hM.fits e he).write_mem

/-- On this tape the second machine does what the first one does, in whatever configuration and
however the events are delivered. -/
structure AlikeOn (M N : Machine) (tape : List Symbol) : Prop where
  start_eq : N.start = M.start
  setTape_eq : ∀ (ω : Type) (deliver : Text → Event → Execution ω Unit) (head : Int),
    Engine.setTape N deliver tape head = Engine.setTape M deliver tape head
  accept_eq : ∀ (ω : Type) (deliver : Text → Event → Execution ω Unit) (fuel : Nat)
    (maxSteps : Option Int),
    Engine.accept N deliver fuel tape maxSteps = Engine.accept M deliver fuel tape maxSteps
  run_eq : ∀ (ω : Type) (deliver : Text → Event → Execution ω Unit) (fuel : Nat)
    (maxSteps : Option Int),
    Engine.run N deliver fuel maxSteps = Engine.run M deliver fuel maxSteps

/-- Unobserved, the second machine takes a tape just when the first one does and only symbols that
are kept are on it. -/
def KeepsTapes (M N : Machine) (kept : Symbol → Prop) : Prop :=
  ∀ (ω : Type) (deliver : Text → Event → Execution ω Unit) (c : Config) (w : ω),
    c.observers = [] → ∀ tape head,
      ((∃ c', Engine.setTape N deliver tape head c w = .ok () c' w) ↔
        (∃ c', Engine.setTape M deliver tape head c w = .ok () c' w) ∧ ∀ a ∈ tape, kept a)

theorem alikeOn_declaring {M : Machine} {states : SortedSet State}
    {input alphabet : SortedSet Symbol} {tape : List Symbol}
    (h : ∀ a ∈ tape, a ∈ alphabet ↔ a ∈ M.alphabet) :
    M.AlikeOn (M.declaring states input alphabet) tape where
  start_eq := rfl
  setTape_eq _ deliver head := Execution.setTape_declaring states input deliver h head
  accept_eq _ deliver := Execution.accept_declaring states input deliver h
  run_eq _ deliver := Execution.run_declaring M states input alphabet deliver

/-- What is read is as a draft makes it. -/
theorem plain_of_ofSource {source : Text} {M : Machine} (h : ofSource source = .ok M) :
    M.Plain := by
  obtain ⟨-, hrealizes⟩ := ofSource_eq_ok_iff.1 h
  constructor
  · unfold ofSource at h
    split at h
    · simp only [Draft.finish, bind_eq_ok_iff, pure_eq_ok_iff] at h
      obtain ⟨M', -, _, hcheck, rfl⟩ := h
      exact check_eq_ok_iff.1 hcheck
    · cases h
  · intro e he
    exact ((hrealizes.find _ _ _).1 (Table.mem_entries.1 he)).1
  · exact hrealizes.filled

theorem symbols_rereadStatements {M : Machine} {a : Symbol} :
    (∃ s ∈ M.rereadStatements, a ∈ s.symbols) ↔
      ∃ e ∈ M.table.entries, a = rereadKey e.symbol ∨ a = e.transition.write := by
  constructor
  · intro h
    obtain ⟨s, hs, ha⟩ := h
    cases s with
    | transition q c t b m =>
      obtain ⟨e, he, rfl, rfl, rfl, rfl, rfl⟩ := transition_mem_rereadStatements_iff.1 hs
      exact ⟨e, he, by simpa [symbols] using ha⟩
    | _ => cases ha
  · intro h
    obtain ⟨e, he, ha⟩ := h
    have hs := transition_mem_rereadStatements_iff.2 ⟨e, he, rfl, rfl, rfl, rfl, rfl⟩
    exact ⟨_, hs, by simpa [symbols] using ha⟩

/-- What comes back is the machine with other declarations. -/
theorem exists_declaring_of_toSource {M : Machine} (hM : M.Plain) {text : Text}
    (hs : M.toSource = .ok text) (hkeys : ∀ e ∈ M.table.entries, e.symbol.byte ∉ [9, 11, 12]) :
    ∃ states input alphabet, ofSource text = .ok (M.declaring states input alphabet) ∧
      ∀ a, a ∈ alphabet ↔ M.Uses a := by
  obtain ⟨d, hd, hread⟩ := ofSource_of_toSource hs
  have hkept : ∀ e ∈ M.table.entries, rereadKey e.symbol = e.symbol := by
    intro e he
    exact (rereadKey_eq_self_iff (key_of_toSource hs he)).2 (hkeys e he)
  have htable : d.table = M.table := (table_reread_eq_iff hM hd).2 hkept
  have hfinals : d.finals = M.finals := by
    apply SortedSet.ext
    intro q
    rw [hd.finals, final_mem_rereadStatements_iff]
  rw [htable, hfinals] at hread
  have hblank : .blank M.blank ∈ M.rereadStatements := by
    simp [rereadStatements, statements, directives, reread]
  refine ⟨_, _, _, hread, ?_⟩
  intro a
  rw [hd.mem_alphabet_iff hblank, symbols_rereadStatements, Uses]
  refine or_congr_right (exists_congr fun e => and_congr_right fun he => ?_)
  rw [hkept e he]

theorem Realizes.transition_of_entry {M : Machine} {ss : List Statement} (h : M.Realizes ss)
    {e : Entry} (he : e ∈ M.table.entries) :
    .transition e.source e.symbol e.transition.next e.transition.write e.transition.move ∈ ss := by
  obtain ⟨-, before, after, rfl, -⟩ := (h.find _ _ _).1 (Table.mem_entries.1 he)
  simp

theorem exists_setTape_singleton {M : Machine} {a : Symbol} (ha : a ∈ M.alphabet) :
    ∃ c, Engine.setTape M Execution.nobody [a] 0 M.start () = .ok () c () := by
  have hdeclared : ∀ b ∈ [a], b ∈ M.alphabet := List.forall_mem_singleton.2 ha
  exact ⟨_, (Execution.setTape_eq_ok_iff rfl).2 ⟨hdeclared, rfl, rfl⟩⟩

/-- Rewriting keeps what a machine does on each tape without a lost symbol, which is one that the
source mentions and no transition of the machine uses. A tape with a lost symbol can be set before
rewriting only. So all tapes are treated alike if and only if no symbol is lost. -/
theorem ofSource_toSource_alike {source text : Text} {M : Machine} (hM : ofSource source = .ok M)
    (hs : M.toSource = .ok text)
    (hkeys : ∀ q a t b m, .transition q a t b m ∈ ofText source → a.byte ∉ [9, 11, 12]) :
    ∃ N, ofSource text = .ok N ∧
      (∀ tape, (∀ a ∈ tape, a ∈ M.alphabet → M.Uses a) → M.AlikeOn N tape) ∧
      M.KeepsTapes N M.Uses ∧
      ((∀ tape, M.AlikeOn N tape) ↔ ∀ s ∈ ofText source, ∀ a ∈ s.symbols, M.Uses a) := by
  have hplain := plain_of_ofSource hM
  obtain ⟨-, hrealizes⟩ := ofSource_eq_ok_iff.1 hM
  have hentries : ∀ e ∈ M.table.entries, e.symbol.byte ∉ [9, 11, 12] :=
    fun e he => hkeys _ _ _ _ _ (hrealizes.transition_of_entry he)
  obtain ⟨states, input, alphabet, hread, halphabet⟩ :=
    exists_declaring_of_toSource hplain hs hentries
  have hsubset : ∀ a ∈ alphabet, a ∈ M.alphabet :=
    fun a ha => hplain.valid.mem_alphabet_of_uses ((halphabet a).1 ha)
  have halike : ∀ tape, (∀ a ∈ tape, a ∈ M.alphabet → M.Uses a) →
      M.AlikeOn (M.declaring states input alphabet) tape := by
    intro tape htape
    apply alikeOn_declaring
    intro a ha
    exact ⟨hsubset a, fun hmem => (halphabet a).2 (htape a ha hmem)⟩
  have hset : M.KeepsTapes (M.declaring states input alphabet) M.Uses := by
    intro ω deliver c w hobs tape head
    simp only [Execution.exists_setTape_declaring_iff states input deliver hsubset hobs, halphabet]
  refine ⟨_, hread, halike, hset, ?_, ?_⟩
  · intro hall s hs a ha
    have hmem : a ∈ M.alphabet := (hrealizes.alphabet a).2 (.inr ⟨s, hs, ha⟩)
    obtain ⟨c', hc'⟩ := exists_setTape_singleton hmem
    rw [← (hall [a]).setTape_eq] at hc'
    exact ((hset Unit Execution.nobody M.start () rfl [a] 0).1 ⟨c', hc'⟩).2 a
      (List.mem_singleton_self a)
  · intro hused tape
    apply halike
    intro a _ ha
    rcases (hrealizes.alphabet a).1 ha with rfl | ⟨s, hs, ha⟩
    · exact .inl rfl
    · exact hused s hs a ha

/-- The second transition takes the place of the first one. -/
def replacing : Text := "INITIAL 1\nBLANK #\nHALT 2\n1, a -> 2, x, _\n1, a -> 2, y, _\n"

/-- The machine of `replacing`, which still declares the mark that is not written any more. -/
def replaced : Machine where
  states := .ofList ["1", "2"]
  input := .ofList [.ofChar 'a', .ofChar 'x', .ofChar 'y']
  alphabet := .ofList [.ofChar '#', .ofChar 'a', .ofChar 'x', .ofChar 'y']
  table := (∅ : Table).set "1" (.ofChar 'a') ⟨.ofChar 'a', .ofChar 'y', .stay, "2"⟩
  initial := "1"
  halt := "2"

/-- What is written of it. -/
def rewritten : Text := "% 2 states, 1 transitions\nINITIAL 1\nBLANK #\nHALT 2\n1, a -> 2, y, _\n"

theorem ofSource_replacing : ofSource replacing = .ok replaced := rfl

theorem toSource_replaced : replaced.toSource = .ok rewritten := by rfl

theorem key_of_replacing (q : State) (a : Symbol) (t : State) (b : Symbol) (m : Move)
    (h : .transition q a t b m ∈ ofText replacing) : a.byte ∉ [9, 11, 12] := by
  have hstatements : ofText replacing = [.initial "1", .blank (.ofChar '#'), .halt "2",
      .transition "1" (.ofChar 'a') "2" (.ofChar 'x') .stay,
      .transition "1" (.ofChar 'a') "2" (.ofChar 'y') .stay] := rfl
  have ha : a = .ofChar 'a' := by
    rw [hstatements] at h
    simp only [List.mem_cons, List.not_mem_nil, or_false, transition.injEq, reduceCtorEq,
      false_or] at h
    rcases h with h | h
    · exact h.2.1
    · exact h.2.1
  rw [ha]
  decide

theorem replaced_alike : ofSource replacing = .ok replaced ∧ replaced.toSource = .ok rewritten ∧
    ∃ N, ofSource rewritten = .ok N ∧ replaced.AlikeOn N (Text.symbols "a#yb") := by
  obtain ⟨N, hN, halike, -⟩ :=
    ofSource_toSource_alike ofSource_replacing toSource_replaced key_of_replacing
  exact ⟨ofSource_replacing, toSource_replaced, N, hN, halike _ (by decide)⟩

/-- The mark of the transition that was replaced can be put on a tape before rewriting, not after
it. -/
theorem ofSource_toSource_lost_symbol :
    ∃ M text N, ofSource replacing = .ok M ∧
      (∀ q a t b m, .transition q a t b m ∈ ofText replacing → a.byte ∉ [9, 11, 12]) ∧
      M.toSource = .ok text ∧ ofSource text = .ok N ∧
      (∃ c, Engine.setTape M Execution.nobody (Text.symbols "x") 0 M.start () = .ok () c ()) ∧
      Engine.setTape N Execution.nobody (Text.symbols "x") 0 N.start () =
        .error (.error (.invalidSymbol (.ofChar 'x'))) N.start () ∧
      Engine.accept M Execution.nobody 1 (Text.symbols "x") none M.start () =
        .ok (some false) M.start () ∧
      Engine.accept N Execution.nobody 1 (Text.symbols "x") none N.start () =
        .error (.error (.invalidSymbol (.ofChar 'x'))) N.start () := by
  have hrewritten : ofSource rewritten = .ok (replaced.declaring (.ofList ["1", "2"])
      (.ofList [.ofChar 'a', .ofChar 'y']) (.ofList [.ofChar '#', .ofChar 'a', .ofChar 'y'])) := rfl
  exact ⟨_, _, _, ofSource_replacing, key_of_replacing, toSource_replaced, hrewritten, ⟨_, rfl⟩,
    rfl, rfl, rfl⟩

end Machine
end SingleTape

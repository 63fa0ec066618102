import SingleTape.Proofs.Execution.Acceptance

/-!
Blanks around a tape. Whether the blanks on both sides of a word are written out or not, both tapes
are pieces of the same infinite tape, and the machine does the same on either of them. One of them
may grow where the head of the other still moves on live cells; seen from the head there is no
difference.
-/

namespace SingleTape

open Engine

/-- The same tape with its cells counted from another one on. -/
def InfiniteTape.shift (r : InfiniteTape) (n : Int) : InfiniteTape where
  state := r.state
  head := r.head - n
  cells i := r.cells (i + n)

/-- A word with blanks on both sides. -/
def Machine.pad (M : Machine) (j k : Nat) (word : List Symbol) : List Symbol :=
  List.replicate j M.blank ++ word ++ List.replicate k M.blank

/-- With the blanks counted in, the infinite tape is the same. -/
theorem InfiniteTape.shift_start_pad (M : Machine) (q : State) (j k : Nat) (word : List Symbol)
    (head : Int) : (start M q (M.pad j k word) (head + j)).shift j = start M q word head := by
  have hpadded := ((start_stretch M q word head).blanks_left j).blanks_right k
  have hhead : head + j - j = head := by omega
  have hcells : (start M q word head).cells =
      fun i => (start M q (M.pad j k word) (head + j)).cells (i + j) := by
    funext i
    have hfront : i < 0 - j ↔ i + j < 0 := by omega
    have hindex : i - (0 - j) = i + j := by omega
    rw [hpadded.cell_eq i, hindex]
    simp only [hfront]
    rfl
  calc (start M q (M.pad j k word) (head + j)).shift j
      = ⟨q, head + j - j, fun i => (start M q (M.pad j k word) (head + j)).cells (i + j)⟩ := rfl
    _ = ⟨q, head, (start M q word head).cells⟩ := by rw [hhead, ← hcells]
    _ = start M q word head := rfl

namespace Config

variable {M : Machine} {lo hi : Int} {c d : Config} {r : InfiniteTape}

theorem Shows.shift (h : Shows M lo hi c r) (n : Int) :
    Shows M (lo - n) (hi - n) c (r.shift n) where
  stretch := by
    refine ⟨?_, fun i => ?_⟩
    · have hlen := h.stretch.length_eq
      omega
    · have hfront : i + n < lo ↔ i < lo - n := by omega
      have hindex : i + n - lo = i - (lo - n) := by omega
      simp only [InfiniteTape.shift, h.stretch.cell_eq (i + n), hfront, hindex]
  state_eq := h.state_eq
  head_eq := by
    have hhead := h.head_eq
    simp only [InfiniteTape.shift]
    omega
  le_hi := by
    have hle := h.le_hi
    simp only [InfiniteTape.shift]
    omega

/-- Both live tapes are pieces of one infinite tape, on which the heads are on the same cell. -/
def Overlap (M : Machine) (c d : Config) : Prop :=
  (c.tapeSet = true ∧ d.tapeSet = true) ∧
    ∃ r, (∃ lo hi, c.Shows M lo hi r) ∧ ∃ lo hi, d.Shows M lo hi r

namespace Overlap

theorem next_eq (h : c.Overlap M d) : d.next M = c.next M := by
  obtain ⟨⟨hset, hset'⟩, r, ⟨lo, hi, hc⟩, lo', hi', hd⟩ := h
  rw [hc.next_eq hset, hd.next_eq hset']

theorem apply (h : c.Overlap M d) (t : Transition) :
    (c.apply M t).countStep.Overlap M (d.apply M t).countStep := by
  obtain ⟨⟨hset, hset'⟩, r, ⟨lo, hi, hc⟩, lo', hi', hd⟩ := h
  refine ⟨⟨?_, ?_⟩, (r.write t).moveHead t.move, ⟨_, _, hc.apply t⟩, _, _, hd.apply t⟩
  · exact (apply_tapeSet c t).trans hset
  · exact (apply_tapeSet d t).trans hset'

theorem state_eq (h : c.Overlap M d) : d.state = c.state := by
  obtain ⟨-, r, ⟨lo, hi, hc⟩, lo', hi', hd⟩ := h
  exact hd.state_eq.trans hc.state_eq.symm

/-- Seen from the head there is no difference. -/
theorem symbolAt_eq (h : c.Overlap M d) (i : Int) :
    d.symbolAt M (d.head + i) = c.symbolAt M (c.head + i) := by
  obtain ⟨-, r, ⟨lo, hi, hc⟩, lo', hi', hd⟩ := h
  have hcell : lo + (c.head + i) = r.head + i := by
    have hhead := hc.head_eq
    omega
  have hcell' : lo' + (d.head + i) = r.head + i := by
    have hhead := hd.head_eq
    omega
  rw [hc.symbolAt_eq, hd.symbolAt_eq, hcell, hcell']

end Overlap

/-- A word, and the word with blanks around it and the head on the same cell of it. -/
theorem overlap_of_load {word : List Symbol} {head : Int} {j k : Nat} {c' d' : Config}
    (hstate : d.state = c.state) (hload : c.load M word head = (c', none))
    (hload' : d.load M (M.pad j k word) (head + j) = (d', none)) : c'.Overlap M d' := by
  obtain ⟨hset, hc⟩ := shows_of_load hload
  obtain ⟨hset', hd⟩ := shows_of_load hload'
  have hshift := hd.shift j
  rw [InfiniteTape.shift_start_pad, hstate] at hshift
  exact ⟨⟨hset, hset'⟩, _, ⟨_, _, hc⟩, _, _, hshift⟩

end Config

namespace Execution

variable {ω : Type} {M : Machine}

theorem lockstep_overlap (M : Machine) : Lockstep M M id (Config.Overlap M) where
  next_eq := by
    intro c d h
    rw [h.next_eq]
    cases c.next M <;> rfl
  apply h _ := h.apply _

theorem mem_alphabet_of_mem_pad (hM : M.Valid) {word : List Symbol}
    (hword : ∀ a ∈ word, a ∈ M.alphabet) (j k : Nat) : ∀ a ∈ M.pad j k word, a ∈ M.alphabet := by
  have hblanks : ∀ n, ∀ a ∈ List.replicate n M.blank, a ∈ M.alphabet := by
    intro n a ha
    rw [List.eq_of_mem_replicate ha]
    exact hM.blank_mem
  intro a ha
  rcases List.mem_append.1 ha with ha | ha
  · rcases List.mem_append.1 ha with ha | ha
    · exact hblanks j a ha
    · exact hword a ha
  · exact hblanks k a ha

/-- Known symbols that fit make a tape. -/
theorem exists_setTape_of_fits (deliver : Text → Event → Execution ω Unit) {c : Config}
    (hobs : c.observers = []) {tape : List Symbol} {head : Int}
    (htape : ∀ a ∈ tape, a ∈ M.alphabet) (hfit : (c.load M tape head).2 = none) (w : ω) :
    ∃ c₁, c.load M tape head = (c₁, none) ∧ setTape M deliver tape head c w = .ok () c₁ w ∧
      c₁.observers = [] := by
  have hload : c.load M tape head = ((c.load M tape head).1, none) := Prod.ext rfl hfit
  refine ⟨_, hload, (setTape_eq_ok_iff hobs).2 ⟨htape, hload, rfl⟩, ?_⟩
  rw [Config.load_observers, hobs]

/-- Blanks behind a word make no difference to the answer. -/
theorem accept_pad (hM : M.Valid) {word : List Symbol} (hword : ∀ a ∈ word, a ∈ M.alphabet)
    (deliver : Text → Event → Execution ω Unit) (k fuel : Nat) (maxSteps : Option Int) (c : Config)
    (w : ω) : accept M deliver fuel (M.pad 0 k word) maxSteps c w =
      accept M deliver fuel word maxSteps c w := by
  have hload := Config.load_word (M := M) (M.onWord c.state word) word
  have hload' := Config.load_word (M := M) (M.onWord c.state word) (M.pad 0 k word)
  have hoverlap : (M.onWord c.state word).Overlap M (M.onWord c.state (M.pad 0 k word)) :=
    Config.overlap_of_load (j := 0) rfl hload hload'
  rw [accept_eq_verdict deliver fuel hword,
    accept_eq_verdict deliver fuel (mem_alphabet_of_mem_pad hM hword 0 k)]
  rcases (lockstep_overlap M).run hoverlap rfl rfl rfl rfl fuel maxSteps with
    ⟨n, outcome, c', d', hrun, hrun', hend⟩ | hcut
  · simp only [hrun.run_eq Unit nobody (), hrun'.run_eq Unit nobody (),
      outcome.verdict_congr hend.state_eq]
  · obtain ⟨hrun, hrun'⟩ := hcut Unit Unit nobody nobody () ()
    rw [hrun, hrun']

/-- Blanks that are written out around a word show in nothing but the numbers of the cells. From the
same state, unobserved, with the head on the same cell of the word and on tapes that fit, both tapes
can be set, and both runs make the same number of steps and end in the same state and with the same
outcome, or else both go on for as long as they may. In the end the tapes are the same, seen from
the head. And the answers to queries are the same with blanks behind the word. -/
theorem run_amid_blanks (hM : M.Valid) {word : List Symbol} (hword : ∀ a ∈ word, a ∈ M.alphabet)
    (j k : Nat) :
    (∀ {ω ω' : Type} (deliver : Text → Event → Execution ω Unit)
      (deliver' : Text → Event → Execution ω' Unit) (head : Int) {c d : Config} (w : ω) (v : ω'),
      c.observers = [] → d.observers = [] → d.state = c.state →
      (c.load M word head).2 = none → (d.load M (M.pad j k word) (head + j)).2 = none →
      ∃ c₁ d₁, setTape M deliver word head c w = .ok () c₁ w ∧
        setTape M deliver' (M.pad j k word) (head + j) d v = .ok () d₁ v ∧
        ∀ (fuel : Nat) (maxSteps : Option Int),
          (∃ n outcome c₂ d₂, Executes M fuel maxSteps c₁ n outcome c₂ ∧
            Executes M fuel maxSteps d₁ n outcome d₂ ∧ d₂.state = c₂.state ∧
            ∀ i, d₂.symbolAt M (d₂.head + i) = c₂.symbolAt M (c₂.head + i)) ∨
          run M deliver fuel maxSteps c₁ w = .exhausted ∧
            run M deliver' fuel maxSteps d₁ v = .exhausted) ∧
    ∀ {ω : Type} (deliver : Text → Event → Execution ω Unit) (fuel : Nat) (maxSteps : Option Int)
      (c : Config) (w : ω), accept M deliver fuel (M.pad 0 k word) maxSteps c w =
        accept M deliver fuel word maxSteps c w := by
  refine ⟨?_, fun deliver fuel maxSteps c w => accept_pad hM hword deliver k fuel maxSteps c w⟩
  intro ω ω' deliver deliver' head c d w v hobs hobs' hstate hfit hfit'
  obtain ⟨c₁, hload, hset, hobs₁⟩ := exists_setTape_of_fits deliver hobs hword hfit w
  obtain ⟨d₁, hload', hset', hobs₁'⟩ :=
    exists_setTape_of_fits deliver' hobs' (mem_alphabet_of_mem_pad hM hword j k) hfit' v
  have hoverlap : c₁.Overlap M d₁ := Config.overlap_of_load hstate hload hload'
  obtain ⟨htapeSet, htapeSet'⟩ := hoverlap.1
  refine ⟨c₁, d₁, hset, hset', fun fuel maxSteps => ?_⟩
  rcases (lockstep_overlap M).run hoverlap htapeSet htapeSet' hobs₁ hobs₁' fuel maxSteps with
    ⟨n, outcome, c₂, d₂, hrun, hrun', hend⟩ | hcut
  · exact .inl ⟨n, outcome, c₂, d₂, hrun, hrun', hend.state_eq, hend.symbolAt_eq⟩
  · exact .inr (hcut ω ω' deliver deliver' w v)

/-- Counting from 3 to 4 takes a new cell on the left of the numeral, or one of the blanks that are
there. -/
theorem increment_amid_blanks :
    let c := { Machine.increment.start with
      tape := Text.symbols "11", tapeSet := true, head := 1 }
    let d := { Machine.increment.start with
      tape := Text.symbols "##11#", tapeSet := true, head := 3 }
    ∃ n outcome c₂ d₂, Executes Machine.increment 4 none c n outcome c₂ ∧
      Executes Machine.increment 4 none d n outcome d₂ ∧ n = 3 ∧ outcome = .haltReached ∧
      (c₂.tape = Text.symbols "100" ∧ c₂.head = 0) ∧
      (d₂.tape = Text.symbols "#100#" ∧ d₂.head = 1) ∧
      (∀ i, d₂.symbolAt Machine.increment (d₂.head + i) =
        c₂.symbolAt Machine.increment (c₂.head + i)) ∧
      accept Machine.increment nobody 3 (Text.symbols "10##") none c () =
        accept Machine.increment nobody 3 (Text.symbols "10") none c () := by
  intro c d
  have hvalid : Machine.increment.Valid := Machine.check_eq_ok_iff.1 rfl
  have hword : ∀ a ∈ Text.symbols "11", a ∈ Machine.increment.alphabet := by decide
  have hword' : ∀ a ∈ Text.symbols "10", a ∈ Machine.increment.alphabet := by decide
  obtain ⟨hrun, -⟩ := run_amid_blanks hvalid hword 2 1
  obtain ⟨-, haccept⟩ := run_amid_blanks hvalid hword' 0 2
  obtain ⟨c₁, d₁, hset, hset', hsame⟩ := hrun nobody nobody 1 (c := Machine.increment.start)
    (d := Machine.increment.start) () () rfl rfl rfl rfl rfl
  obtain rfl : c = c₁ := by
    cases hset
    rfl
  obtain rfl : d = d₁ := by
    cases hset'
    rfl
  rcases hsame 4 none with ⟨n, outcome, c₂, d₂, hc, hd, -, hcells⟩ | ⟨hcut, -⟩
  · have hend := hc.run_eq Unit nobody ()
    have hend' := hd.run_eq Unit nobody ()
    have hcount := hc.counter_eq
    cases hend
    cases hend'
    have hthree : n = 3 := by
      have hsteps : (3 : Nat) = 0 + n := hcount
      omega
    exact ⟨n, _, _, _, hc, hd, hthree, rfl, ⟨rfl, rfl⟩, ⟨rfl, rfl⟩, hcells,
      haccept nobody 3 none c ()⟩
  · cases hcut

end Execution
end SingleTape

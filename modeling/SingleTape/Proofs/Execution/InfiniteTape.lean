import SingleTape.Proofs.Execution.Unobserved

/-!
The machine on a tape that is infinite in both directions, and how the finite tape follows it: at
each moment the live cells are the stretch from the leftmost to the rightmost cell that the word or
the head has touched.
-/

namespace SingleTape

open Engine

/-- Adds one to a binary numeral, from the last digit on. -/
def Machine.increment : Machine :=
  ((({ initial := "carry", halt := "done", finals := .ofList ["done"] } : Machine)
    |>.addTransition "carry" (.ofChar '1') (.ofChar '0') .left "carry")
    |>.addTransition "carry" (.ofChar '0') (.ofChar '1') .stay "done")
    |>.addTransition "carry" (.ofChar '#') (.ofChar '1') .stay "done"

/-- How far a move takes the head. -/
def Move.offset : Move → Int
  | .left => -1
  | .right => 1
  | .stay => 0
  | .invalid _ _ => 0

/-- A machine at work on a tape with one cell for every integer. -/
structure InfiniteTape where
  state : State
  head : Int
  cells : Int → Symbol

namespace InfiniteTape

variable (M : Machine)

/-- A word on the cells from 0 on and blanks around it. -/
def start (q : State) (word : List Symbol) (head : Int) : InfiniteTape where
  state := q
  head := head
  cells i := if i < 0 then M.blank else word.getD i.toNat M.blank

/-- The transition that the next move takes: none in the halt state or without an entry. -/
def next? (r : InfiniteTape) : Option Transition :=
  if r.state = M.halt then none else M.table.find? r.state (r.cells r.head)

def write (r : InfiniteTape) (t : Transition) : InfiniteTape :=
  { r with state := t.next, cells := fun i => if i = r.head then t.write else r.cells i }

def moveHead (r : InfiniteTape) (m : Move) : InfiniteTape := { r with head := r.head + m.offset }

def step? (r : InfiniteTape) : Option InfiniteTape :=
  (r.next? M).map fun t => (r.write t).moveHead t.move

/-- The machine after the given number of moves, if it makes that many. -/
def run? : Nat → InfiniteTape → Option InfiniteTape
  | 0, r => some r
  | n + 1, r => match r.step? M with
    | none => none
    | some r => run? n r

/-- The cells under the head during the given number of moves, from first to last. -/
def visited : Nat → InfiniteTape → List Int
  | 0, r => [r.head]
  | n + 1, r => r.head :: match r.step? M with
    | none => []
    | some r => visited n r

theorem visited_eq_cons (n : Nat) (r : InfiniteTape) :
    ∃ ps, r.visited M n = r.head :: ps := by
  cases n with
  | zero => exact ⟨[], rfl⟩
  | succ n => exact ⟨_, rfl⟩

end InfiniteTape

/-- A row of symbols shows the cells from `lo` to `hi`, and all others are blank. -/
structure Stretch (blank : Symbol) (lo hi : Int) (tape : List Symbol) (cells : Int → Symbol) :
    Prop where
  length_eq : (tape.length : Int) = hi - lo + 1
  cell_eq : ∀ i, cells i = if i < lo then blank else tape.getD (i - lo).toNat blank

namespace Stretch

variable {blank : Symbol} {lo hi : Int} {tape : List Symbol} {cells : Int → Symbol}

theorem set (h : Stretch blank lo hi tape cells) {n : Nat} (hn : n < tape.length) (b : Symbol) :
    Stretch blank lo hi (tape.set n b) fun i => if i = lo + n then b else cells i where
  length_eq := by rw [List.length_set, h.length_eq]
  cell_eq i := by
    rw [h.cell_eq i]
    by_cases hlo : i < lo
    · rw [if_pos hlo, if_pos hlo, if_neg (by omega)]
    · rw [if_neg hlo, if_neg hlo]
      by_cases hi : i = lo + n
      · have hk : (i - lo).toNat = n := by omega
        rw [if_pos hi, hk, List.getD_eq_getElem?_getD, List.getElem?_set_self hn, Option.getD_some]
      · have hk : n ≠ (i - lo).toNat := by omega
        rw [if_neg hi, List.getD_eq_getElem?_getD, List.getD_eq_getElem?_getD,
          List.getElem?_set_ne hk]

theorem blanks_left (h : Stretch blank lo hi tape cells) (n : Nat) :
    Stretch blank (lo - n) hi (List.replicate n blank ++ tape) cells where
  length_eq := by
    have hl := h.length_eq
    rw [List.length_append, List.length_replicate]
    omega
  cell_eq i := by
    rw [h.cell_eq i, List.getD_eq_getElem?_getD, List.getD_eq_getElem?_getD, List.getElem?_append,
      List.length_replicate]
    by_cases hlo : i < lo
    · rw [if_pos hlo]
      by_cases hn : i < lo - n
      · rw [if_pos hn]
      · have hk : (i - (lo - n)).toNat < n := by omega
        rw [if_neg hn, if_pos hk, List.getElem?_replicate, if_pos hk, Option.getD_some]
    · have hk : (i - (lo - n)).toNat - n = (i - lo).toNat := by omega
      rw [if_neg hlo, if_neg (by omega), if_neg (by omega), hk]

theorem blanks_right (h : Stretch blank lo hi tape cells) (n : Nat) :
    Stretch blank lo (hi + n) (tape ++ List.replicate n blank) cells where
  length_eq := by
    have hl := h.length_eq
    rw [List.length_append, List.length_replicate]
    omega
  cell_eq i := by
    rw [h.cell_eq i, List.getD_eq_getElem?_getD, List.getD_eq_getElem?_getD, List.getElem?_append]
    by_cases hlo : i < lo
    · rw [if_pos hlo, if_pos hlo]
    · rw [if_neg hlo, if_neg hlo]
      by_cases hk : (i - lo).toNat < tape.length
      · rw [if_pos hk]
      · have hnone : tape[(i - lo).toNat]? = none := List.getElem?_eq_none (by omega)
        rw [if_neg hk, hnone, List.getElem?_replicate]
        split <;> rfl

end Stretch

theorem InfiniteTape.start_stretch (M : Machine) (q : State) (word : List Symbol) (head : Int) :
    Stretch M.blank 0 (word.length - 1) word (start M q word head).cells where
  length_eq := by omega
  cell_eq i := by rw [start, Int.sub_zero]

namespace Config

variable {M : Machine}

/-- The live cells of a machine are the cells from `lo` to `hi` of an infinite tape, and both
machines are in the same state on the same cell. -/
structure Shows (M : Machine) (lo hi : Int) (c : Config) (r : InfiniteTape) : Prop where
  stretch : Stretch M.blank lo hi c.tape r.cells
  state_eq : c.state = r.state
  head_eq : (c.head : Int) = r.head - lo
  le_hi : r.head ≤ hi

variable {lo hi : Int} {c : Config} {r : InfiniteTape}

theorem Shows.head_lt (h : Shows M lo hi c r) : c.head < c.tape.length := by
  have hh := h.head_eq
  have hl := h.stretch.length_eq
  have hr := h.le_hi
  omega

theorem Shows.symbolAt_eq (h : Shows M lo hi c r) (i : Int) :
    c.symbolAt M i = r.cells (lo + i) := by
  have hi : lo + i - lo = i := by omega
  rw [h.stretch.cell_eq, hi, symbolAt]
  by_cases hneg : i < 0
  · rw [if_pos hneg, if_pos (by omega)]
  · rw [if_neg hneg, if_neg (by omega)]

theorem Shows.scanned_eq (h : Shows M lo hi c r) : c.scanned M = r.cells r.head := by
  have hh : lo + (c.head : Int) = r.head := by
    have := h.head_eq
    omega
  rw [← hh, ← h.symbolAt_eq, symbolAt, if_neg (by omega), Int.toNat_natCast, scanned]

/-- Both machines take the same transition or fail for the same reason. -/
theorem Shows.next_eq (h : Shows M lo hi c r) (hset : c.tapeSet = true) :
    c.next M = if r.state = M.halt then .error (.haltState r.state)
      else match M.table.find? r.state (r.cells r.head) with
        | some t => .ok t
        | none => .error (.unknownTransition r.state (r.cells r.head)) := by
  by_cases hq : r.state = M.halt
  · have hh : c.isHalted M := h.state_eq.trans hq
    rw [next, if_pos hh, if_pos hq, h.state_eq]
  · have hh : ¬c.isHalted M := fun e => hq (h.state_eq.symm.trans e)
    rw [next, if_neg hh, if_neg hq, hset, h.state_eq, h.scanned_eq]
    rfl

theorem Shows.next_eq_ok_iff (h : Shows M lo hi c r) (hset : c.tapeSet = true) {t : Transition} :
    c.next M = .ok t ↔ r.next? M = some t := by
  rw [h.next_eq hset, InfiniteTape.next?]
  split
  · simp
  · cases M.table.find? r.state (r.cells r.head) <;> simp

theorem Shows.write (h : Shows M lo hi c r) (t : Transition) :
    Shows M lo hi { c with tape := c.tape.set c.head t.write, state := t.next } (r.write t) where
  stretch := by
    have hh : r.head = lo + c.head := by
      have := h.head_eq
      omega
    simp only [InfiniteTape.write, hh]
    exact h.stretch.set h.head_lt t.write
  state_eq := rfl
  head_eq := h.head_eq
  le_hi := h.le_hi

/-- A move takes the end of the stretch along when the head leaves it. -/
theorem Shows.moveHead (h : Shows M lo hi c r) (m : Move) :
    Shows M (min lo (r.moveHead m).head) (max hi (r.moveHead m).head) (c.moveHead M m)
      (r.moveHead m) := by
  have hhead := h.head_eq
  have hlen := h.stretch.length_eq
  have hhi := h.le_hi
  cases m with
  | left =>
    have hr : (r.moveHead .left).head = r.head - 1 := rfl
    have hmax : max hi (r.head - 1) = hi := by omega
    rw [hr, hmax]
    by_cases h0 : c.head = 0
    · have hmin : min lo (r.head - 1) = lo - (1 : Nat) := by omega
      rw [hmin, Config.moveHead, if_pos h0]
      exact ⟨h.stretch.blanks_left 1, h.state_eq, by simp only [hr]; omega, by omega⟩
    · have hmin : min lo (r.head - 1) = lo := by omega
      rw [hmin, Config.moveHead, if_neg h0]
      exact ⟨h.stretch, h.state_eq, by simp only [hr]; omega, by omega⟩
  | right =>
    have hr : (r.moveHead .right).head = r.head + 1 := rfl
    have hmin : min lo (r.head + 1) = lo := by omega
    rw [hr, hmin, Config.moveHead]
    by_cases hend : c.head + 1 = c.tape.length
    · have hmax : max hi (r.head + 1) = hi + (1 : Nat) := by omega
      rw [hmax, if_pos hend]
      exact ⟨h.stretch.blanks_right 1, h.state_eq, by simp only [hr]; omega, by omega⟩
    · have hmax : max hi (r.head + 1) = hi := by omega
      rw [hmax, if_neg hend]
      exact ⟨h.stretch, h.state_eq, by simp only [hr]; omega, by omega⟩
  | stay =>
    have hr : (r.moveHead .stay) = r := by simp [InfiniteTape.moveHead, Move.offset]
    rw [hr, show min lo r.head = lo by omega, show max hi r.head = hi by omega]
    exact h
  | invalid code hc =>
    have hr : (r.moveHead (.invalid code hc)) = r := by
      simp [InfiniteTape.moveHead, Move.offset]
    rw [hr, show min lo r.head = lo by omega, show max hi r.head = hi by omega]
    exact h

theorem Shows.apply (h : Shows M lo hi c r) (t : Transition) :
    let r' := (r.write t).moveHead t.move
    Shows M (min lo r'.head) (max hi r'.head) (c.apply M t).countStep r' := by
  have hm := (h.write t).moveHead t.move
  exact ⟨hm.stretch, hm.state_eq, hm.head_eq, hm.le_hi⟩

/-- A tape that was set shows the cells of the word and those between it and the head. -/
theorem shows_of_load {word : List Symbol} {head : Int} {c' : Config}
    (h : c.load M word head = (c', none)) :
    c'.tapeSet = true ∧ Shows M (min 0 head) (max (word.length - 1) head) c'
      (InfiniteTape.start M c.state word head) := by
  have hs := InfiniteTape.start_stretch M c.state word head
  have hr : (InfiniteTape.start M c.state word head).head = head := rfl
  rcases load_eq_none_iff.1 h with ⟨hneg, -, rfl⟩ | ⟨hnonneg, -, rfl⟩
  · have hmin : min 0 head = 0 - (head.natAbs : Int) := by omega
    have hmax : max ((word.length : Int) - 1) head = word.length - 1 := by omega
    rw [hmin, hmax]
    exact ⟨rfl, hs.blanks_left head.natAbs, rfl, by simp only [hr]; omega, by omega⟩
  · have hmin : min 0 head = 0 := by omega
    have hmax : max ((word.length : Int) - 1) head =
        word.length - 1 + (head.toNat + 1 - word.length : Nat) := by omega
    rw [hmin, hmax]
    exact ⟨rfl, hs.blanks_right _, rfl, by simp only [hr]; omega, by omega⟩

end Config

namespace Execution

variable {ω : Type} {M : Machine}

/-- As long as the infinite tape moves, so does the finite one, and it grows with the cells that
the head visits. -/
theorem steps_shows (deliver : Text → Event → Execution ω Unit) {n : Nat} {lo hi : Int}
    {c : Config} {r r' : InfiniteTape} (h : c.Shows M lo hi r) (hset : c.tapeSet = true)
    (hobs : c.observers = []) (hr : r.run? M n = some r') (w : ω) :
    ∃ c', steps M deliver n c w = .ok () c' w ∧ c'.tapeSet = true ∧ c'.observers = [] ∧
      c'.Shows M ((r.visited M n).foldl min lo) ((r.visited M n).foldl max hi) r' := by
  induction n generalizing lo hi c r with
  | zero =>
    obtain rfl : r = r' := by simpa [InfiniteTape.run?] using hr
    have hhead := h.head_eq
    have hhi := h.le_hi
    refine ⟨c, rfl, hset, hobs, ?_⟩
    simp only [InfiniteTape.visited, List.foldl_cons, List.foldl_nil]
    rw [show min lo r.head = lo by omega, show max hi r.head = hi by omega]
    exact h
  | succ n ih =>
    cases hnext : r.next? M with
    | none => simp [InfiniteTape.run?, InfiniteTape.step?, hnext] at hr
    | some t =>
      have hstep : r.step? M = some ((r.write t).moveHead t.move) := by
        rw [InfiniteTape.step?, hnext, Option.map_some]
      have ht : c.next M = .ok t := (h.next_eq_ok_iff hset).2 hnext
      have hset' : (c.apply M t).countStep.tapeSet = true := by
        simpa [Config.countStep] using hset
      have hobs' : (c.apply M t).countStep.observers = [] := by
        simpa [Config.countStep] using hobs
      have hrun : ((r.write t).moveHead t.move).run? M n = some r' := by
        simpa only [InfiniteTape.run?, hstep] using hr
      obtain ⟨c', hc', hset'', hobs'', hshows⟩ := ih (h.apply t) hset' hobs' hrun
      refine ⟨c', ?_, hset'', hobs'', ?_⟩
      · rw [steps_succ_of_observers_eq_nil hobs ht, hc']
      · have hhead := h.head_eq
        have hhi := h.le_hi
        obtain ⟨ps, hps⟩ := ((r.write t).moveHead t.move).visited_eq_cons M n
        simp only [InfiniteTape.visited, hstep, hps, List.foldl_cons] at hshows ⊢
        rw [show min lo r.head = lo by omega, show max hi r.head = hi by omega]
        simpa only [Int.min_assoc, Int.max_assoc, Int.min_self, Int.max_self] using hshows

/-- A machine that nobody observes does on its growing tape what it would do on an infinite one:
after a tape was set and the infinite machine has made `n` moves, `n` steps succeed, the live cells
are those from the leftmost to the rightmost cell that the word or the head has touched, and the
next step succeeds or fails as the next move does. -/
theorem steps_refine_infiniteTape (M : Machine) (deliver : Text → Event → Execution ω Unit)
    {c c₁ : Config} (hobs : c.observers = []) (word : List Symbol) (head : Int) {w w₁ : ω}
    (hset : setTape M deliver word head c w = .ok () c₁ w₁) (n : Nat) {r : InfiniteTape}
    (hr : (InfiniteTape.start M c.state word head).run? M n = some r) :
    let visited := (InfiniteTape.start M c.state word head).visited M n
    let lo := visited.foldl min 0
    let hi := visited.foldl max ((word.length : Int) - 1)
    ∃ c', steps M deliver n c₁ w₁ = .ok () c' w₁ ∧
      c'.state = r.state ∧
      (c'.tape.length : Int) = hi - lo + 1 ∧
      (c'.head : Int) = r.head - lo ∧
      (∀ i, c'.symbolAt M i = r.cells (lo + i)) ∧
      (step M deliver c' w₁ = .error (.error (.haltState r.state)) c' w₁ ↔ r.state = M.halt) ∧
      (step M deliver c' w₁ =
          .error (.error (.unknownTransition r.state (r.cells r.head))) c' w₁ ↔
        r.state ≠ M.halt ∧ M.table.find? r.state (r.cells r.head) = none) ∧
      ((∃ c'', step M deliver c' w₁ = .ok () c'' w₁) ↔
        r.state ≠ M.halt ∧ M.table.find? r.state (r.cells r.head) ≠ none) := by
  intro visited lo hi
  obtain ⟨-, hload, rfl⟩ := (setTape_eq_ok_iff hobs).1 hset
  obtain ⟨htape, hshows⟩ := Config.shows_of_load hload
  have hobs₁ : c₁.observers = [] := by rw [← hobs, ← c.load_observers word head, hload]
  obtain ⟨ps, hps⟩ := (InfiniteTape.start M c.state word head).visited_eq_cons M n
  -- The stretch at the start already holds the first cell that is visited.
  have hlo : visited.foldl min (min 0 head) = lo := by
    simp only [visited, lo, hps, List.foldl_cons, InfiniteTape.start, Int.min_assoc, Int.min_self]
  have hhi : visited.foldl max (max ((word.length : Int) - 1) head) = hi := by
    simp only [visited, hi, hps, List.foldl_cons, InfiniteTape.start, Int.max_assoc, Int.max_self]
  obtain ⟨c', hc', htape', hobs', hend⟩ := steps_shows deliver hshows htape hobs₁ hr w₁
  rw [hlo, hhi] at hend
  refine ⟨c', hc', hend.state_eq, hend.stretch.length_eq, hend.head_eq, hend.symbolAt_eq, ?_⟩
  rw [step_of_observers_eq_nil hobs', hend.next_eq htape']
  by_cases hq : r.state = M.halt
  · simp [hq]
  · cases hf : M.table.find? r.state (r.cells r.head) with
    | none => simp [hq]
    | some t => simp [hq]

/-- Counting from 3 to 4 takes a cell on the left of the word. -/
theorem increment_refines_infiniteTape :
    ∃ c₁ c' r,
      setTape Machine.increment nobody (Text.symbols "11") 1
        Machine.increment.start () = .ok () c₁ () ∧
      (InfiniteTape.start Machine.increment "carry" (Text.symbols "11") 1).run?
        Machine.increment 3 = some r ∧
      steps Machine.increment nobody 3 c₁ () = .ok () c' () ∧
      c'.state = "done" ∧ (c'.tape.length : Int) = 1 - -1 + 1 ∧ (c'.head : Int) = r.head - -1 ∧
      (∀ i, c'.symbolAt Machine.increment i = r.cells (-1 + i)) ∧
      step Machine.increment nobody c' () =
        .error (.error (.haltState "done")) c' () := by
  obtain ⟨c', hsteps, hstate, hlen, hhead, hcells, hhalt, -, -⟩ :=
    steps_refine_infiniteTape Machine.increment nobody rfl (Text.symbols "11") 1
      (c := Machine.increment.start) (w := ()) rfl 3 rfl
  exact ⟨_, c', _, rfl, rfl, hsteps, hstate, hlen, hhead, hcells, hhalt.2 rfl⟩

end Execution
end SingleTape

import SingleTape.Symbol

/-!
Head moves. A transition table may hold any 32-bit move code; the three codes that mean something
are named, every other one is kept as an invalid move.
-/

namespace SingleTape

inductive Move where
  | left
  | right
  | stay
  | invalid (code : Int32) (unnamed : code ≠ 0 ∧ code ≠ 1 ∧ code ≠ 2)
  deriving DecidableEq

namespace Move

def ofCode (code : Int32) : Move :=
  if h0 : code = 0 then left
  else if h1 : code = 1 then right
  else if h2 : code = 2 then stay
  else invalid code ⟨h0, h1, h2⟩

def code : Move → Int32
  | left => 0
  | right => 1
  | stay => 2
  | invalid code _ => code

@[simp] theorem ofCode_code (m : Move) : ofCode m.code = m := by
  cases m with
  | left => rfl
  | right => rfl
  | stay => rfl
  | invalid code h => simp [ofCode, Move.code, h]

@[simp] theorem code_ofCode (c : Int32) : (ofCode c).code = c := by
  unfold ofCode
  split
  · simp_all [code]
  · split
    · simp_all [code]
    · split <;> simp_all [code]

def isValid : Move → Bool
  | invalid _ _ => false
  | _ => true

/-- The name in summaries, events and messages. -/
def name : Move → Text
  | left => "Left"
  | right => "Right"
  | stay => "None"
  | invalid _ _ => "Invalid"

/-- The token of the source notation; an invalid move is written as no move. -/
def token : Move → Symbol
  | left => .ofChar '<'
  | right => .ofChar '>'
  | stay => .ofChar '_'
  | invalid _ _ => .ofChar '_'

def ofToken? (c : Symbol) : Option Move :=
  [left, right, stay].find? fun m => m.token = c

theorem ofToken?_token {m : Move} (h : m.isValid) : ofToken? m.token = some m := by
  cases m with
  | left => rfl
  | right => rfl
  | stay => rfl
  | invalid code h' => simp [isValid] at h

theorem ofToken?_eq_some {c : Symbol} {m : Move} (h : ofToken? c = some m) :
    m.isValid ∧ m.token = c := by
  have hm := List.mem_of_find?_eq_some h
  have ht := List.find?_some h
  refine ⟨?_, by simpa using ht⟩
  rcases List.mem_cons.1 hm with rfl | hm
  · rfl
  · rcases List.mem_cons.1 hm with rfl | hm
    · rfl
    · simp at hm
      subst hm
      rfl

end Move
end SingleTape

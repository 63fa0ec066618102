/-!
Byte strings: the state names, tapes, lines and messages that the simulator reads and writes.
Letters, digits and white space are the ASCII ones.
-/

namespace SingleTape

/-- A byte string, without regard to an encoding. -/
abbrev Text := List UInt8

namespace Text

/-- The bytes of a string, one for each character; the characters have to be below 256. -/
def ofString (s : String) : Text := s.toList.map fun c => c.toNat.toUInt8

instance : Coe String Text := ⟨ofString⟩

def newline : UInt8 := 10

def carriageReturn : UInt8 := 13

/-- Tab, line feed, vertical tab, form feed, carriage return and space. -/
def isSpace (b : UInt8) : Bool := b = 32 || (9 ≤ b && b ≤ 13)

def isDigit (b : UInt8) : Bool := 48 ≤ b && b ≤ 57

/-- Letters, digits and the underscore. -/
def isWordByte (b : UInt8) : Bool :=
  isDigit b || (65 ≤ b && b ≤ 90) || (97 ≤ b && b ≤ 122) || b = 95

def IsWord (t : Text) : Prop := t ≠ [] ∧ ∀ b ∈ t, isWordByte b

instance (t : Text) : Decidable (IsWord t) :=
  @instDecidableAnd _ _ inferInstance (List.decidableBAll (isWordByte · = true) t)

/-- What a reader that stops at the first zero byte sees. -/
def untilNul (t : Text) : Text := t.takeWhile (· ≠ 0)

/-- The pieces between line feeds; nothing follows a line feed that ends the text. -/
def lines : Text → List Text
  | [] => []
  | b :: t =>
    if b = newline then [] :: lines t
    else match lines t with
      | [] => [[b]]
      | l :: ls => (b :: l) :: ls

/-- Drops one carriage return from the end of a line. -/
def dropReturn (l : Text) : Text :=
  if l.getLast? = some carriageReturn then l.dropLast else l

/-- The texts between braces, with a comma and a space between neighbours. -/
def braced (ts : List Text) : Text :=
  "\x7b" ++ (ofString ", ").intercalate ts ++ "\x7d"

theorem not_isSpace_of_isWordByte {b : UInt8} (h : isWordByte b) : isSpace b = false := by
  simp only [isWordByte, isDigit, isSpace, Bool.or_eq_true, Bool.and_eq_true, decide_eq_true_eq,
    Bool.or_eq_false_iff, Bool.and_eq_false_iff, decide_eq_false_iff_not] at h ⊢
  grind

theorem newline_notMem_of_mem_lines {t l : Text} (h : l ∈ lines t) : newline ∉ l := by
  induction t generalizing l with
  | nil => simp [lines] at h
  | cons b t ih =>
    by_cases hb : b = newline
    · rcases List.mem_cons.1 (by simpa [lines, hb] using h) with rfl | h
      · simp
      · exact ih h
    · cases hl : lines t with
      | nil =>
        have h : l = [b] := by simpa [lines, hb, hl] using h
        simp [h, Ne.symm hb]
      | cons l' ls =>
        rcases List.mem_cons.1 (by simpa [lines, hb, hl] using h) with rfl | h
        · have := ih (l := l') (by simp [hl])
          simp [Ne.symm hb, this]
        · exact ih (by simp [hl, h])

end Text
end SingleTape

import SingleTape.Text

/-!
Decimal numerals. Writing puts no leading zero; reading takes the longest numeral at the front,
after white space and an optional sign, and ignores what follows it.
-/

namespace SingleTape.Text

def ofNat (n : Nat) : Text := (Nat.toDigits 10 n).map fun c => c.toNat.toUInt8

def ofInt : Int → Text
  | .ofNat n => ofNat n
  | .negSucc n => "-" ++ ofNat (n + 1)

/-- The number that a list of digits denotes. -/
def digitsValue (ds : Text) : Nat := ds.foldl (fun n d => 10 * n + (d.toNat - 48)) 0

/-- The sign in front of a numeral, plus (43) or minus (45), and the rest. -/
def splitSign : Text → Int × Text
  | 43 :: t => (1, t)
  | 45 :: t => (-1, t)
  | t => (1, t)

/-- The signed 64-bit number at the front of a text. -/
def toInt64? (t : Text) : Option Int :=
  let (sign, rest) := splitSign (t.dropWhile isSpace)
  let digits := rest.takeWhile isDigit
  let n := sign * digitsValue digits
  if digits ≠ [] ∧ Int64.minValue.toInt ≤ n ∧ n ≤ Int64.maxValue.toInt then some n else none

theorem ofNat_ne_nil (n : Nat) : ofNat n ≠ [] := by
  simp [ofNat, Nat.toDigits_ne_nil]

theorem ofNat_of_lt {n : Nat} (h : n < 10) : ofNat n = [(48 + n).toUInt8] := by
  have : ∀ n < 10, ofNat n = [(48 + n).toUInt8] := by decide
  exact this n h

theorem ofNat_of_le {n : Nat} (h : 10 ≤ n) : ofNat n = ofNat (n / 10) ++ ofNat (n % 10) := by
  simp [ofNat, Nat.toDigits_of_base_le (by omega) h,
    Nat.toDigits_of_lt_base (Nat.mod_lt n (by omega : 0 < 10))]

theorem isDigit_of_mem_ofNat {n : Nat} {b : UInt8} (h : b ∈ ofNat n) : isDigit b := by
  have digit : ∀ n < 10, isDigit (48 + n).toUInt8 := by decide
  induction n using Nat.strongRecOn with
  | _ n ih =>
    by_cases hn : n < 10
    · rw [ofNat_of_lt hn, List.mem_singleton] at h
      exact h ▸ digit n hn
    · rw [ofNat_of_le (by omega), List.mem_append] at h
      rcases h with h | h
      · exact ih (n / 10) (by omega) h
      · exact ih (n % 10) (by omega) h

theorem digitsValue_append (ds : Text) (d : UInt8) :
    digitsValue (ds ++ [d]) = 10 * digitsValue ds + (d.toNat - 48) := by
  simp [digitsValue]

/-- Writing a number and reading it gives the number. -/
theorem digitsValue_ofNat (n : Nat) : digitsValue (ofNat n) = n := by
  have digit : ∀ n < 10, (48 + n).toUInt8.toNat - 48 = n := by decide
  induction n using Nat.strongRecOn with
  | _ n ih =>
    by_cases hn : n < 10
    · rw [ofNat_of_lt hn, ← List.nil_append [_], digitsValue_append, digit n hn]
      simp [digitsValue]
    · rw [ofNat_of_le (by omega), ofNat_of_lt (Nat.mod_lt n (by omega)), digitsValue_append,
        ih (n / 10) (by omega), digit (n % 10) (Nat.mod_lt n (by omega))]
      omega

theorem ofNat_inj {m n : Nat} : ofNat m = ofNat n ↔ m = n :=
  ⟨fun h => by rw [← digitsValue_ofNat m, h, digitsValue_ofNat], fun h => h ▸ rfl⟩

end SingleTape.Text

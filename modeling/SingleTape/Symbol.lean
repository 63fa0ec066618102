import SingleTape.Text

/-!
Tape symbols. A symbol is one byte; symbols are ordered by the signed value of the byte, so the
upper half of the byte range comes first.
-/

namespace SingleTape

structure Symbol where
  byte : UInt8
  deriving DecidableEq, Inhabited

namespace Symbol

instance : Ord Symbol := ⟨fun a b => compare a.byte.toInt8 b.byte.toInt8⟩

instance : Std.TransOrd Symbol where
  eq_swap := Std.OrientedOrd.eq_swap (α := Int8)
  isLE_trans := Std.TransOrd.isLE_trans (α := Int8)

instance : Std.LawfulEqOrd Symbol where
  compare_self := Std.ReflOrd.compare_self (α := Int8)
  eq_of_compare h :=
    congrArg (fun i : Int8 => mk i.toUInt8) (Std.LawfulEqOrd.eq_of_compare (α := Int8) h)

/-- The text of one symbol. -/
def text (c : Symbol) : Text := [c.byte]

def ofChar (c : Char) : Symbol := ⟨c.toNat.toUInt8⟩

end Symbol

/-- The symbols of a text, one for each byte. -/
def Text.symbols (t : Text) : List Symbol := t.map Symbol.mk

/-- The text that a row of symbols spells. -/
def Text.ofSymbols (cs : List Symbol) : Text := cs.map Symbol.byte

@[simp] theorem Text.ofSymbols_symbols (t : Text) : ofSymbols (symbols t) = t := by
  simp [ofSymbols, symbols, Function.comp_def]

@[simp] theorem Text.symbols_ofSymbols (cs : List Symbol) : symbols (ofSymbols cs) = cs := by
  simp [ofSymbols, symbols, Function.comp_def]

end SingleTape

import SingleTape.Machine.Validity

/-!
The summary of a machine for human readers.
-/

namespace SingleTape
namespace Machine

def summaryLine (e : Entry) : Text :=
  "  " ++ e.transition.describe e.source e.symbol ++ "\n"

def summary (M : Machine) : Text :=
  "States: " ++ Text.braced M.states.toList
    ++ "\nInput alphabet: " ++ Text.braced (M.input.toList.map Symbol.text)
    ++ "\nTape alphabet: " ++ Text.braced (M.alphabet.toList.map Symbol.text)
    ++ "\nBlank symbol: " ++ M.blank.text
    ++ "\nInitial state: " ++ M.initial
    ++ "\nFinal states: " ++ Text.braced M.finals.toList
    ++ "\nHalt state: " ++ M.halt
    ++ "\n\nTransition function:\n"
    ++ M.table.entries.flatMap summaryLine

end Machine
end SingleTape

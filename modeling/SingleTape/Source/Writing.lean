import SingleTape.Machine
import SingleTape.Source.Statement

/-!
Writing descriptions: a machine as the text of its statements, directives first and transitions in
the order of their keys, under a comment with the counts.
-/

namespace SingleTape
namespace Machine

def directives (M : Machine) : List Statement :=
  [.initial M.initial, .blank M.blank, .halt M.halt] ++ M.finals.toList.map .final

/-- Transitions are written under their keys; stored read symbols do not show. -/
def statements (M : Machine) : List Statement :=
  M.directives ++ M.table.entries.map fun e =>
    .transition e.source e.symbol e.transition.next e.transition.write e.transition.move

def header (M : Machine) : Text :=
  Statement.commentMark ++ " " ++ Text.ofNat M.states.size ++ " states, "
    ++ Text.ofNat M.table.size ++ " transitions\n"

def toSource (M : Machine) : Except Error Text :=
  return M.header ++ (← M.statements.mapM Statement.render).flatten

end Machine
end SingleTape

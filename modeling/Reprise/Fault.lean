/-!
# Faults

A fault is a broken precondition of the library itself, as opposed to an input that does not
parse. Every checked access answers with a fault instead of an undefined value.
-/

namespace Reprise

inductive Fault where
  | splitPastEnd
  | indexPastEnd
  | negativeCount
  | absentAlternative
  deriving DecidableEq, Repr

def Fault.message : Fault → String
  | .splitPastEnd => "take_split() index must be in the bounds of the input!"
  | .indexPastEnd => "slice index out of bounds!"
  | .negativeCount => "A repetition count can't be negative!"
  | .absentAlternative => "the outcome does not hold this alternative"

end Reprise

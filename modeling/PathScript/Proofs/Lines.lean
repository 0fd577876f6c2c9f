import Mathlib.Data.List.Induction
import PathScript.Proofs.Reading.Stmt

/-! # Places and lines

The line of a node is found among the starts of all lines, while the line and
the column of an error are counted in the text before it. Both say the same of
every place, because a line starts behind every line feed and nowhere else. -/

namespace PathScript

namespace Source

/-! ## Where lines start -/

namespace Cut

variable {text behind last : List Char} {lines : List (List Char)}

end Cut

end Source

/-! ## Positions in a compiled program -/

variable {env : Compile.Env} {site function : Nat} {c : Compiled Node}

end PathScript

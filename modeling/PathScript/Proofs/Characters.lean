import Mathlib
import PathScript.Eval

/-! # Characters

A text has a length, a character at each position below it, a part between any
two positions up to it, and a first position at which another text occurs in it.
Each of these members has a test of positions of its own. -/

namespace PathScript

/-! ## Occurrences -/

namespace Text

variable {needle cs : List Char}

end Text

/-! ## Parts -/

namespace Builtin

variable {s t : String} {i j : Int64} {h : Heap}

/-- The characters of a text between two positions. -/
def part (s : String) (start stop : Int) : String :=
  String.ofList ((s.toList.drop start.toNat).take (stop - start).toNat)

end Builtin

/-! ## Members -/

namespace Member

open Builtin

variable {s : String} {i : Int64} {nullSafe : Bool} {h : Heap}

end Member

end PathScript

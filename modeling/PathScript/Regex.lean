import PathScript.Text

/-! # Character sets

A set is kept as the ranges of its code points, in order and with room between
them, so that equal sets are equal as values and the shape of a set tells how
much an automaton for it needs. -/

namespace PathScript.Regex

structure CharSet where
  /-- Inclusive ranges, ascending and apart from each other. -/
  ranges : List (Nat × Nat)
deriving DecidableEq, Inhabited

namespace CharSet

def greatest : Nat := 0x10ffff

/-- A range in front of ranges that start no earlier, joined with those it touches. -/
def join (r : Nat × Nat) : List (Nat × Nat) → List (Nat × Nat)
  | [] => [r]
  | s :: rest => if s.1 ≤ r.2 + 1 then join (r.1, max r.2 s.2) rest else r :: s :: rest

/-- The set of all code points in some ranges, given in any order. -/
def ofRanges (rs : List (Nat × Nat)) : CharSet :=
  ⟨(rs.mergeSort fun a b => decide (a.1 ≤ b.1)).foldr join []⟩

def empty : CharSet := ⟨[]⟩

def range (first last : Char) : CharSet := ⟨[(first.toNat, last.toNat)]⟩

def single (c : Char) : CharSet := range c c

def hasCode (s : CharSet) (n : Nat) : Bool := s.ranges.any fun r => decide (r.1 ≤ n) && decide (n ≤ r.2)

def contains (s : CharSet) (c : Char) : Bool := s.hasCode c.toNat

def union (s t : CharSet) : CharSet := ofRanges (s.ranges ++ t.ranges)

/-- What ranges leave out from `start` on. -/
def gaps (start : Nat) : List (Nat × Nat) → List (Nat × Nat)
  | [] => if start ≤ greatest then [(start, greatest)] else []
  | r :: rest =>
    let later := gaps (r.2 + 1) rest
    if start < r.1 then (start, r.1 - 1) :: later else later

def complement (s : CharSet) : CharSet := ⟨gaps 0 s.ranges⟩

def inter (s t : CharSet) : CharSet := (s.complement.union t.complement).complement

def diff (s t : CharSet) : CharSet := s.inter t.complement

def symmDiff (s t : CharSet) : CharSet := (s.diff t).union (t.diff s)

def isAscii (s : CharSet) : Bool := s.ranges.all fun r => decide (r.2 < 128)

end CharSet

/-! # Properties of characters in patterns

Patterns go by version 16 of the Unicode standard, while names and texts go by
version 17: a digit or a pair of letters that only the later version has is not
known to a pattern. -/

def digitRanges : List (Nat × Nat) := Text.ranges 0 [
  48,10,1574,10,134,10,198,10,412,10,118,10,118,10,118,10,118,10,118,10,118,10,118,10,118,10,118,10,96,10,118,10,70,
  10,278,10,70,10,1862,10,38,10,300,10,128,10,166,10,6,10,182,10,86,10,134,10,6,10,35270,10,678,10,38,10,198,10,22,10,
  86,10,406,10,21270,10,1414,10,2182,10,6,10,796,10,128,10,60,10,144,10,278,10,342,10,118,10,374,10,102,10,6,20,76,10,
  422,10,102,10,662,10,86,10,246,10,70,10,422,10,16854,10,2342,10,86,10,134,10,534,10,24438,10,2772,50,2368,10,422,10,
  502,10,247,10,853,10,4758,10]

/-- Code points of connectors, of a joiner, and of marks that are no letters and extend no grapheme. -/
def connectorRanges : List (Nat × Nat) := Text.ranges 0 [
  95,1,3806,2,3489,1,21,1,789,1,49,2,19,1,35735,1,21062,2,24,3,239,1]

/-- Code points of letters and marks that only version 17 has, and of tags. -/
def laterRanges : List (Nat × Nat) := Text.ranges 0 [
  2191,1,972,1,127,1,3570,15,2,12,36066,2,2,1,1,1,28,1,24910,26,1387,3,50,2,3172,8,584,44,20676,25,2,25,286,5,6145,8,
  1289,22,97,115,22733,31,1,22,8,2,53306,6,5986,12,21762,4298,707494,96]

/-- Of characters that differ in case only one stands for all, most often the lower case. The others are here, with the
shift to it. -/
def foldRuns : List Text.CaseRun :=
  [⟨65, 90, 1, 32⟩, ⟨7299, 7300, 1, -6210⟩] ++ Text.caseShifts [
    (181,775),(383,-268),(837,116),(962,1),(976,-30),(977,-25),(981,-15),(982,-22),(1008,-54),(1009,-48),(1013,-64),
    (7296,-6222),(7297,-6221),(7298,-6212),(7301,-6211),(7302,-6204),(7303,-6180),(7304,35267),(7835,-58),
    (8126,-7173),(8147,-7235),(8163,-7219),(64262,-1)]

def runPairs (r : Text.CaseRun) : List (Nat × Nat) :=
  (List.range ((r.last - r.first) / r.stride + 1)).map fun i =>
    let n := r.first + i * r.stride
    (n, (n + r.shift).toNat)

/-- Code points with the one that stands for them when case is put aside. -/
def foldPairs : List (Nat × Nat) :=
  ((Text.lowerRuns ++ foldRuns).flatMap runPairs).filter fun p => !CharSet.hasCode ⟨laterRanges⟩ p.1

namespace CharSet

def digits : CharSet := ⟨digitRanges⟩

/-- Characters of words: letters, marks, decimal digits, connectors and joiners. -/
def words : CharSet :=
  let letters := (0x41, 0x5a) :: (0x61, 0x7a) :: Text.alphabeticRanges
  let all := ofRanges (letters ++ Text.graphemeExtendRanges ++ digitRanges ++ connectorRanges)
  all.diff ⟨laterRanges⟩

def blanks : CharSet :=
  ⟨[(0x9, 0xd), (0x20, 0x20), (0x85, 0x85), (0xa0, 0xa0), (0x1680, 0x1680), (0x2000, 0x200a), (0x2028, 0x2029),
    (0x202f, 0x202f), (0x205f, 0x205f), (0x3000, 0x3000)]⟩

/-- With every character also those that differ from it in case only. -/
def foldCase (s : CharSet) : CharSet :=
  let images := foldPairs.filterMap fun (n, m) => if s.hasCode n then some (m, m) else none
  let s := ofRanges (s.ranges ++ images)
  ofRanges (s.ranges ++ foldPairs.filterMap fun (n, m) => if s.hasCode m then some (n, n) else none)

/-- With every Latin letter of ASCII also its other case. -/
def foldAscii (s : CharSet) : CharSet :=
  let other (c : Nat) : List (Nat × Nat) :=
    (if s.hasCode c then [(c + 32, c + 32)] else []) ++ (if s.hasCode (c + 32) then [(c, c)] else [])
  ofRanges (s.ranges ++ (List.range 26).flatMap fun i => other (65 + i))

end CharSet

end PathScript.Regex

/-! # Regular expressions

An expression matches a text by its derivatives: after reading a character, what
is left of the expression is again an expression, and at the end it has to
accept the empty text. Assertions (`^`, `$`, word boundaries) look at the
characters on either side of a position, so derivatives and emptiness are taken
between a previous and a next character. -/

namespace PathScript

namespace Regex

/-- What an assertion asks of the words on the two sides of a position. -/
inductive WordEdge where
  /-- A word on one side only. -/
  | boundary
  /-- A word on both sides or on none. -/
  | interior
  | start
  | stop
  /-- No word before. -/
  | startHalf
  /-- No word behind. -/
  | stopHalf
deriving DecidableEq, Inhabited

inductive Look where
  | textStart
  | textEnd
  /-- The start of a line; with `crlf` a carriage return ends a line too. -/
  | lineStart (crlf : Bool)
  | lineEnd (crlf : Bool)
  /-- Words are taken to be of ASCII if `ascii` is set. -/
  | word (edge : WordEdge) (ascii : Bool)
deriving DecidableEq, Inhabited

end Regex

inductive Regex where
  | fail
  | empty
  | chars (s : Regex.CharSet)
  | look (l : Regex.Look)
  | seq (first second : Regex)
  | alt (left right : Regex)
  /-- From `least` to `most` times, without end if `most` is none. -/
  | times (body : Regex) (least : Nat) (most : Option Nat)
  /-- A part of a match that can be asked for. -/
  | group (body : Regex)
deriving DecidableEq, Inhabited

namespace Regex

/-! ## Assertions -/

/-- A character of words in ASCII. -/
def isAsciiWord (c : Char) : Bool := c.isAlphanum || c == '_'

/-- Whether an assertion about words holds, from whether a word is before and behind. -/
def WordEdge.holds (before behind : Bool) : WordEdge → Bool
  | boundary => before != behind
  | interior => before == behind
  | start => !before && behind
  | stop => before && !behind
  | startHalf => !before
  | stopHalf => !behind

def Look.holds (previous next : Option Char) : Look → Bool
  | textStart => previous.isNone
  | textEnd => next.isNone
  | lineStart crlf =>
    previous.isNone || previous == some '\n' || (crlf && previous == some '\r' && next != some '\n')
  | lineEnd crlf =>
    next.isNone || (next == some '\n' && !(crlf && previous == some '\r')) || (crlf && next == some '\r')
  | word edge ascii =>
    let isWord (c : Char) : Bool := if ascii then isAsciiWord c else CharSet.words.contains c
    edge.holds (previous.any isWord) (next.any isWord)

/-! ## Matching -/

/-- Whether an expression matches the empty text between two characters. -/
def nullable (previous next : Option Char) : Regex → Bool
  | fail => false
  | empty => true
  | chars _ => false
  | look l => l.holds previous next
  | seq r s => r.nullable previous next && s.nullable previous next
  | alt r s => r.nullable previous next || s.nullable previous next
  | times r least _ => least == 0 || r.nullable previous next
  | group r => r.nullable previous next

/-- One expression after another, simplified. -/
def mkSeq : Regex → Regex → Regex
  | fail, _ => fail
  | _, fail => fail
  | empty, s => s
  | r, empty => r
  | r, s => seq r s

/-- An expression some times, simplified. -/
def mkTimes (r : Regex) (least : Nat) (most : Option Nat) : Regex :=
  if least = 0 ∧ most = some 0 then empty
  else if least = 1 ∧ most = some 1 then r
  else times r least most

/-- Whether an expression is one of the alternatives of another. -/
def isAlternative (r : Regex) : Regex → Bool
  | alt a b => decide (r = a) || isAlternative r b
  | s => decide (r = s)

/-- Either expression, with no alternative twice. -/
def mkAlt : Regex → Regex → Regex
  | fail, s => s
  | alt a b, s =>
    let rest := mkAlt b s
    if isAlternative a rest then rest else match rest with
      | fail => a
      | _ => alt a rest
  | r, s =>
    if isAlternative r s then s else match s with
      | fail => r
      | _ => alt r s

/-- What is left of an expression after reading `c` behind `previous`. Of a repetition, all rounds that are still
asked for can be empty if one can be empty here. -/
def derivative (previous : Option Char) (c : Char) : Regex → Regex
  | fail => fail
  | empty => fail
  | chars s => if s.contains c then empty else fail
  | look _ => fail
  | seq r s =>
    let after := mkSeq (r.derivative previous c) s
    if r.nullable previous (some c) then mkAlt after (s.derivative previous c) else after
  | alt r s => mkAlt (r.derivative previous c) (s.derivative previous c)
  | times r least most =>
    if most == some 0 then fail
    else
      let least := if r.nullable previous (some c) then 0 else least - 1
      mkSeq (r.derivative previous c) (mkTimes r least (most.map (· - 1)))
  | group r => r.derivative previous c

/-- Whether `start` matches somewhere in the rest of a text, or `current` from here on. -/
def matchesFrom (start current : Regex) (previous : Option Char) : List Char → Bool
  | [] => (mkAlt current start).nullable previous none
  | c :: rest =>
    let here := mkAlt current start
    here.nullable previous (some c) ||
      matchesFrom start (here.derivative previous c) (some c) rest

def isMatch (r : Regex) (s : String) : Bool := matchesFrom r fail none s.toList

end Regex

end PathScript

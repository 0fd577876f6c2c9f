import PathScript.Number
import PathScript.Regex

/-! # Classes in brackets

A class lists characters, ranges, named classes and classes in brackets of
their own. Lists can be combined by intersection (`&&`), difference (`--`) and
symmetric difference (`~~`), from left to right. A class is read with a stack
of the brackets that are open, and every step of the reader takes at least one
character, so that its length bounds the number of steps. -/

namespace PathScript.Regex

/-! ## Faults and flags -/

inductive PatternError where
  | unclosedGroup
  | unopenedGroup
  | nothingToRepeat
  | badRepetition
  | unclosedClass
  | badRange
  | badEscape
  | badFlags
  | badGroupName
  /-- Without Unicode a pattern could match a part of a character. -/
  | notText
  /-- Groups, classes and repetitions are too deeply inside each other. -/
  | tooDeep
  /-- The automata of the pattern would be too large. -/
  | tooLarge
deriving DecidableEq, Inhabited

def PatternError.message : PatternError → String
  | unclosedGroup => "regex parse error: unclosed group"
  | unopenedGroup => "regex parse error: unopened group"
  | nothingToRepeat => "regex parse error: repetition operator missing expression"
  | badRepetition => "regex parse error: invalid repetition count"
  | unclosedClass => "regex parse error: unclosed character class"
  | badRange => "regex parse error: invalid character class range"
  | badEscape => "regex parse error: unrecognized escape sequence"
  | badFlags => "regex parse error: unrecognized flag"
  | badGroupName => "regex parse error: invalid capture group name"
  | notText => "regex parse error: pattern can match invalid UTF-8"
  | tooDeep => "regex parse error: exceeded the maximum number of nested parentheses/brackets (250)"
  | tooLarge => "Compiled regex exceeds size limit of 10485760 bytes."

structure Flags where
  foldCase : Bool
  multiLine : Bool
  dotAll : Bool
  /-- A carriage return ends a line too. -/
  crlf : Bool
  /-- Classes and case are those of ASCII. -/
  ascii : Bool
  /-- Blanks and comments stand for nothing. -/
  verbose : Bool
deriving DecidableEq, Inhabited

def Flags.standard : Flags := ⟨false, false, false, false, false, false⟩

/-- Past blanks, and past comments from `#` to the end of their line. -/
def skipBlanks (inComment : Bool) : List Char → List Char
  | [] => []
  | c :: rest =>
    if inComment then skipBlanks (c != '\n') rest
    else if Text.isBlank c then skipBlanks false rest
    else if c == '#' then skipBlanks true rest
    else c :: rest

/-- Past what stands for nothing. -/
def Flags.skip (f : Flags) (cs : List Char) : List Char := if f.verbose then skipBlanks false cs else cs

/-- A set with the other cases of its characters, if case is put aside. -/
def Flags.fold (f : Flags) (s : CharSet) : CharSet :=
  if f.foldCase then (if f.ascii then s.foldAscii else s.foldCase) else s

/-! ## Escapes -/

/-- The classes with a letter of their own. -/
inductive LetterClass where
  | digit
  | word
  | blank
deriving DecidableEq, Inhabited

/-- The characters of a class with a letter. Only their complements reach beyond ASCII without Unicode. -/
def LetterClass.set (f : Flags) (negated : Bool) (k : LetterClass) : Except PatternError CharSet :=
  let unicode := match k with
    | digit => CharSet.digits
    | word => CharSet.words
    | blank => CharSet.blanks
  if f.ascii then
    if negated then .error .notText else .ok (unicode.inter ⟨[(0, 127)]⟩)
  else .ok (if negated then unicode.complement else unicode)

inductive Escape where
  /-- A character; `byte` if it is written as a byte. -/
  | char (c : Char) (byte : Bool)
  | letter (k : LetterClass) (negated : Bool)
  | look (l : Look)

/-- A number of exactly so many hexadecimal digits behind `acc`. -/
def takeHexDigits (f : Flags) : Nat → Nat → List Char → Option (Nat × List Char)
  | 0, acc, cs => some (acc, cs)
  | _ + 1, _, [] => none
  | n + 1, acc, c :: rest =>
    (Number.digitValue? 16 c).bind fun d => takeHexDigits f n (acc * 16 + d) (f.skip rest)

/-- A hexadecimal number in braces, after the opening one. -/
def takeHexBraces (f : Flags) (cs : List Char) : Option (Nat × List Char) :=
  let body := cs.takeWhile (· != '\x7d')
  match cs.drop body.length with
  | [] => none
  | _ :: rest =>
    let digits := if f.verbose then body.filter (fun c => !Text.isBlank c) else body
    (Number.readNat? 16 digits).map (·, f.skip rest)

/-- The character of a code, of so many digits or in braces. -/
def takeCode (f : Flags) (count : Nat) (cs : List Char) : Except PatternError (Escape × List Char) :=
  let number := match f.skip cs with
    | '\x7b' :: rest => (takeHexBraces f rest).map (·, false)
    | cs => (takeHexDigits f count 0 cs).map (·, count == 2)
  match number with
  | some ((n, rest), byte) =>
    if n.isValidChar then .ok (.char (Char.ofNat n) byte, rest) else .error .badEscape
  | none => .error .badEscape

/-- A word boundary, with what it is asked for in braces. Braces that start otherwise count repetitions. -/
def takeBoundary (f : Flags) (cs : List Char) : Except PatternError (Escape × List Char) :=
  let isNameChar (c : Char) : Bool := c.isAlpha || c == '-'
  let edge (e : WordEdge) : Escape := .look (.word e f.ascii)
  match cs with
  | '\x7b' :: more =>
    match f.skip more with
    | [] => .error .badEscape
    | c :: _ =>
      if isNameChar c then
        let name := (f.skip more).takeWhile isNameChar
        match (f.skip more).drop name.length with
        | '\x7d' :: rest =>
          match String.ofList name with
          | "start" => .ok (edge .start, rest)
          | "end" => .ok (edge .stop, rest)
          | "start-half" => .ok (edge .startHalf, rest)
          | "end-half" => .ok (edge .stopHalf, rest)
          | _ => .error .badEscape
        | _ => .error .badEscape
      else .ok (edge .boundary, cs)
  | _ => .ok (edge .boundary, cs)

/-- An escape, after its backslash. Punctuation of ASCII stands for itself. -/
def takeEscape (f : Flags) : List Char → Except PatternError (Escape × List Char)
  | [] => .error .badEscape
  | c :: rest =>
    match c with
    | 'd' => .ok (.letter .digit false, rest)
    | 'D' => .ok (.letter .digit true, rest)
    | 'w' => .ok (.letter .word false, rest)
    | 'W' => .ok (.letter .word true, rest)
    | 's' => .ok (.letter .blank false, rest)
    | 'S' => .ok (.letter .blank true, rest)
    | 'b' => takeBoundary f rest
    | 'B' => .ok (.look (.word .interior f.ascii), rest)
    | '<' => .ok (.look (.word .start f.ascii), rest)
    | '>' => .ok (.look (.word .stop f.ascii), rest)
    | 'A' => .ok (.look .textStart, rest)
    | 'z' => .ok (.look .textEnd, rest)
    | 'n' => .ok (.char '\n' false, rest)
    | 't' => .ok (.char '\t' false, rest)
    | 'r' => .ok (.char '\r' false, rest)
    | 'f' => .ok (.char '\x0c' false, rest)
    | 'v' => .ok (.char '\x0b' false, rest)
    | 'a' => .ok (.char '\x07' false, rest)
    | 'x' => takeCode f 2 rest
    | 'u' => takeCode f 4 rest
    | 'U' => takeCode f 8 rest
    | _ => if c.toNat < 128 && !c.isAlphanum then .ok (.char c false, rest) else .error .badEscape

/-! ## Brackets -/

/-- A part of a class: its characters, and how deep brackets and lists are inside each other in it. -/
structure ClassItem where
  set : CharSet
  depth : Nat
deriving Inhabited

inductive SetOp where
  | inter
  | diff
  | symmDiff
deriving DecidableEq, Inhabited

def SetOp.apply : SetOp → CharSet → CharSet → CharSet
  | inter => .inter
  | diff => .diff
  | symmDiff => .symmDiff

/-- A bracket that is open: the current list, last part first, and the operation that waits for it. -/
structure Bracket where
  negated : Bool
  items : List ClassItem
  pending : Option (SetOp × ClassItem)
deriving Inhabited

namespace Bracket

def add (b : Bracket) (i : ClassItem) : Bracket := { b with items := i :: b.items }

def list (b : Bracket) : ClassItem :=
  match b.items with
  | [] => ⟨.empty, 0⟩
  | [i] => i
  | is => ⟨.ofRanges (is.flatMap (·.set.ranges)), 1 + (is.map (·.depth)).foldl max 0⟩

/-- All that was read, with the operation that waits carried out. -/
def combined (f : Flags) (b : Bracket) : ClassItem :=
  match b.pending with
  | none => b.list
  | some (op, left) =>
    ⟨op.apply (f.fold left.set) (f.fold b.list.set), 1 + max left.depth b.list.depth⟩

/-- An operation follows. -/
def operator (f : Flags) (op : SetOp) (b : Bracket) : Bracket := ⟨b.negated, [], some (op, b.combined f)⟩

def close (f : Flags) (b : Bracket) : Except PatternError ClassItem :=
  let i := b.combined f
  let set := f.fold i.set
  if b.negated then
    if f.ascii then .error .notText else .ok ⟨set.complement, i.depth + 1⟩
  else .ok ⟨set, i.depth + 1⟩

end Bracket

/-- The classes of ASCII by their names. -/
def asciiClass? (name : String) : Option CharSet :=
  let set (rs : List (Char × Char)) : CharSet := .ofRanges (rs.map fun r => (r.1.toNat, r.2.toNat))
  match name with
  | "alnum" => some (set [('0', '9'), ('A', 'Z'), ('a', 'z')])
  | "alpha" => some (set [('A', 'Z'), ('a', 'z')])
  | "ascii" => some (set [('\x00', '\x7f')])
  | "blank" => some (set [('\t', '\t'), (' ', ' ')])
  | "cntrl" => some (set [('\x00', '\x1f'), ('\x7f', '\x7f')])
  | "digit" => some (set [('0', '9')])
  | "graph" => some (set [('!', '~')])
  | "lower" => some (set [('a', 'z')])
  | "print" => some (set [(' ', '~')])
  | "punct" => some (set [('!', '/'), (':', '@'), ('[', '\x60'), ('\x7b', '~')])
  | "space" => some (set [('\t', '\r'), (' ', ' ')])
  | "upper" => some (set [('A', 'Z')])
  | "word" => some (set [('0', '9'), ('A', 'Z'), ('a', 'z'), ('_', '_')])
  | "xdigit" => some (set [('0', '9'), ('A', 'F'), ('a', 'f')])
  | _ => none

/-- A named class between colons, after its opening bracket. Anything else there is no named class. -/
def takeNamed? (cs : List Char) : Option (CharSet × Bool × List Char) :=
  match cs with
  | ':' :: cs =>
    let negated := cs.head? == some '^'
    let cs := if negated then cs.tail else cs
    let name := cs.takeWhile (· != ':')
    match cs.drop name.length with
    | ':' :: ']' :: rest => (asciiClass? (String.ofList name)).map (·, negated, rest)
    | _ => none
  | _ => none

/-- A named class under some flags. -/
def namedItem (f : Flags) (set : CharSet) (negated : Bool) : Except PatternError ClassItem :=
  if negated then
    if f.ascii then .error .notText else .ok ⟨(f.fold set).complement, 0⟩
  else .ok ⟨f.fold set, 0⟩

/-- Opens a bracket, after its character. Hyphens at the start stand for themselves, and so does a closing bracket. -/
def openBracket (f : Flags) (cs : List Char) : Except PatternError (Bracket × List Char) :=
  let cs := f.skip cs
  let negated := cs.head? == some '^'
  let cs := if negated then f.skip cs.tail else cs
  let hyphens := cs.takeWhile (· == '-')
  let first := if hyphens.isEmpty then (cs.take 1).filter (· == ']') else hyphens
  match f.skip (cs.drop first.length) with
  | [] => .error .unclosedClass
  | rest => .ok (⟨negated, first.map fun c => ⟨.single c, 0⟩, none⟩, rest)

def takeAtom (f : Flags) : List Char → Except PatternError (Escape × List Char)
  | [] => .error .unclosedClass
  | '\\' :: rest => takeEscape f rest
  | c :: rest => .ok (.char c false, rest)

/-- The characters from one to another. -/
def rangeItem (f : Flags) (first last : Char) : Except PatternError ClassItem :=
  if last < first then .error .badRange
  else if f.ascii && decide (128 ≤ last.toNat) then .error .notText
  else .ok ⟨.range first last, 0⟩

/-- What an escape stands for in a class. -/
def atomItem (f : Flags) : Escape → Except PatternError ClassItem
  | .char c _ => rangeItem f c c
  | .letter k negated => (k.set f negated).map (⟨·, 0⟩)
  | .look _ => .error .badEscape

/-- A character, an escape or a range. A hyphen in front of a closing bracket or another hyphen makes no range. -/
def takeRange (f : Flags) (cs : List Char) : Except PatternError (ClassItem × List Char) := do
  let (first, rest) ← takeAtom f cs
  let alone : Except PatternError (ClassItem × List Char) := (atomItem f first).map (·, rest)
  match f.skip rest with
  | [] => .error .unclosedClass
  | '-' :: more =>
    match f.skip more with
    | [] => .error .unclosedClass
    | ']' :: _ | '-' :: _ => alone
    | more => do
      let (last, rest) ← takeAtom f more
      match first, last with
      | .char a _, .char b _ => (rangeItem f a b).map (·, rest)
      | _, _ => .error .badRange
  | _ => alone

/-- The rest of the innermost open bracket and of those around it, in at most `fuel` steps. -/
def takeBrackets (f : Flags) : Nat → Bracket → List Bracket → List Char → Except PatternError (ClassItem × List Char)
  | 0, _, _, _ => .error .unclosedClass
  | fuel + 1, b, outer, cs =>
    match f.skip cs with
    | [] => .error .unclosedClass
    | '[' :: rest =>
      match takeNamed? rest with
      | some (set, negated, rest) => do takeBrackets f fuel (b.add (← namedItem f set negated)) outer rest
      | none => do
        let (inner, rest) ← openBracket f rest
        takeBrackets f fuel inner (b :: outer) rest
    | ']' :: rest => do
      let item ← b.close f
      match outer with
      | [] => pure (item, rest)
      | o :: more => takeBrackets f fuel (o.add item) more rest
    | '&' :: '&' :: rest => takeBrackets f fuel (b.operator f .inter) outer rest
    | '-' :: '-' :: rest => takeBrackets f fuel (b.operator f .diff) outer rest
    | '~' :: '~' :: rest => takeBrackets f fuel (b.operator f .symmDiff) outer rest
    | cs => do
      let (item, rest) ← takeRange f cs
      takeBrackets f fuel (b.add item) outer rest

def takeClass (f : Flags) (cs : List Char) : Except PatternError (ClassItem × List Char) := do
  let (b, rest) ← openBracket f cs
  takeBrackets f (rest.length + 1) b [] rest

/-! # Sizes of automata

An expression may take no more room than a fixed limit when it is laid out as
an automaton over bytes, once for reading forward and once for reading
backward. Every state takes the same room; besides, a state that branches by
bytes takes room for each branch, and one that branches without reading for
each of its successors. A repetition is laid out as often as it is counted. -/

/-- Bytes that the two automata take. -/
structure Size where
  forward : Nat
  backward : Nat
deriving DecidableEq, Inhabited

namespace Size

def add (a b : Size) : Size := ⟨a.forward + b.forward, a.backward + b.backward⟩

def scale (n : Nat) (a : Size) : Size := ⟨n * a.forward, n * a.backward⟩

/-- The same size in both directions. -/
def both (n : Nat) : Size := ⟨n, n⟩

/-- The room of a state. -/
def state : Nat := 32

/-- The room of a branch by bytes. -/
def branch : Nat := 8

/-- The room of a successor that is reached without reading. -/
def successor : Nat := 4

def limit : Nat := 10 * 1024 * 1024

def isWithin (a : Size) : Bool := decide (a.forward ≤ limit) && decide (a.backward ≤ limit)

end Size

/-! ## Sequences of bytes -/

/-- Ranges of bytes, one for each byte of a character. -/
abbrev ByteSeq := List (Nat × Nat)

/-- A range of bytes that go on with a character. -/
def tailByte (first last : Nat) : Nat × Nat := (0x80 + first, 0x80 + last)

/-- The sequences for numbers from `first` to `last`, written with `k` bytes of six bits behind a leading one. -/
def sequences (lead : Nat → Nat → Nat × Nat) : Nat → Nat → Nat → List ByteSeq
  | 0, first, last => [[lead first last]]
  | k + 1, first, last =>
    let block := 64 ^ (k + 1)
    let top := first / block
    let end_ := last / block
    let one (n a b : Nat) : List ByteSeq := (sequences tailByte k a b).map (lead n n :: ·)
    if top = end_ then one top (first % block) (last % block)
    else
      let cutsFirst := first % block ≠ 0
      let cutsLast := last % block ≠ block - 1
      let low := if cutsFirst then top + 1 else top
      let high := if cutsLast then end_ - 1 else end_
      (if cutsFirst then one top (first % block) (block - 1) else []) ++
        (if low ≤ high then [lead low high :: List.replicate (k + 1) (tailByte 0 63)] else []) ++
        (if cutsLast then one end_ 0 (last % block) else [])

/-- The code points of characters with one to four bytes, and the byte that they start with. -/
def lengthClasses : List (Nat × Nat × Nat × Nat) :=
  [(0, 0x7f, 0, 0), (0x80, 0x7ff, 1, 0xc0), (0x800, 0xd7ff, 2, 0xe0), (0xe000, 0xffff, 2, 0xe0),
    (0x10000, 0x10ffff, 3, 0xf0)]

def byteSeqs (r : Nat × Nat) : List ByteSeq :=
  lengthClasses.flatMap fun (first, last, more, lead) =>
    let a := max r.1 first
    let b := min r.2 last
    if a ≤ b then sequences (fun m n => (lead + m, lead + n)) more a b else []

/-- The first bytes of sequences in order, each with what follows it. -/
def heads (seqs : List ByteSeq) : List ((Nat × Nat) × List ByteSeq) :=
  seqs.foldr (fun s groups =>
    match s, groups with
    | [], _ => groups
    | b :: rest, (c, rests) :: more => if b = c then (c, rest :: rests) :: more else (b, [rest]) :: groups
    | b :: rest, [] => [(b, [rest])]) []

/-- The states that read sequences: the first, and for each level the states reached by one byte more. -/
def readers : Nat → List (List ByteSeq) → List (List ByteSeq)
  | 0, _ => []
  | n + 1, level =>
    let next := level.flatMap fun seqs => (heads seqs).map (·.2)
    level ++ readers n (next.filter fun seqs => !seqs.all List.isEmpty).eraseDups

/-- The room that a set takes in both directions. Forward, states that read the same are one; backward, sequences share
the bytes they start with. -/
def setSize (s : CharSet) : Size :=
  if s.ranges.isEmpty then .both Size.state
  else if s.isAscii then .both (2 * Size.state + s.ranges.length * Size.branch)
  else
    let seqs := s.ranges.flatMap byteSeqs
    let states := (readers 4 [seqs]).eraseDups
    let branches := states.map fun seqs => Size.state + (heads seqs).length * Size.branch
    let starts := (seqs.flatMap fun s => (List.range s.length).map fun i => s.take (i + 1)).eraseDups
    ⟨branches.foldl (· + ·) Size.state, (2 + starts.length) * Size.state + seqs.length * Size.successor⟩

/-- A bound on the room of a set that is quickly found. -/
def setBound (s : CharSet) : Size := .both ((s.ranges.length + 1) * 3000)

/-! ## Expressions -/

/-- Whether an expression matches nothing but the empty text. -/
def onlyEmpty : Regex → Bool
  | fail => false
  | empty => true
  | chars _ => false
  | look _ => true
  | seq r s => r.onlyEmpty && s.onlyEmpty
  | alt r s => r.onlyEmpty && s.onlyEmpty
  | times r _ most => r.onlyEmpty || most == some 0
  | group r => r.onlyEmpty

/-- Whether every match of an expression has a character. -/
def needsChar : Regex → Bool
  | fail => false
  | empty => false
  | chars _ => true
  | look _ => false
  | seq r s => r.needsChar || s.needsChar
  | alt r s => r.needsChar && s.needsChar
  | times r least _ => least != 0 && r.needsChar
  | group r => r.needsChar

/-- The room of an expression of size `c` that is repeated. -/
def timesSize (c : Size) (needsChar : Bool) (least : Nat) (most : Option Nat) : Size :=
  let fork := Size.state + 2 * Size.successor
  let rounds := if least = 0 then .both Size.state else c.scale least
  match most with
  | none =>
    if least = 0 then c.add (.both (if needsChar then fork else 2 * fork + Size.state))
    else rounds.add (.both fork)
  | some most =>
    if least = most then rounds
    else if least = 0 ∧ most = 1 then c.add (.both (fork + Size.state))
    else (rounds.add (.both Size.state)).add ((c.add (.both fork)).scale (most - least))

/-- The room of an expression, given that of sets; `inAlt` if it is one of several alternatives. -/
def sizeWith (ofSet : CharSet → Size) (inAlt : Bool) (r : Regex) : Size :=
  let here (s : Size) : Size := if inAlt then s.add (.both Size.successor) else s
  match r with
  | fail | empty | look _ => here (.both Size.state)
  | chars s =>
    here <| match s.ranges with
      | [(a, b)] => if a = b then .both ((Char.ofNat a).utf8Size * Size.state) else ofSet s
      | _ => ofSet s
  | seq r s => here ((r.sizeWith ofSet false).add (s.sizeWith ofSet false))
  | alt r s =>
    let branches := (r.sizeWith ofSet true).add (s.sizeWith ofSet true)
    if inAlt then branches else branches.add (.both (2 * Size.state))
  | times r least most =>
    let c := r.sizeWith ofSet false
    here (if r.onlyEmpty then timesSize c false (min least 1) (some (min (most.getD 1) 1))
      else timesSize c r.needsChar least most)
  | group r => here ((r.sizeWith ofSet false).add ⟨2 * Size.state, 0⟩)

/-- The room of a whole expression, with that of its start, its end and the match. -/
def totalSize (ofSet : CharSet → Size) (r : Regex) : Size :=
  (r.sizeWith ofSet false).add ⟨4 * Size.state, 2 * Size.state⟩

/-- Whether the automata of an expression keep the limit. -/
def fits (r : Regex) : Bool := (r.totalSize setBound).isWithin || (r.totalSize setSize).isWithin

/-! # Written regular expressions

A pattern is read from left to right with a stack of the groups that are open.
Every step of the reader takes at least one character, so its length bounds the
number of steps. A pattern that is well formed can still be refused for being
too deep or too large. -/

/-! ## Parts and groups -/

structure Part where
  expr : Regex
  /-- How deep groups, lists, classes and repetitions are inside each other in it. -/
  depth : Nat
  /-- A change of flags cannot be repeated. -/
  repeatable : Bool
deriving Inhabited

/-- A part that can be repeated. -/
def Part.plain (expr : Regex) (depth : Nat) : Part := ⟨expr, depth, true⟩

/-- One more than the greatest depth of some parts. -/
def depthOver (ps : List Part) : Nat := 1 + (ps.map (·.depth)).foldl max 0

/-- Parts, last one first, one after another. -/
def sequence : List Part → Part
  | [] => .plain empty 0
  | [p] => p
  | reversed => .plain (reversed.foldl (fun acc p => mkSeq p.expr acc) empty) (depthOver reversed)

/-- The set of an expression that matches one character. -/
def set? : Regex → Option CharSet
  | chars s => some s
  | _ => none

/-- Alternatives, last one first. Alternatives that all match one character are one set. -/
def alternatives : List Part → Part
  | [] => .plain fail 0
  | [p] => p
  | p :: earlier =>
    let expr := match (p :: earlier).mapM (set? ·.expr) with
      | some sets => chars (.ofRanges (sets.flatMap (·.ranges)))
      | none => earlier.foldl (fun acc q => .alt q.expr acc) p.expr
    .plain expr (depthOver (p :: earlier))

/-- A group that is being read: finished alternatives and the parts of the current one, last ones first. -/
structure Group where
  finished : List Part
  parts : List Part
  flags : Flags
  /-- Whether the group is a part of a match that can be asked for. -/
  captures : Bool
deriving Inhabited

namespace Group

def start (flags : Flags) (captures : Bool) : Group := ⟨[], [], flags, captures⟩

def body (g : Group) : Part := alternatives (sequence g.parts :: g.finished)

def close (g : Group) : Part :=
  let b := g.body
  .plain (if g.captures then .group b.expr else b.expr) (b.depth + 1)

def push (g : Group) (p : Part) : Group := { g with parts := p :: g.parts }

def bar (g : Group) : Group := { g with finished := sequence g.parts :: g.finished, parts := [] }

def repeatLast (g : Group) (least : Nat) (most : Option Nat) : Except PatternError Group :=
  match g.parts with
  | p :: rest =>
    if p.repeatable then .ok { g with parts := .plain (mkTimes p.expr least most) (p.depth + 1) :: rest }
    else .error .nothingToRepeat
  | [] => .error .nothingToRepeat

end Group

/-! ## Counts, flags and names -/

/-- Digits in front of a text, with blanks on either side. -/
def takeNumber (f : Flags) (cs : List Char) : Option Nat × List Char :=
  let (digits, rest) := Number.spanDigits ((f.skip cs).dropWhile Text.isBlank)
  ((Number.readNat? 10 digits).filter fun n => decide (n < UInt32.size), f.skip (rest.dropWhile Text.isBlank))

/-- The counts of a repetition, after its opening brace. -/
def takeCounts (f : Flags) (cs : List Char) : Option (Nat × Option Nat × List Char) :=
  match takeNumber f cs with
  | (none, _) => none
  | (some least, '\x7d' :: rest) => some (least, some least, rest)
  | (some least, ',' :: more) =>
    match f.skip more with
    | '\x7d' :: rest => some (least, none, rest)
    | more =>
      match takeNumber f more with
      | (some most, '\x7d' :: rest) => if least ≤ most then some (least, some most, rest) else none
      | _ => none
  | _ => none

/-- Flags in the order they are written, on until a hyphen and off behind it. -/
def Flags.apply (off : Bool) (f : Flags) : List Char → Flags
  | [] => f
  | c :: rest =>
    match c with
    | '-' => Flags.apply true f rest
    | 'i' => Flags.apply off { f with foldCase := !off } rest
    | 'm' => Flags.apply off { f with multiLine := !off } rest
    | 's' => Flags.apply off { f with dotAll := !off } rest
    | 'R' => Flags.apply off { f with crlf := !off } rest
    | 'u' => Flags.apply off { f with ascii := off } rest
    | 'x' => Flags.apply off { f with verbose := !off } rest
    | _ => Flags.apply off f rest

/-- Flags up to the colon or parenthesis behind them. None may be written twice, and a hyphen needs one behind it. -/
def takeFlags (cs : List Char) : Option (List Char × List Char) :=
  let flags := cs.takeWhile fun c => c != ':' && c != ')'
  let rest := cs.drop flags.length
  let fine := flags.all ("imsRuxU-".toList.contains ·) && flags.eraseDups.length == flags.length &&
    flags.getLast? != some '-'
  if fine && !rest.isEmpty then some (flags, rest) else none

/-- The name of a group up to its closing angle. -/
def takeName (cs : List Char) : Option (List Char × List Char) :=
  let name := cs.takeWhile (· != '>')
  let isStart (c : Char) : Bool := c == '_' || Text.isAlphabetic c
  let isNext (c : Char) : Bool := ['_', '.', '[', ']'].contains c || Text.isAlphanumeric c
  match name, cs.drop name.length with
  | c :: more, _ :: rest => if isStart c && more.all isNext then some (name, rest) else none
  | _, _ => none

/-- What an opening parenthesis begins: a group, perhaps with a name, or a change of flags. -/
inductive Opening where
  | group (flags : Flags) (captures : Bool)
  | named (name : List Char)
  | settings (flags : Flags)

/-- What follows an opening parenthesis. -/
def takeOpening (f : Flags) (cs : List Char) : Except PatternError (Opening × List Char) :=
  let named (cs : List Char) : Except PatternError (Opening × List Char) :=
    match takeName cs with
    | some (name, rest) => .ok (.named name, rest)
    | none => .error .badGroupName
  match cs with
  | '?' :: 'P' :: '<' :: rest => named rest
  | '?' :: '<' :: rest => named rest
  | '?' :: rest =>
    match takeFlags rest with
    | some (flags, ':' :: rest) => .ok (.group (f.apply false flags) false, rest)
    | some (flags, _ :: rest) =>
      if flags.isEmpty then .error .nothingToRepeat else .ok (.settings (f.apply false flags), rest)
    | _ => .error .badFlags
  | cs => .ok (.group f true, cs)

/-! ## Patterns -/

def literal (f : Flags) (c : Char) : Regex :=
  if f.ascii && decide (128 ≤ c.toNat) then chars (.single c) else chars (f.fold (.single c))

/-- Any character but the ends of lines, or any at all. -/
def dot (f : Flags) : Except PatternError Regex :=
  let ends : List (Nat × Nat) := if f.dotAll then [] else if f.crlf then [(10, 10), (13, 13)] else [(10, 10)]
  if f.ascii then .error .notText else .ok (chars (CharSet.complement ⟨ends⟩))

def escaped (f : Flags) : Escape → Except PatternError Regex
  | .char c byte =>
    if f.ascii && byte && decide (128 ≤ c.toNat) then .error .notText else .ok (literal f c)
  | .letter k negated => (k.set f negated).map chars
  | .look l => .ok (look l)

/-- What one character of a pattern does. -/
inductive Action where
  | part (p : Part)
  | open (o : Opening)
  | close
  | bar
  | repeated (least : Nat) (most : Option Nat)

/-- The next action of a pattern and what is left of it. -/
def nextAction (f : Flags) (c : Char) (rest : List Char) : Except PatternError (Action × List Char) :=
  let lazily (a : Action) (cs : List Char) : Except PatternError (Action × List Char) :=
    match cs with
    | '?' :: more => .ok (a, more)
    | _ => .ok (a, cs)
  let single (r : Regex) : Except PatternError (Action × List Char) := .ok (.part (.plain r 0), rest)
  match c with
  | '(' => (takeOpening f (f.skip rest)).map fun p => (.open p.1, p.2)
  | ')' => .ok (.close, rest)
  | '|' => .ok (.bar, rest)
  | '*' => lazily (.repeated 0 none) rest
  | '+' => lazily (.repeated 1 none) rest
  | '?' => lazily (.repeated 0 (some 1)) rest
  | '\x7b' => match takeCounts f rest with
    | some (least, most, more) => lazily (.repeated least most) (f.skip more)
    | none => .error .badRepetition
  | '[' => (takeClass f rest).map fun p => (.part (.plain (chars p.1.set) p.1.depth), p.2)
  | '.' => (dot f).bind single
  | '^' => single (look (if f.multiLine then .lineStart f.crlf else .textStart))
  | '$' => single (look (if f.multiLine then .lineEnd f.crlf else .textEnd))
  | '\\' => do
    let (e, more) ← takeEscape f rest
    pure (.part (.plain (← escaped f e) 0), more)
  | c => single (literal f c)

/-- Reads a pattern, with at most `fuel` actions, inside the groups of `outer` and after groups with those names. -/
def readGroups : Nat → List (List Char) → Group → List Group → List Char → Except PatternError Part
  | 0, _, _, _, _ => .error .unclosedGroup
  | fuel + 1, names, g, outer, cs =>
    match g.flags.skip cs, outer with
    | [], [] => .ok g.body
    | [], _ :: _ => .error .unclosedGroup
    | c :: rest, outer => do
      let (action, rest) ← nextAction g.flags c rest
      match action with
      | .part p => readGroups fuel names (g.push p) outer rest
      | .open (.group flags captures) => readGroups fuel names (.start flags captures) (g :: outer) rest
      | .open (.named name) =>
        if names.contains name then .error .badGroupName
        else readGroups fuel (name :: names) (.start g.flags true) (g :: outer) rest
      | .open (.settings flags) =>
        readGroups fuel names (Group.push { g with flags := flags } ⟨empty, 0, false⟩) outer rest
      | .close =>
        match outer with
        | o :: more => readGroups fuel names (o.push g.close) more rest
        | [] => .error .unopenedGroup
      | .bar => readGroups fuel names g.bar outer rest
      | .repeated least most => do
        let g ← g.repeatLast least most
        readGroups fuel names g outer rest

def depthLimit : Nat := 250

def parse (pattern : String) : Except PatternError Regex := do
  let cs := pattern.toList
  let p ← readGroups (cs.length + 1) [] (.start .standard false) [] cs
  if depthLimit < p.depth then .error .tooDeep
  else if p.expr.fits then .ok p.expr
  else .error .tooLarge

/-- The expression that matches a text as a whole. The pattern stands in a group between the two ends. -/
def whole (pattern : String) : Except PatternError Regex := parse ("^(?:" ++ pattern ++ ")$")

end PathScript.Regex

import PathScript.Operator
import PathScript.Regex
import PathScript.Source

/-! # Program trees

A program is a tree that never changes once it is compiled. What evaluation
remembers between runs is kept elsewhere, under the number of a *site*: every
node that can remember something carries one.

A property path (`a.b[0].c(x)`) is kept whole, with its text and its steps,
because evaluation treats it as a unit. -/

namespace PathScript

/-- The number of a place that remembers how it was evaluated. -/
abbrev SiteId := Nat

structure Info where
  span : Span
  egress : Ty
  /-- Source line, when lines are recorded. -/
  line : Option Nat
deriving DecidableEq, Inhabited

structure Param where
  name : String
  ty : Option Ty
deriving DecidableEq, Inhabited

inductive LoopKind where
  | whileLoop
  | untilLoop
  | doWhile
  | doUntil
  | forLoop
deriving DecidableEq, Inhabited

mutual

structure Node where
  info : Info
  kind : NodeKind

inductive NodeKind where
  | literal (value : Value)
  /-- The word `empty`, other than in a comparison. -/
  | emptyWord
  | property (path : Path) (site : SiteId)
  | unary (op : UnaryOp) (operand : Node)
  | binary (op : Operator) (lhs rhs : Node)
  | and (lhs rhs : Node)
  | or (lhs rhs : Node)
  | ternary (cond thenBranch elseBranch : Node)
  /-- `subject == empty` or, negated, `subject != empty`. -/
  | emptyTest (subject : Node) (negate : Bool)
  /-- The expression of a literal pattern is kept ready. -/
  | regexMatch (subject pattern : Node) (compiled : Option Regex)
  /-- An assignment, with an operator a compound one, with a type a declaration. -/
  | assignment (target : Target) (op : Option Operator) (value : Option Node) (decl : Option Ty)
      (register : Option Nat)
  | increment (target : Target) (delta : Int64) (before : Bool)
  | ifChain (branches : List (Node × Node)) (otherwise : Option Node)
  | forEach (item : String) (itemTy : Option Ty) (subject body : Node) (site : SiteId)
  | loop (kind : LoopKind) (init cond step : Option Node) (body : Node)
  /-- Items evaluated with the target as `this`. -/
  | withItems (target : Node) (items : List Node)
  | functionDecl (function : Function)
  | call (name : String) (args : List Node)
  | newObject (creation : Creation) (site : SiteId)
  | collection (literal : CollectionLiteral) (site : SiteId)
  | group (inner : Node)
  | block (stmts : List Node) (ownScope : Bool)
  | returns (value : Option Node)
  | imports (name : String) (value : Value)
  | asserts (expr : Node) (text : String)

inductive Target where
  | name (name : String)
  | path (path : Path) (site : SiteId)

inductive Segment where
  | root (name : String)
  | this
  /-- An expression the path starts from. -/
  | base (node : Node)
  | property (name : String) (nullSafe : Bool)
  | index (index : Node) (nullSafe : Bool)
  | method (name : String) (args : List Node) (nullSafe : Bool)

structure Path where
  text : String
  span : Span
  segments : List Segment
  /-- The lengths of the text up to the end of each segment. -/
  cuts : List Nat
  line : Option Nat

/-- `[a, b]`, `{a, b}` or `['k': v]`. -/
inductive CollectionLiteral where
  | list (items : List Node)
  | array (items : List Node)
  | map (entries : List (Node × Node))

/-- `new Name(args)`. -/
structure Creation where
  className : String
  args : List Node
  span : Span

structure Function where
  id : Nat
  name : String
  params : List Param
  body : Node
  /-- Names with a fixed place in the frame of a call: parameters first, then locals as they appear. -/
  registers : List String
  /-- Names the body reads and does not own. -/
  freeVars : List String
  span : Span

end

instance : Inhabited Node := ⟨⟨default, .emptyWord⟩⟩

instance : Inhabited Path := ⟨⟨"", default, [], [], none⟩⟩

namespace Node

def span (n : Node) : Span := n.info.span

def egress (n : Node) : Ty := n.info.egress

def literal? (n : Node) : Option Value :=
  match n.kind with
  | .literal v => some v
  | _ => none

def isLiteral (n : Node) : Bool := n.literal?.isSome

end Node

namespace Function

def ref (f : Function) : FunctionRef := ⟨f.id, f.name, f.params.map (·.name)⟩

end Function

namespace Segment

def isNullSafe : Segment → Bool
  | property _ safe | index _ safe | method _ _ safe => safe
  | _ => false

/-- A step of a path that is put behind `this`. -/
def rebased : Segment → Segment
  | root name => property name false
  | s => s

end Segment

namespace Path

def length (p : Path) : Nat := p.segments.length

/-- The name, if the path is nothing else. -/
def asName? (p : Path) : Option String :=
  match p.segments with
  | [.root name] => some name
  | _ => none

/-- The first `n` segments as a path of their own. -/
def take (p : Path) (n : Nat) : Path :=
  let n := min n p.segments.length
  let cs := p.text.toList
  let cut := if n = 0 then 0 else p.cuts[n - 1]?.getD (Text.byteLength cs)
  { text := if Text.isBoundary cut cs then String.ofList (Text.takeBytes cut cs) else p.text
    span := ⟨p.span.start, p.span.start + cut⟩
    segments := p.segments.take n
    cuts := p.cuts.take n
    line := p.line }

/-- The path put behind `this`. -/
def rebased (p : Path) : Path :=
  { p with
    text := "this." ++ p.text
    segments := .this :: p.segments.map Segment.rebased
    cuts := 4 :: p.cuts.map (· + 5) }

/-- Whether a path can be assigned to: it ends in a name, a property or an index. -/
def isAssignable (p : Path) : Bool :=
  match p.segments.getLast? with
  | none | some (.method _ _ _) | some .this | some (.base _) => false
  | _ => true

end Path

namespace CollectionLiteral

def ty : CollectionLiteral → Ty
  | list _ => .list
  | array _ => .array
  | map _ => .map

def isConstant : CollectionLiteral → Bool
  | list items => items.all Node.isLiteral
  | array items => items.all Node.isLiteral
  | map entries => entries.all fun e => e.1.isLiteral && e.2.isLiteral

end CollectionLiteral

def Creation.ty (c : Creation) : Ty := (Ty.ofName? c.className).getD (.object c.className)

end PathScript

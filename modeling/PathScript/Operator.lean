import PathScript.Value.Text

/-! # Operators

Integers are exact or a fault, doubles follow their own rules, and a text on
either side of `+` makes it a concatenation. `&&`, `||` and `~=` have nodes of
their own in a program and are not computed here. -/

namespace PathScript

inductive Operator where
  | pow | mul | div | rem | add | sub | shl | shr | ushr
  | lt | gt | le | ge | instanceOf | is | contains | regexMatch
  | eq | ne | bitAnd | bitXor | bitOr | and | or
deriving DecidableEq, Inhabited

namespace Operator

/-- Binding strength; a greater one binds tighter. -/
def precedence : Operator → Nat
  | pow => 12
  | mul | div | rem => 11
  | add | sub => 10
  | shl | shr | ushr => 9
  | lt | gt | le | ge | instanceOf | is | contains | regexMatch => 8
  | eq | ne => 7
  | bitAnd => 6
  | bitXor => 5
  | bitOr => 4
  | and => 3
  | or => 2

/-- Whether equal operators group from the right. -/
def isRightAssoc : Operator → Bool
  | pow => true
  | _ => false

/-- The operators that may leave their right side alone. -/
def isLogical : Operator → Bool
  | and | or => true
  | _ => false

def isComparison : Operator → Bool
  | lt | gt | le | ge | eq | ne | instanceOf | is | contains | regexMatch => true
  | _ => false

/-- The operator written as a word. -/
def ofWord? (word : String) : Option Operator :=
  if word = "instanceof" then some instanceOf
  else if word = "is" then some is
  else if word = "contains" then some contains
  else none

def symbol : Operator → String
  | pow => "**"
  | mul => "*"
  | div => "/"
  | rem => "%"
  | add => "+"
  | sub => "-"
  | shl => "<<"
  | shr => ">>"
  | ushr => ">>>"
  | lt => "<"
  | gt => ">"
  | le => "<="
  | ge => ">="
  | instanceOf => "instanceof"
  | is => "is"
  | contains => "contains"
  | regexMatch => "~="
  | eq => "=="
  | ne => "!="
  | bitAnd => "&"
  | bitXor => "^"
  | bitOr => "|"
  | and => "&&"
  | or => "||"

def all : List Operator :=
  [pow, mul, div, rem, add, sub, shl, shr, ushr, lt, gt, le, ge, instanceOf, is, contains,
    regexMatch, eq, ne, bitAnd, bitXor, bitOr, and, or]

def ofSymbol? (s : String) : Option Operator := all.find? (·.symbol == s)

/-- The static type of a result, from the types of the operands. -/
def resultType (op : Operator) (lhs rhs : Ty) : Ty :=
  if op.isComparison || op.isLogical then .bool
  else match op with
    | add => if lhs = .str || rhs = .str then .str else lhs.promote rhs
    | sub | mul | div | rem => lhs.promote rhs
    | pow =>
      if lhs = .int && rhs = .int then .any
      else if lhs.isNumeric && rhs.isNumeric then .float
      else .any
    | shl | shr | ushr => .int
    | bitAnd | bitXor | bitOr =>
      if lhs = .bool && rhs = .bool then .bool
      else if lhs = .int && rhs = .int then .int
      else .any
    | _ => .any

/-! ## Results -/

/-- A value as an operand of integer arithmetic; a character counts as its code point. -/
def intOperand? : Value → Option Int64
  | .int n => some n
  | .char c => some (Value.charCode c)
  | _ => none

def intOperands? (lhs rhs : Value) : Option (Int64 × Int64) := do
  let a ← intOperand? lhs
  let b ← intOperand? rhs
  pure (a, b)

/-- A result in range, or an overflow. -/
def checked : Option Int64 → Except Fault Value
  | some n => .ok (.int n)
  | none => .error .overflow

def intArithmetic (op : Operator) (a b : Int64) : Except Fault Value :=
  match op with
  | add => checked (Number.add? a b)
  | sub => checked (Number.sub? a b)
  | mul => checked (Number.mul? a b)
  | div => if b = 0 then .error .divisionByZero else checked (Number.div? a b)
  | _ => if b = 0 then .error .divisionByZero else checked (Number.rem? a b)

def floatArithmetic (op : Operator) (x y : Float) : Float :=
  match op with
  | add => x + y
  | sub => x - y
  | mul => x * y
  | div => x / y
  | _ => Binary64.remainder x y

/-- The fault of operands that an operator is not made for. -/
def undefinedFor (op : Operator) (lhs rhs : Value) : Fault :=
  .undefined op.symbol lhs.typeOf.name rhs.typeOf.name

def arithmetic (op : Operator) (lhs rhs : Value) : Except Fault Value :=
  match intOperands? lhs rhs with
  | some (a, b) => op.intArithmetic a b
  | none =>
    match lhs.toFloat?, rhs.toFloat? with
    | some x, some y => .ok (.float (op.floatArithmetic x y))
    | _, _ => .error (op.undefinedFor lhs rhs)

/-- A power: of integers when the exponent is a natural number below `2^32`, else of doubles. -/
def power (lhs rhs : Value) : Except Fault Value :=
  let asFloats : Except Fault Value :=
    match lhs.toFloat?, rhs.toFloat? with
    | some x, some y => .ok (.float (Float.pow x y))
    | _, _ => .error (undefinedFor pow lhs rhs)
  match lhs, rhs with
  | .int a, .int b =>
    if 0 ≤ b.toInt ∧ b.toInt < UInt32.size then checked (Number.pow? a b.toInt.toNat) else asFloats
  | _, _ => asFloats

/-- The four relations, by the order of their operands. -/
def relation (op : Operator) (o : Ordering) : Bool :=
  match op with
  | lt => o == .lt
  | gt => o == .gt
  | le => o != .gt
  | _ => o != .lt

def shift (op : Operator) (a b : Int64) : Int64 :=
  match op with
  | shl => Number.shiftLeft a b
  | shr => Number.shiftRight a b
  | _ => Number.shiftRightZero a b

def boolBits (op : Operator) (a b : Bool) : Bool :=
  match op with
  | bitAnd => a && b
  | bitXor => a != b
  | _ => a || b

def intBits (op : Operator) (a b : Int64) : Int64 :=
  match op with
  | bitAnd => a &&& b
  | bitXor => a ^^^ b
  | _ => a ||| b

/-- Whether a value is an instance of the class of that name. -/
def isInstance (v : Value) (className : String) : Bool :=
  if v.isNull then false
  else if className = "Object" || v.typeOf.name = className then true
  else match Ty.ofName? className with
    | some .any => true
    | some t => decide (t = v.typeOf)
    | none => false

/-- Whether a container or text has a value in it; nothing is in `null`. -/
def holds (h : Heap) (lhs rhs : Value) : Option (Option Bool) :=
  match lhs with
  | .str s => do pure (some (Text.occurs s (← rhs.text h)))
  | .list a => do pure (some (← Value.memberOf h none rhs (h.list a).toList))
  | .array a => do pure (some (← Value.memberOf h none rhs (h.array a).toList))
  | .map a => do pure (some ((h.map a).contains (← rhs.text h)))
  | .null => some (some false)
  | _ => some none

def apply (op : Operator) (lhs rhs : Value) : HeapM Value :=
  let invalid : Fault := op.undefinedFor lhs rhs
  match op with
  | eq => do pure (.bool (← lhs.equals rhs))
  | ne => do pure (.bool !(← lhs.equals rhs))
  | lt | gt | le | ge =>
    match lhs.compare rhs with
    | some o => pure (.bool (op.relation o))
    | none => Run.fail invalid
  | add =>
    match lhs, rhs with
    | .str _, _ | _, .str _ => do
      let s ← lhs.display
      pure (.str (s ++ (← rhs.display)))
    | .char a, .char b => pure (.str (String.ofList [a, b]))
    | _, _ => Run.ofExcept (op.arithmetic lhs rhs)
  | sub | mul | div | rem => Run.ofExcept (op.arithmetic lhs rhs)
  | pow => Run.ofExcept (power lhs rhs)
  | shl | shr | ushr =>
    match intOperands? lhs rhs with
    | some (a, b) => pure (.int (op.shift a b))
    | none => Run.fail invalid
  | bitAnd | bitXor | bitOr =>
    match lhs, rhs with
    | .bool a, .bool b => pure (.bool (op.boolBits a b))
    | _, _ =>
      match intOperands? lhs rhs with
      | some (a, b) => pure (.int (op.intBits a b))
      | none => Run.fail invalid
  | instanceOf | is =>
    match rhs with
    | .cls c => pure (.bool (isInstance lhs c.name))
    | _ => Run.fail invalid
  | contains => do
    match ← Run.query (holds · lhs rhs) with
    | some b => pure (.bool b)
    | none => Run.fail invalid
  | regexMatch | and | or => Run.fail invalid

end Operator

inductive UnaryOp where
  | not
  | neg
deriving DecidableEq, Inhabited

namespace UnaryOp

def symbol : UnaryOp → String
  | not => "!"
  | neg => "-"

def apply : UnaryOp → Value → Except Fault Value
  | not, .bool b => .ok (.bool !b)
  | neg, .int n => Operator.checked (Number.neg? n)
  | neg, .float x => .ok (.float (-x))
  | op, v => .error (.undefined op.symbol v.typeOf.name "nothing")

end UnaryOp

end PathScript

import PathScript.Dict
import PathScript.Run
import PathScript.Table
import PathScript.Value

/-! # Faults

A fault is the cause of a failed evaluation; its wording is in one place,
`Fault.message`. An `EvalError` is a fault together with the place in the source
where it arose. -/

namespace PathScript

inductive Fault where
  /-- A name or member that nothing provides. -/
  | unresolvable (what : String)
  | nullReference (what : String)
  /-- A value that a type has no counterpart for. -/
  | coercion (source target : String)
  /-- A call that cannot be made, or that failed by itself. -/
  | invocation (member cause : String)
  /-- A condition that is neither true nor false. -/
  | nonBoolean (value : String)
  | assertion (text : String)
  | outOfBounds (index : Int64) (length : Nat)
  | arithmetic (what : String)
  /-- An operator on operands it is not made for. -/
  | undefined (op lhs rhs : String)
  | notAssignable (what : String)
  /-- Too many calls inside each other. -/
  | callDepth (limit : Nat)
deriving DecidableEq, Inhabited

namespace Fault

def message : Fault → String
  | unresolvable what => "unresolvable property or identifier: " ++ what
  | nullReference what => "null reference while accessing: " ++ what
  | coercion source target => "cannot convert " ++ source ++ " to " ++ target
  | invocation member cause => "failed to invoke " ++ member ++ ": " ++ cause
  | nonBoolean value => "condition must be a boolean, got " ++ value
  | assertion text => "assertion failed: " ++ text
  | outOfBounds index length =>
    "index " ++ toString index.toInt ++ " out of bounds for length " ++ toString length
  | arithmetic what => "arithmetic error: " ++ what
  | undefined op lhs rhs => "operator " ++ op ++ " is not defined for " ++ lhs ++ " and " ++ rhs
  | notAssignable what => "not assignable: " ++ what
  | callDepth limit => "call depth exceeded " ++ toString limit

/-- A result beyond the 64-bit range. -/
def overflow : Fault := arithmetic "integer overflow"

def divisionByZero : Fault := arithmetic "division by zero"

def arity (member : String) (expected got : Nat) : Fault :=
  invocation member ("expected " ++ toString expected ++ " arguments, got " ++ toString got)

end Fault

structure EvalError where
  fault : Fault
  offset : Nat
  line : Option Nat
  sourceName : Option String
deriving DecidableEq, Inhabited

def EvalError.message (e : EvalError) : String :=
  e.fault.message ++ " (at offset " ++ toString e.offset ++ ")"

/-! # The heap

Each kind of container has a table of its own, so a write to a list leaves all
maps as they were by construction. The cell of an object is the list of its
fields in the order of their declaration. A reference without a cell reads as
an empty container; no program can make one. -/

structure Heap where
  lists : Table (Array Value)
  arrays : Table (Array Value)
  maps : Table (Dict Value)
  objects : Table (List (String × Value))
deriving Inhabited

namespace Heap

def empty : Heap := ⟨.empty, .empty, .empty, .empty⟩

/-- How many containers there are. -/
def size (h : Heap) : Nat := h.lists.size + h.arrays.size + h.maps.size + h.objects.size

/-! ## Reading -/

def list (h : Heap) (addr : Nat) : Array Value := (h.lists.get? addr).getD #[]

def array (h : Heap) (addr : Nat) : Array Value := (h.arrays.get? addr).getD #[]

def map (h : Heap) (addr : Nat) : Dict Value := (h.maps.get? addr).getD .empty

def object (h : Heap) (addr : Nat) : List (String × Value) := (h.objects.get? addr).getD []

def field? (h : Heap) (addr : Nat) (name : String) : Option Value :=
  Entries.find? name (h.object addr)

/-- The field at a position, `null` beyond the last. -/
def fieldAt (h : Heap) (addr index : Nat) : Value :=
  (((h.object addr)[index]?).map (·.2)).getD .null

/-! ## Writing -/

def setList (h : Heap) (addr : Nat) (items : Array Value) : Heap :=
  { h with lists := h.lists.set addr items }

def setMap (h : Heap) (addr : Nat) (entries : Dict Value) : Heap :=
  { h with maps := h.maps.set addr entries }

def modifyList (h : Heap) (addr : Nat) (f : Array Value → Array Value) : Heap :=
  { h with lists := h.lists.update addr f }

def modifyArray (h : Heap) (addr : Nat) (f : Array Value → Array Value) : Heap :=
  { h with arrays := h.arrays.update addr f }

def modifyMap (h : Heap) (addr : Nat) (f : Dict Value → Dict Value) : Heap :=
  { h with maps := h.maps.update addr f }

/-- The heap while a map is being written. Until that is over the map cannot be read: it stands as one that holds itself,
which has no text. -/
def holding (h : Heap) (addr : Nat) : Heap := h.modifyMap addr fun _ => .ofList [("", .map addr)]

/-- Writes the field at a position; beyond the last nothing happens. -/
def setFieldAt (h : Heap) (addr index : Nat) (v : Value) : Heap :=
  { h with objects := h.objects.update addr fun fields => fields.modify index fun f => (f.1, v) }

def setField (h : Heap) (addr : Nat) (name : String) (v : Value) : Heap :=
  match (h.object addr).findIdx? (·.1 == name) with
  | some i => h.setFieldAt addr i v
  | none => h

/-! ## Allocation -/

def newList (items : Array Value) (h : Heap) : Value × Heap :=
  match h.lists.alloc items with
  | (addr, t) => (.list addr, { h with lists := t })

def newArray (items : Array Value) (h : Heap) : Value × Heap :=
  match h.arrays.alloc items with
  | (addr, t) => (.array addr, { h with arrays := t })

def newMap (entries : Dict Value) (h : Heap) : Value × Heap :=
  match h.maps.alloc entries with
  | (addr, t) => (.map addr, { h with maps := t })

def newObject (of : ClassRef) (fields : List (String × Value)) (h : Heap) : Value × Heap :=
  match h.objects.alloc fields with
  | (addr, t) => (.object of addr, { h with objects := t })

end Heap

abbrev HeapM := Run Heap Fault

end PathScript

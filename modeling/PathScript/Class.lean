import PathScript.Heap
import PathScript.Text

/-! # Classes

The host describes the types it exposes by classes. The bodies of methods,
constructors and free functions are computations on the heap. Values of the
language itself (texts, lists, maps, arrays) have their members through classes
as well, so that look-up and the choice between overloads are the same for all. -/

namespace PathScript

/-- A declared field; its place is its position among the fields. -/
structure FieldDef where
  name : String
  ty : Ty
deriving DecidableEq, Inhabited

/-- A method. Static methods are called with `null` as their receiver. -/
structure MethodDef where
  name : String
  params : List Ty
  returns : Ty
  isStatic : Bool
  invoke : Value → List Value → HeapM Value
deriving Inhabited

structure ConstructorDef where
  params : List Ty
  init : Value → List Value → HeapM Unit
deriving Inhabited

/-- A free function of the host. Without declared parameters it takes any arguments. -/
structure NativeFunction where
  name : String
  params : Option (List Ty)
  body : List Value → HeapM Value
deriving Inhabited

structure ClassDef where
  name : String
  fields : List FieldDef
  statics : Dict Value
  methods : List MethodDef
  constructors : List ConstructorDef
deriving Inhabited

/-- Calls a host function after checking how many arguments it gets. -/
def NativeFunction.call (f : NativeFunction) (args : List Value) : HeapM Value :=
  match f.params with
  | some params =>
    if params.length = args.length then f.body args
    else Run.fail (.arity f.name params.length args.length)
  | none => f.body args

/-- Types with a comma between them. -/
def Ty.names (types : List Ty) : String := String.intercalate ", " (types.map Ty.name)

def MethodDef.signature (m : MethodDef) : String :=
  (if m.isStatic then "static " else "") ++ m.returns.name ++ " " ++ m.name ++ "(" ++
    Ty.names m.params ++ ")"

def ConstructorDef.signature (c : ConstructorDef) : String := "new(" ++ Ty.names c.params ++ ")"

namespace ClassDef

def bare (name : String) : ClassDef := ⟨name, [], .empty, [], []⟩

def field? (c : ClassDef) (name : String) : Option FieldDef := c.fields.find? (·.name == name)

def fieldIndex? (c : ClassDef) (name : String) : Option Nat :=
  c.fields.findIdx? (·.name == name)

def static? (c : ClassDef) (name : String) : Option Value := c.statics.get? name

/-- Methods of a name and number of parameters, in the order of their declaration. -/
def methodsNamed (c : ClassDef) (name : String) (arity : Nat) (statics : Bool) : List MethodDef :=
  c.methods.filter fun m => m.name == name && m.params.length == arity && m.isStatic == statics

def hasMethod (c : ClassDef) (name : String) : Bool := c.methods.any (·.name == name)

def capitalize (word : String) : String :=
  match word.toList with
  | [] => ""
  | c :: rest => String.ofList (Text.upperChar c ++ rest)

def instanceMethod? (c : ClassDef) (name : String) (arity : Nat) : Option MethodDef :=
  c.methods.find? fun m => !m.isStatic && m.params.length == arity && m.name == name

/-- The method that reads a property: `getName`, else `isName`, else `name`, without parameters. -/
def getter? (c : ClassDef) (prop : String) : Option MethodDef :=
  ["get" ++ capitalize prop, "is" ++ capitalize prop, prop].findSome? (c.instanceMethod? · 0)

/-- The method that writes a property: `setName` with one parameter. -/
def setter? (c : ClassDef) (prop : String) : Option MethodDef :=
  c.instanceMethod? ("set" ++ capitalize prop) 1

def blankFields (c : ClassDef) : List (String × Value) :=
  c.fields.map fun f => (f.name, f.ty.default)

def instantiate (c : ClassDef) (ref : ClassRef) : HeapM Value :=
  Run.step (Heap.newObject ref c.blankFields)

def construct (c : ClassDef) (ref : ClassRef) (ctor : ConstructorDef) (args : List Value) :
    HeapM Value := do
  let instance_ ← c.instantiate ref
  ctor.init instance_ args
  pure instance_

end ClassDef

/-! ## Overloads -/

structure Resolved (σ : Type) where
  member : σ
  conformance : List Conformance

/-- How well arguments fit parameters, if they are as many and all fit. -/
def fits? (params args : List Ty) : Option (List Conformance) :=
  if params.length = args.length then
    let fit := List.zipWith Ty.conformance params args
    if fit.all Conformance.accepts then some fit else none
  else none

def totalScore (fit : List Conformance) : Nat := fit.foldl (fun total c => total + c.score) 0

/-- The better of the best candidate so far and another one: the other one only if its weight is greater. -/
def betterOf {σ : Type} (params : σ → List Ty) (args : List Ty) (best : Option (Resolved σ)) (candidate : σ) :
    Option (Resolved σ) :=
  match fits? (params candidate) args, best with
  | none, _ => best
  | some fit, none => some ⟨candidate, fit⟩
  | some fit, some b => if totalScore b.conformance < totalScore fit then some ⟨candidate, fit⟩ else best

/-- The candidate of the greatest weight, the first of several. -/
def resolveOverload {σ : Type} (params : σ → List Ty) (args : List Ty) (candidates : List σ) :
    Option (Resolved σ) := candidates.foldl (betterOf params args) none

end PathScript

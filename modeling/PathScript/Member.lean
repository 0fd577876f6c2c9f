import PathScript.Library

/-! # Members

Every way of evaluating a path comes down to these steps. A property of a map
is an entry, of an object a field or what its getter gives, of a class a
constant. An index selects an element, an entry or a character. A method is
chosen among the overloads of its name by the types of the arguments. -/

namespace PathScript

/-- What the host supplies: the definitions of classes, and conversions. -/
structure Host where
  classes : ClassTable
  converter : Converter

namespace Member

/-! ## Properties -/

def qualified (receiver : Value) (name : String) : String := receiver.typeOf.name ++ "." ++ name

def unresolvable {α : Type} (receiver : Value) (name : String) : HeapM α :=
  Run.fail (.unresolvable (qualified receiver name))

/-- The names by which the length of an array is read. -/
def isLengthName (name : String) : Bool := name = "length" || name = "size"

def readGetter (host : Host) (receiver : Value) (name : String) : HeapM Value :=
  match (host.classes.classOf? receiver).bind (·.getter? name) with
  | some getter => getter.invoke receiver []
  | none => unresolvable receiver name

def readProperty (host : Host) (receiver : Value) (name : String) (nullSafe : Bool) : HeapM Value := do
  match receiver with
  | .null => if nullSafe then pure .null else Run.fail (.nullReference name)
  | .map a => pure ((((← Run.get).map a).get? name).getD .null)
  | .object c a =>
    match (host.classes.definition c).fieldIndex? name with
    | some i => pure ((← Run.get).fieldAt a i)
    | none => readGetter host receiver name
  | .cls c =>
    match (host.classes.definition c).static? name with
    | some v => pure v
    | none => unresolvable receiver name
  | .array a =>
    if isLengthName name then pure (.ofNat ((← Run.get).array a).size) else readGetter host receiver name
  | _ => readGetter host receiver name

/-- The property of a value that may lack it. -/
def lookup? (host : Host) (receiver : Value) (name : String) : HeapM (Option Value) := do
  match receiver with
  | .map a => pure (((← Run.get).map a).get? name)
  | .object c a =>
    let d := host.classes.definition c
    match d.fieldIndex? name with
    | some i => pure (some ((← Run.get).fieldAt a i))
    | none =>
      match d.getter? name with
      | some getter => do pure (some (← getter.invoke receiver []))
      | none => pure none
  | _ => pure none

/-- Whether a value has that property and it can be written. -/
def isWritable (host : Host) (h : Heap) (receiver : Value) (name : String) : Bool :=
  match receiver with
  | .map a => (h.map a).contains name
  | .object c _ =>
    let d := host.classes.definition c
    (d.field? name).isSome || (d.setter? name).isSome
  | _ => false

def writeProperty (host : Host) (target : Value) (name : String) (v : Value) : HeapM Value := do
  match target with
  | .null => Run.fail (.nullReference name)
  | .map a =>
    Run.modify fun h => h.modifyMap a (·.insert name v)
    pure v
  | .object c a =>
    let d := host.classes.definition c
    match d.field? name, d.fieldIndex? name with
    | some field, some i =>
      let stored ← host.converter.convert v field.ty
      Run.modify fun h => h.setFieldAt a i stored
      pure stored
    | _, _ =>
      match d.setter? name with
      | some setter =>
        let stored ← host.converter.convert v (setter.params.headD .any)
        let _ ← setter.invoke target [stored]
        pure stored
      | none => Run.fail (.notAssignable (qualified target name))
  | _ => Run.fail (.notAssignable (qualified target name))

/-! ## Indices -/

/-- The number that a value is as an index. -/
def indexNumber : Value → Except Fault Int64
  | .int n => .ok n
  | .char c => .ok (Value.charCode c)
  | v => .error (.coercion v.typeOf.name Ty.int.name)

def position (index : Int64) (length : Nat) : Except Fault Nat :=
  if 0 ≤ index.toInt && index.toInt < length then .ok index.toInt.toNat
  else .error (.outOfBounds index length)

def positionOf (index : Value) (length : Nat) : Except Fault Nat := do position (← indexNumber index) length

def bracketed (index : Value) : HeapM String := do pure ("[" ++ (← index.display) ++ "]")

def readIndex (receiver index : Value) (nullSafe : Bool) : HeapM Value := do
  let element (items : Array Value) : HeapM Value := do
    let i ← Run.ofExcept (positionOf index items.size)
    pure (items[i]?.getD .null)
  match receiver with
  | .null => if nullSafe then pure .null else Run.fail (.nullReference (← bracketed index))
  | .list a => element ((← Run.get).list a)
  | .array a => element ((← Run.get).array a)
  | .map a => do
    let key ← Run.query index.key
    pure ((((← Run.get).map a).get? key).getD .null)
  | .str s => do
    let i ← Run.ofExcept (positionOf index s.length)
    pure (((s.toList[i]?).map .char).getD .null)
  | v => Run.fail (.undefined "[]" v.typeOf.name index.typeOf.name)

/-- Writes the element or entry that an index selects. The text of a key is asked for when the map is held already. -/
def writeIndex (target index v : Value) : HeapM Value := do
  match target with
  | .null => Run.fail (.nullReference (← bracketed index))
  | .list a =>
    let i ← Run.ofExcept (positionOf index ((← Run.get).list a).size)
    Run.modify fun h => h.modifyList a (·.setIfInBounds i v)
    pure v
  | .array a =>
    let i ← Run.ofExcept (positionOf index ((← Run.get).array a).size)
    Run.modify fun h => h.modifyArray a (·.setIfInBounds i v)
    pure v
  | .map a =>
    let key ← Run.query fun h => index.key (h.holding a)
    Run.modify fun h => h.modifyMap a (·.insert key v)
    pure v
  | _ => Run.fail (.notAssignable (target.typeOf.name ++ (← bracketed index)))

/-! ## Methods -/

/-- An argument converted to a parameter that it does not fit exactly. -/
def coerce (converter : Converter) (arg : Value) (param : Ty) (fit : Conformance) : HeapM Value :=
  if fit = .exact || param = .any || arg.isNull then pure arg else converter.convert arg param

def coerceArgs (converter : Converter) : List Value → List Ty → List Conformance → HeapM (List Value)
  | arg :: args, param :: params, fit :: fits => do
    let arg ← coerce converter arg param fit
    pure (arg :: (← coerceArgs converter args params fits))
  | _, _, _ => pure []

def noOverload {α : Type} (receiver : Value) (name : String) (types : List Ty) : HeapM α :=
  Run.fail (.invocation (qualified receiver name) ("no overload accepts (" ++ Ty.names types ++ ")"))

/-- The method that a call on a value with arguments of some types reaches. -/
def resolve? (classes : ClassTable) (receiver : Value) (name : String) (types : List Ty) :
    Option (Resolved MethodDef) :=
  match receiver with
  | .cls c =>
    resolveOverload MethodDef.params types ((classes.definition c).methodsNamed name types.length true)
  | _ =>
    (classes.classOf? receiver).bind fun d =>
      resolveOverload MethodDef.params types (d.methodsNamed name types.length false)

/-- Calls a method with arguments converted to its parameters. A static method has no receiver. -/
def invoke (converter : Converter) (r : Resolved MethodDef) (receiver : Value) (args : List Value) :
    HeapM Value := do
  let args ← coerceArgs converter args r.member.params r.conformance
  r.member.invoke (if r.member.isStatic then .null else receiver) args

/-- Calls a method by name. Every value can be shown and compared. -/
def call (host : Host) (receiver : Value) (name : String) (args : List Value) (nullSafe : Bool) :
    HeapM Value := do
  let types := args.map Value.typeOf
  if receiver.isNull then
    if nullSafe then pure .null else Run.fail (.nullReference (name ++ "()"))
  else
    match resolve? host.classes receiver name types with
    | some r => invoke host.converter r receiver args
    | none =>
      match receiver, name, args with
      | .cls _, _, _ => noOverload receiver name types
      | _, "toString", [] => do pure (.str (← receiver.display))
      | _, "equals", [other] => do pure (.bool (← receiver.equals other))
      | _, _, _ => noOverload receiver name types

end Member

end PathScript

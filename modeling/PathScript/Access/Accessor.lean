import PathScript.Access.Site
import PathScript.Value.Copy

/-! # Accessors

An accessor is one place of a program taken by itself, together with what is
remembered about it. It is made either with nothing remembered, or by an
optimizer, which evaluates the place for the first time. -/

namespace PathScript

inductive Accessor where
  /-- A path that is read. -/
  | path (path : Path) (cell : CellId)
  /-- A path that is written; its container is read by a cell. -/
  | assignment (path : Path) (cell : Option CellId)
  /-- A literal, with a container that is copied in place of building it, if it has one. -/
  | collection (literal : CollectionLiteral) (template : Option Value)
  | creation (creation : Creation) (site : CreationSite)

structure Optimized where
  accessor : Accessor
  value : Value

namespace Accessor

variable (ev : Evaluator)

/-! ## Making -/

/-- A path that has not been read, for the kind of reading that an optimizer uses. -/
def ofPath (f : Frame) (mode : OptimizerMode) (p : Path) : EvalM Accessor := do
  pure (.path p (← Access.newCell f mode))

/-- A path that has not been written. -/
def ofTarget (f : Frame) (mode : OptimizerMode) (p : Path) : EvalM Accessor := do
  pure (.assignment p (← Access.newContainerCell f mode p))

/-! ## Using -/

def copied (f : Frame) (v : Value) : EvalM Value := EvalM.onHeap (f.errorAt 0) v.copy

/-- Reads an accessor, and gives what it is afterwards. -/
def get (f : Frame) (a : Accessor) : EvalM (Value × Accessor) := do
  match a with
  | path p cell => do pure (← Access.read ev f p cell, a)
  | assignment p cell => do pure (← Access.readVia ev f p cell, a)
  | collection c template => do
    match template with
    | some t => do pure (← copied f t, a)
    | none => do pure (← c.build ev f, a)
  | creation c site =>
    let (v, site) ← Access.createVia ev f c (pure site)
    pure (v, creation c site)

def set (f : Frame) (v : Value) : Accessor → EvalM Value
  | path p _ => Walk.write ev f p v
  | assignment p cell => Access.writeVia ev f p cell v
  | collection _ _ => Run.fail (f.errorAt 0 (.notAssignable "collection literal"))
  | creation c _ => Run.fail (c.error f (.notAssignable ("new " ++ c.className)))

def firstGet (f : Frame) (a : Accessor) : EvalM Optimized := do
  let (v, a) ← a.get ev f
  pure ⟨a, v⟩

def firstSet (f : Frame) (a : Accessor) (v : Value) : EvalM Optimized := do
  pure ⟨a, ← a.set ev f v⟩

/-- Builds a collection literal for the first time. Of one that holds nothing but literals a copy is kept. -/
def firstBuild (f : Frame) (mode : OptimizerMode) (c : CollectionLiteral) : EvalM Optimized := do
  let v ← c.build ev f
  if mode != .safe && c.isConstant then do
    let t ← copied f v
    pure ⟨.collection c (some t), v⟩
  else pure ⟨.collection c none, v⟩

/-! ## What is known -/

def cellOf (m : Machine) (cell : CellId) : ReadCell := (m.accel.cells.get? cell).getD .safe

def egress (m : Machine) : Accessor → Ty
  | path _ cell => (cellOf m cell).egress
  | assignment _ _ => .any
  | collection c _ => c.ty
  | creation c _ => c.ty

/-- The text of an accessor for diagnosis, if it has one. -/
def debug? (m : Machine) : Accessor → Option String
  | path p cell =>
    match cellOf m cell with
    | .safe => some ("SafeAccessor(" ++ p.text ++ ")")
    | .specialized _ => some ("SpecializedAccessor(" ++ p.text ++ ")")
    | .dynamic t =>
      let tier := if t.current.isSome then "Specialized" else "Safe"
      some ("DynamicAccessor \x7b path: PathExpr(" ++ Text.quoted p.text ++ "), tier: " ++ tier ++ " \x7d")
  | creation c (.cached _) => some ("ConstructorAccessor(new " ++ c.className ++ ")")
  | _ => none

end Accessor

def Optimized.resultType (o : Optimized) (m : Machine) : Ty :=
  if o.value.isNull then o.accessor.egress m else o.value.typeOf

end PathScript

import PathScript.Machine

/-! # Walks

The general way to evaluate a path inspects the value at every step. Indices
and arguments are evaluated when their step is reached, and not at all when the
receiver is `null`. -/

namespace PathScript

/-- How nodes are evaluated; walks are defined for any such way. -/
abbrev Evaluator := Frame → Node → EvalM Value

namespace Walk

variable (ev : Evaluator)

def evalAll (f : Frame) : List Node → EvalM (List Value)
  | [] => pure []
  | n :: rest => do
    let v ← ev f n
    pure (v :: (← evalAll f rest))

/-- What a step on `null` gives. -/
def onNull (f : Frame) (path : Path) (nullSafe : Bool) (what : String) : EvalM Value :=
  if nullSafe then pure .null else Run.fail (f.errorOn path (.nullReference what))

/-- A step from a receiver: the value it leads to, and the types of the index or arguments. `pending` are arguments
that have been evaluated already. -/
def step (f : Frame) (path : Path) (segment : Segment) (receiver : Value) (pending : Option (List Value)) :
    EvalM (Value × List Ty) := do
  let located := f.errorOn path
  match segment with
  | .root name => do pure (← EvalM.onStore located (f.readName name), [])
  | .this => pure (f.this, [])
  | .base n => do pure (← ev f n, [])
  | .property name nullSafe => do
    pure (← EvalM.onHeap located (Member.readProperty f.host receiver name nullSafe), [])
  | .index n nullSafe =>
    if receiver.isNull then do pure (← onNull f path nullSafe (path.text ++ "[]"), [])
    else do
      let index ← match pending.bind List.getLast? with
        | some v => pure v
        | none => ev f n
      pure (← EvalM.onHeap located (Member.readIndex receiver index nullSafe), [index.typeOf])
  | .method name args nullSafe =>
    if receiver.isNull then do pure (← onNull f path nullSafe (name ++ "()"), [])
    else do
      let args ← match pending with
        | some vs => pure vs
        | none => evalAll ev f args
      pure (← EvalM.onHeap located (Member.call f.host receiver name args nullSafe), args.map Value.typeOf)

/-- Steps along segments: where they lead, and what was met. -/
def along (f : Frame) (path : Path) : List Segment → Value → Option (List Value) → EvalM (Value × List Observed)
  | [], receiver, _ => pure (receiver, [])
  | s :: rest, receiver, pending => do
    let (v, types) ← step ev f path s receiver pending
    let (result, seen) ← along f path rest v none
    pure (result, ⟨receiver, types⟩ :: seen)

def read (f : Frame) (path : Path) : EvalM Value := do
  pure (← along ev f path path.segments .null none).1

/-- Reads through the last segment of a path, on the value the others lead to. -/
def readLast (f : Frame) (path : Path) (receiver : Value) : EvalM Value := do
  match path.segments.getLast? with
  | some last => do pure (← step ev f path last receiver none).1
  | none => pure .null

def writeRoot (f : Frame) (path : Path) (v : Value) : EvalM Value :=
  match path.segments with
  | .root name :: _ => EvalM.onStore (f.errorOn path) (f.storeName name v none true)
  | _ => Run.fail (f.errorOn path (.notAssignable path.text))

/-- Writes through the last segment of a path, on the value the others lead to. -/
def writeLast (f : Frame) (path : Path) (target v : Value) : EvalM Value := do
  let located := f.errorOn path
  match path.segments.getLast? with
  | some (.property name nullSafe) =>
    if nullSafe && target.isNull then pure .null
    else EvalM.onHeap located (Member.writeProperty f.host target name v)
  | some (.index n nullSafe) =>
    if nullSafe && target.isNull then pure .null
    else do
      let index ← ev f n
      EvalM.onHeap located (Member.writeIndex target index v)
  | _ => Run.fail (located (.notAssignable path.text))

def write (f : Frame) (path : Path) (v : Value) : EvalM Value := do
  if path.length ≤ 1 then writeRoot f path v
  else do
    let (target, _) ← along ev f path path.segments.dropLast .null none
    writeLast ev f path target v

end Walk

end PathScript

/-! # New values

A collection literal builds a new container every time. One that holds nothing
but literals can be copied from a template instead. What a `new` expression
makes depends on the class its name stands for and on the types of its
arguments; a choice can be kept for the next time, as long as both are the same. -/

namespace PathScript

variable (ev : Evaluator)

/-! ## Collections -/

namespace CollectionLiteral

/-- The entries of a map, evaluated in order: each key before its value. -/
def evalEntries (f : Frame) : List (Node × Node) → Dict Value → EvalM (Dict Value)
  | [], entries => pure entries
  | (k, n) :: rest, entries => do
    let kv ← ev f k
    let key ← Run.query fun m => kv.key m.store.heap
    let v ← ev f n
    evalEntries f rest (entries.insert key v)

def build (c : CollectionLiteral) (f : Frame) : EvalM Value := do
  let alloc (g : Heap → Value × Heap) : EvalM Value :=
    EvalM.stepStore fun st =>
      match g st.heap with
      | (v, h) => (v, { st with heap := h })
  match c with
  | list items => do
    let vs ← Walk.evalAll ev f items
    alloc (Heap.newList vs.toArray)
  | array items => do
    let vs ← Walk.evalAll ev f items
    alloc (Heap.newArray vs.toArray)
  | map entries => do
    let d ← evalEntries ev f entries .empty
    alloc (Heap.newMap d)

end CollectionLiteral

namespace Template

def of? (h : Heap) : Value → Option Template
  | .list a => some (list (h.list a))
  | .array a => some (array (h.array a))
  | .map a => some (map (h.map a))
  | _ => none

/-- A new container with the elements of a template. -/
def stamp (t : Template) (h : Heap) : Value × Heap :=
  match t with
  | list items => h.newList items
  | array items => h.newArray items
  | map entries => h.newMap entries

end Template

/-! ## Objects -/

namespace Creation

/-- What is made where the name stands for no class with constructors. -/
def builtin (c : Creation) (types : List Ty) : Except Fault NewTarget :=
  match Ty.ofName? c.className with
  | some .list => if types.isEmpty then .ok (.builtin .list) else .error (.unresolvable c.className)
  | some .map => if types.isEmpty then .ok (.builtin .map) else .error (.unresolvable c.className)
  | some .str => if types.length ≤ 1 then .ok (.builtin .str) else .error (.unresolvable c.className)
  | _ => .error (.unresolvable c.className)

/-- What is made, for arguments of some types. -/
def target (c : Creation) (f : Frame) (st : Store) (types : List Ty) : Except Fault NewTarget :=
  match f.classNamed? st c.className with
  | none => c.builtin types
  | some cls =>
    let ctors := (f.world.classes.definition cls).constructors
    if ctors.isEmpty then c.builtin types
    else
      match resolveOverload ConstructorDef.params types ctors with
      | some chosen => .ok (.instanceOf cls chosen)
      | none =>
        .error (.invocation ("new " ++ c.className) ("no constructor accepts (" ++ Ty.names types ++ ")"))

def make (f : Frame) (args : List Value) : NewTarget → HeapM Value
  | .instanceOf cls chosen => do
    let args ← Member.coerceArgs f.runtime.converter args chosen.member.params chosen.conformance
    (f.world.classes.definition cls).construct cls chosen.member args
  | .builtin .list => Run.step (Heap.newList #[])
  | .builtin .map => Run.step (Heap.newMap .empty)
  | .builtin _ => do
    match args with
    | [] => pure (.str "")
    | v :: _ => do pure (.str (← v.display))

def error (c : Creation) (f : Frame) : Fault → EvalError := f.errorAt c.span.start

/-- Evaluates the expression, and gives what it has chosen for which types. -/
def construct (c : Creation) (f : Frame) : EvalM (Value × List Ty × NewTarget) := do
  let args ← Walk.evalAll ev f c.args
  let types := args.map Value.typeOf
  let target ← EvalM.onStore (c.error f) (do Run.ofExcept (c.target f (← Run.get) types))
  let v ← EvalM.onHeap (c.error f) (make f args target)
  pure (v, types, target)

/-- Whether the name still stands for what a choice was made for. -/
def isCurrent (c : Creation) (f : Frame) (st : Store) : NewTarget → Bool
  | .instanceOf cls _ => f.classNamed? st c.className == some cls
  | .builtin _ =>
    match f.classNamed? st c.className with
    | some cls => (f.world.classes.definition cls).constructors.isEmpty
    | none => true

end Creation

end PathScript

/-! # Running units

A unit runs its steps as long as their guards hold. At the first step whose
guard fails, or whose arguments are of other types, the general walk takes over
from there, with the arguments that were evaluated already. -/

namespace PathScript

inductive Probe where
  | hit (v : Value)
  /-- The walk has to go on from here; arguments that were evaluated are passed on. -/
  | miss (pending : Option (List Value))

namespace SpecializedUnit

variable (ev : Evaluator)

def readPrepared (receiver : Value) : PropertyRead → HeapM Value
  | .entry name => do
    match receiver with
    | .map a => pure ((((← Run.get).map a).get? name).getD .null)
    | _ => pure .null
  | .field i => do
    match receiver with
    | .object _ a => pure ((← Run.get).fieldAt a i)
    | _ => pure .null
  | .getter m => m.invoke receiver []
  | .constant v => pure v
  | .length => do pure (.ofNat ((receiver.length? (← Run.get)).getD 0))

/-- An element or entry, if the index selects one without further ado. -/
def indexPrepared? (receiver index : Value) : HeapM (Option Value) := do
  match receiver, index with
  | .list a, .int n =>
    let items := (← Run.get).list a
    pure ((Member.position n items.size).toOption.bind (items[·]?))
  | .array a, .int n =>
    let items := (← Run.get).array a
    pure ((Member.position n items.size).toOption.bind (items[·]?))
  | .map a, _ => do
    let key ← Run.query index.key
    pure (some ((((← Run.get).map a).get? key).getD .null))
  | _, _ => pure none

/-- Tries a prepared step of a path. -/
def probe (f : Frame) (path : Path) (prepared : UnitStep) (segment : Segment) (receiver : Value) : EvalM Probe := do
  let located := f.errorOn path
  match prepared with
  | .general => do pure (.hit (← Walk.step ev f path segment receiver none).1)
  | .this => pure (.hit f.this)
  | .property guard read =>
    if guard.holds receiver then do pure (.hit (← EvalM.onHeap located (readPrepared receiver read)))
    else pure (.miss none)
  | .index guard =>
    match guard.holds receiver, segment with
    | true, .index n _ => do
      let index ← ev f n
      match ← EvalM.onHeap located (indexPrepared? receiver index) with
      | some v => pure (.hit v)
      | none => pure (.miss (some [index]))
    | _, _ => pure (.miss none)
  | .method guard chosen types =>
    match guard.holds receiver, segment with
    | true, .method _ args _ => do
      let args ← Walk.evalAll ev f args
      if args.map Value.typeOf = types then do
        pure (.hit (← EvalM.onHeap located (Member.invoke f.runtime.converter chosen receiver args)))
      else pure (.miss (some args))
    | _, _ => pure (.miss none)

def runSteps (f : Frame) (path : Path) : List UnitStep → List Segment → Value → EvalM Value
  | prepared :: steps, s :: rest, receiver => do
    match ← probe ev f path prepared s receiver with
    | .hit v => runSteps f path steps rest v
    | .miss pending => do pure (← Walk.along ev f path (s :: rest) receiver pending).1
  | _, rest, receiver => do pure (← Walk.along ev f path rest receiver none).1

/-- The value of a path, by a unit. One of another length is of no use. -/
def run (u : SpecializedUnit) (f : Frame) (path : Path) : EvalM Value :=
  if path.length = u.steps.length then runSteps ev f path u.steps path.segments .null
  else Walk.read ev f path

/-- The value of a path, and a unit for what was met on the way with its generation. There is none if making one
evicted all of them. -/
def make (f : Frame) (path : Path) : EvalM (Value × Option (SpecializedUnit × Nat)) := do
  let (v, trace) ← Walk.along ev f path path.segments .null none
  let key := keyOf path trace v
  let found ← EvalM.stepAccel fun a =>
    match a.registry.provide key fun _ => generate f.world.classes key path trace v with
    | (found, r) => (found, { a with registry := r })
  pure (v, found)

end SpecializedUnit

end PathScript

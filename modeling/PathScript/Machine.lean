import PathScript.Access.Unit
import PathScript.Scope

/-! # The machine

Evaluation reads a frame, which says what is evaluated for whom, and changes
the machine: the store, and apart from it what accelerated evaluation remembers
about places in programs. Nothing that is remembered may change an answer. -/

namespace PathScript

/-! ## Configuration -/

inductive OptimizerMode where
  | safe
  | specializing
  | dynamic
deriving DecidableEq, Inhabited

/-- Where a name goes that is assigned but not declared. -/
inductive BlockScoping where
  /-- Into the innermost scope. -/
  | local
  /-- Into the nearest function frame or the variables of the caller. -/
  | promote
deriving DecidableEq, Inhabited

structure Config where
  optimizer : OptimizerMode
  /-- How many readings of a path in a window make it hot when exceeded. -/
  tenuringThreshold : Nat
  /-- The length of a window in milliseconds. -/
  timeSpan : Nat
  tenureCeiling : Nat
  blockScoping : BlockScoping
  maxCallDepth : Nat
  cacheCapacity : Nat
deriving DecidableEq

namespace Config

def standard : Config := ⟨.dynamic, 50, 100, 4096, .local, 128, 1024⟩

instance : Inhabited Config := ⟨standard⟩

end Config

/-! ## Frames -/

inductive Mode where
  | interpreted
  | accelerated
deriving DecidableEq, Inhabited

/-- What programs can refer to by number. -/
structure World where
  classes : ClassTable
  natives : Array NativeFunction
  functions : Array Function
  /-- The time in milliseconds at the first, second, … look at the clock. -/
  clock : Nat → Nat

/-- What all evaluations of a program share. -/
structure Runtime where
  config : Config
  converter : Converter
  library : ClassLibrary
  sourceName : Option String
  /-- Names bound in every evaluation. -/
  imports : Dict Value

/-- What is evaluated for whom. -/
structure Frame where
  world : World
  runtime : Runtime
  /-- The context: names that no scope has are read from it. -/
  ctx : Value
  this : Value
  scope : Chain
  /-- The scopes a function body sees besides its own. -/
  root : Chain
  mode : Mode
  watched : Bool
  depth : Nat

namespace Frame

def host (f : Frame) : Host := ⟨f.world.classes, f.runtime.converter⟩

def isInterpreted (f : Frame) : Bool := f.mode == .interpreted

def errorAt (f : Frame) (offset : Nat) (fault : Fault) : EvalError := ⟨fault, offset, none, f.runtime.sourceName⟩

def errorIn (f : Frame) (info : Info) (fault : Fault) : EvalError :=
  ⟨fault, info.span.start, info.line, f.runtime.sourceName⟩

def errorOn (f : Frame) (path : Path) (fault : Fault) : EvalError :=
  ⟨fault, path.span.start, path.line, f.runtime.sourceName⟩

end Frame

/-! ## What accelerated evaluation remembers -/

/-- A path that becomes specialised when it is read often. -/
structure TierState where
  /-- The unit in use and the generation it belongs to. -/
  current : Option (SpecializedUnit × Nat)
  /-- How often the path was read in the current window. -/
  count : Nat
  windowStart : Nat
  /-- Whether a specialisation is under way. -/
  promoting : Bool

/-- A path that is specialised when it is first read. -/
inductive UnitState where
  | pending
  | specializing
  | ready (unit : SpecializedUnit) (generation : Nat)
  /-- The unit is gone, and no other is made. -/
  | retired

inductive ReadCell where
  | safe
  | specialized (state : UnitState)
  | dynamic (state : TierState)

instance : Inhabited ReadCell := ⟨.safe⟩

/-- The elements of a literal that holds nothing but literals. -/
inductive Template where
  | list (items : Array Value)
  | array (items : Array Value)
  | map (entries : Dict Value)

/-- What a `new` expression makes. -/
inductive NewTarget where
  | instanceOf (cls : ClassRef) (chosen : Resolved ConstructorDef)
  /-- A list, a map or a text. -/
  | builtin (ty : Ty)

inductive CreationSite where
  | plain
  /-- The last choice, and the types of the arguments it was made for. -/
  | cached (last : Option (List Ty × NewTarget))

/-- What a `foreach` goes over. -/
inductive IterShape where
  | list
  | array
  | chars
  /-- A number `n` stands for `1` to `n`. -/
  | range
  | mapKeys
deriving DecidableEq, Inhabited

/-- What a value is as the subject of a `foreach`. -/
def IterShape.of? : Value → Option IterShape
  | .list _ => some list
  | .array _ => some array
  | .str _ => some chars
  | .int _ => some range
  | .map _ => some mapKeys
  | _ => none

abbrev CellId := Nat

structure Accelerator where
  cells : Table ReadCell
  /-- For a path that is read, its cell. -/
  reads : Sparse CellId
  /-- For a path that is written, the cell of the path of its container. -/
  writes : Sparse (Option CellId)
  collections : Sparse (Option Template)
  creations : Sparse CreationSite
  shapes : Sparse IterShape
  registry : UnitRegistry SpecializedUnit
  /-- How often the clock was looked at. -/
  ticks : Nat
deriving Inhabited

def Accelerator.fresh (ceiling : Nat) : Accelerator :=
  ⟨.empty, .empty, .empty, .empty, .empty, .empty, .new ceiling, 0⟩

/-! ## Machines -/

/-- A statement that was about to be evaluated, and the state at that moment. -/
structure StepEvent where
  sourceName : Option String
  line : Nat
  scope : Chain
  store : Store

def StepEvent.lookup? (e : StepEvent) (name : String) : Option Value := e.store.lookup? e.scope name

structure Machine where
  store : Store
  accel : Accelerator
  /-- What the current activation returns, once a `return` has been evaluated. -/
  returned : Option Value
  events : List StepEvent

namespace Machine

def start (ceiling : Nat) : Machine := ⟨.empty, .fresh ceiling, none, []⟩

instance : Inhabited Machine := ⟨start 0⟩

/-- The store, and the machine around it. -/
@[always_inline, inline]
def splitStore : Machine → Store × (Store → Machine)
  | ⟨store, accel, returned, events⟩ => (store, fun st => ⟨st, accel, returned, events⟩)

/-- What is remembered, and the machine around it. -/
@[always_inline, inline]
def splitAccel : Machine → Accelerator × (Accelerator → Machine)
  | ⟨store, accel, returned, events⟩ => (accel, fun a => ⟨store, a, returned, events⟩)

end Machine

abbrev EvalM := Run Machine EvalError

namespace EvalM

/-- Runs a computation over the store; a fault becomes an error. -/
@[inline] def onStore {α : Type} (locate : Fault → EvalError) (x : StoreM α) : EvalM α :=
  Run.zoom Machine.splitStore (Run.mapError locate x)

/-- Runs a computation over the heap; a fault becomes an error. -/
@[inline] def onHeap {α : Type} (locate : Fault → EvalError) (x : HeapM α) : EvalM α :=
  onStore locate (Store.onHeap x)

@[inline] def stepStore {α : Type} (f : Store → α × Store) : EvalM α :=
  Run.zoom Machine.splitStore (Run.step f)

@[inline] def stepAccel {α : Type} (f : Accelerator → α × Accelerator) : EvalM α :=
  Run.zoom Machine.splitAccel (Run.step f)

@[inline] def modifyAccel (f : Accelerator → Accelerator) : EvalM Unit := stepAccel fun a => ((), f a)

@[inline] def accel : EvalM Accelerator := do pure (← Run.get).accel

def now (f : Frame) : EvalM Nat :=
  stepAccel fun a => (f.world.clock a.ticks, { a with ticks := a.ticks + 1 })

/-- Reports a statement, if statements are reported and its line is known. -/
def report (f : Frame) (info : Info) : EvalM Unit :=
  match f.watched, info.line with
  | true, some line =>
    Run.modify fun m => { m with events := ⟨f.runtime.sourceName, line, f.scope, m.store⟩ :: m.events }
  | _, _ => pure ()

end EvalM

end PathScript

/-! # Bare names

A name is looked up in the scopes, then among the properties of `this`, then
among those of the context, and last among the classes of the library. It is
stored where it is found in the first three; a name that is found nowhere makes
a new binding. -/

namespace PathScript.Frame

/-- Receivers whose properties can be named without them. -/
def receivers (f : Frame) : List Value := [f.this, f.ctx]

/-- A property of the first receiver that has it. -/
def lookupReceivers (f : Frame) (name : String) : List Value → HeapM (Option Value)
  | [] => pure none
  | r :: rest => do
    match ← Member.lookup? f.host r name with
    | some v => pure (some v)
    | none => lookupReceivers f name rest

def readName (f : Frame) (name : String) : StoreM Value := do
  match (← Run.get).lookup? f.scope name with
  | some v => pure v
  | none =>
    match ← Store.onHeap (f.lookupReceivers name f.receivers) with
    | some v => pure v
    | none =>
      match f.runtime.library.get? name with
      | some c => pure (.cls c)
      | none => Run.fail (.unresolvable name)

/-- The first receiver on which a property can be written. -/
def writableReceiver? (f : Frame) (h : Heap) (name : String) : Option Value :=
  f.receivers.find? (Member.isWritable f.host h · name)

/-- Writes a property of `this` or of the context, if one of them has it. With `insert` a name that neither has is
added to a context that is a map. -/
def writeReceiver (f : Frame) (name : String) (v : Value) (insert : Bool) : HeapM (Option Value) := do
  match f.writableReceiver? (← Run.get) name with
  | some r => do pure (some (← Member.writeProperty f.host r name v))
  | none =>
    match insert, f.ctx with
    | true, .map a =>
      Run.modify fun h => h.modifyMap a (·.insert name v)
      pure (some v)
    | _, _ => pure none

/-- Where a name is bound that nothing has yet. -/
def bindingChain (f : Frame) (st : Store) : Chain :=
  match f.runtime.config.blockScoping with
  | .local => f.scope
  | .promote => st.nearestTarget f.scope

/-- Stores a value under a name and gives what was stored. -/
def storeName (f : Frame) (name : String) (v : Value) (register : Option Nat) (insert : Bool) : StoreM Value := do
  match (← Run.get).resolve? f.scope name with
  | some slot => Store.assign f.runtime.converter slot v
  | none =>
    match ← Store.onHeap (f.writeReceiver name v insert) with
    | some stored => pure stored
    | none =>
      let _ ← Run.step fun st => st.createIn (f.bindingChain st) name ⟨v, none⟩ register
      pure v

/-- Calls a method of `this` or of the context by its bare name, or a host function in one that is a map. -/
def callReceivers (f : Frame) (name : String) (args : List Value) : List Value → HeapM Value
  | [] => Run.fail (.unresolvable (name ++ "()"))
  | r :: rest => do
    match r with
    | .null => callReceivers f name args rest
    | .map a =>
      match ((← Run.get).map a).get? name with
      | some (.native ref) => do
        match f.world.natives[ref.id]? with
        | some native => native.call args
        | none => callReceivers f name args rest
      | _ => callReceivers f name args rest
    | _ =>
      if (f.world.classes.classOf? r).any (·.hasMethod name) then Member.call f.host r name args false
      else callReceivers f name args rest

/-- The class that a name stands for: what the scopes bind it to, else the one of the library. -/
def classNamed? (f : Frame) (st : Store) (name : String) : Option ClassRef :=
  match st.lookup? f.scope name with
  | some (.cls c) => some c
  | _ => f.runtime.library.get? name

end PathScript.Frame

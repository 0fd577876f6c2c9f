import PathScript.Access.Site

/-! # Control

A `return` is noted in the machine; blocks look for it after every statement,
loops after every run of their body. The value of a block is that of its last
statement. -/

namespace PathScript.Eval

variable (ev : Evaluator)

/-- Whether a `return` of the current activation has been evaluated. -/
def hasReturned : EvalM Bool := do pure (← Run.get).returned.isSome

def setReturn (v : Value) : EvalM Unit := Run.modify fun m => { m with returned := some v }

def condition (f : Frame) (n : Node) : EvalM Bool := do
  match ← ev f n with
  | .bool b => pure b
  | v =>
    let text ← Run.query fun m => v.text m.store.heap
    Run.fail (f.errorIn n.info (.nonBoolean (text ++ " (" ++ v.typeOf.name ++ ")")))

/-- Statements in order, up to a `return`. -/
def statements (f : Frame) : List Node → Value → EvalM Value
  | [], last => pure last
  | n :: rest, _ => do
    EvalM.report f n.info
    let v ← ev f n
    if ← hasReturned then pure v else statements f rest v

/-- The frame with a new scope in front. -/
def inScope (f : Frame) (kind : ScopeKind) (cells : List (String × Option SlotId)) : EvalM Frame := do
  let chain ← EvalM.stepStore fun st => st.push kind cells f.scope
  pure { f with scope := chain }

def block (f : Frame) (stmts : List Node) (ownScope : Bool) : EvalM Value := do
  let f ← if ownScope then inScope f .block [] else pure f
  statements ev f stmts .void

/-- A node whose block, if it is one, gets no scope of its own. -/
def unscoped (f : Frame) (n : Node) : EvalM Value :=
  match n.kind with
  | .block stmts _ => statements ev f stmts .void
  | _ => ev f n

def ifChain (f : Frame) (otherwise : Option Node) : List (Node × Node) → EvalM Value
  | [] =>
    match otherwise with
    | some n => ev f n
    | none => pure .void
  | (cond, n) :: rest => do if ← condition ev f cond then ev f n else ifChain f otherwise rest

/-! ## Loops over a condition -/

def goesOn (f : Frame) (kind : LoopKind) (cond : Option Node) : EvalM Bool := do
  let holds ← match cond with
    | some n => condition ev f n
    | none => pure true
  pure (if kind = .untilLoop || kind = .doUntil then !holds else holds)

/-- A node that may be missing, for its effects. -/
def perform (f : Frame) : Option Node → EvalM Unit
  | some n => do let _ ← ev f n
  | none => pure ()

/-- A loop from its body on; `fuel` bounds how often the body runs. -/
def iterate (f : Frame) (kind : LoopKind) (cond step : Option Node) (body : Node) : Nat → EvalM Value
  | 0 => Run.never
  | fuel + 1 => do
    let _ ← ev f body
    if ← hasReturned then pure .void
    else do
      perform ev f step
      if ← goesOn ev f kind cond then iterate f kind cond step body fuel else pure .void

/-- A loop that has been set up. One that tests behind its body runs it at least once. -/
def turns (fuel : Nat) (f : Frame) (kind : LoopKind) (cond step : Option Node) (body : Node) : EvalM Value := do
  if kind = .doWhile || kind = .doUntil then iterate ev f kind cond step body fuel
  else if ← goesOn ev f kind cond then iterate ev f kind cond step body fuel
  else pure .void

def loop (fuel : Nat) (f : Frame) (kind : LoopKind) (init cond step : Option Node) (body : Node) : EvalM Value := do
  let f ← if kind = .forLoop then inScope f .block [] else pure f
  perform ev f init
  turns ev fuel f kind cond step body

/-! ## Loops over items -/

def items (h : Heap) : Value → List Value
  | .list a => (h.list a).toList
  | .array a => (h.array a).toList
  | .str s => s.toList.map .char
  | .map a => (h.map a).keys.map .str
  | _ => []

/-- How the items of a loop are bound, and what is done with each. -/
structure Each where
  frame : Frame
  info : Info
  item : String
  ty : Option Ty
  body : Node

namespace Each

/-- Runs the body for an item, in a scope of its own. -/
def runItem (e : Each) (v : Value) : EvalM Unit := do
  let v ← match e.ty with
    | some ty => EvalM.onHeap (e.frame.errorIn e.info) (e.frame.runtime.converter.convert v ty)
    | none => pure v
  let slot ← EvalM.stepStore fun st => st.newSlot (.of v e.ty)
  let f ← inScope e.frame .item [(e.item, some slot)]
  let _ ← unscoped ev f e.body

def overItems (e : Each) : List Value → EvalM Value
  | [] => pure .void
  | v :: rest => do
    e.runItem ev v
    if ← hasReturned then pure .void else overItems e rest

/-- The last `left` of the numbers from 1 to `n`, up to a `return`. -/
def overRange (e : Each) (n : Nat) : Nat → EvalM Value
  | 0 => pure .void
  | left + 1 => do
    e.runItem ev (.ofNat (n - left))
    if ← hasReturned then pure .void else overRange e n left

/-- The items of a subject of some shape. -/
def run (e : Each) (subject : Value) : EvalM Value := do
  match subject with
  | .int n => e.overRange ev n.toInt.toNat n.toInt.toNat
  | v => e.overItems ev (items (← Run.get).store.heap v)

end Each

/-- The shape of a subject. In accelerated evaluation the first one met at a loop is remembered. -/
def shapeOf (f : Frame) (site : SiteId) (subject : Value) : EvalM (Option IterShape) := do
  let detected := IterShape.of? subject
  if f.isInterpreted then pure detected
  else
    match (← EvalM.accel).shapes.get? site with
    | some known => pure (if detected = some known then some known else detected)
    | none =>
      match detected with
      | some shape => EvalM.modifyAccel fun a => { a with shapes := a.shapes.set site shape }
      | none => pure ()
      pure detected

/-- A loop over items; `null` has none. -/
def forEach (f : Frame) (info : Info) (item : String) (ty : Option Ty) (subject body : Node) (site : SiteId) :
    EvalM Value := do
  let v ← ev f subject
  if v.isNull then pure .void
  else
    match ← shapeOf f site v with
    | some _ => Each.run ev ⟨f, info, item, ty, body⟩ v
    | none => Run.fail (f.errorIn info (.undefined "foreach" v.typeOf.name "iteration"))

/-! ## With -/

def sequence (f : Frame) : List Node → EvalM Unit
  | [] => pure ()
  | n :: rest => do
    let _ ← ev f n
    sequence f rest

/-- Items with a value as `this`; the result is that value. -/
def withItems (f : Frame) (target : Node) (items : List Node) : EvalM Value := do
  let v ← ev f target
  if v.isNull then Run.fail (f.errorIn target.info (.nullReference "with target"))
  else do
    sequence ev { f with this := v } items
    pure v

/-! # Calls

The body of a function runs in a frame of its own whose only outer scopes are
those of the whole evaluation, so that a call neither sees nor changes the
locals of its caller. -/

/-- Binds arguments to parameters, from a register on. -/
def bindParams (f : Frame) (info : Info) (chain : Chain) : Nat → List Param → List Value → EvalM Unit
  | i, p :: params, v :: args => do
    let v ← match p.ty with
      | some ty => EvalM.onHeap (f.errorIn info) (f.runtime.converter.convert v ty)
      | none => pure v
    let _ ← EvalM.stepStore fun st => st.createAt chain i p.name (.of v p.ty)
    bindParams f info chain (i + 1) params args
  | _, _, _ => pure ()

/-- Runs an activation: a `return` inside it ends it and gives its value, and one outside it is kept, also if the
activation fails. -/
def activation (x : EvalM Value) : EvalM Value := do
  let outer := (← Run.get).returned
  Run.modify fun m => { m with returned := none }
  let v ← x.onError fun m => { m with returned := outer }
  let returned := (← Run.get).returned
  Run.modify fun m => { m with returned := outer }
  pure (returned.getD v)

def callFunction (f : Frame) (info : Info) (fn : Function) (args : List Value) : EvalM Value := do
  if args.length = fn.params.length then do
    let chain ← EvalM.stepStore fun st => st.push .indexed (fn.registers.map fun name => (name, none)) f.root
    bindParams f info chain 0 fn.params args
    if f.runtime.config.maxCallDepth < f.depth + 1 then
      Run.fail (f.errorIn info (.callDepth f.runtime.config.maxCallDepth))
    else activation (unscoped ev { f with scope := chain, depth := f.depth + 1 } fn.body)
  else Run.fail (f.errorIn info (.arity fn.name fn.params.length args.length))

/-- A call by name: of what the scopes bind the name to, else of a method of `this` or the context. -/
def call (f : Frame) (info : Info) (name : String) (args : List Node) : EvalM Value := do
  let args ← Walk.evalAll ev f args
  let located := f.errorIn info
  let notCallable (v : Value) : EvalM Value :=
    Run.fail (located (.invocation name (v.typeOf.name ++ " is not callable")))
  match (← Run.get).store.lookup? f.scope name with
  | none => EvalM.onHeap located (f.callReceivers name args f.receivers)
  | some v =>
    match v with
    | .function ref =>
      match f.world.functions[ref.id]? with
      | some fn => callFunction ev f info fn args
      | none => notCallable v
    | .native ref =>
      match f.world.natives[ref.id]? with
      | some native => EvalM.onHeap located (native.call args)
      | none => notCallable v
    | v => notCallable v

/-! # Assignments

A compound assignment reads its target, then evaluates its value, and writes
only when the operator has succeeded. A declaration always makes a new binding
in the current scope. -/

/-- The current value of a target. -/
def readTarget (f : Frame) (info : Info) : Target → EvalM Value
  | .name name => EvalM.onStore (f.errorIn info) (f.readName name)
  | .path path site => Access.readForUpdate ev f path site

def writeTarget (f : Frame) (info : Info) (register : Option Nat) (v : Value) : Target → EvalM Value
  | .name name => EvalM.onStore (f.errorIn info) (f.storeName name v register false)
  | .path path site => Access.writePath ev f path site v

def applyOperator (f : Frame) (info : Info) (op : Operator) (lhs rhs : Value) : EvalM Value :=
  EvalM.onHeap (f.errorIn info) (op.apply lhs rhs)

def declare (f : Frame) (info : Info) (name : String) (ty : Ty) (value : Option Node) (register : Option Nat) :
    EvalM Value := do
  let ty := ty.known?
  let v ← match value with
    | some n => ev f n
    | none => pure ((ty.map Ty.default).getD .null)
  let v ← match ty with
    | some ty => EvalM.onHeap (f.errorIn info) (f.runtime.converter.convert v ty)
    | none => pure v
  let _ ← EvalM.stepStore fun st => st.createIn f.scope name (.of v ty) register
  pure v

def assign (f : Frame) (info : Info) (target : Target) (op : Option Operator) (value : Option Node)
    (register : Option Nat) : EvalM Value := do
  let v ← match op, value with
    | some op, some n => do
      let current ← readTarget ev f info target
      let rhs ← ev f n
      applyOperator f info op current rhs
    | none, some n => ev f n
    | _, none => pure .null
  writeTarget ev f info register v target

def assignment (f : Frame) (info : Info) (target : Target) (op : Option Operator) (value : Option Node)
    (decl : Option Ty) (register : Option Nat) : EvalM Value :=
  match decl, target with
  | some ty, .name name => declare ev f info name ty value register
  | _, _ => assign ev f info target op value register

/-- `++` and `--`: the value is the new one before the target, the old one behind it. -/
def increment (f : Frame) (info : Info) (target : Target) (delta : Int64) (before : Bool) : EvalM Value := do
  let current ← readTarget ev f info target
  let next ← applyOperator f info .add current (.int delta)
  let stored ← writeTarget ev f info none next target
  pure (if before then stored else current)

end PathScript.Eval

/-! # Evaluation

The meaning of a node is given in terms of a meaning of its parts, and the two
are tied together by fuel: with fuel `n + 1` a node is evaluated with its parts
at fuel `n`, and a literal, which has no parts, needs none. Evaluation that runs
out of fuel has no answer, which is kept apart from every error. -/

namespace PathScript

namespace Eval

/-- Whether a text matches a pattern that is evaluated and compiled now. -/
def matchPattern (ev : Evaluator) (f : Frame) (info : Info) (pattern : Node) (text : String) : EvalM Value := do
  let p ← ev f pattern
  let p ← Run.query fun m => p.text m.store.heap
  match Regex.whole p with
  | .ok r => pure (.bool (r.isMatch text))
  | .error e => Run.fail (f.errorIn info (.invocation "~=" e.message))

/-- `subject ~= pattern`. A pattern that was compiled with the program is not evaluated again. -/
def regexMatch (ev : Evaluator) (f : Frame) (info : Info) (subject pattern : Node) (compiled : Option Regex) :
    EvalM Value := do
  let v ← ev f subject
  if v.isNull then pure (.bool false)
  else do
    let text ← Run.query fun m => v.text m.store.heap
    match f.mode, compiled with
    | .accelerated, some r => pure (.bool (r.isMatch text))
    | _, _ => matchPattern ev f info pattern text

/-- A node, in terms of its parts. -/
def step (ev : Evaluator) (fuel : Nat) : Evaluator := fun f n => do
  let located := f.errorIn n.info
  match n.kind with
  | .literal v => pure v
  | .emptyWord => pure .null
  | .property path site => Access.readPath ev f path site
  | .unary op operand => do
    let v ← ev f operand
    EvalM.onHeap located (Run.ofExcept (op.apply v))
  | .binary op lhs rhs => do
    let l ← ev f lhs
    let r ← ev f rhs
    applyOperator f n.info op l r
  | .and lhs rhs => do
    if ← condition ev f lhs then do pure (.bool (← condition ev f rhs)) else pure (.bool false)
  | .or lhs rhs => do
    if ← condition ev f lhs then pure (.bool true) else do pure (.bool (← condition ev f rhs))
  | .ternary cond yes no => do if ← condition ev f cond then ev f yes else ev f no
  | .emptyTest subject negate => do
    let v ← ev f subject
    pure (.bool (v.isEmpty (← Run.get).store.heap != negate))
  | .regexMatch subject pattern compiled => regexMatch ev f n.info subject pattern compiled
  | .assignment target op value decl register => assignment ev f n.info target op value decl register
  | .increment target delta before => increment ev f n.info target delta before
  | .ifChain branches otherwise => ifChain ev f otherwise branches
  | .forEach item ty subject body site => forEach ev f n.info item ty subject body site
  | .loop kind init cond step body => loop ev fuel f kind init cond step body
  | .withItems target items => withItems ev f target items
  | .functionDecl fn => do
    let _ ← EvalM.stepStore fun st => st.create f.scope fn.name ⟨.function fn.ref, none⟩
    pure .void
  | .call name args => call ev f n.info name args
  | .newObject creation site => Access.create ev f creation site
  | .collection literal site => Access.buildCollection ev f literal site
  | .group inner => ev f inner
  | .block stmts ownScope => block ev f stmts ownScope
  | .returns value => do
    let v ← match value with
      | some n => ev f n
      | none => pure .void
    setReturn v
    pure v
  | .imports name v => do
    let _ ← EvalM.stepStore fun st => st.importInto f.scope name v
    pure .void
  | .asserts expr text => do
    if ← condition ev f expr then pure (.bool true) else Run.fail (located (.assertion text))

/-- A node, with fuel. A literal has no parts and needs none. -/
def node : Nat → Evaluator
  | 0 => fun _ n =>
    match n.kind with
    | .literal v => pure v
    | _ => Run.never
  | fuel + 1 => step (node fuel) fuel

def program (fuel : Nat) (f : Frame) (root : Node) : EvalM Value := activation (unscoped (node fuel) f root)

end Eval

end PathScript
